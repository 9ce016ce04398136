import AgentRules.Analysis.Collector
import AgentRules.Analysis.Matches
import AgentRules.Index.CompiledLibrary

/-! # Analysing a tree

While the tree is announced, every announcement is turned into keys: its path, and where such keys
exist its path with the value and with the heads of the value. The actions of a key walk their
chains from the node. A session counts the matches of each action, keeps the first value of each,
and remembers which rules were touched.

At the end the touched rules are evaluated, and with them those that can hold untouched, in the
order in which they were declared. -/

namespace AgentRules

/-- What has been found so far. -/
structure Session where
  /-- The number of matches of each action. -/
  hits : Array Nat
  /-- The first value that each action that extracts has found. -/
  extracted : Array (Option String)
  /-- Whether each rule has been touched. -/
  isTouched : Array Bool
  /-- The touched rules, the last one first. -/
  touched : List Nat := []
  matched : Matches

/-- The outcome of an analysis. -/
structure Report where
  /-- What is written, in order. -/
  writes : List Offer
  /-- How many rules were touched. -/
  touched : Nat
  /-- How many rules held. -/
  fired : Nat
  collisions : List Collision
  matched : Matches
deriving Repr, DecidableEq

namespace Session

/-- The session before the first announcement. -/
def start (l : CompiledLibrary) (keep : Bool) : Session where
  hits := Array.replicate l.actions.size 0
  extracted := Array.replicate l.actions.size none
  isTouched := Array.replicate l.rules.size false
  matched := { capacity := l.capacity, keep }

/-! ### Dispatching a key -/

def note (s : Session) (id : Nat) (role : Role) (value : String) : Session :=
  match role with
  | .require _ => { s with hits := s.hits.modify id (· + 1) }
  | .extract _ _ => { s with extracted := s.extracted.modify id fun v => v.or (some value) }

def touch (s : Session) (rule : Nat) : Session :=
  if s.isTouched[rule]?.getD true then s
  else { s with isTouched := s.isTouched.modify rule fun _ => true, touched := rule :: s.touched }

/-- Walks the chain of an action and notes the match, if there is one. -/
def tryAction (l : CompiledLibrary) (t : SyntaxTree) (key value : String) (node : Nat)
    (s : Session) (id : Nat) : Except Fault Session :=
  match l.actions[id]? with
  | none => .ok s
  | some action =>
    match action.path.chain.walk t node (some value) with
    | none => .ok s
    | some (found, result) => do
      let matched ← s.matched.add ⟨key, result, found⟩
      return ({ s with matched }.note id action.role result).touch action.rule

/-- Tries the actions of a key. -/
def dispatch (l : CompiledLibrary) (t : SyntaxTree) (value : String) (node : Nat) (s : Session)
    (key : String) : Except Fault Session :=
  (l.actionsFor key).foldlM (tryAction l t key value node) s

/-- The heads of a value that keys can ask for, the shortest first. -/
def heads (value : String) : List String :=
  (List.range (min value.length headLength)).map fun n => headOf value (n + 1)

def keysOf (l : CompiledLibrary) (path value : String) : List String :=
  let path := Text.lower path
  path ::
    ((if l.valuePaths.contains path then [valueKey path value] else []) ++
      (if l.headPaths.contains path then (heads value).map (headKey path) else []))

def inform (l : CompiledLibrary) (t : SyntaxTree) (path value : String) (node : Nat)
    (s : Session) : Except Fault Session :=
  (keysOf l path value).foldlM (dispatch l t value node) s

/-! ### Evaluating the rules -/

def isMet (l : CompiledLibrary) (s : Session) (id : Nat) : Bool :=
  match l.roleOf id with
  | some (.require true) => s.hits[id]?.getD 0 = 0
  | some (.require false) => 0 < s.hits[id]?.getD 0
  | _ => false

def valueOf (s : Session) (id : Nat) : Option String := s.extracted[id]?.join

def holds (l : CompiledLibrary) (s : Session) (rule : CompiledRule) : Bool :=
  rule.require.all (s.isMet l) && rule.extract.all fun id => (s.valueOf id).isSome

/-- What a rule offers: the values it found, then its fixed ones. -/
def offers (l : CompiledLibrary) (s : Session) (rule : CompiledRule) : List Offer :=
  rule.extract.filterMap (fun id =>
    match l.roleOf id, s.valueOf id with
    | some (.extract field confidence), some value => some ⟨field, value, confidence⟩
    | _, _ => none) ++
  rule.fixed.map fun f => ⟨f.field, f.value, f.confidence⟩

/-- The rules that can hold, in the order in which they were declared. -/
def candidates (l : CompiledLibrary) (s : Session) : List Nat :=
  dedupSorted ((s.touched ++ l.zeroInput.toList).mergeSort fun a b => a ≤ b)
where
  /-- An ordered list without repetitions. -/
  dedupSorted : List Nat → List Nat
    | a :: b :: rest =>
      if a = b then dedupSorted (b :: rest) else a :: dedupSorted (b :: rest)
    | rest => rest

def fired (l : CompiledLibrary) (s : Session) : List CompiledRule :=
  ((s.candidates l).filterMap (l.rules[·]?)).filter (s.holds l)

def finish (l : CompiledLibrary) (s : Session) : Report :=
  let fired := s.fired l
  let c := (fired.flatMap (s.offers l)).foldl Collector.offer {}
  ⟨c.flush, s.touched.length, fired.length, c.collisions.reverse, s.matched⟩

end Session

namespace CompiledLibrary

/-- Announces a tree to a session. -/
def listen (l : CompiledLibrary) (t : SyntaxTree) : Listener (StateT Session (Except Fault)) :=
  fun path value node => do set (← Session.inform l t path value node (← get))

/-- Analyses a tree; the matches are kept if `keep` says so. -/
def analyze (l : CompiledLibrary) (t : SyntaxTree) (keep : Bool) : Except Fault Report := do
  let ((), s) ← (t.announce l.threshold l.rangesAt (l.listen t)).run (Session.start l keep)
  return s.finish l

end CompiledLibrary

end AgentRules
