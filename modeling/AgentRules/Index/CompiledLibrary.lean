import AgentRules.Announce
import AgentRules.Index.Action
import AgentRules.Rules.ExtractLine

/-! # Compiled libraries

A compiled library holds the rules and actions of a library and what is needed to find them: the
actions of each key, the paths at which keys with a value or with a head exist, and the ranges of
segments that have to be announced. `capacity` counts the keys of all actions; as no key comes up
twice in an analysis, no more matches than that can arise.

Rules are added one by one and their actions in the order of their lines. The first thing that is
wrong is reported with the place of its rule. -/

namespace AgentRules

/-- Rules that are ready to be applied. -/
structure CompiledLibrary where
  rules : Array CompiledRule
  actions : Array Action
  /-- The actions of each key, in order. -/
  index : Std.HashMap String (Array Nat)
  /-- The paths with a key that asks for a value. -/
  valuePaths : Std.HashSet String
  /-- The paths with a key that asks for a head. -/
  headPaths : Std.HashSet String
  /-- The ranges to announce at each path. -/
  ranges : Std.HashMap String (List WordRange)
  /-- The rules that can hold though nothing is found for them, in order. -/
  zeroInput : Array Nat
  /-- The most matches that can arise. -/
  capacity : Nat
  registry : Registry
  /-- The number of ranges of a node up to which each is cut out on its own. -/
  threshold : Nat

namespace CompiledLibrary

def empty (registry : Registry) (threshold : Nat) : CompiledLibrary :=
  ⟨#[], #[], ∅, ∅, ∅, ∅, #[], 0, registry, threshold⟩

/-! ### Registering an action -/

/-- The library with a key of an action, unless the action has it already. -/
def addKey (id : Nat) (l : CompiledLibrary) (key : IndexKey) : CompiledLibrary :=
  let ids := l.index.getD key.folded #[]
  if ids.back? = some id then l
  else
    let l := { l with index := l.index.insert key.folded (ids.push id), capacity := l.capacity + 1 }
    match key.selector with
    | .path => l
    | .value _ => { l with valuePaths := l.valuePaths.insert (Text.lower key.path) }
    | .head _ => { l with headPaths := l.headPaths.insert (Text.lower key.path) }

/-- The library with a range to announce at a path, unless it is announced already. -/
def addRange (l : CompiledLibrary) (range : String × WordRange) : CompiledLibrary :=
  let path := Text.lower range.1
  let known := l.ranges.getD path []
  if range.2 ∈ known then l else { l with ranges := l.ranges.insert path (known ++ [range.2]) }

/-- The library with one action more, whose number is the old count of actions. -/
def addAction (l : CompiledLibrary) (action : Action) : CompiledLibrary :=
  let l' := action.path.ranges.foldl addRange (action.path.keys.foldl (addKey l.actions.size) l)
  { l' with actions := l'.actions.push action }

/-! ### Adding a rule -/

/-- Adds what a rule requires. -/
def addRequire (state : CompiledLibrary × CompiledRule) (expression : String) :
    Except Fault (CompiledLibrary × CompiledRule) := do
  let (l, rule) := state
  let path ← CompiledPath.compileRequire l.registry expression
  let id := l.actions.size
  let action : Action := ⟨l.rules.size, .require path.usesIsNull, path⟩
  return (l.addAction action, { rule with require := rule.require ++ [id] })

/-- Adds what a rule extracts. -/
def addExtract (state : CompiledLibrary × CompiledRule) (line : String) :
    Except Fault (CompiledLibrary × CompiledRule) := do
  let (l, rule) := state
  let e ← ExtractLine.parse line
  let path ← CompiledPath.compileExtract l.registry e.expression
  match path.fixedValue with
  | some value =>
    return (l, { rule with fixed := rule.fixed ++ [⟨e.field, e.confidence, value⟩] })
  | none =>
    let id := l.actions.size
    let action : Action := ⟨l.rules.size, .extract e.field e.confidence, path⟩
    return (l.addAction action, { rule with extract := rule.extract ++ [id] })

/-- The place of a rule; a rule without a file is placed by its index in the library. -/
def sourceOf (index : Nat) (rule : Rule) : RuleSource :=
  if rule.source.file = "" then { rule.source with index } else rule.source

/-- The library with one rule more, which stands at `index` in the list of rules. -/
def addRule (l : CompiledLibrary) (index : Nat) (rule : Rule) : Except Fault CompiledLibrary :=
  let source := sourceOf index rule
  let outcome : Except Fault CompiledLibrary := do
    if rule.extract.isEmpty then throw .noExtract
    let state ← rule.require.foldlM addRequire (l, { source })
    let (l, compiled) ← rule.extract.foldlM addExtract state
    let zeroInput :=
      if compiled.isZeroInput l.actions then l.zeroInput.push l.rules.size else l.zeroInput
    return { l with rules := l.rules.push compiled, zeroInput }
  outcome.mapError (.within source)

def addRules (l : CompiledLibrary) (rules : List Rule) : Except Fault CompiledLibrary :=
  rules.zipIdx.foldlM (fun l (rule, index) => l.addRule index rule) l

/-- Compiles a library. -/
def compile (library : RuleLibrary) (threshold : Nat) : Except Fault CompiledLibrary := do
  let registry ← Registry.ofDefinitions library.lookups library.sets
  (empty registry threshold).addRules library.rules

/-! ### Looking up -/

def actionsFor (l : CompiledLibrary) (key : String) : List Nat := (l.index.getD key #[]).toList

def roleOf (l : CompiledLibrary) (id : Nat) : Option Role := (l.actions[id]?).map Action.role

def rangesAt (l : CompiledLibrary) (path : String) : List WordRange := l.ranges.getD path []

def keys (l : CompiledLibrary) : List String := l.index.keys.mergeSort fun a b => a ≤ b

end CompiledLibrary

end AgentRules
