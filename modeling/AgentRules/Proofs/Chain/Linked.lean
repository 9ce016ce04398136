import AgentRules.Chain.Walk
import AgentRules.Proofs.Text.Strip

/-! # Chains of linked steps

A chain can be kept in an array, each step with the index of the one behind it. The steps are then
walked by following the links, and pruning is one change in place: the link behind the last step
that can fail is cut, or the link to the first step if there is no such step.

`Follows` says which steps the links lead along. Along linked steps, a walk ends where the walk of
the list of them ends (`walkFrom_eq`), and cutting links prunes this list (`exists_prune`).
Following links breaks off at an index without a step, and when it takes more rounds than it gets;
then there is no outcome, not even that the walk ends nowhere. -/

namespace AgentRules

/-- A step with the index of the one behind it. -/
structure LinkedStep where
  step : Step
  next : Option Nat

/-- Steps with the index of the first one. -/
structure LinkedChain where
  steps : Array LinkedStep
  head : Option Nat

namespace LinkedChain

/-- Links each step to the next one. -/
def ofChain (c : Chain) : LinkedChain where
  steps := (c.mapIdx fun i step => ⟨step, if i + 1 < c.length then some (i + 1) else none⟩).toArray
  head := if 0 < c.length then some 0 else none

/-- The steps that the links lead along, with their indices. -/
def follow (steps : Array LinkedStep) : Nat → Option Nat → Option (List (Nat × Step))
  | _, none => some []
  | 0, some _ => none
  | rounds + 1, some i =>
    (steps[i]?).bind fun s => (follow steps rounds s.next).map ((i, s.step) :: ·)

/-- Cuts the link behind the last step that can fail. -/
def prune (rounds : Nat) (c : LinkedChain) : Option LinkedChain :=
  (follow c.steps rounds c.head).map fun order =>
    match order.reverse.find? (·.2.canFail) with
    | some (i, step) => { c with steps := c.steps.setIfInBounds i ⟨step, none⟩ }
    | none => { c with head := none }

/-- The first success among some nodes, if all attempts before it come to an outcome. -/
def firstFound {α : Type} (attempt : Nat → Option (Option α)) : List Nat → Option (Option α)
  | [] => some none
  | n :: ns =>
    match attempt n with
    | none => none
    | some (some found) => some (some found)
    | some none => firstFound attempt ns

/-- Where the walk from a step on ends, if it comes to an outcome. -/
def walkFrom (steps : Array LinkedStep) (t : SyntaxTree) :
    Nat → Option Nat → Nat → Option String → Option (Option (Nat × String))
  | _, none, node, value => some (some (node, value.getD (t.text node)))
  | 0, some _, _, _ => none
  | rounds + 1, some i, node, value =>
    match steps[i]? with
    | none => none
    | some ⟨step, next⟩ =>
      match step with
      | .isNull => walkFrom steps t rounds next node value
      | .move m =>
        match m.target t node with
        | none => some none
        | some target => walkFrom steps t rounds next target none
      | .down range name =>
        firstFound (fun child => walkFrom steps t rounds next child none)
          (t.candidates node range name)
      | .test c =>
        let actual := value.getD (t.text node)
        if c.accepts actual then walkFrom steps t rounds next node (some actual) else some none
      | .change c =>
        match c.apply (value.getD (t.text node)) with
        | none => some none
        | some changed => walkFrom steps t rounds next node (some changed)

/-- Where the walk of linked steps ends, if it comes to an outcome. -/
def walk (c : LinkedChain) (rounds : Nat) (t : SyntaxTree) (node : Nat) (value : Option String) :
    Option (Option (Nat × String)) := walkFrom c.steps t rounds c.head node value

/-! ### Following links -/

/-- The links lead along these steps, with these indices. -/
inductive Follows (steps : Array LinkedStep) : Option Nat → List (Nat × Step) → Prop
  | stop : Follows steps none []
  | go {i : Nat} {step : Step} {next : Option Nat} {l : List (Nat × Step)} :
      steps[i]? = some ⟨step, next⟩ → Follows steps next l → Follows steps (some i) ((i, step) :: l)

variable {steps : Array LinkedStep} {start : Option Nat} {i : Nat} {step : Step}
  {l l' a b : List (Nat × Step)}

namespace Follows

theorem follow_eq (h : Follows steps start l) {rounds : Nat} (hrounds : l.length ≤ rounds) :
    follow steps rounds start = some l := by
  induction h generalizing rounds with
  | stop => rw [follow]
  | go hstep _ ih =>
    obtain ⟨rounds, rfl⟩ := Nat.exists_eq_add_one.2 (Nat.zero_lt_of_lt hrounds)
    rw [follow, hstep, Option.bind_some, ih (Nat.le_of_succ_le_succ hrounds), Option.map_some]

theorem unique (h : Follows steps start l) (h' : Follows steps start l') : l = l' := by
  induction h generalizing l' with
  | stop =>
    cases h'
    rfl
  | go hstep _ ih =>
    cases h' with
    | go hstep' h' =>
      rw [hstep] at hstep'
      cases hstep'
      rw [ih h']

theorem behind (h : Follows steps start (a ++ (i, step) :: b)) :
    Follows steps (some i) ((i, step) :: b) := by
  induction a generalizing start with
  | nil =>
    cases h with
    | go hstep h => exact .go hstep h
  | cons p a ih =>
    cases h with
    | go _ h => exact ih h

/-- **No step comes twice**, for the steps behind it would come twice, too, and so on. -/
theorem nodup (h : Follows steps start l) : (l.map (·.1)).Nodup := by
  induction h with
  | stop => exact .nil
  | @go i step next l hstep hl ih =>
    refine List.nodup_cons.2 ⟨fun hmem => ?_, ih⟩
    obtain ⟨⟨j, again⟩, hagain, rfl⟩ := List.mem_map.1 hmem
    obtain ⟨a, b, rfl⟩ := List.append_of_mem hagain
    have hsame := congrArg List.length ((Follows.go hstep hl).unique hl.behind)
    simp only [List.length_cons, List.length_append] at hsame
    omega

theorem cut (h : Follows steps start (a ++ (i, step) :: b)) :
    Follows (steps.setIfInBounds i ⟨step, none⟩) start (a ++ [(i, step)]) := by
  have hnodup := h.nodup
  induction a generalizing start with
  | nil =>
    cases h with
    | go hstep _ =>
      have hlt := (Array.getElem?_eq_some_iff.1 hstep).1
      exact .go (Array.getElem?_setIfInBounds_self_of_lt hlt) .stop
  | cons p a ih =>
    cases h with
    | @go j _ _ _ hstep h =>
      rw [List.cons_append, List.map_cons, List.nodup_cons] at hnodup
      have hne : i ≠ j := fun hij => hnodup.1 (by simp [hij])
      refine .go ?_ (ih h hnodup.2)
      rwa [Array.getElem?_setIfInBounds_ne hne]

end Follows

theorem follows_ofChain (c : Chain) : ∃ l, Follows (ofChain c).steps (ofChain c).head l ∧
    l.map (·.2) = c := by
  have hrest (a b : Chain) (h : c = a ++ b) : ∃ l,
      Follows (ofChain c).steps (if a.length < c.length then some a.length else none) l ∧
        l.map (·.2) = b := by
    induction b generalizing a with
    | nil =>
      rw [if_neg (by simp [h])]
      exact ⟨[], .stop, rfl⟩
    | cons s b ih =>
      obtain ⟨l, hl, rfl⟩ := ih (a ++ [s]) (by simp [h])
      rw [if_pos (by simp [h])]
      refine ⟨(a.length, s) :: l, .go ?_ hl, rfl⟩
      simp [ofChain, h]
  exact hrest [] c rfl

/-! ### Walking and pruning -/

theorem firstFound_eq {α : Type} {attempt : Nat → Option (Option α)} {g : Nat → Option α}
    (h : ∀ n, attempt n = some (g n)) (ns : List Nat) :
    firstFound attempt ns = some (ns.findSome? g) := by
  induction ns with
  | nil => rfl
  | cons n ns ih =>
    rw [firstFound, h n, List.findSome?_cons]
    cases g n with
    | none => exact ih
    | some found => rfl

/-- **A walk by links ends where the walk of the list of steps ends.** -/
theorem walkFrom_eq (t : SyntaxTree) (h : Follows steps start l) {rounds : Nat}
    (hrounds : l.length ≤ rounds) (n : Nat) (v : Option String) :
    walkFrom steps t rounds start n v = some (Chain.walk t (l.map (·.2)) n v) := by
  induction h generalizing rounds n v with
  | stop => rw [walkFrom, List.map_nil, Chain.walk]
  | @go i step next l hstep _ ih =>
    obtain ⟨rounds, rfl⟩ := Nat.exists_eq_add_one.2 (Nat.zero_lt_of_lt hrounds)
    have hrest := ih (Nat.le_of_succ_le_succ hrounds)
    rw [walkFrom, hstep, List.map_cons]
    cases step with
    | isNull => exact hrest n v
    | move m =>
      rw [Chain.walk]
      dsimp only
      cases m.target t n with
      | none => rfl
      | some target => exact hrest target none
    | down range name => exact firstFound_eq (fun child => hrest child none) _
    | test c =>
      rw [Chain.walk]
      dsimp only
      split
      · exact hrest n _
      · rfl
    | change c =>
      rw [Chain.walk]
      dsimp only
      cases c.apply (v.getD (t.text n)) with
      | none => rfl
      | some changed => exact hrest n (some changed)

/-- **Cutting links prunes the list of steps.** -/
theorem exists_prune {c : LinkedChain} (h : Follows c.steps c.head l) {rounds : Nat}
    (hrounds : l.length ≤ rounds) : ∃ pruned l', c.prune rounds = some pruned ∧
      Follows pruned.steps pruned.head l' ∧ l'.map (·.2) = Chain.prune (l.map (·.2)) := by
  rw [prune, h.follow_eq hrounds, Option.map_some]
  cases hlast : l.reverse.find? (·.2.canFail) with
  | none =>
    refine ⟨_, [], rfl, .stop, ?_⟩
    have hall : ∀ p ∈ l.reverse, (!p.2.canFail) = true := by
      simpa [List.find?_eq_none] using hlast
    rw [Chain.prune, Text.dropEndWhile, ← List.map_reverse, List.dropWhile_eq_nil_iff.2]
    · rfl
    · exact List.forall_mem_map.2 hall
  | some p =>
    obtain ⟨i, step⟩ := p
    obtain ⟨hfail, b, a, hsplit, hbehind⟩ := List.find?_eq_some_iff_append.1 hlast
    obtain rfl : l = a.reverse ++ (i, step) :: b.reverse := by
      rw [List.reverse_eq_iff.1 hsplit]
      simp
    refine ⟨_, _, rfl, h.cut, ?_⟩
    have hb : ∀ s ∈ b.reverse.map (·.2), (!s.canFail) = true :=
      List.forall_mem_map.2 fun p hp => hbehind p (List.mem_reverse.1 hp)
    have hkept : ∀ s ∈ ((a.reverse ++ [(i, step)]).map (·.2)).getLast?, (!s.canFail) = false := by
      simpa using hfail
    rw [← Text.dropEndWhile_eq_self hkept, ← Text.dropEndWhile_append_of_forall hb,
      ← List.map_append, List.append_assoc]
    rfl

/-- The steps of a linked chain, in order. -/
def chain? (rounds : Nat) (c : LinkedChain) : Option Chain :=
  (follow c.steps rounds c.head).map fun l => l.map (·.2)

theorem walk_ofChain (c : Chain) {rounds : Nat} (hrounds : c.length ≤ rounds) (t : SyntaxTree)
    (n : Nat) (v : Option String) :
    (ofChain c).walk rounds t n v = some (Chain.walk t c n v) := by
  obtain ⟨l, hl, hsteps⟩ := follows_ofChain c
  have hlength : l.length = c.length := by rw [← hsteps, List.length_map]
  rw [walk, walkFrom_eq t hl (by omega), hsteps]

theorem prune_ofChain (c : Chain) {rounds : Nat} (hrounds : c.length ≤ rounds) :
    ∃ pruned, (ofChain c).prune rounds = some pruned ∧ pruned.chain? rounds = some c.prune ∧
      ∀ t n v, pruned.walk rounds t n v = some (c.prune.walk t n v) := by
  obtain ⟨l, hl, hsteps⟩ := follows_ofChain c
  have hlength : l.length = c.length := by rw [← hsteps, List.length_map]
  obtain ⟨pruned, l', hpruned, hl', hsteps'⟩ := exists_prune hl (hlength.trans_le hrounds)
  rw [hsteps] at hsteps'
  have hlength' : l'.length ≤ c.length := by
    rw [← List.length_map (·.2), hsteps']
    exact (List.rdropWhile_prefix _ c).length_le
  refine ⟨pruned, hpruned, ?_, fun t n v => ?_⟩
  · rw [chain?, hl'.follow_eq (by omega), Option.map_some, hsteps']
  · rw [walk, walkFrom_eq t hl' (by omega), hsteps']

end LinkedChain

end AgentRules
