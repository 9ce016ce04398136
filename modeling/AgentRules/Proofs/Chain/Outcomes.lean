import AgentRules.Proofs.Chain.Reach

/-! # The outcomes of a chain

What a chain means without an order of search: each step has a list of outcomes, and the outcomes of
a chain are those of its steps composed one after another, each outcome of a step being passed on to
the next step (`Chain.outcomes`). A walk searches in depth and returns the first of these outcomes
(`walk_eq_first_outcome`). Going down ends at the first child of the name beyond the range, but the
outcomes list all children in the range: in a tree that is built none is behind that child. -/

namespace AgentRules

open SyntaxTree

/-- A node with the value that is carried to it, if one is. -/
abbrev Stand := Nat × Option String

/-- The value at a node, which is its text if none is carried to it. -/
def SyntaxTree.valueAt (t : SyntaxTree) (p : Stand) : String := p.2.getD (t.text p.1)

/-- The outcomes of a step, in order. -/
def Step.outcomes (t : SyntaxTree) (p : Stand) : Step → List Stand
  | isNull => [p]
  | move m => (m.target t p.1).toList.map fun n => (n, none)
  | down range name =>
    ((t.pathChildren p.1).filter fun c => c.name = name ∧ range.has c.index).map fun c =>
      (c.node, none)
  | test c => if c.accepts (t.valueAt p) then [p] else []
  | change c => (c.apply (t.valueAt p)).toList.map fun w => (p.1, some w)

namespace Chain

/-- The outcomes of the steps of a chain, one after another, in order. -/
def outcomes (t : SyntaxTree) : Chain → Stand → List Stand
  | [], p => [p]
  | s :: rest, p => (s.outcomes t p).flatMap (outcomes t rest)

theorem findSome?_toList_map {α β γ : Type} (o : Option α) (f : α → β) (g : β → Option γ) :
    (o.toList.map f).findSome? g = o.bind fun a => g (f a) := by
  cases o with
  | none => rfl
  | some a => exact List.findSome?_singleton

section Walk
variable {t : SyntaxTree} (ht : WellFormed t)

/-- A value that is made of nothing but the text of the node may as well not be carried. -/
theorem walk_valueAt (c : Chain) (n : Nat) (v : Option String) :
    c.walk t n (some (t.valueAt (n, v))) = c.walk t n v := by
  cases v with
  | none => exact walk_text c n
  | some w => rfl

include ht

/-- **A walk tries the outcomes of its first step in order.** -/
theorem walk_cons (s : Step) (rest : Chain) (n : Nat) (v : Option String) :
    walk t (s :: rest) n v = (s.outcomes t (n, v)).findSome? fun p => rest.walk t p.1 p.2 := by
  cases s with
  | isNull =>
    rw [walk, Step.outcomes, List.findSome?_singleton]
  | move m =>
    rw [walk, Step.outcomes, findSome?_toList_map]
  | down range name =>
    rw [walk, Step.outcomes, candidates_eq ht, List.findSome?_map, List.findSome?_map]
    rfl
  | test c =>
    rw [walk, Step.outcomes]
    show (if c.accepts (t.valueAt (n, v)) then walk t rest n (some (t.valueAt (n, v))) else none) = _
    rw [walk_valueAt]
    split
    · rw [List.findSome?_singleton]
    · rfl
  | change c =>
    rw [walk, Step.outcomes, findSome?_toList_map]
    rfl

/-- **A walk along two chains tries the outcomes of the first one in order.** -/
theorem walk_append (a b : Chain) (n : Nat) (v : Option String) :
    walk t (a ++ b) n v = (outcomes t a (n, v)).findSome? fun p => b.walk t p.1 p.2 := by
  induction a generalizing n v with
  | nil => rw [outcomes, List.findSome?_singleton, List.nil_append]
  | cons s a ih =>
    rw [List.cons_append, walk_cons ht, outcomes, findSome?_flatMap]
    exact findSome?_congr fun p _ => ih p.1 p.2

theorem walk_eq_head (c : Chain) (n : Nat) (v : Option String) :
    c.walk t n v = (outcomes t c (n, v)).head?.map fun p => (p.1, t.valueAt p) := by
  have h := walk_append ht c [] n v
  rw [List.append_nil] at h
  rw [h]
  cases outcomes t c (n, v) <;> rfl

end Walk

theorem candidates_sublist {t : SyntaxTree} (ht : WellFormed t) (n : Nat) (range : IndexRange)
    (name : String) : (t.candidates n range name).Sublist (t.below n) := by
  rw [candidates_eq ht]
  exact (List.filter_sublist.map _).trans (ht.node_pathChildren_sublist n)

/-- **A walk computes the first success of a search in depth.** It returns the first outcome of the
chain, with the text of its node where no value is carried, and fails just if there is none. Going
down tries all children of the name in the range, in the order of the tree, and two chains can be
walked one behind the other just if the second one can be walked from some outcome of the first. A
walk that follows the links of linked steps comes to the same. -/
theorem walk_eq_first_outcome {t : SyntaxTree} (ht : Built t) (c : Chain) (n : Nat)
    (v : Option String) :
    c.walk t n v = ((c.outcomes t (n, v)).head?.map fun p => (p.1, p.2.getD (t.text p.1))) ∧
    (c.walk t n v = none ↔ c.outcomes t (n, v) = []) ∧
    (∀ range name, (t.candidates n range name).Sublist (t.below n) ∧ t.candidates n range name =
      ((t.pathChildren n).filter fun d => d.name = name ∧ range.has d.index).map (·.node)) ∧
    (∀ b : Chain, ((c ++ b).walk t n v).isSome = true ↔
      ∃ p ∈ c.outcomes t (n, v), (b.walk t p.1 p.2).isSome = true) ∧
    ∀ rounds, c.length ≤ rounds →
      (LinkedChain.ofChain c).walk rounds t n v = some (c.walk t n v) := by
  have hwf := ht.wellFormed
  have hfirst := walk_eq_head hwf c n v
  refine ⟨hfirst, ?_, fun range name => ?_, fun b => ?_,
    fun rounds h => LinkedChain.walk_ofChain c h t n v⟩
  · rw [hfirst, Option.map_eq_none_iff, List.head?_eq_none_iff]
  · exact ⟨candidates_sublist hwf n range name, candidates_eq hwf n range name⟩
  · rw [walk_append hwf, List.findSome?_isSome_iff]

def twoTexts : SyntaxTree :=
  ⟨"a b", #[⟨.agent, none, #[1, 2], 0, 3⟩, ⟨.text, some 0, #[], 0, 1⟩, ⟨.text, some 0, #[], 2, 3⟩],
    false⟩

theorem built_twoTexts : Built twoTexts :=
  @Built.add _ _ 0 2 3 .text (@Built.add _ _ 0 0 1 .text (.ofSource "a b") rfl) rfl

/-- The first text does not pass the test, so the walk goes back and takes the second one. -/
theorem walk_eq_first_outcome_second : Built twoTexts ∧
    walk twoTexts [.down ⟨1, 8⟩ "text", .test (.equals "B"), .change (.concatBefore "x")] 0 none =
      some (2, "xb") :=
  ⟨built_twoTexts, (walk_eq_first_outcome built_twoTexts _ 0 none).1.trans (by decide)⟩

end Chain

end AgentRules
