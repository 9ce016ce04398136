import AgentRules.Proofs.Tree.Preorder
import AgentRules.Proofs.Tree.Sound
import Mathlib.Data.List.Flatten

/-! # Children and their numbers

A node *sees* what is described as its child: its own children and those of the wrappers among
them (`mem_semanticChildren`). The children seen stand in the order of the tree
(`semanticNodes_sublist`), so each comes once. Children of one name share a count, and their
indices ascend (`pairwise_pathChildren`), so a name and an index determine a child. -/

namespace AgentRules

/-- The count that children of a name share. -/
def CountKind.ofName (name : String) : CountKind :=
  if name = "version" then .version else if name = "comments" then .comment else .child

theorem NodeKind.count_eq_ofName {k : NodeKind} {name : String} {count : CountKind}
    (h : k.pathName = some (name, count)) : count = .ofName name := by
  cases k <;> simp only [pathName, Option.some.injEq, Prod.mk.injEq, reduceCtorEq] at h <;>
    obtain ⟨rfl, rfl⟩ := h <;> decide

/-- The number of children met that count together with those of a kind. -/
def Counts.get (n : Counts) : CountKind → Nat
  | .child => n.child
  | .version => n.version
  | .comment => n.comment

theorem Counts.bump_fst (n : Counts) (k : CountKind) : (n.bump k).1 = n.get k + 1 := by
  cases k <;> rfl

theorem Counts.get_bump (n : Counts) (k l : CountKind) :
    (n.bump k).2.get l = n.get l + if l = k then 1 else 0 := by
  cases k <;> cases l <;> rfl

namespace SyntaxTree

/-! ### What a node sees -/

section Describe
variable {t : SyntaxTree} {id : Nat} {c : SemanticChild}

theorem describe_eq_some : t.describe id = some c ↔
    c.node = id ∧ (t.kind id).pathName = some (c.name, c.count) ∧
      c.splitting = (t.kind id).splitting := by
  unfold describe
  constructor
  · intro h
    obtain ⟨⟨name, count⟩, hn, rfl⟩ := Option.map_eq_some_iff.1 h
    exact ⟨rfl, hn, rfl⟩
  · rintro ⟨rfl, hn, hs⟩
    rw [hn, Option.map_some, ← hs]

theorem node_of_describe (h : t.describe id = some c) : c.node = id := (describe_eq_some.1 h).1

theorem count_of_describe (h : t.describe id = some c) : c.count = .ofName c.name :=
  NodeKind.count_eq_ofName (describe_eq_some.1 h).2.1

/-- What is described is no wrapper, for a wrapper has no name in paths. -/
theorem isWrapper_of_describe (h : t.describe id = some c) : t.isWrapper id = false := by
  have hn := (describe_eq_some.1 h).2.1
  unfold isWrapper NodeKind.isWrapper
  split
  · next hk =>
    rw [hk] at hn
    cases hn
  · next hk =>
    rw [hk] at hn
    cases hn
  · rfl

end Describe

/-- A node sees its children, and behind a wrapper the children of that. -/
def Sees (t : SyntaxTree) (n c : Nat) : Prop :=
  t.parentOf c = some n ∨ ∃ w, t.isWrapper w = true ∧ t.parentOf c = some w ∧ t.parentOf w = some n

theorem Sees.above {t : SyntaxTree} {n c : Nat} (h : Sees t n c) : Above t n c := by
  rcases h with h | ⟨w, -, hc, hw⟩
  · exact .parent h
  · exact .up (.parent hw) hc

namespace WellFormed
variable {t : SyntaxTree} (ht : WellFormed t)
include ht

theorem lt_of_sees {n c : Nat} (h : Sees t n c) : n < c := ht.lt_of_above h.above

/-- **The children of a node are the described ones among what it sees.** -/
theorem mem_semanticChildren {n : Nat} {c : SemanticChild} :
    c ∈ t.semanticChildren n ↔ t.describe c.node = some c ∧ Sees t n c.node := by
  unfold semanticChildren
  rw [List.mem_flatMap]
  constructor
  · rintro ⟨d, hd, hc⟩
    rw [ht.mem_children] at hd
    by_cases hw : t.isWrapper d = true
    · rw [if_pos hw] at hc
      obtain ⟨e, he, hec⟩ := List.mem_filterMap.1 hc
      rw [ht.mem_children] at he
      rw [node_of_describe hec]
      exact ⟨hec, .inr ⟨d, hw, he, hd⟩⟩
    · rw [if_neg hw, Option.mem_toList] at hc
      rw [node_of_describe hc]
      exact ⟨hc, .inl hd⟩
  · rintro ⟨hc, h | ⟨w, hw, hcw, hwn⟩⟩
    · refine ⟨c.node, (ht.mem_children _ _).2 h, ?_⟩
      rw [isWrapper_of_describe hc, if_neg Bool.false_ne_true, Option.mem_toList]
      exact hc
    · refine ⟨w, (ht.mem_children _ _).2 hwn, ?_⟩
      rw [if_pos hw]
      exact List.mem_filterMap.2 ⟨c.node, (ht.mem_children _ _).2 hcw, hc⟩

theorem children_sublist_below (n : Nat) : (t.children n).Sublist (t.below n) := by
  have hself : (t.children n).Sublist ((t.children n).flatMap fun c => [c]) := by simp
  rw [ht.below_eq]
  refine hself.trans ?_
  exact List.Sublist.flatMap_right _ fun c _ => List.singleton_sublist.2 List.mem_cons_self

/-- **The children of a node stand in the order of the tree.** -/
theorem semanticNodes_sublist (n : Nat) :
    ((t.semanticChildren n).map (·.node)).Sublist (t.below n) := by
  have hdescribe (l : List Nat) : (l.filterMap t.describe).map (·.node) =
      l.filter fun c => (t.describe c).isSome := by
    induction l with
    | nil => rfl
    | cons c l ih =>
      cases hc : t.describe c with
      | none => simp [hc, ih]
      | some d => simp [hc, ih, node_of_describe hc]
  rw [ht.below_eq, semanticChildren, List.map_flatMap]
  refine List.Sublist.flatMap_right _ fun c _ => ?_
  by_cases hw : t.isWrapper c = true
  · rw [if_pos hw, hdescribe]
    exact (List.filter_sublist.trans (ht.children_sublist_below c)).cons c
  · rw [if_neg hw]
    cases hc : t.describe c with
    | none => exact List.nil_sublist _
    | some d =>
      have hd : d.node = c := node_of_describe hc
      rw [Option.toList_some, List.map_singleton, hd]
      exact List.singleton_sublist.2 List.mem_cons_self

/-- A node that is seen by no wrapper has the one that sees it as its parent in paths. -/
theorem semanticParent_of_sees {n c : Nat} (hn : t.isWrapper n = false) (h : Sees t n c) :
    t.semanticParent c = some n := by
  have direct {c : Nat} (h : t.parentOf c = some n) : t.semanticParent c = some n := by
    rw [ht.semanticParent_eq, h, Option.bind_some, hn, if_neg Bool.false_ne_true]
  rcases h with h | ⟨w, hw, hcw, hwn⟩
  · exact direct h
  · rw [ht.semanticParent_eq, hcw, Option.bind_some, if_pos hw, direct hwn]

end WellFormed

/-! ### Numbers -/

theorem numberFrom_cons (counts : Counts) (c : SemanticChild) (cs : List SemanticChild) :
    numberFrom counts (c :: cs) =
      ⟨c.node, c.name, (counts.bump c.count).1⟩ :: numberFrom (counts.bump c.count).2 cs := rfl

theorem node_numberFrom (counts : Counts) (cs : List SemanticChild) :
    (numberFrom counts cs).map (·.node) = cs.map (·.node) := by
  induction cs generalizing counts with
  | nil => rfl
  | cons c cs ih => rw [numberFrom_cons, List.map_cons, List.map_cons, ih]

theorem exists_of_mem_numberFrom {counts : Counts} {cs : List SemanticChild} {c : PathChild}
    (h : c ∈ numberFrom counts cs) : ∃ d ∈ cs, d.node = c.node ∧ d.name = c.name := by
  induction cs generalizing counts with
  | nil => cases h
  | cons d cs ih =>
    rw [numberFrom_cons] at h
    rcases List.mem_cons.1 h with rfl | h
    · exact ⟨d, List.mem_cons_self, rfl, rfl⟩
    · obtain ⟨e, he, hec⟩ := ih h
      exact ⟨e, List.mem_cons_of_mem _ he, hec⟩

theorem lt_index_of_mem_numberFrom {counts : Counts} {cs : List SemanticChild}
    (hcs : ∀ d ∈ cs, d.count = .ofName d.name) {c : PathChild} (h : c ∈ numberFrom counts cs) :
    counts.get (.ofName c.name) < c.index := by
  induction cs generalizing counts with
  | nil => cases h
  | cons d cs ih =>
    rw [numberFrom_cons] at h
    rcases List.mem_cons.1 h with rfl | h
    · show counts.get (.ofName d.name) < (counts.bump d.count).1
      rw [Counts.bump_fst, hcs d List.mem_cons_self]
      exact Nat.lt_succ_self _
    · have := ih (fun e he => hcs e (List.mem_cons_of_mem _ he)) h
      rw [Counts.get_bump] at this
      omega

theorem pairwise_numberFrom {counts : Counts} {cs : List SemanticChild}
    (hcs : ∀ d ∈ cs, d.count = .ofName d.name) :
    (numberFrom counts cs).Pairwise fun a b => a.name = b.name → a.index < b.index := by
  induction cs generalizing counts with
  | nil => exact .nil
  | cons d cs ih =>
    have hd := hcs d List.mem_cons_self
    have hrest : ∀ e ∈ cs, e.count = .ofName e.name := fun e he => hcs e (List.mem_cons_of_mem _ he)
    rw [numberFrom_cons]
    refine .cons (fun b hb hname => ?_) (ih hrest)
    have hlt := lt_index_of_mem_numberFrom hrest hb
    have hname : d.name = b.name := hname
    rw [Counts.get_bump, hd, ← hname, if_pos rfl] at hlt
    show (counts.bump d.count).1 < b.index
    rwa [Counts.bump_fst, hd]

theorem WellFormed.describe_of_mem_pathChildren {t : SyntaxTree} (ht : WellFormed t) {n : Nat}
    {c : PathChild} (h : c ∈ t.pathChildren n) :
    ∃ d, t.describe c.node = some d ∧ d.name = c.name ∧ Sees t n c.node := by
  obtain ⟨d, hd, hnode, hname⟩ := exists_of_mem_numberFrom h
  obtain ⟨hdesc, hsees⟩ := ht.mem_semanticChildren.1 hd
  rw [hnode] at hdesc hsees
  exact ⟨d, hdesc, hname, hsees⟩

namespace WellFormed
variable {t : SyntaxTree} (ht : WellFormed t)
include ht

theorem node_pathChildren_sublist (n : Nat) :
    ((t.pathChildren n).map (·.node)).Sublist (t.below n) := by
  rw [pathChildren, node_numberFrom]
  exact ht.semanticNodes_sublist n

theorem pairwise_pathChildren (n : Nat) :
    (t.pathChildren n).Pairwise fun a b => a.name = b.name → a.index < b.index :=
  pairwise_numberFrom fun _ hd => count_of_describe (ht.mem_semanticChildren.1 hd).1

/-- **A node has one child of a name and an index.** -/
theorem pathChild_inj {n : Nat} {c d : PathChild} (hc : c ∈ t.pathChildren n)
    (hd : d ∈ t.pathChildren n) (hname : c.name = d.name) (hindex : c.index = d.index) : c = d := by
  by_contra hne
  obtain ⟨i, hi, rfl⟩ := List.getElem_of_mem hc
  obtain ⟨j, hj, rfl⟩ := List.getElem_of_mem hd
  have hpair := List.pairwise_iff_getElem.1 (ht.pairwise_pathChildren n)
  rcases Nat.lt_trichotomy i j with hij | rfl | hij
  · exact absurd (hpair i j hi hj hij hname) (by omega)
  · exact hne rfl
  · exact absurd (hpair j i hj hi hij hname.symm) (by omega)

end WellFormed

end SyntaxTree

end AgentRules
