import AgentRules.Proofs.Path.Spelling
import AgentRules.Proofs.Text.LowerCase
import AgentRules.Proofs.Tree.Siblings

/-! # The paths of nodes

`Named` says what path a node has by what paths are made of: the root has its own, and a child that
paths see has the path of its parent with its index and name. In a well-formed tree this is what
`pathOf` computes (`pathOf_eq_some`), and two nodes have two paths (`Named.inj`). Nodes that are
hidden behind a separator or a second wrapper have none (`not_named_below`). -/

namespace AgentRules

theorem NodeKind.isLowerAlnum_of_pathName {k : NodeKind} {name : String} {count : CountKind}
    (h : k.pathName = some (name, count)) : ∀ c ∈ name.toList, Text.isLowerAlnum c = true := by
  cases k <;> simp only [pathName, Option.some.injEq, Prod.mk.injEq, reduceCtorEq] at h <;>
    obtain ⟨rfl, rfl⟩ := h <;> exact List.all_eq_true.1 (by decide)

namespace SyntaxTree

/-- A node with its path, put together from the root on. -/
inductive Named (t : SyntaxTree) : Nat → String → Prop
  | root : Named t 0 NodePath.root
  | child {n : Nat} {path : String} {c : PathChild} : Named t n path → c ∈ t.pathChildren n →
      Named t c.node (NodePath.child path c.index c.name)

namespace WellFormed
variable {t : SyntaxTree} (ht : WellFormed t)
include ht

theorem lt_of_mem_pathChildren {n : Nat} {c : PathChild} (hc : c ∈ t.pathChildren n) :
    n < c.node ∧ c.node < t.size := by
  obtain ⟨-, -, -, hsees⟩ := ht.describe_of_mem_pathChildren hc
  have hc : 0 < c.node := Nat.lt_of_le_of_lt (Nat.zero_le n) (ht.lt_of_sees hsees)
  refine ⟨ht.lt_of_sees hsees, ?_⟩
  rcases hsees with h | ⟨w, -, h, -⟩ <;> exact lt_size_of_parentOf h

theorem isLowerAlnum_of_mem_pathChildren {n : Nat} {c : PathChild} (hc : c ∈ t.pathChildren n) :
    ∀ x ∈ c.name.toList, Text.isLowerAlnum x = true := by
  obtain ⟨d, hd, hname, -⟩ := ht.describe_of_mem_pathChildren hc
  rw [← hname]
  exact NodeKind.isLowerAlnum_of_pathName (describe_eq_some.1 hd).2.1

theorem not_mem_name {n : Nat} {c : PathChild} (hc : c ∈ t.pathChildren n) {x : Char}
    (hx : Text.isLowerAlnum x = false) : x ∉ c.name.toList := fun h => by
  rw [ht.isLowerAlnum_of_mem_pathChildren hc x h] at hx
  cases hx

/-! ### Nodes with a path -/

theorem lt_size_of_named {n : Nat} {path : String} (h : Named t n path) : n < t.size := by
  cases h with
  | root => exact ht.size_pos
  | child _ hc => exact (ht.lt_of_mem_pathChildren hc).2

theorem described_of_named {n : Nat} {path : String} (h : Named t n path) :
    n = 0 ∨ ∃ c, t.describe n = some c := by
  cases h with
  | root => exact .inl rfl
  | child _ hc =>
    obtain ⟨d, hd, -⟩ := ht.describe_of_mem_pathChildren hc
    exact .inr ⟨d, hd⟩

theorem not_isWrapper_of_named {n : Nat} {path : String} (h : Named t n path) :
    t.isWrapper n = false := by
  rcases ht.described_of_named h with rfl | ⟨c, hc⟩
  · rw [isWrapper, ht.kind_root]
    rfl
  · exact isWrapper_of_describe hc

/-- **Two nodes have two paths.** -/
theorem named_inj {m n : Nat} {path : String} (hm : Named t m path) (hn : Named t n path) :
    m = n := by
  induction hm generalizing n with
  | root =>
    generalize hroot : NodePath.root = path at hn
    cases hn with
    | root => rfl
    | child => exact absurd hroot.symm (NodePath.child_ne_root _ _ _)
  | @child m p c _ hc ih =>
    generalize hpath : NodePath.child p c.index c.name = path at hn
    cases hn with
    | root => exact absurd hpath (NodePath.child_ne_root _ _ _)
    | @child n q d hq hd =>
      obtain ⟨hpq, hindex, hname⟩ := NodePath.child_inj (ht.not_mem_name hc (by decide))
        (ht.not_mem_name hd (by decide)) hpath
      rw [hpq] at ih
      cases ih hq
      rw [ht.pathChild_inj hc hd hname hindex]

theorem named_unique {n : Nat} {p q : String} (hp : Named t n p) (hq : Named t n q) : p = q := by
  induction hp generalizing q with
  | root =>
    generalize hzero : 0 = n at hq
    cases hq with
    | root => rfl
    | child _ hc =>
      have := ht.lt_of_mem_pathChildren hc
      omega
  | @child m p c hm hc ih =>
    generalize hnode : c.node = n at hq
    cases hq with
    | root =>
      have := ht.lt_of_mem_pathChildren hc
      omega
    | @child k r d hk hd =>
      -- both parents are what the node has as its parent in paths
      obtain ⟨-, -, -, hcm⟩ := ht.describe_of_mem_pathChildren hc
      obtain ⟨-, -, -, hdk⟩ := ht.describe_of_mem_pathChildren hd
      have hm' := ht.semanticParent_of_sees (ht.not_isWrapper_of_named hm) hcm
      have hk' := ht.semanticParent_of_sees (ht.not_isWrapper_of_named hk) hdk
      rw [hnode, hk'] at hm'
      cases hm'
      have hcd : c = d := List.inj_on_of_nodup_map
        ((ht.node_pathChildren_sublist m).nodup (ht.nodup_below m)) hc hd hnode
      rw [ih hk, hcd]

theorem pathOf_child {n : Nat} {path : String} {c : PathChild} (hn : t.isWrapper n = false)
    (hpath : t.pathOf n = some path) (hc : c ∈ t.pathChildren n) :
    t.pathOf c.node = some (NodePath.child path c.index c.name) := by
  obtain ⟨-, -, -, hsees⟩ := ht.describe_of_mem_pathChildren hc
  have hlt := ht.lt_of_sees hsees
  have hfind : (t.pathChildren n).find? (·.node = c.node) = some c := by
    cases hf : (t.pathChildren n).find? (·.node = c.node) with
    | none => exact absurd (decide_eq_true rfl) (List.find?_eq_none.1 hf c hc)
    | some d =>
      have hd : d.node = c.node := by simpa using List.find?_some hf
      exact congrArg some (List.inj_on_of_nodup_map
        ((ht.node_pathChildren_sublist n).nodup (ht.nodup_below n))
        (List.mem_of_find?_eq_some hf) hc hd)
  rw [ht.pathOf_eq (by omega), ht.semanticParent_of_sees hn hsees, Option.bind_some, hpath,
    Option.bind_some, hfind, Option.map_some]

/-- **`pathOf` computes the path of a node.** -/
theorem pathOf_eq_some {n : Nat} {path : String} : t.pathOf n = some path ↔ Named t n path := by
  constructor
  · intro h
    induction n using Nat.strongRecOn generalizing path with
    | _ n ih =>
      by_cases h0 : n = 0
      · subst h0
        rw [pathOf, if_pos rfl] at h
        cases h
        exact .root
      · rw [ht.pathOf_eq h0] at h
        obtain ⟨p, hp, h⟩ := Option.bind_eq_some_iff.1 h
        obtain ⟨q, hq, h⟩ := Option.bind_eq_some_iff.1 h
        obtain ⟨c, hc, rfl⟩ := Option.map_eq_some_iff.1 h
        have hcn : c.node = n := by simpa using List.find?_some hc
        rw [← hcn]
        exact .child (ih p (ht.lt_of_semanticParent hp) hq) (List.mem_of_find?_eq_some hc)
  · intro h
    induction h with
    | root => rw [pathOf, if_pos rfl]
    | child h hc ih => exact ht.pathOf_child (ht.not_isWrapper_of_named h) ih hc

/-! ### Nodes without a path -/

/-- Where a node is no child as paths see it, the way down ends. -/
theorem not_named_below {d x : Nat} {path : String} (hd : t.describe d = none)
    (hwrap : t.isWrapper d = true → ∃ p, t.parentOf d = some p ∧ t.isWrapper p = true)
    (h0 : d ≠ 0) (hx : x ∈ d :: t.below d) : ¬ Named t x path := fun h => by
  have self {q : String} : ¬ Named t d q := fun h => by
    rcases ht.described_of_named h with h | ⟨c, hc⟩
    · exact h0 h
    · rw [hd] at hc
      cases hc
  rw [List.mem_cons, ht.mem_below] at hx
  induction h with
  | root =>
    rcases hx with rfl | hx
    · exact h0 rfl
    · exact absurd (ht.lt_of_above hx) (Nat.not_lt_zero _)
  | @child n p c hn hc ih =>
    rcases hx with hx | hx
    · rw [← hx] at self
      exact self (.child hn hc)
    · obtain ⟨-, -, -, hsees⟩ := ht.describe_of_mem_pathChildren hc
      rcases hsees with hpar | ⟨w, hw, hcw, hwn⟩
      · rcases hx.cases_parent hpar with rfl | hx
        · exact self hn
        · exact ih (.inr hx)
      · rcases hx.cases_parent hcw with hdw | hx
        · -- a wrapper below a wrapper; what has a path is none
          rw [← hdw] at hw hwn
          obtain ⟨q, hq, hqw⟩ := hwrap hw
          rw [hwn] at hq
          cases hq
          rw [ht.not_isWrapper_of_named hn] at hqw
          cases hqw
        · rcases hx.cases_parent hwn with rfl | hx
          · exact self hn
          · exact ih (.inr hx)

end WellFormed

end SyntaxTree

end AgentRules
