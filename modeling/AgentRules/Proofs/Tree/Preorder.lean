import AgentRules.Proofs.Tree.Built
import Mathlib.Data.List.Nodup

/-! # The order of the nodes

`below t n` lists the nodes below a node in pre-order, every node before its children and siblings
as they are stored. In a well-formed tree these are the nodes that the node is above of
(`mem_below`), each of them once (`nodup_below`), and below the root stands all the rest
(`mem_below_root`). -/

namespace AgentRules.SyntaxTree

/-- The nodes below a node, every node before its children. -/
def below (t : SyntaxTree) (n : Nat) : List Nat :=
  (t.children n).flatMap fun c => if _ : n < c ∧ c < t.size then c :: below t c else []
termination_by t.size - n

/-- A node is above another one if it is its parent or above its parent. -/
inductive Above (t : SyntaxTree) : Nat → Nat → Prop
  | parent {p c : Nat} : t.parentOf c = some p → Above t p c
  | up {a p c : Nat} : Above t a p → t.parentOf c = some p → Above t a c

namespace Above
variable {t : SyntaxTree} {a b c p : Nat}

theorem trans (hab : Above t a b) (hbc : Above t b c) : Above t a c := by
  induction hbc with
  | parent h => exact .up hab h
  | up _ h ih => exact .up ih h

theorem cases_parent (h : Above t a c) (hp : t.parentOf c = some p) : a = p ∨ Above t a p := by
  cases h with
  | parent h => rw [hp] at h; cases h; exact .inl rfl
  | up h hq => rw [hp] at hq; cases hq; exact .inr h

/-- Of two nodes above a third one, one is above the other unless they are the same. -/
theorem comparable (ha : Above t a c) (hb : Above t b c) : a = b ∨ Above t a b ∨ Above t b a := by
  induction ha with
  | parent h =>
    rcases hb.cases_parent h with rfl | hb
    · exact .inl rfl
    · exact .inr (.inr hb)
  | up hap h ih =>
    rcases hb.cases_parent h with rfl | hb
    · exact .inr (.inl hap)
    · exact ih hb

end Above

namespace WellFormed
variable {t : SyntaxTree} (ht : WellFormed t)
include ht

theorem lt_of_above {a c : Nat} (h : Above t a c) : a < c := by
  induction h with
  | parent h => exact ht.lt_of_parentOf h
  | up _ h ih => exact Nat.lt_trans ih (ht.lt_of_parentOf h)

theorem below_eq (n : Nat) : t.below n = (t.children n).flatMap fun c => c :: t.below c := by
  rw [below]
  refine List.flatMap_congr fun c hc => ?_
  rw [dif_pos (ht.lt_of_mem_children hc)]

theorem above_of_mem_below {n c : Nat} (h : c ∈ t.below n) : Above t n c := by
  rw [ht.below_eq] at h
  obtain ⟨d, hd, hc⟩ := List.mem_flatMap.1 h
  have hlt := ht.lt_of_mem_children hd
  have hnd : Above t n d := .parent ((ht.mem_children n d).1 hd)
  rcases List.mem_cons.1 hc with rfl | hc
  · exact hnd
  · exact hnd.trans (above_of_mem_below hc)
termination_by t.size - n

theorem mem_below_of_parentOf {n p c : Nat} (h : p ∈ t.below n) (hc : t.parentOf c = some p) :
    c ∈ t.below n := by
  rw [ht.below_eq] at h ⊢
  obtain ⟨d, hd, hp⟩ := List.mem_flatMap.1 h
  have hlt := ht.lt_of_mem_children hd
  refine List.mem_flatMap.2 ⟨d, hd, List.mem_cons_of_mem _ ?_⟩
  rcases List.mem_cons.1 hp with rfl | hp
  · rw [ht.below_eq]
    exact List.mem_flatMap.2 ⟨c, (ht.mem_children _ c).2 hc, List.mem_cons_self⟩
  · exact mem_below_of_parentOf hp hc
termination_by t.size - n

theorem mem_below {n c : Nat} : c ∈ t.below n ↔ Above t n c := by
  refine ⟨ht.above_of_mem_below, fun h => ?_⟩
  induction h with
  | parent h =>
    rw [ht.below_eq]
    exact List.mem_flatMap.2 ⟨_, (ht.mem_children _ _).2 h, List.mem_cons_self⟩
  | up _ h ih => exact ht.mem_below_of_parentOf ih h

theorem not_above_parent {n c : Nat} (h : t.parentOf c = some n) : ¬ Above t c n := fun hc =>
  Nat.lt_asymm (ht.lt_of_above hc) (ht.lt_of_parentOf h)

theorem eq_of_mem_blocks {n c d x : Nat} (hc : t.parentOf c = some n) (hd : t.parentOf d = some n)
    (hxc : x ∈ c :: t.below c) (hxd : x ∈ d :: t.below d) : c = d := by
  rw [List.mem_cons, ht.mem_below] at hxc hxd
  have incomparable {a b : Nat} (ha : t.parentOf a = some n) (hb : t.parentOf b = some n) :
      ¬ Above t a b := fun hab => by
    rcases hab.cases_parent hb with rfl | hab
    · exact absurd (ht.lt_of_parentOf ha) (Nat.lt_irrefl _)
    · exact ht.not_above_parent ha hab
  rcases hxc with rfl | hxc <;> rcases hxd with hxd | hxd
  · exact hxd
  · exact absurd hxd (incomparable hd hc)
  · rw [hxd] at hxc
    exact absurd hxc (incomparable hc hd)
  · rcases hxc.comparable hxd with h | h | h
    · exact h
    · exact absurd h (incomparable hc hd)
    · exact absurd h (incomparable hd hc)

/-- **A node stands once in the order.** -/
theorem nodup_below (n : Nat) : (t.below n).Nodup := by
  rw [ht.below_eq, List.nodup_flatMap]
  refine ⟨fun c hc => ?_, ?_⟩
  · have hlt := ht.lt_of_mem_children hc
    refine List.nodup_cons.2 ⟨fun h => ?_, nodup_below c⟩
    exact absurd (ht.lt_of_above (ht.mem_below.1 h)) (Nat.lt_irrefl c)
  · refine (ht.nodup_children n).pairwise_of_forall_ne fun c hc d hd hne => ?_
    intro x hxc hxd
    exact hne (ht.eq_of_mem_blocks ((ht.mem_children n c).1 hc) ((ht.mem_children n d).1 hd)
      hxc hxd)
termination_by t.size - n

theorem above_root {n : Nat} (h0 : 0 < n) (hn : n < t.size) : Above t 0 n := by
  obtain ⟨p, hp, hpn⟩ := ht.exists_parent n h0 hn
  rcases Nat.eq_zero_or_pos p with rfl | hpos
  · exact .parent hpn
  · exact .up (above_root hpos (Nat.lt_trans hp hn)) hpn

theorem mem_below_root {n : Nat} : n ∈ t.below 0 ↔ 0 < n ∧ n < t.size := by
  rw [ht.mem_below]
  refine ⟨fun h => ⟨ht.lt_of_above h, ?_⟩, fun h => ht.above_root h.1 h.2⟩
  cases h with
  | parent h => exact lt_size_of_parentOf h
  | up _ h => exact lt_size_of_parentOf h

end WellFormed

end AgentRules.SyntaxTree
