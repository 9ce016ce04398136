import AgentRules.Chain.Walk
import AgentRules.Proofs.Tree.Siblings
import Mathlib.Data.List.Perm.Subperm

/-! # Moves among siblings

The siblings of a node are what its parent sees in order, the parent being found by going up and the
siblings by going down again. Whoever is found there finds the same row (`siblings_of_mem`), in which
each node has one place. So a move by an offset adds it to the place (`sibling_eq_some_iff`): moves
add up and can be taken back (`siblings_add_up`). -/

namespace AgentRules.SyntaxTree

variable {t : SyntaxTree} {id m : Nat} {a : Int}

/-- The nodes among which a node is looked for: what its parent sees, in order. -/
def siblings (t : SyntaxTree) (id : Nat) : List Nat :=
  (t.semanticParent id).elim [] fun parent => (t.semanticChildren parent).map (·.node)

theorem sibling_eq : t.sibling id a = ((t.siblings id).idxOf? id).bind fun place =>
    if (place : Int) + a < 0 then none else (t.siblings id)[((place : Int) + a).toNat]? := by
  unfold sibling siblings
  cases t.semanticParent id <;> rfl

namespace WellFormed
variable (ht : WellFormed t)
include ht

/-! ### The row of siblings -/

theorem isWrapper_of_semanticParent {p : Nat} (h : t.semanticParent id = some p) :
    t.isWrapper p = false := by
  induction id using Nat.strongRecOn with
  | _ id ih =>
    rw [ht.semanticParent_eq] at h
    obtain ⟨q, hq, h⟩ := Option.bind_eq_some_iff.1 h
    split at h
    · exact ih q (ht.lt_of_parentOf hq) h
    · next hw =>
      cases h
      exact Bool.eq_false_iff.2 hw

theorem of_mem_siblings (h : m ∈ t.siblings id) :
    t.semanticParent m = t.semanticParent id ∧ (t.describe m).isSome = true ∧ m < t.size := by
  unfold siblings at h
  cases hp : t.semanticParent id with
  | none =>
    rw [hp] at h
    cases h
  | some p =>
    rw [hp] at h
    obtain ⟨c, hc, rfl⟩ := List.mem_map.1 h
    obtain ⟨hdescribe, hsees⟩ := ht.mem_semanticChildren.1 hc
    refine ⟨ht.semanticParent_of_sees (ht.isWrapper_of_semanticParent hp) hsees, ?_, ?_⟩
    · rw [hdescribe]
      rfl
    · rcases hsees with h | ⟨w, -, h, -⟩ <;> exact lt_size_of_parentOf h

/-- **Siblings have the same siblings.** -/
theorem siblings_of_mem (h : m ∈ t.siblings id) : t.siblings m = t.siblings id := by
  rw [siblings, siblings, (ht.of_mem_siblings h).1]

theorem nodup_siblings (id : Nat) : (t.siblings id).Nodup := by
  unfold siblings
  cases t.semanticParent id with
  | none => exact .nil
  | some p => exact (ht.semanticNodes_sublist p).nodup (ht.nodup_below p)

theorem length_siblings_le (id : Nat) : (t.siblings id).length ≤ t.size := by
  have hsub : t.siblings id ⊆ List.range t.size := fun m hm =>
    List.mem_range.2 (ht.of_mem_siblings hm).2.2
  simpa using (List.subperm_of_subset (ht.nodup_siblings id) hsub).length_le

/-! ### Places in the row -/

/-- **A move adds its offset to the place of the node.** -/
theorem sibling_eq_some_iff : t.sibling id a = some m ↔ ∃ i j : Nat,
    (t.siblings id)[i]? = some id ∧ (t.siblings id)[j]? = some m ∧ (j : Int) = i + a := by
  rw [sibling_eq, Option.bind_eq_some_iff]
  constructor
  · rintro ⟨i, hi, h⟩
    obtain ⟨hlt, hid, -⟩ := List.idxOf?_eq_some_iff.1 hi
    split at h
    · cases h
    · exact ⟨i, _, List.getElem?_eq_some_iff.2 ⟨hlt, hid⟩, h, by omega⟩
  · rintro ⟨i, j, hi, hj, hij⟩
    obtain ⟨hlt, hid⟩ := List.getElem?_eq_some_iff.1 hi
    refine ⟨i, List.idxOf?_eq_some_iff.2 ⟨hlt, hid, fun k hk hkid => ?_⟩, ?_⟩
    · -- an earlier place of the same node would be a second one
      have := (ht.nodup_siblings id).getElem_inj_iff.1 (hkid.trans hid.symm)
      omega
    · rw [if_neg (by omega), show ((i : Int) + a).toNat = j by omega]
      exact hj

/-- From a sibling the row looks the same, and it stands where the move has led to. -/
theorem sibling_of_sibling (h : t.sibling id a = some m) (b : Int) :
    t.sibling m b = t.sibling id (a + b) := by
  obtain ⟨i, j, hi, hj, hij⟩ := ht.sibling_eq_some_iff.1 h
  have hrow := ht.siblings_of_mem (List.mem_of_getElem? hj)
  have place {k l x : Nat} (hk : (t.siblings id)[k]? = some x) (hl : (t.siblings id)[l]? = some x) :
      k = l :=
    (List.getElem?_inj (List.getElem?_eq_some_iff.1 hk).1 (ht.nodup_siblings id)).1
      (hk.trans hl.symm)
  refine Option.ext fun n => ?_
  rw [ht.sibling_eq_some_iff, ht.sibling_eq_some_iff, hrow]
  constructor
  · rintro ⟨j', k, hj', hk, hjk⟩
    have := place hj hj'
    exact ⟨i, k, hi, hk, by omega⟩
  · rintro ⟨i', k, hi', hk, hik⟩
    have := place hi hi'
    exact ⟨j, k, hj, hk, by omega⟩

/-- A move leads to no place outside the tree, so it is shorter than the tree is large. -/
theorem natAbs_lt_size (h : t.sibling id a = some m) : a.natAbs < t.size := by
  obtain ⟨i, j, hi, hj, hij⟩ := ht.sibling_eq_some_iff.1 h
  have hlength := ht.length_siblings_le id
  have hi := (List.getElem?_eq_some_iff.1 hi).1
  have hj := (List.getElem?_eq_some_iff.1 hj).1
  omega

end WellFormed

/-- What is described is no separator, for a separator has no name in paths. -/
theorem kind_ne_separator (h : (t.describe id).isSome = true) : t.kind id ≠ .separator := by
  intro hkind
  rw [describe, hkind] at h
  cases h

/-! ### Moves add up -/

/-- **Moves among siblings add up.** From where a move leads, any further move leads where the sum of
the two does, and the move back leads to the node itself. What is reached has the same parent in
paths and is neither a wrapper nor a separator. In a chain, moving forward and back again by the same
count is standing at the node, with its text as the value, whenever the move forward succeeds. -/
theorem siblings_add_up (ht : Built t) (id : Nat) :
    (∀ (a : Int) (m : Nat), t.sibling id a = some m →
      (∀ b, t.sibling m b = t.sibling id (a + b)) ∧ t.sibling m (-a) = some id ∧
      t.semanticParent m = t.semanticParent id ∧ t.isWrapper m = false ∧
      t.kind m ≠ .separator ∧ a.natAbs < t.size) ∧
    ∀ (n : Nat) (value : Option String) (rest : Chain),
      (Chain.walk t [.move (.next n)] id value).isSome = true →
      Chain.walk t (.move (.next n) :: .move (.prev n) :: rest) id value =
        Chain.walk t rest id none := by
  have hw := ht.wellFormed
  have back {a : Int} {m : Nat} (h : t.sibling id a = some m) : t.sibling m (-a) = some id := by
    obtain ⟨i, -, hi, -⟩ := hw.sibling_eq_some_iff.1 h
    rw [hw.sibling_of_sibling h, hw.sibling_eq_some_iff]
    exact ⟨i, i, hi, hi, by omega⟩
  refine ⟨fun a m h => ?_, fun n value rest h => ?_⟩
  · obtain ⟨-, j, -, hj, -⟩ := hw.sibling_eq_some_iff.1 h
    obtain ⟨hparent, hdescribe, -⟩ := hw.of_mem_siblings (List.mem_of_getElem? hj)
    obtain ⟨c, hc⟩ := Option.isSome_iff_exists.1 hdescribe
    exact ⟨hw.sibling_of_sibling h, back h, hparent, isWrapper_of_describe hc,
      kind_ne_separator hdescribe, hw.natAbs_lt_size h⟩
  · cases hm : t.sibling id n with
    | none => simp [Chain.walk, Move.target, hm] at h
    | some m => simp [Chain.walk, Move.target, hm, back hm]

/-- The name stands in a wrapper and the version does not; between them is a separator. -/
theorem siblings_add_up_nested : Built nested ∧ nested.sibling 3 1 = some 5 ∧
    nested.sibling 5 (-1) = some 3 ∧ nested.semanticParent 5 = nested.semanticParent 3 ∧
    Chain.walk nested [.move (.next 1), .move (.prev 1)] 3 none = some (3, "ab") := by
  have hw := built_nested.wellFormed
  have hparent : nested.semanticParent 3 = some 1 := by
    refine hw.semanticParent_of_sees (by decide) (.inr ⟨2, by decide, by decide, by decide⟩)
  have hmove : nested.sibling 3 1 = some 5 := by
    rw [hw.sibling_eq_some_iff, siblings, hparent]
    exact ⟨0, 1, by decide, by decide, by decide⟩
  obtain ⟨hmoves, hwalk⟩ := siblings_add_up built_nested 3
  obtain ⟨-, hback, hsame, -⟩ := hmoves 1 5 hmove
  have htext : nested.text 3 = "ab" := by decide +kernel
  refine ⟨built_nested, hmove, hback, hsame, ?_⟩
  rw [hwalk 1 none [] (by simp [Chain.walk, Move.target, hmove]), Chain.walk, Option.getD_none, htext]

end AgentRules.SyntaxTree
