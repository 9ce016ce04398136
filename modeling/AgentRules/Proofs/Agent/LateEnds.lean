import AgentRules.Proofs.Agent.Planted
import AgentRules.Proofs.Tree.Edits

/-! # Ends that are moved later

A branch is planted node by node, each with its final end. A node can also be hung into the tree
with an earlier end, which is moved to its place when all that is below the node is planted. The
tree is the same (`plant_late`): what is planted below does not look at the end of a node above. -/

namespace AgentRules

open Outcome

namespace SyntaxTree
variable {t u : SyntaxTree} {id parent start stop : Nat} {kind : NodeKind}

/-- The tree with another end of a node, wherever that is. -/
def withStop (t : SyntaxTree) (id stop : Nat) : SyntaxTree :=
  { t with nodes := t.nodes.modify id fun n => { n with stop := stop } }

theorem size_withStop : (t.withStop id stop).size = t.size := Array.size_modify

theorem add_withStop {place : Nat} (hid : id < t.size) :
    (t.withStop id place).add? parent kind start stop =
      (t.add? parent kind start stop).map fun u => u.withStop id place := by
  have hsize : (t.withStop id place).nodes.size = t.nodes.size := size_withStop
  have hspan : (t.withStop id place).isSpan start stop = t.isSpan start stop := rfl
  unfold add?
  rw [hsize, hspan]
  split
  · rfl
  · split
    · rfl
    · split
      · rfl
      · have hcomm : (t.withStop id place).nodes.modify parent
              (fun n => { n with children := n.children.push t.nodes.size }) =
            (t.nodes.modify parent
              fun n => { n with children := n.children.push t.nodes.size }).modify id
                fun n => { n with stop := place } := by
          refine Array.ext_getElem? fun i => ?_
          simp only [withStop, Array.getElem?_modify]
          cases t.nodes[i]? <;> split <;> split <;> rfl
        have hid' : id < (t.nodes.modify parent
            fun n => { n with children := n.children.push t.nodes.size }).size := by
          rwa [Array.size_modify]
        dsimp only [Except.map]
        rw [hcomm, ← push_modify _ _ _ hid']
        rfl

/-- A node is let in with an earlier end just as well. -/
theorem exists_add_early {early : Nat} (h : t.add? parent kind start stop = .ok u)
    (hspan : IsSpan t.source start early) :
    ∃ t', t.add? parent kind start early = .ok t' ∧ u = t'.withStop t.size stop := by
  obtain ⟨hparent, hkind, hsource, herror, hnodes⟩ := add_eq_ok h
  obtain ⟨t', ht'⟩ := exists_add_iff.2 ⟨hkind, hparent, hspan⟩
  obtain ⟨-, -, hsource', herror', hnodes'⟩ := add_eq_ok ht'
  refine ⟨t', ht', ?_⟩
  have hmove : u.nodes = t'.nodes.modify t.size fun n => { n with stop := stop } := by
    refine Array.ext_getElem? fun i => ?_
    rw [hnodes, hnodes', Array.getElem?_modify, Array.getElem?_push, Array.getElem?_push,
      Array.size_modify]
    by_cases hi : i = t.nodes.size
    · rw [if_pos hi, if_pos hi, if_pos (show t.size = i from hi.symm)]
      rfl
    · rw [if_neg hi, if_neg hi, if_neg (show t.size ≠ i from Ne.symm hi)]
  cases u
  cases t'
  simp_all [withStop]

theorem setStop_eq_withStop {n : Node} (hn : t.nodes[id]? = some n)
    (hspan : IsSpan t.source n.start stop) : t.setStop? id stop = .ok (t.withStop id stop) := by
  rw [setStop?, hn]
  dsimp only
  rw [if_neg (by simp [isSpan_iff.2 hspan])]
  rfl

end SyntaxTree

namespace Branch

open SyntaxTree

variable {t u : SyntaxTree} {parent start stop : Nat} {kind : NodeKind} {b : Branch}
  {bs cs : List Branch}

/-! ### Planting step by step -/

theorem plantAll_nil_iff : plantAll t parent [] = .ok u ↔ t = u := by
  rw [plantAll, Except.ok.injEq]

theorem plantAll_cons_iff : plantAll t parent (b :: bs) = .ok u ↔
    ∃ v, plant t parent b = .ok v ∧ plantAll v parent bs = .ok u := by
  rw [plantAll, bind_eq_ok_iff]

/-- The first branch is planted in a tree of the same source, in which the others are. -/
theorem plantAll_cons_ok (ht : Built t) (h : plantAll t parent (b :: bs) = .ok u) :
    ∃ v, plant t parent b = .ok v ∧ Built v ∧ v.source = t.source ∧
      plantAll v parent bs = .ok u := by
  obtain ⟨v, hv, hbs⟩ := plantAll_cons_iff.1 h
  have hplanted := planted_plant ht b hv
  exact ⟨v, hv, hplanted.built, hplanted.source, hbs⟩

theorem plantAll_append_iff : plantAll t parent (bs ++ cs) = .ok u ↔
    ∃ v, plantAll t parent bs = .ok v ∧ plantAll v parent cs = .ok u := by
  induction bs generalizing t with
  | nil => simp [plantAll_nil_iff]
  | cons b bs ih =>
    simp only [List.cons_append, plantAll_cons_iff, ih]
    constructor
    · rintro ⟨v, hv, w, hw, hu⟩
      exact ⟨w, ⟨v, hv, hw⟩, hu⟩
    · rintro ⟨w, ⟨v, hv, hw⟩, hu⟩
      exact ⟨v, hv, w, hw, hu⟩

theorem plant_mk_iff : plant t parent (.mk kind start stop bs) = .ok u ↔
    ∃ v, t.add? parent kind start stop = .ok v ∧ plantAll v t.size bs = .ok u := by
  rw [plant, bind_eq_ok_iff]

theorem plant_leaf_iff : plant t parent (.leaf kind start stop) = .ok u ↔
    t.add? parent kind start stop = .ok u := by
  rw [leaf, plant_mk_iff]
  simp [plantAll_nil_iff]

/-- A leaf and the node that wraps it are two nodes of one span. -/
theorem plant_wrap_iff {inner : NodeKind} :
    plant t parent (.wrap kind (.leaf inner start stop)) = .ok u ↔
      ∃ v, t.add? parent kind start stop = .ok v ∧ v.add? t.size inner start stop = .ok u := by
  rw [wrap, plant_mk_iff]
  simp only [plantAll_cons_iff, plantAll_nil_iff, plant_leaf_iff, exists_eq_right]
  rfl

/-! ### Late ends -/

mutual

theorem plant_withStop {t : SyntaxTree} {id place parent : Nat} (ht : Built t) (hid : id < t.size) :
    (b : Branch) → plant (t.withStop id place) parent b =
      (plant t parent b).map fun u => u.withStop id place
  | .mk kind start stop children => by
    rw [plant, plant, add_withStop hid, size_withStop]
    cases hadd : t.add? parent kind start stop with
    | error fault => rfl
    | ok u =>
      have hlt : id < u.size := by rw [size_add hadd]; omega
      exact plantAll_withStop (.add ht hadd) hlt children

theorem plantAll_withStop {t : SyntaxTree} {id place parent : Nat} (ht : Built t)
    (hid : id < t.size) : (bs : List Branch) → plantAll (t.withStop id place) parent bs =
      (plantAll t parent bs).map fun u => u.withStop id place
  | [] => rfl
  | b :: bs => by
    rw [plantAll, plantAll, plant_withStop ht hid b]
    cases hb : plant t parent b with
    | error fault => rfl
    | ok u =>
      have hplanted := planted_plant ht b hb
      exact plantAll_withStop hplanted.built (Nat.lt_of_lt_of_le hid hplanted.size_le) bs

end

/-- **An end can be moved when all below the node is planted.** -/
theorem plant_late {early : Nat} (ht : Built t)
    (h : plant t parent (.mk kind start stop bs) = .ok u) (hspan : IsSpan t.source start early) :
    ∃ v w, t.add? parent kind start early = .ok v ∧ plantAll v t.size bs = .ok w ∧
      w.setStop? t.size stop = .ok u := by
  obtain ⟨v', hv', hbelow⟩ := plant_mk_iff.1 h
  obtain ⟨v, hv, rfl⟩ := exists_add_early hv' hspan
  have hsize := size_add hv
  rw [plantAll_withStop (.add ht hv) (by omega)] at hbelow
  obtain ⟨w, hw, rfl⟩ := map_eq_ok_iff.1 hbelow
  have hplanted := planted_plantAll (.add ht hv) (by omega) bs hw
  have hextent : w.extentOf t.size = some ⟨kind, start, early⟩ := by
    rw [hplanted.extentOf t.size (by omega), extentOf_add hv, if_pos rfl]
  obtain ⟨n, hn, hn'⟩ := Option.map_eq_some_iff.1 hextent
  have hstart : n.start = start := congrArg Extent.start hn'
  refine ⟨v, w, hv, hw, setStop_eq_withStop hn ?_⟩
  rw [hplanted.source, (add_eq_ok hv).2.2.1, hstart]
  exact isSpan_of_add hv'

end Branch

end AgentRules
