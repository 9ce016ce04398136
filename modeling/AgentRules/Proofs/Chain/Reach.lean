import AgentRules.Index.Compile
import AgentRules.Proofs.Announce.Told
import AgentRules.Proofs.Chain.Walks
import Mathlib.Data.List.Induction
import Mathlib.Data.List.Perm.Subperm

/-! # Going down by paths

Steps down can be written out into paths, one for each choice of child indices (`spread`). The nodes
that have one of these paths are the nodes that a walk down reaches, and they stand in the order of
the tree in which the walk tries them (`filter_spread`). -/

namespace AgentRules

open SyntaxTree Chain

/-- The paths that steps down can be written out into. -/
def spread (paths : List String) (downs : List (IndexRange × String)) : List String :=
  downs.foldl (fun ps d => ps.flatMap fun p => d.1.toList.map fun i => NodePath.child p i d.2) paths

theorem spread_append (paths : List String) (downs : List (IndexRange × String))
    (range : IndexRange) (name : String) : spread paths (downs ++ [(range, name)]) =
      (spread paths downs).flatMap fun p => range.toList.map fun i => NodePath.child p i name := by
  rw [spread, List.foldl_append]
  rfl

theorem IndexRange.mem_toList {r : IndexRange} {i : Nat} :
    i ∈ r.toList ↔ r.start ≤ i ∧ i ≤ r.stop := by
  unfold toList count
  rw [List.mem_range'_1]
  omega

namespace SyntaxTree
variable {t : SyntaxTree} (ht : WellFormed t)
include ht

/-! ### Candidates -/

/-- Ending the search at the first index beyond the range leaves nothing out. -/
theorem candidates_eq (n : Nat) (range : IndexRange) (name : String) :
    t.candidates n range name =
      ((t.pathChildren n).filter fun c => c.name = name ∧ range.has c.index).map (·.node) := by
  have hsorted : ((t.pathChildren n).filter (·.name = name)).Pairwise (·.index < ·.index) := by
    rw [List.pairwise_filter]
    refine (ht.pairwise_pathChildren n).imp fun h ha hb => h ?_
    simp only [decide_eq_true_eq] at ha hb
    exact ha.trans hb.symm
  have htake {l : List PathChild} (hl : l.Pairwise (·.index < ·.index)) :
      l.takeWhile (·.index ≤ range.stop) = l.filter (·.index ≤ range.stop) := by
    induction hl with
    | nil => rfl
    | @cons c l hc hl ih =>
      rw [List.takeWhile_cons, List.filter_cons]
      by_cases hle : c.index ≤ range.stop
      · rw [if_pos (by simpa using hle), if_pos (by simpa using hle), ih]
      · rw [if_neg (by simpa using hle), if_neg (by simpa using hle), eq_comm,
          List.filter_eq_nil_iff]
        intro d hd
        have := hc d hd
        simp only [decide_eq_true_eq]
        omega
  unfold candidates
  rw [htake hsorted, List.filter_filter, List.filter_filter]
  congr 1
  refine List.filter_congr fun c _ => ?_
  rw [Bool.eq_iff_iff]
  simp only [IndexRange.has, Bool.and_eq_true, decide_eq_true_eq]
  tauto

theorem mem_candidates {n m : Nat} {range : IndexRange} {name : String} :
    m ∈ t.candidates n range name ↔ ∃ c ∈ t.pathChildren n,
      c.node = m ∧ c.name = name ∧ range.start ≤ c.index ∧ c.index ≤ range.stop := by
  rw [candidates_eq ht, List.mem_map]
  simp only [List.mem_filter, IndexRange.has, Bool.and_eq_true, decide_eq_true_eq]
  constructor
  · rintro ⟨c, ⟨hc, hname, hindex⟩, rfl⟩
    exact ⟨c, hc, rfl, hname, hindex⟩
  · rintro ⟨c, hc, rfl, hname, hindex⟩
    exact ⟨c, ⟨hc, hname, hindex⟩, rfl⟩

/-! ### Nodes that are reached -/

/-- **What is reached stands in the order of the tree.** -/
theorem reach_sublist (downs : List (IndexRange × String)) (n : Nat) :
    (reach t downs n).Sublist (n :: t.semanticBelow n) := by
  induction downs generalizing n with
  | nil => exact List.singleton_sublist.2 List.mem_cons_self
  | cons d downs ih =>
    obtain ⟨range, name⟩ := d
    rw [reach, candidates_eq ht, List.flatMap_map, semanticBelow_eq_flatMap ht]
    refine .cons _ ?_
    refine .trans (List.Sublist.flatMap_right _ fun c _ => ih c.node) ?_
    exact List.Sublist.flatMap List.filter_sublist _

/-- **The nodes that are reached are those whose path is written out.** -/
theorem mem_reach {downs : List (IndexRange × String)}
    (hnames : ∀ d ∈ downs, ')' ∉ d.2.toList) {n : Nat} :
    n ∈ reach t downs 0 ↔ ∃ p ∈ spread [NodePath.root] downs, Named t n p := by
  induction downs using List.reverseRec generalizing n with
  | nil =>
    show n ∈ [0] ↔ ∃ p ∈ [NodePath.root], Named t n p
    constructor
    · intro h
      rw [List.mem_singleton.1 h]
      exact ⟨_, List.mem_singleton_self _, .root⟩
    · rintro ⟨p, hp, hn⟩
      rw [List.mem_singleton.1 hp] at hn
      exact List.mem_singleton.2 (ht.named_inj hn .root)
  | append_singleton downs d ih =>
    obtain ⟨range, name⟩ := d
    have ih := @ih fun d hd => hnames d (List.mem_append_left _ hd)
    have hname : ')' ∉ name.toList := hnames (range, name) (by simp)
    rw [reach_append, spread_append, List.mem_flatMap]
    simp only [List.mem_flatMap, List.mem_map, IndexRange.mem_toList]
    constructor
    · rintro ⟨m, hm, hn⟩
      obtain ⟨p, hp, hmp⟩ := ih.1 hm
      obtain ⟨c, hc, rfl, rfl, hindex⟩ := (mem_candidates ht).1 hn
      exact ⟨_, ⟨p, hp, c.index, hindex, rfl⟩, .child hmp hc⟩
    · rintro ⟨q, ⟨p, hp, i, hi, rfl⟩, hn⟩
      generalize hq : NodePath.child p i name = q at hn
      cases hn with
      | root => exact absurd hq (NodePath.child_ne_root _ _ _)
      | @child m path c hm hc =>
        obtain ⟨hpath, hindex, hcname⟩ :=
          NodePath.child_inj hname (ht.not_mem_name hc (by decide)) hq
        rw [hpath] at hp
        rw [hindex] at hi
        exact ⟨m, ih.2 ⟨path, hp, hm⟩, (mem_candidates ht).2 ⟨c, hc, rfl, hcname.symm, hi⟩⟩

omit ht in
/-- A part of a list without repetitions is known by its members. -/
theorem filter_mem_eq {l k : List Nat} (hl : l.Nodup) (hk : k.Sublist l) :
    l.filter (· ∈ k) = k := by
  have hself : k.filter (· ∈ k) = k := List.filter_eq_self.2 fun a ha => decide_eq_true ha
  have hsub : k.Sublist (l.filter (· ∈ k)) := by
    have := hk.filter (· ∈ k)
    rwa [hself] at this
  have hsubset : l.filter (· ∈ k) ⊆ k := fun a ha => by
    simpa using (List.mem_filter.1 ha).2
  exact (hsub.eq_of_length_le ((hl.filter _).subperm hsubset).length_le).symm

/-- **Walking down is looking through the tree for the paths.** -/
theorem filter_spread {downs : List (IndexRange × String)}
    (hnames : ∀ d ∈ downs, ')' ∉ d.2.toList) :
    ((0 :: t.semanticBelow 0).filter fun n =>
      (t.pathOf n).any (· ∈ spread [NodePath.root] downs)) = reach t downs 0 := by
  have hnodup : (0 :: t.semanticBelow 0).Nodup := by
    refine List.nodup_cons.2 ⟨fun h => ?_, nodup_semanticBelow_root ht⟩
    exact Nat.lt_irrefl 0 ((mem_semanticBelow_root ht).1 h).1
  refine .trans ?_ (filter_mem_eq hnodup (reach_sublist ht downs 0))
  refine List.filter_congr fun n _ => ?_
  rw [Bool.eq_iff_iff, Option.any_eq_true, decide_eq_true_eq, mem_reach ht hnames]
  simp only [ht.pathOf_eq_some, decide_eq_true_eq]
  exact exists_congr fun p => and_comm

end SyntaxTree

end AgentRules
