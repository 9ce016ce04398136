import AgentRules.Announce
import AgentRules.Proofs.Fold
import AgentRules.Proofs.Segment.Slicing
import AgentRules.Proofs.Tree.Paths

/-! # What is announced

A notice is what a listener is told: a path, a value and a node. `notices` is the sequence of
notices of a tree, put together from what can be said of each node by itself: its path looked up
from the node, its text, and each run of segments cut out by a scan of its own.

Announcing a tree tells the listener exactly this sequence (`announceBelow_eq`), in whatever monad
it works and whatever the threshold for cutting ranges is. The nodes stand in the order of the
tree as paths see it (`semanticBelow`); these are the nodes of the tree that have a path, in the
order in which they are stored (`semanticBelow_eq`). -/

namespace AgentRules

/-- What a listener is told. -/
structure Notice where
  path : String
  value : String
  node : Nat
deriving Repr, DecidableEq

namespace SyntaxTree

/-- The nodes below a node as paths see them, every node before its children. -/
def semanticBelow (t : SyntaxTree) (n : Nat) : List Nat :=
  ((t.semanticChildren n).map (·.node)).flatMap fun c =>
    if _ : n < c ∧ c < t.size then c :: semanticBelow t c else []
termination_by t.size - n

/-- The runs of segments of a node that are asked for at its path. -/
def rangeNotices (t : SyntaxTree) (ranges : String → List WordRange) (path : String) (n : Nat) :
    List Notice :=
  match (t.kind n).splitting with
  | none => []
  | some splitting => (ranges path).filterMap fun r =>
      (splitting.range (t.text n) r.first r.last).map fun cut => ⟨path ++ r.pathForm, cut, n⟩

/-- What is said of one node: its text, and the runs of segments of it. -/
def nodeNotices (t : SyntaxTree) (ranges : String → List WordRange) (n : Nat) : List Notice :=
  match t.pathOf n with
  | none => []
  | some path => ⟨path, t.text n, n⟩ :: t.rangeNotices ranges path n

/-- **The notices of a tree**: the flag, the root, and then the nodes below it. -/
def notices (t : SyntaxTree) (ranges : String → List WordRange) : List Notice :=
  ⟨NodePath.syntaxError, t.flag, 0⟩ :: ⟨NodePath.root, t.text 0, 0⟩ ::
    (t.semanticBelow 0).flatMap (t.nodeNotices ranges)

/-! ### The order of the nodes -/

section Order
variable {t : SyntaxTree} (ht : WellFormed t)
include ht

theorem semanticBelow_eq_flatMap (n : Nat) :
    t.semanticBelow n = (t.pathChildren n).flatMap fun c => c.node :: t.semanticBelow c.node := by
  rw [semanticBelow, ← node_numberFrom {} (t.semanticChildren n), List.flatMap_map]
  refine List.flatMap_congr fun c hc => ?_
  rw [dif_pos (ht.lt_of_mem_pathChildren hc)]

/-- Behind a node that is no child as paths see it, no node has a path. -/
theorem filter_pathOf_eq_nil {d : Nat} (hd : t.describe d = none)
    (hwrap : t.isWrapper d = true → ∃ p, t.parentOf d = some p ∧ t.isWrapper p = true)
    (h0 : d ≠ 0) : (d :: t.below d).filter (fun x => (t.pathOf x).isSome) = [] := by
  rw [List.filter_eq_nil_iff]
  intro x hx hpath
  obtain ⟨path, hpath⟩ := Option.isSome_iff_exists.1 hpath
  exact ht.not_named_below hd hwrap h0 hx (ht.pathOf_eq_some.1 hpath)

/-- **The nodes that paths see stand in the order of the tree.** -/
theorem semanticBelow_eq {n : Nat} {path : String} (hn : Named t n path) :
    t.semanticBelow n = (t.below n).filter fun x => (t.pathOf x).isSome := by
  have block {c : PathChild} (hc : c ∈ t.pathChildren n) : c.node :: t.semanticBelow c.node =
      (c.node :: t.below c.node).filter fun x => (t.pathOf x).isSome := by
    have hlt := ht.lt_of_mem_pathChildren hc
    have hnamed := Named.child hn hc
    rw [List.filter_cons_of_pos (by rw [ht.pathOf_eq_some.2 hnamed]; rfl),
      semanticBelow_eq hnamed]
  have hnodes : (t.pathChildren n).map (·.node) = (t.semanticChildren n).map (·.node) :=
    node_numberFrom {} _
  have hblocks : t.semanticBelow n = ((t.semanticChildren n).map (·.node)).flatMap fun d =>
      (d :: t.below d).filter fun x => (t.pathOf x).isSome := by
    rw [semanticBelow_eq_flatMap ht, ← hnodes, List.flatMap_map]
    exact List.flatMap_congr fun c hc => block hc
  -- a described node is its own block; one that is not has no block
  have described {d : Nat} (h0 : d ≠ 0)
      (hwrap : t.isWrapper d = true → ∃ p, t.parentOf d = some p ∧ t.isWrapper p = true) :
      ((t.describe d).toList.map (·.node)).flatMap (fun d =>
        (d :: t.below d).filter fun x => (t.pathOf x).isSome) =
      (d :: t.below d).filter fun x => (t.pathOf x).isSome := by
    cases hd : t.describe d with
    | none => exact (filter_pathOf_eq_nil ht hd hwrap h0).symm
    | some c =>
      rw [Option.toList_some, List.map_singleton, List.flatMap_singleton, node_of_describe hd]
  rw [hblocks, ht.below_eq n, List.filter_flatMap, semanticChildren, List.map_flatMap,
    List.flatMap_assoc]
  refine List.flatMap_congr fun c hc => ?_
  have hcn := (ht.mem_children n c).1 hc
  have hc0 := ht.lt_of_parentOf hcn
  by_cases hw : t.isWrapper c = true
  · have hpath : t.pathOf c = none := by
      cases hp : t.pathOf c with
      | none => rfl
      | some path =>
        rw [ht.not_isWrapper_of_named (ht.pathOf_eq_some.1 hp)] at hw
        cases hw
    rw [if_pos hw, List.filter_cons_of_neg (by simp [hpath]), ht.below_eq c, List.filter_flatMap,
      List.filterMap_eq_flatMap_toList, List.map_flatMap, List.flatMap_assoc]
    refine List.flatMap_congr fun d hd => ?_
    have hdc := (ht.mem_children c d).1 hd
    have hd0 := ht.lt_of_parentOf hdc
    exact described (by omega) fun _ => ⟨c, hdc, hw⟩
  · rw [if_neg hw]
    exact described (by omega) fun h => absurd h hw
termination_by t.size - n
decreasing_by omega

end Order

/-! ### Telling a listener -/

section Listen
variable {m : Type → Type} [Monad m] [LawfulMonad m]

theorem cutRanges_eq (threshold : Nat) (s : Splitting) (value : String) (ranges : List WordRange) :
    cutRanges threshold s value ranges =
      ranges.filterMap fun r => (s.range value r.first r.last).map (r, ·) := by
  unfold cutRanges
  simp only [Splitting.rangeOfList_segments]
  exact ite_self _

variable (t : SyntaxTree) (threshold : Nat) (ranges : String → List WordRange) (listen : Listener m)

theorem announceRanges_eq (path : String) (n : Nat) :
    announceRanges threshold ranges listen path (t.text n) n (t.kind n).splitting =
      forM (t.rangeNotices ranges path n) fun x => listen x.path x.value x.node := by
  unfold announceRanges rangeNotices
  cases (t.kind n).splitting with
  | none => rfl
  | some s =>
    have hcut : (ranges path).filterMap (fun r => (s.range (t.text n) r.first r.last).map
          fun cut => (⟨path ++ r.pathForm, cut, n⟩ : Notice)) =
        (cutRanges threshold s (t.text n) (ranges path)).map fun rc =>
          ⟨path ++ rc.1.pathForm, rc.2, n⟩ := by
      rw [cutRanges_eq, List.map_filterMap]
      refine List.filterMap_congr fun r _ => ?_
      rw [Option.map_map]
      rfl
    simp only [hcut, List.forM_map]
    rfl

/-- **What is announced below a node is what is said of the nodes there.** -/
theorem announceBelow_eq (ht : WellFormed t) {n : Nat} {path : String} (hn : Named t n path) :
    t.announceBelow threshold ranges listen n path =
      forM ((t.semanticBelow n).flatMap (t.nodeNotices ranges)) fun x =>
        listen x.path x.value x.node := by
  rw [announceBelow, semanticBelow_eq_flatMap ht, List.flatMap_assoc, Fold.forM_flatMap]
  refine Fold.forM_congr fun c hc => ?_
  have hlt := ht.lt_of_mem_pathChildren hc
  have hnamed := Named.child hn hc
  rw [dif_pos hlt, List.flatMap_cons, List.forM_append, nodeNotices,
    ht.pathOf_eq_some.2 hnamed]
  simp only [List.forM_cons, bind_assoc, announceRanges_eq, announceBelow_eq ht hnamed]
termination_by t.size - n
decreasing_by omega

/-- **Announcing a tree tells its notices.** -/
theorem announce_eq (ht : WellFormed t) : t.announce threshold ranges listen =
    forM (t.notices ranges) fun x => listen x.path x.value x.node := by
  rw [announce, notices, List.forM_cons, List.forM_cons, announceBelow_eq _ _ _ _ ht .root]

end Listen

end SyntaxTree

end AgentRules
