import AgentRules.Outcome
import AgentRules.Proofs.Agent.Planting

/-! # What a planted tree shows

A node shows what it is and where it stands (`Extent`). A tree shows its branches when, for every
node, the extents from the node up to the root (`lineage`) and those of its children in order (`row`)
are those of a branch; its childless nodes are then the childless branches in order (`leaves`).

Planting adds nodes behind those that are there, lengthens the row of one of them and leaves all
others alone (`Branch.Planted`). So whatever relates every branch to what is above and right below
it relates every node to its lineage and its row (`planted_of_parse`). -/

namespace AgentRules

open Outcome

/-- What a node is and where it stands. -/
structure Extent where
  kind : NodeKind
  start : Nat
  stop : Nat
deriving Repr, DecidableEq

def Node.extent (n : Node) : Extent := ⟨n.kind, n.start, n.stop⟩

namespace SyntaxTree

def extentOf (t : SyntaxTree) (id : Nat) : Option Extent := (t.nodes[id]?).map Node.extent

/-- The extents of a node and of all nodes above it, the root last. -/
def lineage (t : SyntaxTree) (id : Nat) : List Extent :=
  (t.extentOf id).toList ++
    match t.parentOf id with
    | some p => if _ : p < id then lineage t p else []
    | none => []
termination_by id

/-- The extents of the children of a node, in order. -/
def row (t : SyntaxTree) (id : Nat) : List Extent := (t.children id).filterMap t.extentOf

/-- The extents of the childless nodes from a node on. -/
def leavesFrom (t : SyntaxTree) (id : Nat) : List Extent :=
  (List.range' id (t.size - id)).filterMap fun n => if t.row n = [] then t.extentOf n else none

/-- The extents of the childless nodes, in order. -/
def leaves (t : SyntaxTree) : List Extent := t.leavesFrom 0

theorem lineage_eq {t : SyntaxTree} (ht : WellFormed t) (id : Nat) :
    t.lineage id = (t.extentOf id).toList ++ (t.parentOf id).elim [] t.lineage := by
  rw [lineage]
  cases hp : t.parentOf id with
  | none => rfl
  | some p =>
    dsimp only
    rw [dif_pos (ht.lt_of_parentOf hp), Option.elim_some]

theorem lineage_markSyntaxError (t : SyntaxTree) (id : Nat) :
    t.markSyntaxError.lineage id = t.lineage id := by
  induction id using Nat.strongRecOn with
  | _ id ih =>
    have hextent : t.markSyntaxError.extentOf id = t.extentOf id := rfl
    have hparent : t.markSyntaxError.parentOf id = t.parentOf id := rfl
    rw [lineage, lineage, hextent, hparent]
    cases t.parentOf id with
    | none => rfl
    | some p =>
      by_cases hp : p < id
      · simp only [dif_pos hp, ih p hp]
      · simp only [dif_neg hp]

/-! ### Adding a node -/

section Add
variable {t u : SyntaxTree} {parent start stop : Nat} {kind : NodeKind}
  (h : t.add? parent kind start stop = .ok u)
include h

theorem extentOf_add (id : Nat) :
    u.extentOf id = if id = t.size then some ⟨kind, start, stop⟩ else t.extentOf id := by
  rw [extentOf, getElem?_add h]
  split
  · rfl
  · split
    · rw [extentOf]
      cases t.nodes[id]? <;> rfl
    · rfl

theorem lineage_add_of_lt {id : Nat} (hid : id < t.size) : u.lineage id = t.lineage id := by
  induction id using Nat.strongRecOn with
  | _ id ih =>
    have hne : id ≠ t.size := Nat.ne_of_lt hid
    rw [lineage, lineage, extentOf_add h, if_neg hne, parentOf_add h, if_neg hne]
    cases t.parentOf id with
    | none => rfl
    | some p =>
      by_cases hp : p < id
      · simp only [dif_pos hp, ih p hp (Nat.lt_trans hp hid)]
      · simp only [dif_neg hp]

theorem lineage_add_size : u.lineage t.size = ⟨kind, start, stop⟩ :: t.lineage parent := by
  have hparent : parent < t.size := (add_eq_ok h).1
  rw [lineage, extentOf_add h, if_pos rfl, parentOf_add h, if_pos rfl]
  simp only [dif_pos hparent, lineage_add_of_lt h hparent]
  rfl

theorem row_add (ht : WellFormed t) (id : Nat) :
    u.row id = t.row id ++ if id = parent then [⟨kind, start, stop⟩] else [] := by
  have hold : (t.children id).filterMap u.extentOf = t.row id := by
    refine List.filterMap_congr fun c hc => ?_
    have hlt := (ht.lt_of_mem_children hc).2
    rw [extentOf_add h, if_neg (Nat.ne_of_lt hlt)]
  rw [row, children_add h, List.filterMap_append, hold]
  congr 1
  split
  · rw [List.filterMap_cons, extentOf_add h, if_pos rfl]
    rfl
  · rfl

end Add

end SyntaxTree

namespace Branch

open SyntaxTree

/-! ### Branches -/

def extent : Branch → Extent
  | mk kind start stop _ => ⟨kind, start, stop⟩

mutual

/-- The extents of what is childless in a branch, in order. -/
def leaves : Branch → List Extent
  | mk kind start stop [] => [⟨kind, start, stop⟩]
  | mk _ _ _ (c :: cs) => leaves c ++ leavesAll cs

/-- The extents of what is childless in branches, in order. -/
def leavesAll : List Branch → List Extent
  | [] => []
  | b :: bs => leaves b ++ leavesAll bs

end

theorem leaves_mk {kind : NodeKind} {start stop : Nat} {children : List Branch} :
    leaves (mk kind start stop children) =
      if children = [] then [⟨kind, start, stop⟩] else leavesAll children := by
  cases children with
  | nil => rw [leaves, if_pos rfl]
  | cons c cs => rw [leaves, if_neg (List.cons_ne_nil c cs), leavesAll]

/-- `Q` relates the branch and all below it to the extents on the way up, which start with those
above the branch, and to the extents right below. -/
inductive Every (Q : List Extent → List Extent → Prop) : List Extent → Branch → Prop
  | mk {above : List Extent} {kind : NodeKind} {start stop : Nat} {children : List Branch} :
      Q (⟨kind, start, stop⟩ :: above) (children.map extent) →
      (∀ b ∈ children, Every Q (⟨kind, start, stop⟩ :: above) b) →
      Every Q above (.mk kind start stop children)

/-! ### Planting -/

/-- What planting branches under a node does to a tree. -/
structure Planted (t u : SyntaxTree) (parent : Nat) (bs : List Branch) : Prop where
  built : Built u
  source : u.source = t.source
  size_le : t.size ≤ u.size
  extentOf : ∀ id < t.size, u.extentOf id = t.extentOf id
  lineage : ∀ id < t.size, u.lineage id = t.lineage id
  row : ∀ id < t.size, u.row id = t.row id ++ if id = parent then bs.map extent else []
  every : ∀ Q, (∀ b ∈ bs, Every Q (t.lineage parent) b) →
    ∀ id, t.size ≤ id → id < u.size → Q (u.lineage id) (u.row id)
  leaves : u.leavesFrom t.size = leavesAll bs

namespace Planted
variable {t u v : SyntaxTree} {parent : Nat} {bs : List Branch}

theorem nil (ht : Built t) : Planted t t parent [] where
  built := ht
  source := rfl
  size_le := Nat.le_refl _
  extentOf _ _ := rfl
  lineage _ _ := rfl
  row id _ := by simp
  every Q _ id hle hlt := absurd hlt (Nat.not_lt.2 hle)
  leaves := by
    rw [leavesFrom, Nat.sub_self]
    rfl

/-- Nodes that are there stay childless or not, but for the one that is planted under. -/
theorem leavesFrom_between (h : Planted u v parent bs) {k : Nat} (hk : k ≤ u.size)
    (hparent : parent < k) : v.leavesFrom k = u.leavesFrom k ++ leavesAll bs := by
  have hsplit : List.range' k (v.size - k) =
      List.range' k (u.size - k) ++ List.range' u.size (v.size - u.size) := by
    have hle := h.size_le
    have hstart : k + (u.size - k) = u.size := by omega
    have hlength : u.size - k + (v.size - u.size) = v.size - k := by omega
    rw [← hlength, ← List.range'_append_1, hstart]
  rw [SyntaxTree.leavesFrom, hsplit, List.filterMap_append, ← h.leaves]
  refine congrArg (· ++ v.leavesFrom u.size) (List.filterMap_congr fun n hn => ?_)
  obtain ⟨hle, hlt⟩ := List.mem_range'_1.1 hn
  have hn : n < u.size := by omega
  have hrow : v.row n = u.row n := by
    rw [h.row n hn, if_neg (by omega), List.append_nil]
  rw [hrow, h.extentOf n hn]

theorem cons {b : Branch} (hparent : parent < t.size) (hb : Planted t u parent [b])
    (hbs : Planted u v parent bs) : Planted t v parent (b :: bs) where
  built := hbs.built
  source := hbs.source.trans hb.source
  size_le := Nat.le_trans hb.size_le hbs.size_le
  extentOf id hid :=
    (hbs.extentOf id (Nat.lt_of_lt_of_le hid hb.size_le)).trans (hb.extentOf id hid)
  lineage id hid := (hbs.lineage id (Nat.lt_of_lt_of_le hid hb.size_le)).trans (hb.lineage id hid)
  row id hid := by
    rw [hbs.row id (Nat.lt_of_lt_of_le hid hb.size_le), hb.row id hid]
    split
    · rw [List.append_assoc, ← List.map_append]
      rfl
    · rw [List.append_nil]
  every Q hQ id hle hlt := by
    obtain ⟨hQb, hQbs⟩ := List.forall_mem_cons.1 hQ
    by_cases hid : id < u.size
    · have hold := hb.every Q (by simpa using hQb) id hle hid
      rw [hbs.lineage id hid, hbs.row id hid, if_neg (by omega), List.append_nil]
      exact hold
    · refine hbs.every Q ?_ id (Nat.not_lt.1 hid) hlt
      rw [hb.lineage parent hparent]
      exact hQbs
  leaves := by
    rw [hbs.leavesFrom_between hb.size_le hparent, hb.leaves]
    simp [leavesAll]

theorem node {kind : NodeKind} {start stop : Nat} {children : List Branch} (ht : Built t)
    (h : t.add? parent kind start stop = .ok u) (hbelow : Planted u v t.size children) :
    Planted t v parent [.mk kind start stop children] := by
  have hsize := size_add h
  have hparent : parent < t.size := (add_eq_ok h).1
  have hrow : v.row t.size = children.map extent := by
    have hnone : t.row t.size = [] := by
      have hget : t.nodes[t.size]? = none := Array.getElem?_eq_none (Nat.le_refl _)
      rw [SyntaxTree.row, SyntaxTree.children, hget]
      rfl
    rw [hbelow.row t.size (by omega), if_pos rfl, row_add h ht.wellFormed, hnone,
      if_neg (Nat.ne_of_gt hparent)]
    rfl
  have hlineage : v.lineage t.size = ⟨kind, start, stop⟩ :: t.lineage parent := by
    rw [hbelow.lineage t.size (by omega), lineage_add_size h]
  have hextent : v.extentOf t.size = some ⟨kind, start, stop⟩ := by
    rw [hbelow.extentOf t.size (by omega), extentOf_add h, if_pos rfl]
  refine ⟨hbelow.built, hbelow.source.trans (add_eq_ok h).2.2.1, ?_, fun id hid => ?_,
    fun id hid => ?_, fun id hid => ?_, fun Q hQ id hle hlt => ?_, ?_⟩
  · have := hbelow.size_le
    omega
  · rw [hbelow.extentOf id (by omega), extentOf_add h, if_neg (Nat.ne_of_lt hid)]
  · rw [hbelow.lineage id (by omega), lineage_add_of_lt h hid]
  · rw [hbelow.row id (by omega), if_neg (Nat.ne_of_lt hid), List.append_nil,
      row_add h ht.wellFormed]
    rfl
  · rcases hQ _ List.mem_cons_self with ⟨hown, hchildren⟩
    rcases Nat.eq_or_lt_of_le hle with rfl | hlt'
    · rw [hlineage, hrow]
      exact hown
    · refine hbelow.every Q ?_ id (by omega) hlt
      rw [lineage_add_size h]
      exact hchildren
  · -- the node itself is childless just if nothing is planted below it
    have hle := hbelow.size_le
    have hleaves := hbelow.leaves
    have hfirst : List.range' t.size (v.size - t.size) =
        t.size :: List.range' u.size (v.size - u.size) := by
      rw [show v.size - t.size = (v.size - u.size) + 1 by omega, List.range'_succ, hsize]
    rw [leavesFrom] at hleaves ⊢
    rw [hfirst, List.filterMap_cons, hrow, hextent, hleaves, leavesAll, leavesAll, leaves_mk,
      List.append_nil]
    cases children with
    | nil => rfl
    | cons c cs => simp

end Planted

mutual

theorem planted_plant {t u : SyntaxTree} {parent : Nat} (ht : Built t) :
    (b : Branch) → plant t parent b = .ok u → Planted t u parent [b]
  | .mk kind start stop children, h => by
    rw [plant] at h
    obtain ⟨t', ht', h⟩ := bind_eq_ok_iff.1 h
    have hsize := size_add ht'
    exact .node ht ht' (planted_plantAll (.add ht ht') (by omega) children h)

/-- **Planting shows the branches.** -/
theorem planted_plantAll {t u : SyntaxTree} {parent : Nat} (ht : Built t)
    (hparent : parent < t.size) :
    (bs : List Branch) → plantAll t parent bs = .ok u → Planted t u parent bs
  | [], h => by
    rw [plantAll] at h
    cases h
    exact .nil ht
  | b :: bs, h => by
    rw [plantAll] at h
    obtain ⟨t', ht', h⟩ := bind_eq_ok_iff.1 h
    have hb := planted_plant ht b ht'
    exact hb.cons hparent
      (planted_plantAll hb.built (Nat.lt_of_lt_of_le hparent hb.size_le) bs h)

end

end Branch

/-! ### The tree of a text -/

namespace Grammar

open Branch SyntaxTree

def forest (text : String) : List Branch := (items 0 (Token.scan text)).1

/-- **The tree of a text shows its branches.** -/
theorem planted_of_parse {text : String} {t : SyntaxTree} (h : parse text = .ok t) :
    Planted (ofSource text) t 0 (forest text) := by
  rw [parse] at h
  obtain ⟨u, hu, h⟩ := bind_eq_ok_iff.1 h
  have hplanted : Planted (ofSource text) u 0 (forest text) :=
    planted_plantAll (.ofSource text) Nat.one_pos _ hu
  split at h
  · cases h
    have hlineage := funext (lineage_markSyntaxError u)
    refine ⟨.markSyntaxError hplanted.built, hplanted.source, hplanted.size_le,
      hplanted.extentOf, ?_, hplanted.row, ?_, hplanted.leaves⟩
    · rw [hlineage]
      exact hplanted.lineage
    · rw [hlineage]
      exact hplanted.every
  · cases h
    exact hplanted

def rootExtent (text : String) : Extent := ⟨.agent, 0, Text.size text⟩

/-- **What relates the root and all branches to what is above and right below them relates every
node** to its lineage and its row. -/
theorem every_of_parse {text : String} {t : SyntaxTree} (h : parse text = .ok t)
    {Q : List Extent → List Extent → Prop} (hroot : Q [rootExtent text] ((forest text).map extent))
    (hforest : ∀ b ∈ forest text, Every Q [rootExtent text] b) :
    ∀ id < t.size, Q (t.lineage id) (t.row id) := by
  have hplanted := planted_of_parse h
  have hlineage : (ofSource text).lineage 0 = [rootExtent text] := by
    rw [lineage]
    rfl
  intro id hid
  rcases Nat.eq_zero_or_pos id with rfl | hpos
  · rw [hplanted.lineage 0 Nat.one_pos, hplanted.row 0 Nat.one_pos, hlineage]
    exact hroot
  · exact hplanted.every Q (by rwa [hlineage]) id hpos hid

theorem built_of_parse {text : String} {t : SyntaxTree} (h : parse text = .ok t) : Built t :=
  (planted_of_parse h).built

end Grammar

end AgentRules
