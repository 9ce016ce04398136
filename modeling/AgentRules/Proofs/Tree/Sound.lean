import AgentRules.Proofs.Text.Boundaries
import AgentRules.Proofs.Tree.Built

/-! # Sound trees

A tree that is built holds what readers of trees rely on (`Sound`): its root is the only agent and
the only node without a parent, parents come first, both ends of the link between a parent and a
child say the same, and every node covers a span of the source, which can be cut out.

Parents and paths are found by going up. `Climbs` and `Spells` are the loop and the recursion as they
are written, with nothing that would make them end. As parents come first, they end at every node of
a built tree, with `semanticParent` and `pathOf` (`climbs_iff`, `spells_iff`). -/

namespace AgentRules.SyntaxTree

variable {t u : SyntaxTree} {id parent start stop : Nat} {kind : NodeKind}

/-! ### Spans -/

theorem isSpan_iff : t.isSpan start stop = true ↔ IsSpan t.source start stop := by
  rw [isSpan, Bool.and_eq_true, Bool.and_eq_true, decide_eq_true_eq]
  exact ⟨fun h => ⟨h.1.1, h.1.2, h.2⟩, fun h => ⟨⟨h.le, h.start_boundary⟩, h.stop_boundary⟩⟩

theorem isSpan_of_add (h : t.add? parent kind start stop = .ok u) : IsSpan t.source start stop := by
  rw [← isSpan_iff]
  unfold add? at h
  split at h
  · cases h
  · split at h
    · cases h
    · split at h
      · cases h
      · next hspan => simpa using hspan

theorem isSpan_of_setStop (h : t.setStop? id stop = .ok u) :
    ∃ n, t.nodes[id]? = some n ∧ IsSpan t.source n.start stop := by
  unfold setStop? at h
  split at h
  · cases h
  · next n hn =>
    split at h
    · cases h
    · next hspan => exact ⟨n, hn, isSpan_iff.1 (by simpa using hspan)⟩

/-- **A node is let in** if it is no second root, hangs under an earlier one and covers a span. -/
theorem exists_add_iff : (∃ u, t.add? parent kind start stop = .ok u) ↔
    kind ≠ .agent ∧ parent < t.size ∧ IsSpan t.source start stop := by
  constructor
  · rintro ⟨u, hu⟩
    obtain ⟨hparent, hkind, -⟩ := add_eq_ok hu
    exact ⟨hkind, hparent, isSpan_of_add hu⟩
  · rintro ⟨hkind, hparent, hspan⟩
    have hsize : ¬ t.nodes.size ≤ parent := Nat.not_le.2 hparent
    rw [add?, if_neg hkind, if_neg hsize, if_neg (by simp [isSpan_iff.2 hspan])]
    exact ⟨_, rfl⟩

theorem exists_setStop_iff : (∃ u, t.setStop? id stop = .ok u) ↔
    ∃ n, t.nodes[id]? = some n ∧ IsSpan t.source n.start stop := by
  constructor
  · rintro ⟨u, hu⟩
    exact isSpan_of_setStop hu
  · rintro ⟨n, hn, hspan⟩
    rw [setStop?, hn]
    dsimp only
    rw [if_neg (by simp [isSpan_iff.2 hspan])]
    exact ⟨_, rfl⟩

/-! ### Nodes -/

theorem exists_node (h : id < t.size) : ∃ n, t.nodes[id]? = some n :=
  ⟨_, Array.getElem?_eq_getElem h⟩

theorem parentOf_of_node {n : Node} (h : t.nodes[id]? = some n) : t.parentOf id = n.parent := by
  rw [parentOf, h]
  rfl

theorem isWrapper_of_node {n : Node} (h : t.nodes[id]? = some n) :
    t.isWrapper id = n.kind.isWrapper := by
  rw [isWrapper, SyntaxTree.kind, h]

/-- A node of a source as it is let in. -/
structure Admitted (source : String) (id : Nat) (n : Node) : Prop where
  agent_iff : n.kind = .agent ↔ id = 0
  orphan_iff : n.parent = none ↔ id = 0
  span : IsSpan source n.start n.stop

theorem Built.admitted (h : Built t) :
    ∀ (id : Nat) (n : Node), t.nodes[id]? = some n → Admitted t.source id n := by
  induction h with
  | ofSource source =>
    intro id n hn
    obtain ⟨rfl, rfl⟩ : id = 0 ∧ n = ⟨.agent, none, #[], 0, Text.size source⟩ := by
      cases id with
      | zero => exact ⟨rfl, (Option.some.inj hn).symm⟩
      | succ id => simp [SyntaxTree.ofSource] at hn
    exact ⟨by simp, by simp, isSpan_root source⟩
  | @add t u parent start stop kind ht hu ih =>
    intro id n hn
    obtain ⟨hparent, hkind, hsource, -⟩ := add_eq_ok hu
    rw [getElem?_add hu] at hn
    rw [hsource]
    split at hn
    · next hid =>
      cases hn
      have hpos : id ≠ 0 := by omega
      exact ⟨by simp [hkind, hpos], by simp [hpos], isSpan_of_add hu⟩
    · split at hn
      · obtain ⟨m, hm, rfl⟩ := Option.map_eq_some_iff.1 hn
        exact ⟨(ih id m hm).agent_iff, (ih id m hm).orphan_iff, (ih id m hm).span⟩
      · exact ih id n hn
  | @setStop t u target stop ht hu ih =>
    intro id n hn
    obtain ⟨m, hm, hspan⟩ := isSpan_of_setStop hu
    rw [getElem?_setStop hu] at hn
    rw [(setStop_eq_ok hu).1]
    split at hn
    · next hid =>
      subst hid
      rw [hm] at hn
      cases hn
      exact ⟨(ih id m hm).agent_iff, (ih id m hm).orphan_iff, hspan⟩
    · exact ih id n hn
  | markSyntaxError ht ih => exact ih

/-- What readers of a tree rely on. -/
structure Sound (t : SyntaxTree) : Prop where
  size_pos : 0 < t.size
  agent_iff : ∀ (id : Nat) (n : Node), t.nodes[id]? = some n → (n.kind = .agent ↔ id = 0)
  orphan_iff : ∀ (id : Nat) (n : Node), t.nodes[id]? = some n → (n.parent = none ↔ id = 0)
  parent_lt : ∀ (id : Nat) (n : Node) (p : Nat), t.nodes[id]? = some n → n.parent = some p → p < id
  mem_children : ∀ p c, c ∈ t.children p ↔ t.parentOf c = some p
  ascending : ∀ p, (t.children p).Pairwise (· < ·)
  span : ∀ (id : Nat) (n : Node), t.nodes[id]? = some n →
    IsSpan t.source n.start n.stop ∧ n.stop ≤ Text.size t.source
  text : ∀ (id : Nat) (n : Node), t.nodes[id]? = some n →
    Text.slice? t.source n.start n.stop = some (t.text id)

/-- **Trees that are built are sound.** -/
theorem Built.sound (h : Built t) : t.Sound where
  size_pos := h.wellFormed.size_pos
  agent_iff id n hn := (h.admitted id n hn).agent_iff
  orphan_iff id n hn := (h.admitted id n hn).orphan_iff
  parent_lt _ _ _ hn hp := h.wellFormed.lt_of_parentOf ((parentOf_of_node hn).trans hp)
  mem_children := h.wellFormed.mem_children
  ascending := h.wellFormed.ascending
  span id n hn := ⟨(h.admitted id n hn).span, (h.admitted id n hn).span.stop_le⟩
  text id n hn := by
    obtain ⟨cut, hcut⟩ := (h.admitted id n hn).span.exists_slice
    rw [text, hn]
    dsimp only
    rw [hcut, Option.getD_some]

/-! ### Going up -/

/-- The way from a node to the nearest one above that is no wrapper, or out of the tree. -/
inductive Climbs (t : SyntaxTree) : Nat → Option Nat → Prop
  | out {id : Nat} {n : Node} : t.nodes[id]? = some n → n.parent = none → Climbs t id none
  | found {id p : Nat} {n m : Node} : t.nodes[id]? = some n → n.parent = some p →
      t.nodes[p]? = some m → m.kind.isWrapper = false → Climbs t id (some p)
  | up {id p : Nat} {n m : Node} {r : Option Nat} : t.nodes[id]? = some n → n.parent = some p →
      t.nodes[p]? = some m → m.kind.isWrapper = true → Climbs t p r → Climbs t id r

/-- The way to the path of a node through the paths of those above it. -/
inductive Spells (t : SyntaxTree) : Nat → Option String → Prop
  | root : Spells t 0 (some NodePath.root)
  | out {id : Nat} : id ≠ 0 → Climbs t id none → Spells t id none
  | unknown {id p : Nat} : id ≠ 0 → Climbs t id (some p) → Spells t p none → Spells t id none
  | hidden {id p : Nat} {path : String} : id ≠ 0 → Climbs t id (some p) → Spells t p (some path) →
      (t.pathChildren p).find? (·.node = id) = none → Spells t id none
  | child {id p : Nat} {path : String} {c : PathChild} : id ≠ 0 → Climbs t id (some p) →
      Spells t p (some path) → (t.pathChildren p).find? (·.node = id) = some c →
      Spells t id (some (NodePath.child path c.index c.name))

namespace WellFormed
variable (ht : WellFormed t)
include ht

theorem semanticParent_eq (id : Nat) : t.semanticParent id =
    (t.parentOf id).bind fun p => if t.isWrapper p then t.semanticParent p else some p := by
  rw [semanticParent]
  cases hp : t.parentOf id with
  | none =>
    rw [parentOf] at hp
    rw [hp]
    rfl
  | some p =>
    have hlt := ht.lt_of_parentOf hp
    rw [parentOf] at hp
    rw [hp]
    simp [hlt]

theorem lt_of_semanticParent {p : Nat} (h : t.semanticParent id = some p) : p < id := by
  induction id using Nat.strongRecOn with
  | _ id ih =>
    rw [ht.semanticParent_eq] at h
    obtain ⟨q, hq, h⟩ := Option.bind_eq_some_iff.1 h
    have hlt := ht.lt_of_parentOf hq
    split at h
    · exact Nat.lt_trans (ih q hlt h) hlt
    · cases h
      exact hlt

theorem pathOf_eq (h0 : id ≠ 0) : t.pathOf id =
    (t.semanticParent id).bind fun p => (t.pathOf p).bind fun path =>
      ((t.pathChildren p).find? (·.node = id)).map fun c =>
        NodePath.child path c.index c.name := by
  rw [pathOf, if_neg h0]
  cases hp : t.semanticParent id with
  | none => rfl
  | some p =>
    dsimp only
    rw [dif_pos (ht.lt_of_semanticParent hp), Option.bind_some]
    cases t.pathOf p with
    | none => rfl
    | some path => cases (t.pathChildren p).find? (·.node = id) <;> rfl

/-- **The way up from a node ends**, with the parent that paths see. -/
theorem climbs_iff (hid : id < t.size) {r : Option Nat} :
    Climbs t id r ↔ r = t.semanticParent id := by
  constructor
  · intro h
    induction h with
    | out hn hp => rw [ht.semanticParent_eq, parentOf_of_node hn, hp, Option.bind_none]
    | found hn hp hm hw =>
      rw [ht.semanticParent_eq, parentOf_of_node hn, hp, Option.bind_some, isWrapper_of_node hm, hw,
        if_neg Bool.false_ne_true]
    | up hn hp hm hw _ ih =>
      have hlt := ht.lt_of_parentOf ((parentOf_of_node hn).trans hp)
      rw [ht.semanticParent_eq, parentOf_of_node hn, hp, Option.bind_some, isWrapper_of_node hm, hw,
        if_pos rfl]
      exact ih (Nat.lt_trans hlt hid)
  · rintro rfl
    induction id using Nat.strongRecOn with
    | _ id ih =>
      obtain ⟨n, hn⟩ := exists_node hid
      rw [ht.semanticParent_eq, parentOf_of_node hn]
      cases hp : n.parent with
      | none => exact .out hn hp
      | some p =>
        have hlt := ht.lt_of_parentOf ((parentOf_of_node hn).trans hp)
        obtain ⟨m, hm⟩ := exists_node (Nat.lt_trans hlt hid)
        rw [Option.bind_some, isWrapper_of_node hm]
        cases hw : m.kind.isWrapper with
        | false => exact .found hn hp hm hw
        | true => exact .up hn hp hm hw (ih p hlt (Nat.lt_trans hlt hid))

theorem pathOf_of_climbs (h0 : id ≠ 0) (hid : id < t.size) {p : Nat} (h : Climbs t id (some p)) :
    p < t.size ∧ t.pathOf id = (t.pathOf p).bind fun path =>
      ((t.pathChildren p).find? (·.node = id)).map fun c =>
        NodePath.child path c.index c.name := by
  have hparent := (ht.climbs_iff hid).1 h
  refine ⟨Nat.lt_trans (ht.lt_of_semanticParent hparent.symm) hid, ?_⟩
  rw [ht.pathOf_eq h0, ← hparent, Option.bind_some]

/-- **The way to the path of a node ends**, with that path. -/
theorem spells_iff (hid : id < t.size) {r : Option String} :
    Spells t id r ↔ r = t.pathOf id := by
  constructor
  · intro h
    induction h with
    | root => rw [pathOf, if_pos rfl]
    | out h0 hclimb => rw [ht.pathOf_eq h0, ← (ht.climbs_iff hid).1 hclimb, Option.bind_none]
    | unknown h0 hclimb _ ih =>
      obtain ⟨hp, hpath⟩ := ht.pathOf_of_climbs h0 hid hclimb
      rw [hpath, ← ih hp, Option.bind_none]
    | hidden h0 hclimb _ hfind ih =>
      obtain ⟨hp, hpath⟩ := ht.pathOf_of_climbs h0 hid hclimb
      rw [hpath, ← ih hp, Option.bind_some, hfind, Option.map_none]
    | child h0 hclimb _ hfind ih =>
      obtain ⟨hp, hpath⟩ := ht.pathOf_of_climbs h0 hid hclimb
      rw [hpath, ← ih hp, Option.bind_some, hfind, Option.map_some]
  · rintro rfl
    induction id using Nat.strongRecOn with
    | _ id ih =>
      by_cases h0 : id = 0
      · subst h0
        rw [pathOf, if_pos rfl]
        exact .root
      · have hclimb := (ht.climbs_iff hid).2 rfl
        cases hparent : t.semanticParent id with
        | none =>
          rw [ht.pathOf_eq h0, hparent]
          exact .out h0 (hparent ▸ hclimb)
        | some p =>
          rw [hparent] at hclimb
          obtain ⟨hp, hpath⟩ := ht.pathOf_of_climbs h0 hid hclimb
          have hspells := ih p (ht.lt_of_semanticParent hparent) hp
          rw [hpath]
          cases hq : t.pathOf p with
          | none => exact .unknown h0 hclimb (hq ▸ hspells)
          | some path =>
            rw [Option.bind_some]
            cases hfind : (t.pathChildren p).find? (·.node = id) with
            | none => exact .hidden h0 hclimb (hq ▸ hspells) hfind
            | some c => exact .child h0 hclimb (hq ▸ hspells) hfind

end WellFormed

end AgentRules.SyntaxTree
