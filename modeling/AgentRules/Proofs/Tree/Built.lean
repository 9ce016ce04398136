import AgentRules.Tree.View

/-! # Trees that are built

The trees that matter are those that the building operations make, starting from a root alone. In
such a tree parents come before their children, the list of children of a node and the parents
that its children name agree, and the root is the only agent. This is what `WellFormed` says, and
each operation keeps it (`Built.wellFormed`). -/

namespace AgentRules.SyntaxTree

/-- The trees that the building operations make. -/
inductive Built : SyntaxTree → Prop
  | ofSource (source : String) : Built (ofSource source)
  | add {t u : SyntaxTree} {parent start stop : Nat} {kind : NodeKind} :
      Built t → t.add? parent kind start stop = .ok u → Built u
  | setStop {t u : SyntaxTree} {id stop : Nat} : Built t → t.setStop? id stop = .ok u → Built u
  | markSyntaxError {t : SyntaxTree} : Built t → Built t.markSyntaxError

def parentOf (t : SyntaxTree) (id : Nat) : Option Nat := (t.nodes[id]?).bind (·.parent)

/-- Parents come first, and both ends of the link between a parent and a child say the same. -/
structure WellFormed (t : SyntaxTree) : Prop where
  size_pos : 0 < t.size
  kind_root : t.kind 0 = .agent
  parentOf_root : t.parentOf 0 = none
  exists_parent : ∀ id, 0 < id → id < t.size → ∃ p < id, t.parentOf id = some p
  mem_children : ∀ p c, c ∈ t.children p ↔ t.parentOf c = some p
  ascending : ∀ p, (t.children p).Pairwise (· < ·)

/-! ### Adding a node -/

section Add
variable {t u : SyntaxTree} {parent start stop : Nat} {kind : NodeKind}

theorem add_eq_ok (h : t.add? parent kind start stop = .ok u) :
    parent < t.size ∧ kind ≠ .agent ∧ u.source = t.source ∧ u.syntaxError = t.syntaxError ∧
      u.nodes = (t.nodes.modify parent fun n =>
        { n with children := n.children.push t.nodes.size }).push
          ⟨kind, some parent, #[], start, stop⟩ := by
  unfold add? at h
  split at h
  · cases h
  · split at h
    · cases h
    · split at h
      · cases h
      · cases h
        exact ⟨by unfold size; omega, by assumption, rfl, rfl, rfl⟩

theorem size_add (h : t.add? parent kind start stop = .ok u) : u.size = t.size + 1 := by
  obtain ⟨-, -, -, -, hn⟩ := add_eq_ok h
  simp [size, hn]

theorem getElem?_add (h : t.add? parent kind start stop = .ok u) (id : Nat) :
    u.nodes[id]? = if id = t.size then some ⟨kind, some parent, #[], start, stop⟩
      else if id = parent then
        t.nodes[id]?.map fun n => { n with children := n.children.push t.nodes.size }
      else t.nodes[id]? := by
  obtain ⟨-, -, -, -, hn⟩ := add_eq_ok h
  rw [hn, Array.getElem?_push, Array.size_modify, Array.getElem?_modify]
  simp only [size, eq_comm]

theorem parentOf_add (h : t.add? parent kind start stop = .ok u) (id : Nat) :
    u.parentOf id = if id = t.size then some parent else t.parentOf id := by
  unfold parentOf
  rw [getElem?_add h]
  by_cases hid : id = t.size
  · rw [if_pos hid, if_pos hid]; rfl
  · rw [if_neg hid, if_neg hid]
    by_cases hp : id = parent
    · rw [if_pos hp]; cases t.nodes[id]? <;> rfl
    · rw [if_neg hp]

theorem kind_add (h : t.add? parent kind start stop = .ok u) (id : Nat) :
    u.kind id = if id = t.size then kind else t.kind id := by
  unfold SyntaxTree.kind
  rw [getElem?_add h]
  by_cases hid : id = t.size
  · rw [if_pos hid, if_pos hid]
  · rw [if_neg hid, if_neg hid]
    by_cases hp : id = parent
    · rw [if_pos hp]; cases t.nodes[id]? <;> rfl
    · rw [if_neg hp]

theorem children_add (h : t.add? parent kind start stop = .ok u) (id : Nat) :
    u.children id = t.children id ++ if id = parent then [t.size] else [] := by
  have hp := (add_eq_ok h).1
  unfold children
  rw [getElem?_add h]
  by_cases hid : id = t.size
  · have hnone : t.nodes[id]? = none := Array.getElem?_eq_none (Nat.le_of_eq hid.symm)
    rw [if_pos hid, if_neg (by omega), hnone]
    rfl
  · rw [if_neg hid]
    by_cases hpar : id = parent
    · subst hpar
      have hlt : id < t.nodes.size := hp
      simp [Array.getElem?_eq_getElem hlt, size]
    · rw [if_neg hpar, if_neg hpar, List.append_nil]

end Add

/-! ### Moving an end -/

section SetStop
variable {t u : SyntaxTree} {id stop : Nat}

theorem setStop_eq_ok (h : t.setStop? id stop = .ok u) :
    u.source = t.source ∧ u.syntaxError = t.syntaxError ∧
      u.nodes = t.nodes.modify id fun n => { n with stop := stop } := by
  unfold setStop? at h
  split at h
  · cases h
  · split at h
    · cases h
    · cases h; exact ⟨rfl, rfl, rfl⟩

theorem size_setStop (h : t.setStop? id stop = .ok u) : u.size = t.size := by
  simp [size, (setStop_eq_ok h).2.2]

theorem getElem?_setStop (h : t.setStop? id stop = .ok u) (i : Nat) :
    u.nodes[i]? = if i = id then t.nodes[i]?.map fun n => { n with stop := stop }
      else t.nodes[i]? := by
  rw [(setStop_eq_ok h).2.2, Array.getElem?_modify]
  simp only [eq_comm]

theorem parentOf_setStop (h : t.setStop? id stop = .ok u) (i : Nat) :
    u.parentOf i = t.parentOf i := by
  unfold parentOf
  rw [getElem?_setStop h]
  by_cases hi : i = id
  · rw [if_pos hi]; cases t.nodes[i]? <;> rfl
  · rw [if_neg hi]

theorem kind_setStop (h : t.setStop? id stop = .ok u) (i : Nat) : u.kind i = t.kind i := by
  unfold kind
  rw [getElem?_setStop h]
  by_cases hi : i = id
  · rw [if_pos hi]; cases t.nodes[i]? <;> rfl
  · rw [if_neg hi]

theorem children_setStop (h : t.setStop? id stop = .ok u) (i : Nat) :
    u.children i = t.children i := by
  unfold children
  rw [getElem?_setStop h]
  by_cases hi : i = id
  · rw [if_pos hi]; cases t.nodes[i]? <;> rfl
  · rw [if_neg hi]

end SetStop

/-! ### The invariant -/

theorem wellFormed_ofSource (source : String) : WellFormed (ofSource source) where
  size_pos := Nat.one_pos
  kind_root := rfl
  parentOf_root := rfl
  exists_parent := by
    intro id h0 h1
    simp [size, ofSource] at h1
    omega
  mem_children := by
    intro p c
    constructor
    · intro h
      cases p <;> simp [children, ofSource] at h
    · intro h
      cases c <;> simp [parentOf, ofSource] at h
  ascending := by
    intro p
    cases p <;> simp [children, ofSource]

theorem lt_size_of_parentOf {t : SyntaxTree} {c p : Nat} (h : t.parentOf c = some p) :
    c < t.size := by
  by_cases hc : c < t.size
  · exact hc
  · rw [parentOf, Array.getElem?_eq_none (Nat.not_lt.mp hc)] at h
    cases h

theorem WellFormed.add {t u : SyntaxTree} {parent start stop : Nat} {kind : NodeKind}
    (ht : WellFormed t) (h : t.add? parent kind start stop = .ok u) : WellFormed u where
  size_pos := by rw [size_add h]; omega
  kind_root := by
    rw [kind_add h, if_neg (Nat.ne_of_lt ht.size_pos)]
    exact ht.kind_root
  parentOf_root := by
    rw [parentOf_add h, if_neg (Nat.ne_of_lt ht.size_pos)]
    exact ht.parentOf_root
  exists_parent := by
    intro id h0 h1
    rw [parentOf_add h]
    rw [size_add h] at h1
    split
    · next he => exact ⟨parent, by rw [he]; exact (add_eq_ok h).1, rfl⟩
    · exact ht.exists_parent id h0 (by omega)
  mem_children := by
    intro p c
    rw [children_add h, parentOf_add h, List.mem_append, ht.mem_children p c]
    by_cases hc : c = t.size
    · -- the new node is nobody's child yet in the old tree
      have hnone : t.parentOf c ≠ some p := fun hp => by
        have := lt_size_of_parentOf hp
        omega
      by_cases hp : p = parent <;> simp_all [eq_comm]
    · by_cases hp : p = parent <;> simp [hc, hp]
  ascending := by
    intro p
    rw [children_add h]
    refine List.pairwise_append.2 ⟨ht.ascending p, by split <;> simp, ?_⟩
    intro c hc d hd
    have hlt := lt_size_of_parentOf ((ht.mem_children p c).1 hc)
    split at hd
    · rw [List.mem_singleton.1 hd]; exact hlt
    · cases hd

theorem WellFormed.setStop {t u : SyntaxTree} {id stop : Nat} (ht : WellFormed t)
    (h : t.setStop? id stop = .ok u) : WellFormed u where
  size_pos := by rw [size_setStop h]; exact ht.size_pos
  kind_root := by rw [kind_setStop h]; exact ht.kind_root
  parentOf_root := by rw [parentOf_setStop h]; exact ht.parentOf_root
  exists_parent := by
    intro i h0 h1
    rw [parentOf_setStop h]
    exact ht.exists_parent i h0 (by rwa [size_setStop h] at h1)
  mem_children := by
    intro p c
    rw [children_setStop h, parentOf_setStop h]
    exact ht.mem_children p c
  ascending := by
    intro p
    rw [children_setStop h]
    exact ht.ascending p

/-- **The building operations keep parents and children in agreement.** -/
theorem Built.wellFormed {t : SyntaxTree} (h : Built t) : WellFormed t := by
  induction h with
  | ofSource source => exact wellFormed_ofSource source
  | add _ h ih => exact ih.add h
  | setStop _ h ih => exact ih.setStop h
  | markSyntaxError _ ih =>
    exact ⟨ih.size_pos, ih.kind_root, ih.parentOf_root, ih.exists_parent, ih.mem_children,
      ih.ascending⟩

/-! ### A small tree -/

/-- The tree of a malformed text with a product, whose name stands in a wrapper. -/
def nested : SyntaxTree :=
  ⟨"ab/1", #[⟨.agent, none, #[1], 0, 4⟩, ⟨.product, some 0, #[2, 4, 5], 0, 4⟩,
    ⟨.productName, some 1, #[3], 0, 2⟩, ⟨.name, some 2, #[], 0, 2⟩,
    ⟨.separator, some 1, #[], 2, 3⟩, ⟨.version, some 1, #[], 3, 4⟩], true⟩

theorem built_nested : Built nested :=
  .markSyntaxError (t := { nested with syntaxError := false })
    (@Built.add _ _ 1 3 4 .version
      (@Built.add _ _ 1 2 3 .separator
        (@Built.add _ _ 2 0 2 .name
          (@Built.add _ _ 1 0 2 .productName
            (@Built.add _ _ 0 0 4 .product (.ofSource "ab/1") rfl) rfl) rfl) rfl) rfl)

/-! ### What well-formedness gives -/

namespace WellFormed
variable {t : SyntaxTree} (ht : WellFormed t)
include ht

theorem lt_of_parentOf {c p : Nat} (h : t.parentOf c = some p) : p < c := by
  have hc : 0 < c := Nat.pos_of_ne_zero fun h0 => by
    rw [h0, ht.parentOf_root] at h
    cases h
  obtain ⟨q, hq, hqc⟩ := ht.exists_parent c hc (lt_size_of_parentOf h)
  rw [hqc] at h
  cases h
  exact hq

theorem lt_of_mem_children {p c : Nat} (h : c ∈ t.children p) : p < c ∧ c < t.size :=
  have hp := (ht.mem_children p c).1 h
  ⟨ht.lt_of_parentOf hp, lt_size_of_parentOf hp⟩

theorem nodup_children (p : Nat) : (t.children p).Nodup :=
  (ht.ascending p).imp fun h => Nat.ne_of_lt h

end WellFormed

end AgentRules.SyntaxTree
