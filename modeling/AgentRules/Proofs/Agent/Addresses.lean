import AgentRules.Proofs.Agent.Contents
import AgentRules.Proofs.Tree.Paths

/-! # How the nodes of a text are addressed

In any tree that is built a path belongs to one node (`named_inj`). In the tree of a text, moreover,
no node that should have a path is without one, and products and key/values have one name and one
key each, with index 1 (`Addressed`). This is read off what stands right below a node of each kind
(`Grammar.Contents`): a wrapper stands right below a product, a name right below the wrapper that a
product starts with, a key at the start of a key/value. -/

namespace AgentRules

open Grammar

/-! ### What stands below what -/

namespace NodeKind

/-- The kinds that can stand right below a kind. -/
def below : NodeKind → List NodeKind
  | agent => itemKinds
  | product => productName :: partKinds
  | productName => [name]
  | productVersion => valueKinds
  | comments => [commentEntry]
  | commentEntry => keyValue :: itemKinds
  | keyValue => [key, version, text]
  | _ => []

section Below
variable {k c : NodeKind} (h : c ∈ k.below)
include h

theorem eq_product_of_below (hc : c.isWrapper = true) : k = .product := by
  revert c
  cases k <;> decide

theorem eq_productName_of_below (hc : c = .name) : k = .productName := by
  revert c
  cases k <;> decide

theorem eq_keyValue_of_below (hc : c = .key) : k = .keyValue := by
  revert c
  cases k <;> decide

theorem ne_separator_of_below : k ≠ .separator := by
  rintro rfl
  cases h

theorem exists_pathName_of_below (hw : c.isWrapper = false) (hs : c ≠ .separator) :
    ∃ name count, c.pathName = some (name, count) := by
  have hagent : c ≠ .agent := by
    rintro rfl
    revert h
    cases k <;> decide
  cases c <;> first | exact ⟨_, _, rfl⟩ | simp_all [isWrapper]

end Below

theorem pathName_inj {k l : NodeKind} {name : String} {m n : CountKind}
    (hk : k.pathName = some (name, m)) (hl : l.pathName = some (name, n)) : k = l := by
  cases k <;> cases hk <;> cases l <;> first | rfl | simp [pathName] at hl

end NodeKind

theorem Grammar.Contents.subset {k : NodeKind} {ks : List NodeKind} (h : Contents k ks) :
    ks ⊆ k.below := by
  cases h with
  | agent h | comments h | entry h => exact h
  | product h => exact List.cons_subset_cons _ h
  | productName => exact List.Subset.refl _
  | productVersion h => exact List.cons_subset.2 ⟨h, List.nil_subset _⟩
  | keyValue h =>
    exact List.cons_subset_cons _ (List.cons_subset.2 ⟨h, List.nil_subset _⟩)
  | leaf => exact List.nil_subset _

namespace SyntaxTree
variable {t : SyntaxTree}

/-! ### Names and keys in paths -/

section Describe
variable {id : Nat} {c : SemanticChild}

theorem describe_name (h : t.kind id = .name) :
    t.describe id = some ⟨id, "name", .child, some .word⟩ := by
  rw [describe, h]
  rfl

theorem describe_key (h : t.kind id = .key) :
    t.describe id = some ⟨id, "key", .child, some .word⟩ := by
  rw [describe, h]
  rfl

theorem kind_of_name {k : NodeKind} {count : CountKind} (hc : t.describe id = some c)
    (hk : k.pathName = some (c.name, count)) : t.kind id = k :=
  NodeKind.pathName_inj (describe_eq_some.1 hc).2.1 hk

end Describe

/-! ### The first child -/

/-- What a child brings into the view of its parent: itself, or what it wraps. -/
def seen (t : SyntaxTree) (w : Nat) : List SemanticChild :=
  if t.isWrapper w then (t.children w).filterMap t.describe else (t.describe w).toList

theorem semanticChildren_eq (id : Nat) :
    t.semanticChildren id = (t.children id).flatMap t.seen := rfl

theorem seen_of_describe {w : Nat} {c : SemanticChild} (h : t.describe w = some c) :
    t.seen w = [c] := by
  rw [seen, isWrapper_of_describe h, if_neg Bool.false_ne_true, h]
  rfl

/-- The children that paths see start with the only one of a name. -/
def First (t : SyntaxTree) (id : Nat) (name : String) : Prop :=
  ∃ c cs, t.semanticChildren id = c :: cs ∧ c.name = name ∧ ∀ d ∈ cs, d.name ≠ name

theorem first_of_children {id w : Nat} {rest : List Nat} {c : SemanticChild}
    (hchildren : t.children id = w :: rest) (hw : t.seen w = [c])
    (hrest : ∀ v ∈ rest, ∀ d ∈ t.seen v, d.name ≠ c.name) : First t id c.name := by
  refine ⟨c, rest.flatMap t.seen, ?_, rfl, fun d hd => ?_⟩
  · rw [semanticChildren_eq, hchildren, List.flatMap_cons, hw, List.singleton_append]
  · obtain ⟨v, hv, hd⟩ := List.mem_flatMap.1 hd
    exact hrest v hv d hd

/-- **A first child is the only one of its name, and has index 1.** -/
theorem First.filter_pathChildren {id : Nat} {name : String} (h : First t id name) :
    ∃ n, (t.pathChildren id).filter (·.name = name) = [⟨n, name, 1⟩] := by
  obtain ⟨c, cs, hseen, rfl, hothers⟩ := h
  have hindex : (({} : Counts).bump c.count).1 = 1 := by cases c.count <;> rfl
  refine ⟨c.node, ?_⟩
  rw [pathChildren, hseen, numberFrom_cons, hindex, List.filter_cons, if_pos (decide_eq_true rfl),
    List.filter_eq_nil_iff.2]
  intro d hd
  obtain ⟨e, he, -, hname⟩ := exists_of_mem_numberFrom hd
  rw [decide_eq_true_eq, ← hname]
  exact hothers e he

theorem First.index {id : Nat} {name : String} {c : PathChild} (h : First t id name)
    (hc : c ∈ t.pathChildren id) (hname : c.name = name) : c.index = 1 := by
  obtain ⟨n, hn⟩ := h.filter_pathChildren
  have hmem : c ∈ (t.pathChildren id).filter (·.name = name) :=
    List.mem_filter.2 ⟨hc, decide_eq_true hname⟩
  rw [hn, List.mem_singleton] at hmem
  rw [hmem]

/-! ### Trees of texts -/

/-- A tree whose nodes have below them what their kinds say. -/
structure Grammatical (t : SyntaxTree) : Prop extends WellFormed t where
  contents : ∀ id < t.size, Contents (t.kind id) ((t.children id).map t.kind)

theorem lt_size_of_kind {id : Nat} (h : t.kind id ≠ .separator) : id < t.size := by
  by_contra hid
  rw [kind, Array.getElem?_eq_none (Nat.le_of_not_lt hid)] at h
  exact h rfl

namespace Grammatical
variable (ht : Grammatical t)
include ht

theorem kind_mem_below {c p : Nat} (h : t.parentOf c = some p) : t.kind c ∈ (t.kind p).below := by
  have hp : p < t.size := Nat.lt_trans (ht.lt_of_parentOf h) (lt_size_of_parentOf h)
  exact (ht.contents p hp).subset (List.mem_map_of_mem ((ht.mem_children p c).2 h))

theorem contents_of_kind {id : Nat} {k : NodeKind} (h : t.kind id = k) (hk : k ≠ .separator) :
    Contents k ((t.children id).map t.kind) := by
  rw [← h] at hk ⊢
  exact ht.contents id (lt_size_of_kind hk)

theorem pos_of_isWrapper {p : Nat} (h : t.isWrapper p = true) : 0 < p := by
  rcases Nat.eq_zero_or_pos p with rfl | hp
  · rw [isWrapper, ht.kind_root] at h
    cases h
  · exact hp

/-- A node is seen by its parent, or by the product around the wrapper that it stands in. -/
theorem exists_sees {id : Nat} (h0 : 0 < id) (hid : id < t.size) :
    ∃ n < id, t.isWrapper n = false ∧ t.kind n ≠ .separator ∧ Sees t n id := by
  obtain ⟨p, hlt, hp⟩ := ht.exists_parent id h0 hid
  cases hw : t.isWrapper p with
  | false => exact ⟨p, hlt, hw, NodeKind.ne_separator_of_below (ht.kind_mem_below hp), .inl hp⟩
  | true =>
    obtain ⟨n, hnp, hn⟩ := ht.exists_parent p (ht.pos_of_isWrapper hw) (Nat.lt_trans hlt hid)
    have hkind := NodeKind.eq_product_of_below (ht.kind_mem_below hn) hw
    refine ⟨n, Nat.lt_trans hnp hlt, ?_, ?_, .inr ⟨p, hw, hp, hn⟩⟩
    · rw [isWrapper, hkind]
      rfl
    · rw [hkind]
      decide

/-- **Every node but wrappers and separators has a path.** -/
theorem exists_named {id : Nat} (hid : id < t.size) (hw : t.isWrapper id = false)
    (hs : t.kind id ≠ .separator) : ∃ path, Named t id path := by
  induction id using Nat.strongRecOn with
  | _ id ih =>
    rcases Nat.eq_zero_or_pos id with rfl | h0
    · exact ⟨_, .root⟩
    obtain ⟨n, hn, hnw, hns, hsees⟩ := ht.exists_sees h0 hid
    obtain ⟨path, hpath⟩ := ih n hn (Nat.lt_trans hn hid) hnw hns
    obtain ⟨p, -, hp⟩ := ht.exists_parent id h0 hid
    obtain ⟨name, count, hname⟩ := NodeKind.exists_pathName_of_below (ht.kind_mem_below hp) hw hs
    have hseen : (⟨id, name, count, (t.kind id).splitting⟩ : SemanticChild) ∈
        t.semanticChildren n :=
      ht.mem_semanticChildren.2 ⟨describe_eq_some.2 ⟨rfl, hname, rfl⟩, hsees⟩
    obtain ⟨c, hc, hnode⟩ : ∃ c ∈ t.pathChildren n, c.node = id := by
      rw [← List.mem_map, pathChildren, node_numberFrom]
      exact List.mem_map_of_mem hseen
    rw [← hnode]
    exact ⟨_, .child hpath hc⟩

/-! ### Names and keys -/

theorem children_of_productName {id : Nat} (h : t.kind id = .productName) :
    ∃ x, t.children id = [x] ∧ t.kind x = .name := by
  have hrow := ht.contents_of_kind h (by decide)
  generalize hks : (t.children id).map t.kind = ks at hrow
  cases hrow with
  | leaf h => exact absurd h (by decide)
  | productName =>
    obtain ⟨x, rest, hchildren, hx, hrest⟩ := List.map_eq_cons_iff.1 hks
    rw [List.map_eq_nil_iff] at hrest
    rw [hrest] at hchildren
    exact ⟨x, hchildren, hx⟩

theorem children_of_product {id : Nat} (h : t.kind id = .product) :
    ∃ w rest, t.children id = w :: rest ∧ t.kind w = .productName ∧
      ∀ v ∈ rest, t.kind v ∈ partKinds := by
  have hrow := ht.contents_of_kind h (by decide)
  generalize hks : (t.children id).map t.kind = ks at hrow
  cases hrow with
  | leaf h => exact absurd h (by decide)
  | product hsub =>
    obtain ⟨w, rest, hchildren, hw, rfl⟩ := List.map_eq_cons_iff.1 hks
    exact ⟨w, rest, hchildren, hw, fun v hv => hsub (List.mem_map_of_mem hv)⟩

theorem children_of_keyValue {id : Nat} (h : t.kind id = .keyValue) :
    ∃ x rest, t.children id = x :: rest ∧ t.kind x = .key ∧
      ∀ v ∈ rest, t.kind v ∈ [NodeKind.version, .text] := by
  have hrow := ht.contents_of_kind h (by decide)
  generalize hks : (t.children id).map t.kind = ks at hrow
  cases hrow with
  | leaf h => exact absurd h (by decide)
  | keyValue hkind =>
    obtain ⟨x, rest, hchildren, hx, hrest⟩ := List.map_eq_cons_iff.1 hks
    refine ⟨x, rest, hchildren, hx, fun v hv => ?_⟩
    have hv := List.mem_map_of_mem (f := t.kind) hv
    rw [hrest, List.mem_singleton] at hv
    rwa [hv]

/-- What a child brings into view is the child or stands in it, as in a wrapper. -/
theorem of_mem_seen {w : Nat} {d : SemanticChild} (h : d ∈ t.seen w) :
    t.describe d.node = some d ∧
      (d.node = w ∨ t.isWrapper w = true ∧ t.parentOf d.node = some w) := by
  unfold seen at h
  by_cases hw : t.isWrapper w = true
  · rw [if_pos hw] at h
    obtain ⟨e, he, hd⟩ := List.mem_filterMap.1 h
    rw [node_of_describe hd]
    exact ⟨hd, .inr ⟨hw, (ht.mem_children w e).1 he⟩⟩
  · rw [if_neg hw, Option.mem_toList] at h
    rw [node_of_describe h]
    exact ⟨h, .inl rfl⟩

/-- Nothing of a name comes into view with a child that neither is nor has below it a node of the
kind of that name. -/
theorem name_ne_of_mem_seen {v : Nat} {d : SemanticChild} {k : NodeKind} {name : String}
    {count : CountKind} (hd : d ∈ t.seen v) (hk : k.pathName = some (name, count))
    (hv : t.kind v ≠ k ∧ k ∉ (t.kind v).below) : d.name ≠ name := by
  rintro rfl
  obtain ⟨hdescribe, hplace⟩ := ht.of_mem_seen hd
  have hkind := kind_of_name hdescribe hk
  rcases hplace with rfl | ⟨-, hpar⟩
  · exact hv.1 hkind
  · rw [← hkind] at hv
    exact hv.2 (ht.kind_mem_below hpar)

theorem first_of_productName {id : Nat} (h : t.kind id = .productName) : First t id "name" := by
  obtain ⟨x, hx, hkind⟩ := ht.children_of_productName h
  exact first_of_children hx (seen_of_describe (describe_name hkind)) (by simp)

theorem first_of_product {id : Nat} (h : t.kind id = .product) : First t id "name" := by
  obtain ⟨w, rest, hchildren, hw, hrest⟩ := ht.children_of_product h
  obtain ⟨x, hx, hkind⟩ := ht.children_of_productName hw
  have hseen : t.seen w = [⟨x, "name", .child, some .word⟩] := by
    rw [seen, isWrapper, hw, hx, List.filterMap_cons_some (describe_name hkind)]
    rfl
  have hparts : ∀ k ∈ partKinds, k ≠ .name ∧ .name ∉ k.below := by decide
  exact first_of_children hchildren hseen fun v hv d hd =>
    ht.name_ne_of_mem_seen hd (k := .name) rfl (hparts _ (hrest v hv))

theorem first_of_keyValue {id : Nat} (h : t.kind id = .keyValue) : First t id "key" := by
  obtain ⟨x, rest, hchildren, hkind, hrest⟩ := ht.children_of_keyValue h
  have hvalues : ∀ k ∈ [NodeKind.version, .text], k ≠ .key ∧ .key ∉ k.below := by decide
  exact first_of_children hchildren (seen_of_describe (describe_key hkind)) fun v hv d hd =>
    ht.name_ne_of_mem_seen hd (k := .key) rfl (hvalues _ (hrest v hv))

/-- **A name comes first, and so does a key.** -/
theorem index_eq_one {id : Nat} {c : PathChild} (hc : c ∈ t.pathChildren id)
    (hname : c.name = "name" ∨ c.name = "key") : c.index = 1 := by
  obtain ⟨d, hd, hdname, hsees⟩ := ht.describe_of_mem_pathChildren hc
  suffices h : First t id c.name from h.index hc rfl
  rcases hname with hname | hname
  · rw [hname] at hdname ⊢
    have hpath : NodeKind.name.pathName = some (d.name, .child) := by rw [hdname]; rfl
    have hkind := kind_of_name hd hpath
    rcases hsees with hpar | ⟨w, hw, -, hwid⟩
    · have hpkind := NodeKind.eq_productName_of_below (ht.kind_mem_below hpar) hkind
      exact ht.first_of_productName hpkind
    · exact ht.first_of_product (NodeKind.eq_product_of_below (ht.kind_mem_below hwid) hw)
  · rw [hname] at hdname ⊢
    have hpath : NodeKind.key.pathName = some (d.name, .child) := by rw [hdname]; rfl
    have hkind := kind_of_name hd hpath
    rcases hsees with hpar | ⟨w, hw, hcw, -⟩
    · exact ht.first_of_keyValue (NodeKind.eq_keyValue_of_below (ht.kind_mem_below hpar) hkind)
    · have hwkind := NodeKind.eq_keyValue_of_below (ht.kind_mem_below hcw) hkind
      rw [isWrapper, hwkind] at hw
      cases hw

end Grammatical

/-! ### The theorem -/

/-- Nodes are found by their paths: all but wrappers and separators have one, a product and a
key/value have one name and one key, and these have index 1, where their range ends. -/
structure Addressed (t : SyntaxTree) : Prop where
  path : ∀ id < t.size, t.isWrapper id = false → t.kind id ≠ .separator →
    ∃ path, t.pathOf id = some path
  name : ∀ id, t.kind id = .product →
    ∃ n, (t.pathChildren id).filter (·.name = "name") = [⟨n, "name", 1⟩]
  key : ∀ id, t.kind id = .keyValue →
    ∃ n, (t.pathChildren id).filter (·.name = "key") = [⟨n, "key", 1⟩]
  index : ∀ id, ∀ c ∈ t.pathChildren id, c.name = "name" ∨ c.name = "key" →
    c.index = 1 ∧ maxIndex c.name = 1

theorem Grammatical.addressed (ht : Grammatical t) : Addressed t where
  path id hid hw hs := by
    obtain ⟨path, hpath⟩ := ht.exists_named hid hw hs
    exact ⟨path, ht.pathOf_eq_some.2 hpath⟩
  name _ h := (ht.first_of_product h).filter_pathChildren
  key _ h := (ht.first_of_keyValue h).filter_pathChildren
  index id c hc hname := by
    refine ⟨ht.index_eq_one hc hname, ?_⟩
    rcases hname with hname | hname <;> rw [hname] <;> rfl

/-- **Paths identify nodes.** In every tree that is built two nodes have two paths, and the nodes of
the tree of every text are found by their paths. -/
theorem paths_identify_nodes :
    (∀ t, Built t → ∀ m n path, t.pathOf m = some path → t.pathOf n = some path → m = n) ∧
      ∀ text, ∃ t, parse text = .ok t ∧ t.source = text ∧ Addressed t := by
  constructor
  · intro t hbuilt m n path hm hn
    have ht := hbuilt.wellFormed
    exact ht.named_inj (ht.pathOf_eq_some.1 hm) (ht.pathOf_eq_some.1 hn)
  · intro text
    obtain ⟨t, hparse, -⟩ := parse_ok text
    have ht : Grammatical t := ⟨(built_of_parse hparse).wellFormed, contents_of_parse hparse⟩
    exact ⟨t, hparse, (planted_of_parse hparse).source, ht.addressed⟩

/-- The version of the small tree is alone with its path. -/
theorem nested_version_alone : Built nested ∧ nested.pathOf 5 = some "agent.(1)product.(1)version" ∧
    ∀ n, nested.pathOf n = some "agent.(1)product.(1)version" → n = 5 := by
  have hpath : nested.pathOf 5 = some "agent.(1)product.(1)version" := by
    rw [built_nested.wellFormed.pathOf_eq_some]
    have hproduct : Named nested 1 "agent.(1)product" :=
      .child .root (c := ⟨1, "product", 1⟩) (by decide)
    exact .child hproduct (c := ⟨5, "version", 1⟩) (by decide)
  exact ⟨built_nested, hpath, fun n hn =>
    paths_identify_nodes.1 nested built_nested n 5 _ hn hpath⟩

end SyntaxTree

end AgentRules
