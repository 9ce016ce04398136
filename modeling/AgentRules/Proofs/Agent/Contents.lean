import AgentRules.Proofs.Agent.Planted

/-! # What stands right below a node

The grammar puts nodes together by their kinds: a product starts with its name in a wrapper,
versions stand in wrappers of their own, a key comes with its value, and so on (`Contents`). Every
branch the grammar makes is put together in this way, case by case of its recursion
(`parts_forest`), and so is every node of the tree of a text (`contents_of_parse`). -/

namespace AgentRules.Grammar

open Branch SyntaxTree

/-! ### The kinds below a kind -/

/-- The kinds of what a text and an entry are made of. -/
def itemKinds : List NodeKind := [.product, .comments, .text, .url, .email, .uuid, .base64]

/-- The kinds of what follows the name of a product. -/
def partKinds : List NodeKind := [.separator, .productVersion, .comments, .text]

/-- The kinds of the nodes right below a node of some kind, in order. -/
inductive Contents : NodeKind → List NodeKind → Prop
  | agent {ks : List NodeKind} : ks ⊆ itemKinds → Contents .agent ks
  | product {ks : List NodeKind} : ks ⊆ partKinds → Contents .product (.productName :: ks)
  | productName : Contents .productName [.name]
  | productVersion {k : NodeKind} : k ∈ valueKinds → Contents .productVersion [k]
  | comments {ks : List NodeKind} : ks ⊆ [.commentEntry] → Contents .comments ks
  | entry {ks : List NodeKind} : ks ⊆ .keyValue :: itemKinds → Contents .commentEntry ks
  | keyValue {k : NodeKind} : k ∈ [.version, .text] → Contents .keyValue [.key, k]
  | leaf {k : NodeKind} : k ∈ .key :: leafKinds → Contents k []

/-- The node has below it what its kind says. -/
def Shaped (lineage row : List Extent) : Prop :=
  ∀ e ∈ lineage.head?, Contents e.kind (row.map (·.kind))

/-- Every node of the branch has below it what its kind says. -/
def Formed (b : Branch) : Prop := ∀ above, Every Shaped above b

/-- A branch of one of some kinds whose nodes all have below them what their kinds say. -/
structure Part (kinds : List NodeKind) (b : Branch) : Prop where
  kind : b.extent.kind ∈ kinds
  formed : Formed b

section Part
variable {kind : NodeKind} {kinds kinds' : List NodeKind} {start stop : Nat} {b : Branch}
  {bs children : List Branch}

theorem formed_mk (h : Contents kind (children.map (·.extent.kind)))
    (hbelow : ∀ b ∈ children, Formed b) : Formed (.mk kind start stop children) := by
  intro above
  refine .mk ?_ fun b hb => hbelow b hb _
  rintro e ⟨⟩
  rwa [List.map_map]

theorem formed_leaf (h : kind ∈ .key :: leafKinds) : Formed (.leaf kind start stop) :=
  formed_mk (.leaf h) (by simp)

theorem part_leaf (hkind : kind ∈ kinds) (hleaf : kind ∈ .key :: leafKinds) :
    Part kinds (.leaf kind start stop) :=
  ⟨hkind, formed_leaf hleaf⟩

theorem Part.mono (h : Part kinds b) (hsub : kinds ⊆ kinds') : Part kinds' b :=
  ⟨hsub h.kind, h.formed⟩

theorem kinds_subset (h : ∀ b ∈ bs, Part kinds b) : bs.map (·.extent.kind) ⊆ kinds := by
  intro k hk
  obtain ⟨b, hb, rfl⟩ := List.mem_map.1 hk
  exact (h b hb).kind

end Part

/-! ### Products -/

section Parts
variable {depth start stop stop' : Nat} {t : Token} {ts : List Token} {b : Branch}
  {bs : List Branch}

theorem formed_name : Formed (nameBranch start stop) :=
  formed_mk .productName (List.forall_mem_singleton.2 (formed_leaf (by decide)))

theorem specialKind_mem (h : isSpecial t = true) :
    specialKind t.kind ∈ [.url, .email, .uuid, .base64] := by
  unfold isSpecial at h
  rcases hk : t.kind <;> simp [hk, TokenKind.isValue, specialKind] at h ⊢

theorem part_version (h : t.kind.isValue = true) : Part [.productVersion] (versionBranch t) := by
  have hkind : (if t.kind = .word then .version else specialKind t.kind) ∈ valueKinds := by
    split
    · decide
    · next hword =>
      have hspecial : isSpecial t = true := by simp [isSpecial, h, hword]
      exact List.mem_cons_of_mem _ (specialKind_mem hspecial)
  have hleaf : valueKinds ⊆ .key :: leafKinds := by decide
  exact ⟨List.mem_cons_self,
    formed_mk (.productVersion hkind) (List.forall_mem_singleton.2 (formed_leaf (hleaf hkind)))⟩

theorem parts_versions (ts : List Token) : ∀ b ∈ (versions ts).1, Part partKinds b := by
  have hslash (s : Token) : Part partKinds (tokenLeaf .separator s) :=
    part_leaf (by decide) (by decide)
  fun_induction versions ts with
  | case1 => simp
  | case2 s v ts _ hv bs rest hrec ih =>
    rw [hrec] at ih
    have hversion : Part partKinds (versionBranch v) := (part_version hv).mono (by decide)
    exact List.forall_mem_cons.2 ⟨hslash s, List.forall_mem_cons.2 ⟨hversion, ih⟩⟩
  | case3 s => exact List.forall_mem_singleton.2 (hslash s)
  | case4 s => exact List.forall_mem_singleton.2 (hslash s)
  | case5 => simp
  | case6 => simp

theorem part_product (h : ∀ b ∈ bs, Part partKinds b) :
    Part [.product] (.mk .product start stop (nameBranch start stop' :: bs)) where
  kind := List.mem_cons_self
  formed := formed_mk (.product (kinds_subset h))
    (List.forall_mem_cons.2 ⟨formed_name, fun b hb => (h b hb).formed⟩)

theorem part_nameVersion (h : nameVersion? ts = some b) : Part [.product] b := by
  unfold nameVersion? at h
  split at h
  · split at h
    · next hall =>
      cases h
      simp only [Bool.and_eq_true, decide_eq_true_eq] at hall
      have hword := hall.1.2
      refine part_product (List.forall_mem_singleton.2 ((part_version ?_).mono (by decide)))
      rw [hword]
      rfl
    · cases h
  · cases h

/-! ### Blocks and entries -/

theorem part_block (block : Block) (h : ∀ b ∈ bs, Part [.commentEntry] b) :
    Part [.comments, .text] (blockBranch depth block bs) := by
  unfold blockBranch
  split
  · exact part_leaf (by decide) (by decide)
  · exact ⟨List.mem_cons_self, formed_mk (.comments (kinds_subset h)) fun b hb => (h b hb).formed⟩

theorem part_keyValue (key value : List Char) : Part [.keyValue] (keyValueBranch t key value) := by
  have hkind : (if value.head?.any Char.isDigit then .version else .text) ∈
      [NodeKind.version, .text] := by
    split <;> decide
  have hleaf : [.version, .text] ⊆ NodeKind.key :: leafKinds := by decide
  exact ⟨List.mem_cons_self, formed_mk (.keyValue hkind) (List.forall_mem_cons.2
    ⟨formed_leaf (by decide), List.forall_mem_singleton.2 (formed_leaf (hleaf hkind))⟩)⟩

theorem part_plainEntry (h : plainEntry? ts = some b) : Part (.keyValue :: itemKinds) b := by
  unfold plainEntry? at h
  split at h
  · split at h
    · obtain ⟨⟨key, value⟩, -, rfl⟩ := Option.map_eq_some_iff.1 h
      exact (part_keyValue key value).mono (by decide)
    · cases h
  · exact (part_nameVersion h).mono (by decide)

theorem part_entry (h : ∀ b ∈ bs, Part (.keyValue :: itemKinds) b) :
    Part [.commentEntry] (.mk .commentEntry start stop bs) where
  kind := List.mem_cons_self
  formed := formed_mk (.entry (kinds_subset h)) fun b hb => (h b hb).formed

end Parts

/-! ### The branches of a text -/

/-- **The grammar puts its branches together by their kinds**, as items, as the blocks behind a
product and as the entries of a block. -/
theorem parts_forest :
    (∀ depth ts, ∀ b ∈ (items depth ts).1, Part itemKinds b) ∧
    (∀ depth ts, ∀ b ∈ (blocks depth ts).1, Part [.comments, .text] b) ∧
    (∀ depth ts, ∀ b ∈ (entries depth ts).1, Part [.commentEntry] b) := by
  apply forest_induct
  case nil =>
    intro depth
    rw [items_nil]
    simp
  case skip =>
    intro depth t ts h ih
    rwa [items_skip h]
  case closing =>
    intro depth t ts h ih
    rwa [items_closing h]
  case opening =>
    intro depth t ts h hin hrest
    rw [items_opening h]
    exact List.forall_mem_cons.2 ⟨(part_block _ hin).mono (by decide), hrest⟩
  case product =>
    intro depth t ts h hnames hblocks hrest
    rw [items_product h hnames]
    refine List.forall_mem_cons.2 ⟨(part_product ?_).mono (by decide), hrest⟩
    intro b hb
    rcases List.mem_append.1 hb with hb | hb
    · exact parts_versions _ b hb
    · exact (hblocks b hb).mono (by decide)
  case text =>
    intro depth t ts h hnames ih
    rw [items_text h hnames]
    exact List.forall_mem_cons.2 ⟨part_leaf (by decide) (by decide), ih⟩
  case special =>
    intro depth t ts h ih
    have hitem : [.url, .email, .uuid, .base64] ⊆ itemKinds := by decide
    have hleaf : [.url, .email, .uuid, .base64] ⊆ NodeKind.key :: leafKinds := by decide
    have hkind := specialKind_mem h
    rw [items_special h]
    exact List.forall_mem_cons.2 ⟨part_leaf (hitem hkind) (hleaf hkind), ih⟩
  case last =>
    intro depth ts h
    rw [blocks_none h]
    simp
  case block =>
    intro depth ts t us h hin hrest
    rw [blocks_some h]
    exact List.forall_mem_cons.2 ⟨part_block _ hin, hrest⟩
  case done =>
    intro depth
    rw [entries_nil]
    simp
  case gap =>
    intro depth t ts h ih
    rwa [entries_gap h]
  case entry =>
    intro depth t ts h hown hrest
    rw [entries_entry h]
    refine List.forall_mem_cons.2 ⟨part_entry ?_, hrest⟩
    unfold belowEntry
    split
    · next hplain => exact List.forall_mem_singleton.2 (part_plainEntry hplain)
    · exact fun b hb => (hown b hb).mono (List.subset_cons_self _ _)

/-! ### The tree of a text -/

/-- **Every node of the tree of a text has below it what its kind says.** -/
theorem contents_of_parse {text : String} {t : SyntaxTree} (h : parse text = .ok t) :
    ∀ id < t.size, Contents (t.kind id) ((t.children id).map t.kind) := by
  have hparts := parts_forest.1 0 (Token.scan text)
  have hwf := (built_of_parse h).wellFormed
  have hroot : Shaped [rootExtent text] ((forest text).map extent) := by
    rintro e ⟨⟩
    rw [List.map_map]
    exact .agent (kinds_subset hparts)
  intro id hid
  have hshaped := every_of_parse h hroot (fun b hb => (hparts b hb).formed _) id hid
  have hkind {n : Nat} (hn : n < t.size) : ∃ e, t.extentOf n = some e ∧ e.kind = t.kind n := by
    obtain ⟨node, hnode⟩ : ∃ node, t.nodes[n]? = some node := ⟨_, Array.getElem?_eq_getElem hn⟩
    refine ⟨node.extent, ?_, ?_⟩
    · rw [extentOf, hnode]
      rfl
    · rw [SyntaxTree.kind, hnode]
      rfl
  have hrow : (t.row id).map (·.kind) = (t.children id).map t.kind := by
    rw [row, List.map_filterMap, ← List.filterMap_eq_map]
    refine List.filterMap_congr fun c hc => ?_
    obtain ⟨e, he, hek⟩ := hkind (hwf.lt_of_mem_children hc).2
    rw [he, Option.map_some, hek]
    rfl
  obtain ⟨e, he, hek⟩ := hkind hid
  have hhead : e ∈ (t.lineage id).head? := by
    rw [lineage_eq hwf, he]
    rfl
  rw [← hrow, ← hek]
  exact hshaped e hhead

end AgentRules.Grammar
