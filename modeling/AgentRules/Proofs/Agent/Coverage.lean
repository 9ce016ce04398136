import AgentRules.Proofs.Agent.Layout

/-! # What the leaves of a tree cover

The childless nodes of the tree of a text keep every value of it and repeat none: each byte of a
value is covered by exactly one of them, separators aside. The one exception is the mark between a
key and its value, which none covers. And nodes that stand for names, versions and other values cover
nothing but values, and the blanks inside of names (`exists_keepsValues`).

To count without the exception, a byte is *claimed* by the leaf that covers it, or by the key that
ends in front of it. Then every byte of a value is claimed exactly once (`Derives.claimed`). -/

namespace AgentRules

open Text

/-- The byte belongs to the span. -/
def Extent.covers (e : Extent) (i : Nat) : Bool := e.start ≤ i && i < e.stop

/-- The byte is covered by the leaf, which is no separator, or it is the one behind a key. -/
def Extent.claims (e : Extent) (i : Nat) : Bool :=
  (e.kind ≠ .separator && e.covers i) || (e.kind = .key && e.stop = i)

theorem Extent.claims_iff {e : Extent} {i : Nat} : e.claims i = true ↔
    (e.kind ≠ .separator ∧ e.start ≤ i ∧ i < e.stop) ∨ (e.kind = .key ∧ e.stop = i) := by
  simp [Extent.claims, Extent.covers]

/-- The token stands around the byte. -/
def Token.Covers (t : Token) (i : Nat) : Prop := t.start ≤ i ∧ i < t.stop

/-! ### Counting what is claimed -/

namespace Grammar

open Branch

/-- Bytes of values are claimed exactly once, and only bytes between tokens are. -/
structure Claimed (ts : List Token) (leaves : List Extent) : Prop where
  once : ∀ t ∈ ts, t.kind.isValue = true → ∀ i, t.Covers i → leaves.countP (·.claims i) = 1
  between : ∀ e ∈ leaves, ∀ i, e.claims i = true → (∃ u ∈ ts, u.start ≤ i) ∧ ∃ v ∈ ts, i < v.stop

section Claimed
variable {s : String} {t : Token} {ts us : List Token} {es fs : List Extent}

theorem claimed_silent (h : ∀ t ∈ ts, t.kind.isValue = false) : Claimed ts [] where
  once t ht hvalue := by
    rw [h t ht] at hvalue
    cases hvalue
  between := by simp

/-- What stands in front claims nothing of what is behind it, and the other way round. -/
theorem Claimed.append (hts : Placed s (ts ++ us)) (h : Claimed ts es) (h' : Claimed us fs) :
    Claimed (ts ++ us) (es ++ fs) where
  once t ht hvalue i hi := by
    have hordered := (List.pairwise_append.1 hts.ordered).2.2
    have hnone {gs : List Extent} (hgs : ∀ e ∈ gs, ¬ e.claims i = true) :
        gs.countP (·.claims i) = 0 := List.countP_eq_zero.2 hgs
    rw [List.countP_append]
    rcases List.mem_append.1 ht with ht | ht
    · rw [h.once t ht hvalue i hi, hnone fun e he hclaims => ?_]
      obtain ⟨⟨u, hu, hle⟩, -⟩ := h'.between e he i hclaims
      have := hordered t ht u hu
      have := hi.2
      omega
    · rw [h'.once t ht hvalue i hi, hnone fun e he hclaims => ?_]
      obtain ⟨-, v, hv, hlt⟩ := h.between e he i hclaims
      have := hordered v hv t ht
      have := hi.1
      omega
  between e he i hclaims := by
    rcases List.mem_append.1 he with he | he
    · obtain ⟨⟨u, hu, hle⟩, v, hv, hlt⟩ := h.between e he i hclaims
      exact ⟨⟨u, List.mem_append_left us hu, hle⟩, v, List.mem_append_left us hv, hlt⟩
    · obtain ⟨⟨u, hu, hle⟩, v, hv, hlt⟩ := h'.between e he i hclaims
      exact ⟨⟨u, List.mem_append_right ts hu, hle⟩, v, List.mem_append_right ts hv, hlt⟩

theorem claimed_single {kind : NodeKind} (hts : Placed s (t :: ts)) (hkey : kind ≠ .key)
    (hmark : kind = .separator → ∀ u ∈ t :: ts, u.kind.isValue = false) :
    Claimed (t :: ts) [⟨kind, t.start, lastStop t ts⟩] where
  once u hu hvalue i hi := by
    have hkind : kind ≠ .separator := fun hk => by
      rw [hmark hk u hu] at hvalue
      cases hvalue
    have hwithin := hts.within hu
    have hi1 := hi.1
    have hi2 := hi.2
    rw [List.countP_singleton, if_pos]
    exact Extent.claims_iff.2 (.inl ⟨hkind, by dsimp only; omega, by dsimp only; omega⟩)
  between e he i hclaims := by
    rw [List.mem_singleton.1 he, Extent.claims_iff] at hclaims
    obtain ⟨v, hv, hstop⟩ := exists_lastStop t ts
    rcases hclaims with ⟨-, hle, hlt⟩ | ⟨hk, -⟩
    · refine ⟨⟨t, List.mem_cons_self, hle⟩, v, hv, ?_⟩
      rw [← hstop]
      exact hlt
    · exact absurd hk hkey

/-- A key, the mark behind it and the value claim the bytes of a word. -/
theorem claimed_pair {kind : NodeKind} {m : Nat} (hkind : kind ≠ .key) (hmark : kind ≠ .separator)
    (hle : t.start ≤ m) (hlt : m < t.stop) :
    Claimed [t] [⟨.key, t.start, m⟩, ⟨kind, m + 1, t.stop⟩] where
  once u hu _ i hi := by
    rw [List.mem_singleton.1 hu] at hi
    obtain ⟨hi1, hi2⟩ := hi
    have hkey : (⟨.key, t.start, m⟩ : Extent).claims i = true ↔ i ≤ m := by
      rw [Extent.claims_iff]
      refine ⟨?_, fun h => ?_⟩
      · rintro (⟨-, -, h⟩ | ⟨-, h⟩)
        · exact Nat.le_of_lt h
        · exact Nat.le_of_eq h.symm
      · rcases Nat.lt_or_eq_of_le h with h | h
        · exact .inl ⟨nofun, hi1, h⟩
        · exact .inr ⟨rfl, h.symm⟩
    have hvalue : (⟨kind, m + 1, t.stop⟩ : Extent).claims i = true ↔ m < i := by
      rw [Extent.claims_iff]
      refine ⟨?_, fun h => .inl ⟨hmark, h, hi2⟩⟩
      rintro (⟨-, h, -⟩ | ⟨h, -⟩)
      · exact h
      · exact absurd h hkind
    simp only [List.countP_cons, List.countP_nil, hkey, hvalue]
    by_cases h : i ≤ m
    · rw [if_pos h, if_neg (Nat.not_lt.2 h)]
    · rw [if_neg h, if_pos (Nat.not_le.1 h)]
  between e he i hclaims := by
    have hi : t.start ≤ i ∧ i < t.stop := by
      rw [Extent.claims_iff] at hclaims
      rcases List.mem_cons.1 he with rfl | he
      · rcases hclaims with ⟨-, h1, h2⟩ | ⟨-, h⟩
        · dsimp only at h1 h2
          omega
        · dsimp only at h
          omega
      · rw [List.mem_singleton.1 he] at hclaims
        rcases hclaims with ⟨-, h1, h2⟩ | ⟨h, -⟩
        · dsimp only at h1 h2
          omega
        · exact absurd h hkind
    exact ⟨⟨t, List.mem_cons_self, hi.1⟩, t, List.mem_cons_self, hi.2⟩

theorem leavesAll_append (bs cs : List Branch) :
    leavesAll (bs ++ cs) = leavesAll bs ++ leavesAll cs := by
  induction bs with
  | nil => rfl
  | cons b bs ih => rw [List.cons_append, leavesAll, leavesAll, ih, List.append_assoc]

theorem leavesAll_single (b : Branch) : leavesAll [b] = leaves b := by
  rw [leavesAll, leavesAll, List.append_nil]

end Claimed

/-- **The leaves of what is derived claim the bytes of all values exactly once.** -/
theorem Derives.claimed {s : String} {depth : Nat} {ts : List Token} {bs : List Branch}
    (h : Derives depth ts bs) (hts : Contiguous s ts) : Claimed ts (leavesAll bs) := by
  induction h with
  | nil => exact claimed_silent (by simp)
  | silent ht => exact claimed_silent (List.forall_mem_singleton.2 ht)
  | append _ _ ihb ihc =>
    rw [leavesAll_append]
    exact (ihb hts.left).append hts.toPlaced (ihc hts.right)
  | leaf hkind =>
    refine claimed_single hts.toPlaced (ne_of_mem_of_not_mem hkind.kind_mem (by decide)) ?_
    rintro rfl
    cases hkind with
    | value hkind => exact absurd hkind (by decide)
    | mark hmark => exact List.forall_mem_singleton.2 hmark
  | @node depth inner kind t ts bs hkind hbelow ih =>
    have hkey : kind ≠ .key := ne_of_mem_of_not_mem hkind.kind_mem (by decide)
    have hmark : kind ≠ .separator := ne_of_mem_of_not_mem hkind.kind_mem (by decide)
    rw [leavesAll_single, leaves_mk]
    split
    · exact claimed_single hts.toPlaced hkey fun hk => absurd hk hmark
    · exact ih hts
  | @pair depth t key value hword hkv =>
    have hstop := stop_keyValue hkv
    have hkind : (if value.head?.any Char.isDigit then NodeKind.version else .text) ≠ .key ∧
        (if value.head?.any Char.isDigit then NodeKind.version else .text) ≠ .separator := by
      split <;> decide
    exact claimed_pair hkind.1 hkind.2 (Nat.le_add_right _ _) (by omega)

/-! ### Leaves of the tree -/

theorem claimed_of_parse {text : String} {t : SyntaxTree} (h : parse text = .ok t) {tok : Token}
    (htok : tok ∈ Token.scan text) (hvalue : tok.kind.isValue = true) {i : Nat}
    (hi : tok.Covers i) : t.leaves.countP (·.claims i) = 1 := by
  have hscan := Token.contiguous_scan text
  have hderives : Derives 0 (Token.scan text) (forest text) := derives_forest.1 0 _ hscan
  have honce := (hderives.claimed hscan).once tok htok hvalue i hi
  have hplanted := planted_of_parse h
  have hrow : t.row 0 = (forest text).map extent := hplanted.row 0 Nat.one_pos
  have hne : t.row 0 ≠ [] := by
    rw [hrow]
    intro hnil
    rw [List.map_eq_nil_iff.1 hnil] at honce
    cases honce
  have hleaves : t.leaves = t.leavesFrom 1 := by
    have hsize : t.size - 0 = (t.size - 1) + 1 := by
      have := hplanted.built.wellFormed.size_pos
      omega
    rw [SyntaxTree.leaves, SyntaxTree.leavesFrom, hsize, List.range'_succ, List.filterMap_cons,
      if_neg hne]
    rfl
  rw [hleaves]
  exact (congrArg (·.countP (·.claims i)) hplanted.leaves).trans honce

/-! ### What nodes stand for -/

/-- The kinds of leaves that stand for values and for nothing else. -/
def strictKinds : List NodeKind := [.name, .version, .key, .url, .email, .uuid, .base64]

/-- The byte belongs to a value. -/
def InValue (s : String) (i : Nat) : Prop :=
  ∃ t ∈ Token.scan s, t.kind.isValue = true ∧ t.Covers i

/-- The byte belongs to a blank between two words inside the span. -/
def BetweenWords (s : String) (e : Extent) (i : Nat) : Prop :=
  ∃ w ∈ Token.scan s, ∃ b ∈ Token.scan s, ∃ w' ∈ Token.scan s,
    w.kind = .word ∧ b.kind = .space ∧ w'.kind = .word ∧ b.Covers i ∧
    e.start ≤ w.start ∧ w.stop = b.start ∧ b.stop = w'.start ∧ w'.stop ≤ e.stop

/-- A node for a word that is divided into a key and a value at the byte, right below an entry of
nothing but this word. -/
def IsPair (s : String) (i : Nat) (lineage row : List Extent) : Prop :=
  ∃ t ∈ Token.scan s, ∃ key mark value kind above, t.kind = .word ∧ (mark = ':' ∨ mark = '=') ∧
    t.text = key ++ mark :: value ∧ i = t.start + byteLength key ∧
    lineage = ⟨.keyValue, t.start, t.stop⟩ :: ⟨.commentEntry, t.start, t.stop⟩ :: above ∧
    row = [⟨.key, t.start, i⟩, ⟨kind, i + 1, t.stop⟩] ∧ kind ≠ .key

theorem IsPair.row_eq {s : String} {i : Nat} {lineage row : List Extent}
    (h : IsPair s i lineage row) : ∃ start stop kind, kind ≠ .key ∧
      row = [⟨.key, start, i⟩, ⟨kind, i + 1, stop⟩] := by
  obtain ⟨t, -, -, -, -, kind, -, -, -, -, -, -, hrow, hkind⟩ := h
  exact ⟨t.start, t.stop, kind, hkind, hrow⟩

/-- What a node stands for, by its kind. -/
structure Means (s : String) (lineage row : List Extent) : Prop where
  strict : ∀ e ∈ lineage.head?, e.kind ∈ strictKinds → ∀ i, e.covers i = true →
    InValue s i ∨ e.kind = .name ∧ BetweenWords s e i
  key : ∀ e above, lineage = e :: above → e.kind = .key →
    row = [] ∧ ∃ p ∈ above.head?, p.kind = .keyValue
  pair : ∀ e ∈ lineage.head?, e.kind = .keyValue → ∃ i, IsPair s i lineage row

section Means
variable {s : String} {t : Token} {ts : List Token}

theorem exists_covers (h : Contiguous s (t :: ts)) {i : Nat} (hle : t.start ≤ i)
    (hlt : i < lastStop t ts) :
    ∃ before u behind, t :: ts = before ++ u :: behind ∧ u.Covers i := by
  induction ts generalizing t with
  | nil => exact ⟨[], t, [], rfl, hle, hlt⟩
  | cons w ws ih =>
    by_cases hi : i < t.stop
    · exact ⟨[], t, w :: ws, rfl, hle, hi⟩
    · have hnext := (List.isChain_cons_cons.1 h.joins).1.stop_eq
      rw [lastStop_cons] at hlt
      obtain ⟨before, u, behind, hparts, hu⟩ := ih h.tail (by omega) hlt
      exact ⟨t :: before, u, behind, congrArg (t :: ·) hparts, hu⟩

/-- **A name covers its words and the blanks between them.** -/
theorem covers_name (h : Contiguous s (t :: ts)) (hsub : t :: ts ⊆ Token.scan s)
    (hname : IsName (t :: ts)) {i : Nat} (hle : t.start ≤ i) (hlt : i < lastStop t ts) :
    InValue s i ∨ BetweenWords s ⟨.name, t.start, lastStop t ts⟩ i := by
  obtain ⟨before, u, behind, hparts, hu⟩ := exists_covers h hle hlt
  have hmem : u ∈ t :: ts := by
    rw [hparts]
    exact List.mem_append_right before List.mem_cons_self
  rcases hname.plain u hmem with hword | hspace
  · exact .inl ⟨u, hsub hmem, by rw [hword]; rfl, hu⟩
  · -- a blank is neither first nor last, so a word stands on either side of it
    have hfirst := hname.first
    have hlast := hname.last
    have hjoins := h.joins
    rw [hparts] at hfirst hlast hjoins
    rcases List.eq_nil_or_concat' before with rfl | ⟨xs, w, rfl⟩
    · have := hfirst u rfl
      rw [hspace] at this
      cases this
    rcases behind with _ | ⟨w', ys⟩
    · have := hlast u List.getLast?_concat
      rw [hspace] at this
      cases this
    rw [List.append_assoc] at hjoins
    have hchain := hjoins.right_of_append
    rw [List.singleton_append, List.isChain_cons_cons, List.isChain_cons_cons] at hchain
    obtain ⟨hwu, huw, -⟩ := hchain
    have hw : w ∈ t :: ts := by
      rw [hparts]
      simp
    have hw' : w' ∈ t :: ts := by
      rw [hparts]
      simp
    have hword : w.kind = .word :=
      (hname.plain w hw).resolve_right fun hk => hwu.not_blanks hk hspace
    have hword' : w'.kind = .word :=
      (hname.plain w' hw').resolve_right fun hk => huw.not_blanks hspace hk
    exact .inr ⟨w, hsub hw, u, hsub hmem, w', hsub hw', hword, hspace, hword', hu,
      (h.within hw).1, hwu.stop_eq, huw.stop_eq, (h.within hw').2⟩

/-- A branch that is neither a key nor above one. -/
theorem every_means {above : List Extent} {kind : NodeKind} {start stop : Nat}
    {children : List Branch} (hkey : kind ≠ .key) (hpair : kind ≠ .keyValue)
    (hstrict : kind ∈ strictKinds → ∀ i, start ≤ i → i < stop →
      InValue s i ∨ kind = .name ∧ BetweenWords s ⟨kind, start, stop⟩ i)
    (hbelow : ∀ b ∈ children, Every (Means s) (⟨kind, start, stop⟩ :: above) b) :
    Every (Means s) above (.mk kind start stop children) := by
  refine .mk ⟨?_, ?_, ?_⟩ hbelow
  · rintro e ⟨⟩ hk i hi
    simp only [Extent.covers, Bool.and_eq_true, decide_eq_true_eq] at hi
    exact hstrict hk i hi.1 hi.2
  · rintro e above ⟨⟩ hk
    exact absurd hk hkey
  · rintro e ⟨⟩ hk
    exact absurd hk hpair

theorem every_means_pair {above : List Extent} {key value : List Char} (ht : t ∈ Token.scan s)
    (hword : t.kind = .word) (hkv : keyValue? t.text = some (key, value)) :
    Every (Means s) above (.mk .commentEntry t.start t.stop [keyValueBranch t key value]) := by
  have hstop := stop_keyValue hkv
  obtain ⟨mark, hmark, htext⟩ := keyValue_split hkv
  have hvalue {i : Nat} (hle : t.start ≤ i) (hlt : i < t.stop) : InValue s i :=
    ⟨t, ht, by rw [hword]; rfl, hle, hlt⟩
  have hkind : (if value.head?.any Char.isDigit then NodeKind.version else .text) ≠ .key ∧
      (if value.head?.any Char.isDigit then NodeKind.version else .text) ≠ .keyValue := by
    split <;> decide
  refine every_means (by decide) (by decide) (fun h => absurd h (by decide))
    (List.forall_mem_singleton.2 (.mk ⟨?_, ?_, ?_⟩ (List.forall_mem_cons.2 ⟨.mk ⟨?_, ?_, ?_⟩ ?_,
      List.forall_mem_singleton.2 (every_means hkind.1 hkind.2 ?_ ?_)⟩)))
  · rintro e ⟨⟩ hk
    exact absurd hk (show NodeKind.keyValue ∉ strictKinds by decide)
  · rintro e _ ⟨⟩ hk
    cases hk
  · rintro e ⟨⟩ -
    exact ⟨_, t, ht, key, mark, value, _, above, hword, hmark, htext, rfl, rfl, rfl, hkind.1⟩
  · rintro e ⟨⟩ - i hi
    simp only [Extent.covers, Bool.and_eq_true, decide_eq_true_eq] at hi
    exact .inl (hvalue hi.1 (by omega))
  · rintro e _ ⟨⟩ -
    exact ⟨rfl, _, rfl, rfl⟩
  · rintro e ⟨⟩ hk
    cases hk
  · simp
  · intro _ i hle hlt
    exact .inl (hvalue (by omega) hlt)
  · simp

end Means

/-- **What is derived means what its kind says.** -/
theorem Derives.means {s : String} {depth : Nat} {ts : List Token} {bs : List Branch}
    (h : Derives depth ts bs) (hts : Contiguous s ts) (hsub : ts ⊆ Token.scan s) {above : List Extent} :
    ∀ b ∈ bs, Every (Means s) above b := by
  induction h generalizing above with
  | nil => simp
  | silent => simp
  | @append depth ts us bs cs _ _ ihb ihc =>
    intro b hb
    rcases List.mem_append.1 hb with hb | hb
    · exact ihb hts.left (fun t ht => hsub (List.mem_append_left us ht)) b hb
    · exact ihc hts.right (fun t ht => hsub (List.mem_append_right ts ht)) b hb
  | @leaf depth kind t ts hkind =>
    refine List.forall_mem_singleton.2 ?_
    cases hkind with
    | text => exact every_means (by decide) (by decide) (fun h => absurd h (by decide)) (by simp)
    | name hname =>
      refine every_means (by decide) (by decide) (fun _ i hle hlt => ?_) (by simp)
      exact (covers_name hts hsub hname hle hlt).imp_right fun h => ⟨rfl, h⟩
    | value hkind hvalue =>
      have hkey : kind ≠ .key := ne_of_mem_of_not_mem hkind (by decide)
      have hpair : kind ≠ .keyValue := ne_of_mem_of_not_mem hkind (by decide)
      refine every_means hkey hpair (fun _ i hle hlt => ?_) (by simp)
      exact .inl ⟨t, hsub List.mem_cons_self, hvalue, hle, hlt⟩
    | mark => exact every_means (by decide) (by decide) (fun h => absurd h (by decide)) (by simp)
  | @node depth inner kind t ts bs hkind _ ih =>
    have hkey : kind ≠ .key := ne_of_mem_of_not_mem hkind.kind_mem (by decide)
    have hpair : kind ≠ .keyValue := ne_of_mem_of_not_mem hkind.kind_mem (by decide)
    have hstrict : kind ∉ strictKinds :=
      (show ∀ k ∈ NodeKind.comments :: innerKinds, k ∉ strictKinds by decide) kind hkind.kind_mem
    exact List.forall_mem_singleton.2
      (every_means hkey hpair (fun h => absurd h hstrict) (ih hts hsub))
  | pair hword hkv =>
    exact List.forall_mem_singleton.2 (every_means_pair (hsub List.mem_cons_self) hword hkv)

theorem means_of_parse {text : String} {t : SyntaxTree} (h : parse text = .ok t) :
    ∀ id < t.size, Means text (t.lineage id) (t.row id) := by
  have hscan := Token.contiguous_scan text
  have hderives : Derives 0 (Token.scan text) (forest text) := derives_forest.1 0 _ hscan
  refine every_of_parse h ⟨?_, ?_, ?_⟩ (hderives.means hscan fun t ht => ht)
  · rintro e ⟨⟩ hk
    exact absurd hk (show NodeKind.agent ∉ strictKinds by decide)
  · rintro e _ ⟨⟩ hk
    cases hk
  · rintro e ⟨⟩ hk
    cases hk

end Grammar

/-! ### Trees -/

namespace SyntaxTree

/-- The childless nodes, separators aside, that cover a byte. -/
def covering (t : SyntaxTree) (i : Nat) : List Nat :=
  (List.range t.size).filter fun id =>
    t.children id = [] && (t.extentOf id).any fun e => e.kind ≠ .separator && e.covers i

/-- The byte is the mark at which an entry of one word is divided into a key and a value. -/
def SplitsAt (t : SyntaxTree) (i : Nat) : Prop :=
  ∃ id, Grammar.IsPair t.source i (t.lineage id) (t.row id)

/-- The leaves of a tree keep the values of its source. -/
structure KeepsValues (t : SyntaxTree) : Prop where
  /-- A byte of a value is covered once, but for marks between keys and values. -/
  once : ∀ tok ∈ Token.scan t.source, tok.kind.isValue = true → ∀ i, tok.Covers i →
    t.SplitsAt i ∧ t.covering i = [] ∨ ¬ t.SplitsAt i ∧ ∃ id, t.covering i = [id]
  /-- Nodes that stand for values cover nothing else, but for the blanks inside of names. -/
  strict : ∀ id e, t.extentOf id = some e → e.kind ∈ Grammar.strictKinds → ∀ i, e.covers i = true →
    Grammar.InValue t.source i ∨ e.kind = .name ∧ Grammar.BetweenWords t.source e i

/-- The childless nodes that claim a byte. -/
def claiming (t : SyntaxTree) (i : Nat) : List Nat :=
  (List.range t.size).filter fun id => t.children id = [] && (t.extentOf id).any (·.claims i)

theorem covering_eq (t : SyntaxTree) (i : Nat) : t.covering i = (t.claiming i).filter fun id =>
    (t.extentOf id).any fun e => e.kind ≠ .separator && e.covers i := by
  rw [claiming, covering, List.filter_filter]
  refine List.filter_congr fun id _ => ?_
  cases t.extentOf id with
  | none => simp
  | some e =>
    simp only [Option.any_some, Extent.claims]
    cases decide (t.children id = []) <;> cases decide (e.kind ≠ .separator) && e.covers i <;> simp

section Trees
variable {t : SyntaxTree} (ht : WellFormed t) {i id parent : Nat} {e : Extent}
include ht

theorem mem_row :
    e ∈ t.row parent ↔ ∃ id, t.parentOf id = some parent ∧ t.extentOf id = some e := by
  unfold row
  simp only [List.mem_filterMap, ht.mem_children]

theorem row_eq_nil_iff : t.row id = [] ↔ t.children id = [] := by
  unfold row
  rw [List.filterMap_eq_nil_iff]
  refine ⟨fun h => List.eq_nil_iff_forall_not_mem.2 fun c hc => ?_, fun h => by simp [h]⟩
  have hnone := h c hc
  rw [extentOf, Array.getElem?_eq_getElem (ht.lt_of_mem_children hc).2] at hnone
  cases hnone

theorem length_claiming (i : Nat) : (t.claiming i).length = t.leaves.countP (·.claims i) := by
  rw [claiming, leaves, leavesFrom, Nat.sub_zero, ← List.range_eq_range', List.countP_filterMap,
    ← List.countP_eq_length_filter]
  refine List.countP_congr fun id _ => ?_
  by_cases h : t.children id = []
  · rw [if_pos ((row_eq_nil_iff ht).2 h)]
    cases t.extentOf id <;> simp [h]
  · rw [if_neg (mt (row_eq_nil_iff ht).1 h)]
    simp [h]

end Trees

end SyntaxTree

namespace Grammar

open SyntaxTree

section Split
variable {text : String} {t : SyntaxTree} (ht : parse text = .ok t) {i id : Nat} {e : Extent}
include ht

theorem splitsAt_of_key (he : t.extentOf id = some e) (hkey : e.kind = .key) (hstop : e.stop = i) :
    t.SplitsAt i := by
  have hplanted := planted_of_parse ht
  have hsource : t.source = text := hplanted.source
  have hwf := hplanted.built.wellFormed
  have hmeans := means_of_parse ht
  have hlt {n : Nat} {x : Extent} (hx : t.extentOf n = some x) : n < t.size := by
    obtain ⟨m, hm, -⟩ := Option.map_eq_some_iff.1 hx
    exact (Array.getElem?_eq_some_iff.1 hm).1
  have hlineage := lineage_eq hwf id
  rw [he] at hlineage
  obtain ⟨-, p, hp, hpair⟩ := (hmeans id (hlt he)).key e _ hlineage hkey
  cases hparent : t.parentOf id with
  | none =>
    rw [hparent] at hp
    cases hp
  | some q =>
    rw [hparent, Option.elim_some] at hp
    have hq := Nat.lt_trans (hwf.lt_of_parentOf hparent) (hlt he)
    obtain ⟨m, hm⟩ := (hmeans q hq).pair p hp hpair
    have hrow : e ∈ t.row q := (mem_row hwf).2 ⟨id, hparent, he⟩
    obtain ⟨start, stop, kind, hkind, hchildren⟩ := hm.row_eq
    have hsame : m = i := by
      rw [hchildren] at hrow
      rcases List.mem_cons.1 hrow with rfl | hrow
      · exact hstop
      · rw [List.mem_singleton.1 hrow] at hkey
        exact absurd hkey hkind
    refine ⟨q, ?_⟩
    rw [hsource, ← hsame]
    exact hm

theorem exists_key_of_splitsAt (h : t.SplitsAt i) :
    ∃ k < t.size, t.children k = [] ∧
      ∃ e, t.extentOf k = some e ∧ e.kind = .key ∧ e.stop = i := by
  have hwf := (planted_of_parse ht).built.wellFormed
  obtain ⟨q, hq⟩ := h
  obtain ⟨start, stop, kind, -, hrow⟩ := hq.row_eq
  have hmem : ⟨.key, start, i⟩ ∈ t.row q := by
    rw [hrow]
    exact List.mem_cons_self
  obtain ⟨k, hparent, hk⟩ := (mem_row hwf).1 hmem
  have hlt := (hwf.lt_of_mem_children ((hwf.mem_children q k).2 hparent)).2
  have hlineage := lineage_eq hwf k
  rw [hk] at hlineage
  have hnone := ((means_of_parse ht k hlt).key _ _ hlineage rfl).1
  exact ⟨k, hlt, (row_eq_nil_iff hwf).1 hnone, _, hk, rfl, rfl⟩

end Split

/-- **Every text has a tree, and its leaves keep the values of the text.** -/
theorem exists_keepsValues (text : String) :
    ∃ t, parse text = .ok t ∧ t.source = text ∧ KeepsValues t := by
  obtain ⟨t, ht, -⟩ := parse_ok text
  have hplanted := planted_of_parse ht
  have hsource : t.source = text := hplanted.source
  have hwf := hplanted.built.wellFormed
  refine ⟨t, ht, hsource, ?_, ?_⟩
  · rw [hsource]
    intro tok htok hvalue i hi
    have honce : (t.claiming i).length = 1 := by
      rw [length_claiming hwf, claimed_of_parse ht htok hvalue hi]
    obtain ⟨id, hid⟩ := List.length_eq_one_iff.1 honce
    have hmem : id ∈ t.claiming i := by
      rw [hid]
      exact List.mem_cons_self
    simp only [claiming, List.mem_filter, Bool.and_eq_true, Option.any_eq_true] at hmem
    obtain ⟨-, -, e, he, hclaims⟩ := hmem
    have hcovering := covering_eq t i
    rw [hid, List.filter_singleton, he, Option.any_some, Bool.cond_eq_ite] at hcovering
    by_cases hcovers : (e.kind ≠ .separator && e.covers i) = true
    · rw [if_pos hcovers] at hcovering
      refine .inr ⟨fun hsplit => ?_, id, hcovering⟩
      -- the key in front of a mark would claim the byte as well
      obtain ⟨k, hk, hchildless, e', he', hkey, hstop⟩ := exists_key_of_splitsAt ht hsplit
      have hkmem : k ∈ t.claiming i := by
        have hclaims' : e'.claims i = true := Extent.claims_iff.2 (.inr ⟨hkey, hstop⟩)
        simp [claiming, hk, hchildless, he', hclaims']
      rw [hid, List.mem_singleton] at hkmem
      rw [hkmem, he] at he'
      cases he'
      simp [Extent.covers, hstop] at hcovers
    · rw [if_neg hcovers] at hcovering
      refine .inl ⟨?_, hcovering⟩
      simp only [Extent.claims, hcovers, Bool.false_or, Bool.and_eq_true, decide_eq_true_eq]
        at hclaims
      exact splitsAt_of_key ht he hclaims.1 hclaims.2
  · intro id e he hk i hi
    obtain ⟨n, hn, -⟩ := Option.map_eq_some_iff.1 he
    have hlt : id < t.size := (Array.getElem?_eq_some_iff.1 hn).1
    rw [hsource]
    refine (means_of_parse ht id hlt).strict e ?_ hk i hi
    rw [lineage_eq hwf, he]
    rfl

end Grammar

end AgentRules
