import AgentRules.Proofs.Agent.Derivation
import AgentRules.Proofs.Tree.Sound

/-! # Planting never fails

A tree refuses a node that is an agent, has no parent in the tree, or covers no span of the source.
Branches that stand on spans of the source (`Branch.Stands`) are planted without a refusal, each node
under one that is already there (`Branch.plantAll_ok`). The branches of a text are such branches:
every place in them is the start or the end of a token they are derived from, but for the two sides
of a key with its value, which are divided at a character of one byte (`Grammar.Derives.stands`). -/

namespace AgentRules

open Text

theorem Placed.within {s : String} {t u : Token} {ts : List Token} (h : Placed s (t :: ts))
    (hu : u ∈ t :: ts) : t.start ≤ u.start ∧ u.stop ≤ lastStop t ts := by
  have hle (v : Token) : v.start ≤ v.stop := Nat.le_add_right _ _
  induction ts generalizing t u with
  | nil =>
    rw [List.mem_singleton.1 hu]
    exact ⟨Nat.le_refl _, Nat.le_refl _⟩
  | cons w ws ih =>
    have hnext := (List.pairwise_cons.1 h.ordered).1 w List.mem_cons_self
    rw [Grammar.lastStop_cons]
    have := hle t
    have := hle w
    rcases List.mem_cons.1 hu with rfl | hu
    · have := (ih h.tail List.mem_cons_self).2
      omega
    · have := ih h.tail hu
      omega

namespace Branch

/-- The branch and all below it stand on spans of the source, and none of them is an agent. -/
inductive Stands (s : String) : Branch → Prop
  | mk {kind : NodeKind} {start stop : Nat} {children : List Branch} : kind ≠ .agent →
      IsSpan s start stop → (∀ b ∈ children, Stands s b) → Stands s (.mk kind start stop children)

/-- A branch that is planted under any node of a tree of the source, which stays such a tree. -/
def Plants (s : String) (b : Branch) : Prop :=
  ∀ (t : SyntaxTree) (parent : Nat), t.source = s → parent < t.size →
    ∃ u, plant t parent b = .ok u ∧ u.source = s ∧ u.syntaxError = t.syntaxError ∧ t.size ≤ u.size

theorem plantAll_ok {s : String} {bs : List Branch} (h : ∀ b ∈ bs, Plants s b) (t : SyntaxTree)
    (parent : Nat) (hs : t.source = s) (hparent : parent < t.size) :
    ∃ u, plantAll t parent bs = .ok u ∧ u.source = s ∧ u.syntaxError = t.syntaxError ∧
      t.size ≤ u.size := by
  induction bs generalizing t with
  | nil => exact ⟨t, by rw [plantAll], hs, rfl, Nat.le_refl _⟩
  | cons b bs ih =>
    obtain ⟨u, hu, hus, hue, hle⟩ := h b List.mem_cons_self t parent hs hparent
    obtain ⟨v, hv, hvs, hve, hle'⟩ :=
      ih (fun c hc => h c (List.mem_cons_of_mem b hc)) u hus (Nat.lt_of_lt_of_le hparent hle)
    refine ⟨v, ?_, hvs, hve.trans hue, Nat.le_trans hle hle'⟩
    rw [plantAll, hu]
    exact hv

/-- **A branch that stands on the source is planted.** -/
theorem Stands.plants {s : String} {b : Branch} (h : Stands s b) : Plants s b := by
  induction h with
  | @mk kind start stop children hkind hspan _ ih =>
    intro t parent hs hparent
    obtain ⟨u, hu⟩ := SyntaxTree.exists_add_iff.2 ⟨hkind, hparent, hs ▸ hspan⟩
    obtain ⟨-, -, hus, hue, -⟩ := SyntaxTree.add_eq_ok hu
    have hsize := SyntaxTree.size_add hu
    obtain ⟨v, hv, hvs, hve, hle⟩ := plantAll_ok ih u t.size (hus.trans hs) (by omega)
    refine ⟨v, ?_, hvs, hve.trans hue, by omega⟩
    rw [plant, hu]
    exact hv

theorem stands_leaf {s : String} {kind : NodeKind} {start stop : Nat} (hkind : kind ≠ .agent)
    (hspan : IsSpan s start stop) : Stands s (leaf kind start stop) :=
  .mk hkind hspan (by simp)

end Branch

namespace Grammar

open Branch

variable {s : String} {t : Token} {ts : List Token}

/-! ### Keys with values -/

theorem keyValue_split {word key value : List Char} (h : keyValue? word = some (key, value)) :
    ∃ c, (c = ':' ∨ c = '=') ∧ word = key ++ c :: value := by
  dsimp only [keyValue?] at h
  split at h
  · next c d rest hdrop =>
    split at h
    · cases h
    · cases h
      have hsplit := List.prefix_iff_eq_append.1
        (List.takeWhile_prefix (l := word) fun c => c ≠ ':' && c ≠ '=')
      have hwhile := List.takeWhile_append_dropWhile (p := fun c => c ≠ ':' && c ≠ '=') (l := word)
      have hhead := List.head?_dropWhile_not (fun c => c ≠ ':' && c ≠ '=') word
      rw [← List.append_cancel_left (hsplit.trans hwhile.symm), hdrop] at hhead
      rw [hdrop] at hsplit
      refine ⟨c, ?_, hsplit.symm⟩
      simpa [Classical.or_iff_not_imp_left] using hhead
  · cases h

theorem byteLength_mark {key : List Char} {c : Char} (hc : c = ':' ∨ c = '=') :
    byteLength (key ++ [c]) = byteLength key + 1 := by
  rw [byteLength_append]
  rcases hc with rfl | rfl <;> rfl

theorem stop_keyValue {key value : List Char} (hkv : keyValue? t.text = some (key, value)) :
    t.stop = t.start + byteLength key + 1 + byteLength value := by
  obtain ⟨c, hc, htext⟩ := keyValue_split hkv
  rw [Token.stop, htext, ← List.singleton_append, ← List.append_assoc, byteLength_append,
    byteLength_mark hc]
  omega

theorem stands_keyValue {key value : List Char} (h : Placed s [t])
    (hkv : keyValue? t.text = some (key, value)) : Stands s (keyValueBranch t key value) := by
  obtain ⟨c, hc, htext⟩ := keyValue_split hkv
  have ht : t ∈ [t] := List.mem_cons_self
  have htext' : t.text = (key ++ [c]) ++ value := by rw [htext, List.append_assoc]; rfl
  have hkey := h.isBoundary_inside ht htext
  have hvalue := h.isBoundary_inside ht htext'
  have hstop := stop_keyValue hkv
  rw [byteLength_mark hc, ← Nat.add_assoc] at hvalue
  have hkind : (if value.head?.any Char.isDigit then NodeKind.version else .text) ≠ .agent := by
    split <;> decide
  refine .mk (by decide) (h.isSpan_token ht) fun b hb => ?_
  simp only [List.mem_cons, List.not_mem_nil, or_false] at hb
  rcases hb with rfl | rfl
  · exact stands_leaf (by decide) ⟨Nat.le_add_right _ _, h.isBoundary_start ht, hkey⟩
  · exact stands_leaf hkind ⟨by omega, hvalue, h.isBoundary_stop ht⟩

/-! ### Derivations -/

theorem isSpan_tokens (h : Placed s (t :: ts)) : IsSpan s t.start (lastStop t ts) := by
  obtain ⟨u, hu, hstop⟩ := exists_lastStop t ts
  rw [hstop]
  exact h.isSpan hu

/-- **What is derived from tokens of a text stands on it.** -/
theorem Derives.stands {depth : Nat} {bs : List Branch} (h : Derives depth ts bs)
    (hts : Placed s ts) : ∀ b ∈ bs, Stands s b := by
  induction h with
  | nil => simp
  | silent => simp
  | @append depth ts us bs cs _ _ ihb ihc =>
    intro b hb
    rcases List.mem_append.1 hb with hb | hb
    · exact ihb (hts.sublist (List.sublist_append_left ts us)) b hb
    · exact ihc (hts.sublist (List.sublist_append_right ts us)) b hb
  | @leaf depth kind t ts hkind =>
    have hne : kind ≠ .agent := ne_of_mem_of_not_mem hkind.kind_mem (by decide)
    exact List.forall_mem_singleton.2 (stands_leaf hne (isSpan_tokens hts))
  | @node depth inner kind t ts bs hkind _ ih =>
    have hne : kind ≠ .agent := ne_of_mem_of_not_mem hkind.kind_mem (by decide)
    exact List.forall_mem_singleton.2 (.mk hne (isSpan_tokens hts) (ih hts))
  | @pair depth t key value _ hkv =>
    refine List.forall_mem_singleton.2 (.mk (by decide) (hts.isSpan_token List.mem_cons_self) ?_)
    exact List.forall_mem_singleton.2 (stands_keyValue hts hkv)

/-- **Every text is parsed**, and the tree is marked just if the grammar reports its parentheses. -/
theorem parse_ok (text : String) :
    ∃ t, parse text = .ok t ∧ t.syntaxError = (items 0 (Token.scan text)).2 := by
  have hscan := Token.contiguous_scan text
  have hstands := (derives_forest.1 0 _ hscan).stands hscan.toPlaced
  obtain ⟨t, ht, -, herror, -⟩ := plantAll_ok (fun b hb => (hstands b hb).plants)
    (.ofSource text) 0 rfl Nat.one_pos
  rw [parse]
  rcases hitems : items 0 (Token.scan text) with ⟨branches, bad⟩
  rw [hitems] at ht
  rcases bad with _ | _
  · refine ⟨t, ?_, herror⟩
    simp only [ht]
    rfl
  · refine ⟨t.markSyntaxError, ?_, rfl⟩
    simp only [ht]
    rfl

end Grammar

end AgentRules
