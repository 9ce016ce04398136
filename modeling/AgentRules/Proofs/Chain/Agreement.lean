import AgentRules.Chain.Step
import AgentRules.Proofs.Text.Boundaries
import AgentRules.Proofs.Text.Sigma

/-! # How comparisons agree

Equality and affixes are compared up to ASCII case, containment in lower case. A value that equals a
text contains it, and equality is being a start of the same number of bytes. A value that starts or
ends with a text contains it there, but for a sigma: a text whose letters end in a capital sigma has
a final sigma in lower case, which the value has not if its letters go on, and so at the start. Then
the value contains the text only if it occurs at another place as well (`comparisons_agree`). -/

namespace AgentRules

open Text

variable {value text : String}

/-! ### Comparing up to ASCII case -/

theorem byteLength_map_toLower (cs : List Char) :
    byteLength (cs.map Char.toLower) = byteLength cs := by
  induction cs with
  | nil => rfl
  | cons c cs ih =>
    have hsize : c.toLower.utf8Size = c.utf8Size := by
      by_cases hascii : c.toNat < 128
      · obtain ⟨n, hn, rfl⟩ : ∃ n < 128, Char.ofNat n = c := ⟨c.toNat, hascii, Char.ofNat_toNat c⟩
        clear hascii
        revert n
        decide
      · have hhi : ¬ c.toNat ≤ 90 := by omega
        rw [toLower_eq_self fun hcapital => hhi hcapital.2]
    rw [List.map_cons, byteLength_cons, byteLength_cons, hsize, ih]

theorem equalFold_iff : equalFold value text = true ↔ fold value = fold text := beq_iff_eq

theorem startsFold_iff_take : startsFold value text = true ↔
    fold text = (value.toList.take text.length).map Char.toLower := by
  rw [startsFold, List.isPrefixOf_iff_prefix, List.prefix_iff_eq_take, List.map_take]
  unfold fold
  rw [List.length_map, String.length_toList]

theorem endsFold_iff_drop : endsFold value text = true ↔
    fold text = (value.toList.drop (value.length - text.length)).map Char.toLower := by
  rw [endsFold, List.isSuffixOf_iff_suffix, List.suffix_iff_eq_drop, List.map_drop]
  unfold fold
  rw [List.length_map, List.length_map, String.length_toList, String.length_toList]

/-- **Equality is being a start of the same number of bytes.** -/
theorem equalFold_iff_startsFold : equalFold value text = true ↔
    startsFold value text = true ∧ size value = size text := by
  rw [equalFold_iff, startsFold_iff_take, size, size, ← byteLength_map_toLower value.toList,
    ← byteLength_map_toLower text.toList]
  constructor
  · intro h
    have hlen := congrArg List.length h
    unfold fold at h hlen
    rw [List.length_map, List.length_map, String.length_toList, String.length_toList] at hlen
    rw [← hlen, ← String.length_toList, List.take_length, h]
    exact ⟨rfl, rfl⟩
  · rintro ⟨hstart, hsize⟩
    have hsplit := congrArg (List.map Char.toLower)
      (List.take_append_drop text.length value.toList)
    rw [List.map_append, ← hstart] at hsplit
    rw [← hsplit, byteLength_append] at hsize
    have hrest : (value.toList.drop text.length).map Char.toLower = [] := by
      by_contra hne
      have := byteLength_pos hne
      unfold fold at hsize
      omega
    rw [hrest, List.append_nil] at hsplit
    exact hsplit.symm

/-! ### Occurring in a text -/

theorem occursIn_iff {needle hay : List Char} : occursIn needle hay = true ↔ needle <:+: hay := by
  induction hay with
  | nil => rw [occursIn, List.isEmpty_iff, List.infix_nil]
  | cons c cs ih =>
    rw [occursIn, Bool.or_eq_true, List.isPrefixOf_iff_prefix, ih, List.infix_cons_iff]

theorem infix_iff_prefix_or_tail {needle hay : List Char} :
    needle <:+: hay ↔ needle <+: hay ∨ needle <:+: hay.tail := by
  cases hay with
  | nil => simp
  | cons c cs => rw [List.infix_cons_iff, List.tail_cons]

theorem infix_iff_suffix_or_dropLast {needle hay : List Char} :
    needle <:+: hay ↔ needle <:+ hay ∨ needle <:+: hay.dropLast := by
  rcases List.eq_nil_or_concat hay with rfl | ⟨cs, c, rfl⟩
  · simp
  · rw [List.concat_eq_append, List.infix_concat_iff, List.dropLast_concat]

/-! ### Containing a text in lower case -/

theorem toList_lower_eq (s : String) : (lower s).toList = lowerFrom false s.toList :=
  String.toList_ofList

theorem lower_eq_of_equalFold (h : equalFold value text = true) : lower value = lower text := by
  rw [← String.toList_inj, toList_lower_eq, toList_lower_eq]
  exact lowerFrom_eq_of_fold_eq (equalFold_iff.1 h) false

/-- The lower-case form of a value starts with that of its start, but for a sigma. -/
theorem lower_prefix_iff (h : startsFold value text = true) :
    (lower text).toList <+: (lower value).toList ↔
      ¬ (EndsFinal false text.toList ∧ startsCased (value.toList.drop text.length) = true) := by
  have hpart := startsFold_iff_take.1 h
  rw [toList_lower_eq, toList_lower_eq, ← endsFinal_map_toLower,
    ← lowerFrom_map_toLower false text.toList, show text.toList.map Char.toLower = _ from hpart,
    endsFinal_map_toLower, lowerFrom_map_toLower, ← lowerFrom_prefix_iff,
    List.take_append_drop]

/-- The lower-case form of a value ends with that of its end, but for a sigma. -/
theorem lower_suffix_iff (h : endsFold value text = true) :
    (lower text).toList <:+ (lower value).toList ↔
      ¬ (StartsFinal text.toList ∧
        casedBehind false (value.toList.take (value.length - text.length)) = true) := by
  have hpart := endsFold_iff_drop.1 h
  rw [toList_lower_eq, toList_lower_eq, ← startsFinal_map_toLower,
    ← lowerFrom_map_toLower false text.toList, show text.toList.map Char.toLower = _ from hpart,
    startsFinal_map_toLower, lowerFrom_map_toLower, ← lowerFrom_suffix_iff,
    List.take_append_drop]

/-- **Comparisons agree, but for a sigma at the cut.** -/
theorem comparisons_agree (value text : String) :
    (Test.accepts value (.equals text) = true → Test.accepts value (.contains text) = true) ∧
    (Test.accepts value (.equals text) = true ↔
      Test.accepts value (.startsWith text) = true ∧ size value = size text) ∧
    (Test.accepts value (.differs text) = true ↔ ¬ Test.accepts value (.equals text) = true) ∧
    (Test.accepts value (.startsWith text) = true →
      (Test.accepts value (.contains text) = true ↔
        (EndsFinal false text.toList ∧ startsCased (value.toList.drop text.length) = true →
          occursIn (lower text).toList (lower value).toList.tail = true))) ∧
    (Test.accepts value (.endsWith text) = true →
      (Test.accepts value (.contains text) = true ↔
        (StartsFinal text.toList ∧
          casedBehind false (value.toList.take (value.length - text.length)) = true →
          occursIn (lower text).toList (lower value).toList.dropLast = true))) := by
  have hcontains : Test.accepts value (.contains text) = true ↔
      (lower text).toList <:+: (lower value).toList := occursIn_iff
  rw [hcontains]
  refine ⟨fun h => ?equal, equalFold_iff_startsFold, ?differs, fun h => ?starts, fun h => ?ends⟩
  case equal =>
    rw [lower_eq_of_equalFold h]
  case differs =>
    rw [Bool.not_eq_true]
    exact iff_of_eq (Bool.not_eq_true' (equalFold value text))
  case starts =>
    rw [infix_iff_prefix_or_tail, lower_prefix_iff h, occursIn_iff, imp_iff_not_or]
  case ends =>
    rw [infix_iff_suffix_or_dropLast, lower_suffix_iff h, occursIn_iff, imp_iff_not_or]

/-- **A value can start or end with a text that it does not contain.** -/
theorem affix_not_contained :
    Test.accepts "aΣa" (.startsWith "AΣ") = true ∧ Test.accepts "aΣa" (.contains "AΣ") = false ∧
    Test.accepts "aΣ" (.endsWith "Σ") = true ∧ Test.accepts "aΣ" (.contains "Σ") = false ∧
    (¬ ∀ value text, Test.accepts value (.startsWith text) = true →
      Test.accepts value (.contains text) = true) ∧
    ¬ ∀ value text, Test.accepts value (.endsWith text) = true →
      Test.accepts value (.contains text) = true := by
  have hstarts : Test.accepts "aΣa" (.startsWith "AΣ") = true := by decide +kernel
  have hends : Test.accepts "aΣ" (.endsWith "Σ") = true := by decide +kernel
  have hinside : Test.accepts "aΣa" (.contains "AΣ") = false := by decide +kernel
  have hlast : Test.accepts "aΣ" (.contains "Σ") = false := by decide +kernel
  refine ⟨hstarts, hinside, hends, hlast, fun h => ?_, fun h => ?_⟩
  · exact absurd (h _ _ hstarts) (by rw [hinside]; decide)
  · exact absurd (h _ _ hends) (by rw [hlast]; decide)

end AgentRules
