import AgentRules.Brand
import AgentRules.Proofs.Text.Strip
import Mathlib.Data.List.Infix
import Mathlib.Data.List.TakeWhile

/-! # The pieces of a brand name

A name is made of words, of blanks and of other marks. `spellPieces` spells it piece by piece: each
word by itself, each mark as it is, and each run of blanks as one blank. What is written instead
leaves a blank out if the last mark before it was a blank too, even with a word between them
(`spellWords_eq_runs`). So it is the spelling by pieces without some of its blanks
(`sublist_pieces`), and all of them are there just if no word stands between two blanks
(`runs_eq_pieces_iff`). -/

namespace AgentRules.Brand

open Text

/-! ### Pieces -/

/-- The spelling of a name by its pieces. -/
def spellPieces : List Char → List Char
  | [] => []
  | c :: cs =>
    if c = ' ' then ' ' :: spellPieces (cs.dropWhile (· = ' '))
    else if isBreak c then c :: spellPieces cs
    else spellWord (c :: cs.takeWhile (!isBreak ·)) ++ spellPieces (cs.dropWhile (!isBreak ·))
termination_by cs => cs.length
decreasing_by
  · exact Nat.lt_succ_of_le (List.dropWhile_suffix _).length_le
  · exact Nat.lt_succ_self _
  · exact Nat.lt_succ_of_le (List.dropWhile_suffix _).length_le

/-- The spelling without the blanks whose last mark before them is a blank; `blank` says that there
is one in front of the text. -/
def spellRuns (blank : Bool) : List Char → List Char
  | [] => []
  | c :: cs =>
    if c = ' ' then (if blank then [] else [' ']) ++ spellRuns true (cs.dropWhile (· = ' '))
    else if isBreak c then c :: spellRuns false cs
    else spellWord (c :: cs.takeWhile (!isBreak ·)) ++ spellRuns blank (cs.dropWhile (!isBreak ·))
termination_by cs => cs.length
decreasing_by
  · exact Nat.lt_succ_of_le (List.dropWhile_suffix _).length_le
  · exact Nat.lt_succ_self _
  · exact Nat.lt_succ_of_le (List.dropWhile_suffix _).length_le

/-- A word stands between two blanks. -/
def HasLoneWord (cs : List Char) : Prop :=
  ∃ word, word ≠ [] ∧ (∀ c ∈ word, isBreak c = false) ∧ ' ' :: (word ++ [' ']) <:+: cs

/-! ### What is written, piece by piece -/

theorem spellWords_append {word : List Char} (hword : ∀ c ∈ word, isBreak c = false) (blank : Bool)
    (acc rest : List Char) :
    spellWords blank acc (word ++ rest) = spellWords blank (word.reverse ++ acc) rest := by
  induction word generalizing acc with
  | nil => rfl
  | cons c word ih =>
    obtain ⟨hc, hword⟩ := List.forall_mem_cons.1 hword
    rw [List.cons_append, spellWords, hc, Bool.not_false, if_pos rfl, ih hword,
      List.reverse_cons, List.append_assoc, List.singleton_append]

theorem spellWords_word {rest : List Char} (hrest : ∀ c ∈ rest.head?, isBreak c = true)
    (blank : Bool) (acc : List Char) :
    spellWords blank acc rest = spellWord acc.reverse ++ spellWords blank [] rest := by
  cases rest with
  | nil => exact (List.append_nil _).symm
  | cons c cs =>
    rw [spellWords, spellWords, hrest c rfl]
    rfl

/-- Behind a blank, further blanks are passed over. -/
theorem spellWords_blanks (cs : List Char) :
    spellWords true [] cs = spellWords true [] (cs.dropWhile (· = ' ')) := by
  induction cs with
  | nil => rfl
  | cons c cs ih =>
    by_cases hc : c = ' '
    · subst hc
      rw [List.dropWhile_cons_of_pos (by rfl), ← ih]
      rfl
    · rw [List.dropWhile_cons_of_neg (by simpa using hc)]

theorem isBreak_of_mem_takeWhile {cs : List Char} :
    ∀ c ∈ cs.takeWhile (!isBreak ·), isBreak c = false := fun c hc => by
  simpa using List.mem_takeWhile_imp hc

theorem isBreak_of_mem_head? {cs : List Char} :
    ∀ c ∈ (cs.dropWhile (!isBreak ·)).head?, isBreak c = true := fun c hc => by
  simpa using Text.eq_false_of_mem_head?_dropWhile c hc

/-- **Of a run of blanks the first one counts, and of the runs the first one behind another mark.** -/
theorem spellWords_eq_runs (blank : Bool) (cs : List Char) :
    spellWords blank [] cs = spellRuns blank cs := by
  fun_induction spellRuns blank cs with
  | case1 blank => rfl
  | case2 blank cs ih =>
    rw [← ih, ← spellWords_blanks]
    rfl
  | case3 blank c cs hc hbreak ih =>
    rw [← ih, spellWords, hbreak, if_neg hc]
    rfl
  | case4 blank c cs hc hbreak ih =>
    rw [Bool.not_eq_true] at hbreak
    have hword : ∀ d ∈ c :: cs.takeWhile (!isBreak ·), isBreak d = false :=
      List.forall_mem_cons.2 ⟨hbreak, isBreak_of_mem_takeWhile⟩
    have hsplit : c :: cs = (c :: cs.takeWhile (!isBreak ·)) ++ cs.dropWhile (!isBreak ·) := by
      rw [List.cons_append, List.takeWhile_append_dropWhile]
    rw [hsplit, spellWords_append hword, spellWords_word isBreak_of_mem_head?, List.append_nil,
      List.reverse_reverse, ih]

theorem toList_normalize {brand : String} (h : codeLength < (trim brand).length) :
    (normalize brand).toList = spellRuns false (trim brand).toList := by
  have htrim : (trim brand).toList = stripBoth isBlank brand.toList := String.toList_ofList
  rw [← String.length_toList, htrim] at h
  rw [normalize, String.toList_ofList, if_neg (Nat.not_le.2 h), spellWords_eq_runs, htrim]

/-! ### The blanks that are left out -/

/-- **What is written is the spelling by pieces without some blanks.** -/
theorem sublist_pieces (blank : Bool) (cs : List Char) :
    (spellRuns blank cs).Sublist (spellPieces cs) ∧
      (spellRuns blank cs).filter (· ≠ ' ') = (spellPieces cs).filter (· ≠ ' ') := by
  fun_induction spellRuns blank cs with
  | case1 blank =>
    rw [spellPieces]
    exact ⟨List.Sublist.refl _, rfl⟩
  | case2 blank cs ih =>
    rw [spellPieces, if_pos rfl]
    obtain ⟨hsub, hfilter⟩ := ih
    cases blank with
    | true => exact ⟨hsub.cons _, hfilter⟩
    | false => exact ⟨hsub.cons_cons _, hfilter⟩
  | case3 blank c cs hc hbreak ih =>
    rw [spellPieces, if_neg hc, if_pos hbreak]
    obtain ⟨hsub, hfilter⟩ := ih
    refine ⟨hsub.cons_cons _, ?_⟩
    rw [List.filter_cons, List.filter_cons, hfilter]
  | case4 blank c cs hc hbreak ih =>
    rw [spellPieces, if_neg hc, if_neg hbreak]
    obtain ⟨hsub, hfilter⟩ := ih
    refine ⟨hsub.append_left _, ?_⟩
    rw [List.filter_append, List.filter_append, hfilter]

/-- A word that stands at the start, behind a blank, and in front of one. -/
theorem hasLoneWord_cons {c : Char} {cs : List Char} : HasLoneWord (c :: cs) ↔
    (c = ' ' ∧ (∀ d ∈ cs.head?, isBreak d = false) ∧ cs.find? isBreak = some ' ') ∨
      HasLoneWord cs := by
  constructor
  · rintro ⟨word, hne, hword, hinfix⟩
    rcases List.infix_cons_iff.1 hinfix with hhead | hinfix
    · obtain ⟨hc, rest, rfl⟩ := List.cons_prefix_cons.1 hhead
      refine .inl ⟨hc.symm, ?_, ?_⟩
      · obtain ⟨d, word, rfl⟩ := List.exists_cons_of_ne_nil hne
        rintro e ⟨⟩
        exact hword d List.mem_cons_self
      · rw [List.find?_append, List.find?_append, List.find?_eq_none.2 (by simpa using hword)]
        rfl
    · exact .inr ⟨word, hne, hword, hinfix⟩
  · rintro (⟨rfl, hhead, hfind⟩ | ⟨word, hne, hword, hinfix⟩)
    · obtain ⟨-, word, rest, rfl, hword⟩ := List.find?_eq_some_iff_append.1 hfind
      refine ⟨word, ?_, by simpa using hword, ?_⟩
      · rintro rfl
        exact absurd (hhead ' ' rfl) (by decide)
      · refine List.IsPrefix.isInfix (List.cons_prefix_cons.2 ⟨rfl, rest, ?_⟩)
        rw [List.append_assoc, List.singleton_append]
    · exact ⟨word, hne, hword, List.infix_cons hinfix⟩

theorem hasLoneWord_append {word : List Char} (hword : ∀ c ∈ word, isBreak c = false)
    (rest : List Char) : HasLoneWord (word ++ rest) ↔ HasLoneWord rest := by
  induction word with
  | nil => rfl
  | cons c word ih =>
    obtain ⟨hc, hword⟩ := List.forall_mem_cons.1 hword
    rw [List.cons_append, hasLoneWord_cons, ih hword, or_iff_right]
    rintro ⟨rfl, -⟩
    exact absurd hc (by decide)

theorem hasLoneWord_blank (cs : List Char) : HasLoneWord (' ' :: cs) ↔
    (cs.dropWhile (· = ' ')).find? isBreak = some ' ' ∨ HasLoneWord (cs.dropWhile (· = ' ')) := by
  induction cs with
  | nil => simp [hasLoneWord_cons]
  | cons c cs ih =>
    by_cases hc : c = ' '
    · subst hc
      rw [List.dropWhile_cons_of_pos (by rfl), ← ih, hasLoneWord_cons, or_iff_right]
      rintro ⟨-, hhead, -⟩
      exact absurd (hhead ' ' rfl) (by decide)
    · rw [List.dropWhile_cons_of_neg (by simpa using hc), hasLoneWord_cons]
      refine or_congr_left ⟨fun h => h.2.2, fun h => ⟨rfl, ?_, h⟩⟩
      rintro d ⟨⟩
      -- a mark at the start would be the first one and is no blank
      rw [Bool.eq_false_iff]
      intro hbreak
      rw [List.find?_cons_of_pos hbreak] at h
      exact hc (Option.some.inj h)

/-- **No blank is left out just if no word stands between two blanks.** -/
theorem runs_eq_pieces_iff (blank : Bool) (cs : List Char) : spellRuns blank cs = spellPieces cs ↔
    ¬ (blank = true ∧ cs.find? isBreak = some ' ' ∨ HasLoneWord cs) := by
  fun_induction spellRuns blank cs with
  | case1 blank =>
    rw [spellPieces]
    simp [HasLoneWord]
  | case2 blank cs ih =>
    rw [spellPieces, if_pos rfl]
    cases blank with
    | true =>
      refine iff_of_false (fun h => ?_) (not_not_intro (.inl ⟨rfl, rfl⟩))
      have hlen := (sublist_pieces true (cs.dropWhile (· = ' '))).1.length_le
      rw [if_pos rfl, List.nil_append] at h
      rw [h, List.length_cons] at hlen
      omega
    | false =>
      rw [if_neg Bool.false_ne_true, List.singleton_append, List.cons_inj_right, ih,
        hasLoneWord_blank]
      simp
  | case3 blank c cs hc hbreak ih =>
    rw [spellPieces, if_neg hc, if_pos hbreak, List.cons_inj_right, ih, hasLoneWord_cons,
      List.find?_cons_of_pos hbreak]
    simp [hc]
  | case4 blank c cs hc hbreak ih =>
    rw [Bool.not_eq_true] at hbreak
    have hword : ∀ d ∈ c :: cs.takeWhile (!isBreak ·), isBreak d = false :=
      List.forall_mem_cons.2 ⟨hbreak, isBreak_of_mem_takeWhile⟩
    have hsplit : c :: cs = (c :: cs.takeWhile (!isBreak ·)) ++ cs.dropWhile (!isBreak ·) := by
      rw [List.cons_append, List.takeWhile_append_dropWhile]
    have hnone : (c :: cs.takeWhile (!isBreak ·)).find? isBreak = none :=
      List.find?_eq_none.2 (by simpa using hword)
    rw [spellPieces, if_neg hc, if_neg (by simp [hbreak]), List.append_cancel_left_eq, ih]
    conv => rhs; rw [hsplit]
    rw [hasLoneWord_append hword, List.find?_append, hnone, Option.none_or]

/-- **A name is spelled by its pieces, but for the blanks behind lone words.** The name of a brand in
more than a few characters is spelled word by word and mark by mark, with some blanks left out. Each
run of blanks is written as one blank just if no word stands between two blanks. -/
theorem normalize_eq_pieces_iff {brand : String} (h : codeLength < (trim brand).length) :
    (normalize brand).toList.Sublist (spellPieces (trim brand).toList) ∧
    (normalize brand).toList.filter (· ≠ ' ') =
      (spellPieces (trim brand).toList).filter (· ≠ ' ') ∧
    (normalize brand = String.ofList (spellPieces (trim brand).toList) ↔
      ¬ HasLoneWord (trim brand).toList) := by
  obtain ⟨hsub, hfilter⟩ := sublist_pieces false (trim brand).toList
  rw [← String.toList_inj, toList_normalize h, String.toList_ofList, runs_eq_pieces_iff]
  exact ⟨hsub, hfilter, by simp⟩

/-- The word in the middle stands between two blanks, of which the second one is lost. -/
theorem normalize_eq_pieces_iff_ericsson :
    codeLength < (trim " sony  ericsson xperia").length ∧
    normalize " sony  ericsson xperia" ≠
      String.ofList (spellPieces (trim " sony  ericsson xperia").toList) := by
  have hlen : codeLength < (trim " sony  ericsson xperia").length := by decide +kernel
  have hword : ∀ c ∈ "ericsson".toList, isBreak c = false := by
    have hall : "ericsson".toList.all (!isBreak ·) = true := by decide +kernel
    simpa using hall
  refine ⟨hlen, fun h => (normalize_eq_pieces_iff hlen).2.2.1 h ⟨"ericsson".toList, ?_⟩⟩
  exact ⟨by decide, hword, by decide +kernel⟩

/-- **Of three words, the last two run together.** -/
theorem normalize_ne_pieces : normalize "aaaa bbbb cccc" = "Aaaa BbbbCccc" ∧
    String.ofList (spellPieces (trim "aaaa bbbb cccc").toList) = "Aaaa Bbbb Cccc" ∧
    ¬ ∀ brand, codeLength < (trim brand).length →
      normalize brand = String.ofList (spellPieces (trim brand).toList) := by
  have hwritten : normalize "aaaa bbbb cccc" = "Aaaa BbbbCccc" := by decide +kernel
  have hpieces : String.ofList (spellPieces (trim "aaaa bbbb cccc").toList) = "Aaaa Bbbb Cccc" := by
    decide +kernel
  refine ⟨hwritten, hpieces, fun h => ?_⟩
  have heq := h "aaaa bbbb cccc" (by decide +kernel)
  rw [hwritten, hpieces] at heq
  exact absurd heq (by decide)

end AgentRules.Brand
