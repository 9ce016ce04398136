import AgentRules.Proofs.Text.LowerCase
import Mathlib.Data.List.Infix

/-! # Lower-casing a part of a text

The lower-case form of a part can differ from what stands for the part in the lower-case form of the
whole, for a capital sigma is lower-cased by its neighbours, and a part does not have those of the
whole. Only one sigma at either end is concerned. The last one of a first part is a final sigma in
the part and none in the whole if the part ends there with its letters (`EndsFinal`) and the whole
goes on with letters (`lowerFrom_prefix_iff`). The first one of a last part is a final sigma in the
whole and none in the part if the part starts with it and has no letters behind it (`StartsFinal`),
and the whole has letters in front (`lowerFrom_suffix_iff`). -/

namespace AgentRules.Text

variable {before : Bool} {cs part rest : List Char}

/-- Whether the place behind some characters is behind a cased letter; `before` says so of the place
in front of them. -/
def casedBehind (before : Bool) (cs : List Char) : Bool := cs.foldl stillCased before

/-- The letters of the text end in a capital sigma behind a cased letter. -/
def EndsFinal (before : Bool) (cs : List Char) : Prop :=
  ∃ front behind, cs = front ++ capitalSigma :: behind ∧ casedBehind before front = true ∧
    ∀ c ∈ behind, isIgnorable c = true

/-- The letters of the text start with a capital sigma, and no cased letter comes next. -/
def StartsFinal (cs : List Char) : Prop :=
  ∃ front behind, cs = front ++ capitalSigma :: behind ∧ (∀ c ∈ front, isIgnorable c = true) ∧
    startsCased behind = false

theorem isIgnorable_capitalSigma : isIgnorable capitalSigma = false := by decide +kernel

theorem lowerChar_capitalSigma_ne : lowerChar capitalSigma ≠ [finalSigma] := by decide +kernel

/-! ### What comes behind a part -/

/-- Casing looks past characters that it ignores at what comes behind them. -/
theorem startsCased_append_of_forall (h : ∀ c ∈ cs, isIgnorable c = true) (rest : List Char) :
    startsCased (cs ++ rest) = startsCased rest := by
  unfold startsCased
  rw [List.dropWhile_append_of_pos h]

/-- It does not look past any other ones. -/
theorem startsCased_append_of_not (h : ¬ ∀ c ∈ cs, isIgnorable c = true) (rest : List Char) :
    startsCased (cs ++ rest) = startsCased cs := by
  induction cs with
  | nil => exact absurd (fun c hc => absurd hc List.not_mem_nil) h
  | cons c cs ih =>
    unfold startsCased at ih ⊢
    rw [List.cons_append, List.dropWhile_cons, List.dropWhile_cons]
    by_cases hc : isIgnorable c = true
    · rw [if_pos hc, if_pos hc]
      exact ih fun hcs => h (List.forall_mem_cons.2 ⟨hc, hcs⟩)
    · rw [if_neg hc, if_neg hc]

theorem startsCased_of_forall (h : ∀ c ∈ cs, isIgnorable c = true) : startsCased cs = false := by
  rw [← List.append_nil cs, startsCased_append_of_forall h]
  rfl

theorem endsFinal_cons {c : Char} : EndsFinal before (c :: cs) ↔
    (c = capitalSigma ∧ before = true ∧ ∀ d ∈ cs, isIgnorable d = true) ∨
      EndsFinal (stillCased before c) cs := by
  constructor
  · rintro ⟨_ | ⟨d, front⟩, behind, heq, hfront, hbehind⟩
    · obtain ⟨rfl, rfl⟩ := List.cons.inj heq
      exact .inl ⟨rfl, hfront, hbehind⟩
    · obtain ⟨rfl, rfl⟩ := List.cons.inj heq
      exact .inr ⟨front, behind, rfl, hfront, hbehind⟩
  · rintro (⟨rfl, hbefore, hbehind⟩ | ⟨front, behind, rfl, hfront, hbehind⟩)
    · exact ⟨[], cs, rfl, hbefore, hbehind⟩
    · exact ⟨c :: front, behind, rfl, hfront, hbehind⟩

/-- **The lower-case form of a first part** starts that of the whole, unless the last sigma of the
part is no longer the last letter. -/
theorem lowerFrom_prefix_iff (before : Bool) (part rest : List Char) :
    lowerFrom before part <+: lowerFrom before (part ++ rest) ↔
      ¬ (EndsFinal before part ∧ startsCased rest = true) := by
  induction part generalizing before with
  | nil => simp [lowerFrom, EndsFinal]
  | cons c cs ih =>
    rw [List.cons_append, lowerFrom, lowerFrom, endsFinal_cons]
    by_cases hlast : (c = capitalSigma ∧ before = true) ∧ ∀ d ∈ cs, isIgnorable d = true
    · obtain ⟨⟨rfl, rfl⟩, hcs⟩ := hlast
      have hnot : ¬ EndsFinal (stillCased true capitalSigma) cs := by
        rintro ⟨front, behind, rfl, -, -⟩
        have hsigma := hcs capitalSigma (by simp)
        rw [isIgnorable_capitalSigma] at hsigma
        cases hsigma
      rw [startsCased_append_of_forall hcs, startsCased_of_forall hcs]
      cases hrest : startsCased rest with
      | false =>
        simp only [decide_true, Bool.and_self, Bool.not_false, if_true, List.prefix_append_right_inj,
          ih, hrest]
        simp
      | true =>
        refine iff_of_false (fun h => ?_) (not_not_intro ⟨.inl ⟨rfl, rfl, hcs⟩, rfl⟩)
        obtain ⟨s, hs⟩ : ∃ s, lowerChar capitalSigma = [s] := ⟨_, rfl⟩
        have hne := lowerChar_capitalSigma_ne
        rw [hs] at h hne
        simp only [decide_true, Bool.and_self, Bool.not_false, Bool.not_true, Bool.and_false,
          if_true, Bool.false_eq_true, if_false, List.singleton_append,
          List.cons_prefix_cons] at h
        exact hne (congrArg (fun c => [c]) h.1.symm)
    · have hsame : (if c = capitalSigma && before && !startsCased cs then [finalSigma]
          else lowerChar c) = if c = capitalSigma && before && !startsCased (cs ++ rest)
          then [finalSigma] else lowerChar c := by
        by_cases hsigma : c = capitalSigma ∧ before = true
        · rw [startsCased_append_of_not fun h => hlast ⟨hsigma, h⟩]
        · have hfalse : (decide (c = capitalSigma) && before) = false := by
            rw [Bool.eq_false_iff]
            simpa using hsigma
          simp only [hfalse, Bool.false_and, Bool.false_eq_true, if_false]
      rw [hsame, List.prefix_append_right_inj, ih, ← and_assoc, or_iff_right hlast]

/-! ### What comes in front of a part -/

theorem exists_lowerFrom_append (before : Bool) (front part : List Char) :
    ∃ head, lowerFrom before (front ++ part) = head ++ lowerFrom (casedBehind before front) part := by
  induction front generalizing before with
  | nil => exact ⟨[], rfl⟩
  | cons c cs ih =>
    obtain ⟨head, hhead⟩ := ih (stillCased before c)
    rw [List.cons_append, lowerFrom, hhead, ← List.append_assoc]
    exact ⟨_, rfl⟩

theorem startsFinal_cons {c : Char} : StartsFinal (c :: cs) ↔
    c = capitalSigma ∧ startsCased cs = false ∨ isIgnorable c = true ∧ StartsFinal cs := by
  constructor
  · rintro ⟨_ | ⟨d, front⟩, behind, heq, hfront, hbehind⟩
    · obtain ⟨rfl, rfl⟩ := List.cons.inj heq
      exact .inl ⟨rfl, hbehind⟩
    · obtain ⟨rfl, rfl⟩ := List.cons.inj heq
      obtain ⟨hc, hfront⟩ := List.forall_mem_cons.1 hfront
      exact .inr ⟨hc, front, behind, rfl, hfront, hbehind⟩
  · rintro (⟨rfl, hbehind⟩ | ⟨hc, front, behind, rfl, hfront, hbehind⟩)
    · exact ⟨[], cs, rfl, by simp, hbehind⟩
    · exact ⟨c :: front, behind, rfl, List.forall_mem_cons.2 ⟨hc, hfront⟩, hbehind⟩

/-- A letter in front matters to the first sigma alone. -/
theorem lowerFrom_false_eq_true_iff (part : List Char) :
    lowerFrom false part = lowerFrom true part ↔ ¬ StartsFinal part := by
  induction part with
  | nil => simp [lowerFrom, StartsFinal]
  | cons c cs ih =>
    rw [lowerFrom, lowerFrom, startsFinal_cons]
    by_cases hsigma : c = capitalSigma
    · subst hsigma
      simp only [stillCased, isIgnorable_capitalSigma, Bool.false_eq_true, if_false,
        List.append_left_inj, false_and, or_false, decide_true, Bool.and_false, Bool.and_true,
        Bool.false_and, Bool.true_and, true_and]
      cases startsCased cs with
      | false => simpa using lowerChar_capitalSigma_ne
      | true => simp
    · simp only [hsigma, decide_false, Bool.false_and, Bool.false_eq_true, if_false,
        List.append_right_inj, false_and, false_or, stillCased]
      by_cases hc : isIgnorable c = true
      · simp only [hc, if_true, true_and]
        exact ih
      · simp [hc]

/-- **The lower-case form of a last part** ends that of the whole, unless the first sigma of the
part is the last letter and not the first one. -/
theorem lowerFrom_suffix_iff (before : Bool) (front part : List Char) :
    lowerFrom false part <:+ lowerFrom before (front ++ part) ↔
      ¬ (StartsFinal part ∧ casedBehind before front = true) := by
  obtain ⟨head, hhead⟩ := exists_lowerFrom_append before front part
  have hsuffix : lowerFrom false part <:+ lowerFrom before (front ++ part) ↔
      lowerFrom false part = lowerFrom (casedBehind before front) part := by
    have hlen : (lowerFrom false part).length =
        (lowerFrom (casedBehind before front) part).length := by
      rw [length_lowerFrom, length_lowerFrom]
    rw [hhead, ← List.nil_append (lowerFrom false part), List.suffix_append_inj_of_length_eq hlen]
    simp
  rw [hsuffix]
  cases casedBehind before front with
  | false => simp
  | true => rw [lowerFrom_false_eq_true_iff, and_iff_left rfl]

/-! ### Up to ASCII case -/

theorem endsFinal_map_toLower (cs : List Char) :
    EndsFinal false (cs.map Char.toLower) ↔ EndsFinal false cs := by
  have hdiffers (cs : List Char) : EndsFinal false cs ↔
      ¬ lowerFrom false cs <+: lowerFrom false (cs ++ ['a']) := by
    rw [lowerFrom_prefix_iff, not_not, and_iff_left (show startsCased ['a'] = true by decide)]
  rw [hdiffers, hdiffers, lowerFrom_map_toLower, ← lowerFrom_map_toLower false (cs ++ ['a']),
    List.map_append]
  rfl

theorem startsFinal_map_toLower (cs : List Char) :
    StartsFinal (cs.map Char.toLower) ↔ StartsFinal cs := by
  rw [← not_iff_not, ← lowerFrom_false_eq_true_iff, ← lowerFrom_false_eq_true_iff,
    lowerFrom_map_toLower, lowerFrom_map_toLower]

end AgentRules.Text
