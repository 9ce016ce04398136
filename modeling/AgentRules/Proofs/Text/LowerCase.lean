import AgentRules.Text.Case
import AgentRules.Text.AsciiFold

/-! # What lower-casing does to a key

A key is a path, marks and a value. Lower-casing leaves the path as it is when its characters are
plain (`lowerFrom_plain_append`), leaves the marks, and does not look across them
(`lowerFrom_append_break`), so the value between two marks is lower-cased by itself. A lower-cased
text grows with the text (`length_lowerFrom_lt`), an ASCII text is lower-cased character by
character (`lowerFrom_ascii`), and texts that agree up to ASCII case have one lower-case form,
whatever else they are made of (`lowerFrom_eq_of_fold_eq`). -/

namespace AgentRules.Text

def isLowerAlnum (c : Char) : Bool := ('a' ≤ c && c ≤ 'z') || c.isDigit

/-- A character in which paths are written, in lower case. -/
def isPlain (c : Char) : Bool := isLowerAlnum c || c ∈ ['.', '(', ')', '[', ']', '-', '_']

def Plain (s : String) : Prop := ∀ c ∈ s.toList, isPlain c = true

instance (s : String) : Decidable (Plain s) :=
  decidable_of_iff (s.toList.all isPlain = true) List.all_eq_true

/-- An ASCII character that casing neither changes nor looks past: it is no letter. -/
def isBreak (c : Char) : Bool := c ∈ ['=', '\x7b', '"']

/-! ### Single characters -/

theorem toLower_eq_self {c : Char} (h : ¬ ('A' ≤ c ∧ c ≤ 'Z')) : c.toLower = c := by
  unfold Char.toLower
  exact dif_neg h

theorem isLowerAlnum_iff {c : Char} : isLowerAlnum c = true ↔
    (97 ≤ c.toNat ∧ c.toNat ≤ 122) ∨ (48 ≤ c.toNat ∧ c.toNat ≤ 57) := by
  simp only [isLowerAlnum, Char.isDigit, Bool.or_eq_true, Bool.and_eq_true, decide_eq_true_eq]
  rfl

theorem plain_bounds {c : Char} (h : isPlain c = true) :
    c.toNat < 128 ∧ ¬ (65 ≤ c.toNat ∧ c.toNat ≤ 90) := by
  unfold isPlain at h
  rw [Bool.or_eq_true, isLowerAlnum_iff, decide_eq_true_eq] at h
  rcases h with h | h
  · omega
  · simp only [List.mem_cons, List.not_mem_nil, or_false] at h
    rcases h with rfl | rfl | rfl | rfl | rfl | rfl | rfl <;> decide

theorem lowerChar_ascii {c : Char} (h : c.toNat < 128) : lowerChar c = [c.toLower] := by
  unfold lowerChar
  exact if_pos h

theorem length_lowerChar_pos (c : Char) : 0 < (lowerChar c).length := by
  unfold lowerChar
  split
  · exact Nat.one_pos
  · split
    · exact Nat.succ_pos 1
    · exact Nat.one_pos

theorem ne_capitalSigma {c : Char} (h : c.toNat < 128) : c ≠ capitalSigma := by
  rintro rfl
  exact absurd h (by decide)

/-! ### Texts -/

theorem lowerFrom_cons {before : Bool} {c : Char} {cs : List Char} (h : c.toNat < 128) :
    lowerFrom before (c :: cs) = c.toLower :: lowerFrom (stillCased before c) cs := by
  rw [lowerFrom, if_neg (by simp [ne_capitalSigma h]), lowerChar_ascii h]
  rfl

theorem lowerFrom_plain_append {p : List Char} (hp : ∀ c ∈ p, isPlain c = true) (before : Bool)
    (r : List Char) : ∃ b, lowerFrom before (p ++ r) = p ++ lowerFrom b r := by
  induction p generalizing before with
  | nil => exact ⟨before, rfl⟩
  | cons c p ih =>
    obtain ⟨hascii, hcapital⟩ := plain_bounds (hp c List.mem_cons_self)
    obtain ⟨b, hb⟩ := ih (fun d hd => hp d (List.mem_cons_of_mem c hd)) (stillCased before c)
    refine ⟨b, ?_⟩
    rw [List.cons_append, lowerFrom_cons hascii, hb, toLower_eq_self hcapital, List.cons_append]

/-- **Plain texts are in lower case.** -/
theorem lowerFrom_plain {p : List Char} (hp : ∀ c ∈ p, isPlain c = true) (before : Bool) :
    lowerFrom before p = p := by
  obtain ⟨b, hb⟩ := lowerFrom_plain_append hp before []
  rw [List.append_nil] at hb
  rw [hb]
  exact List.append_nil p

theorem lower_plain {s : String} (hs : Plain s) : lower s = s := by
  rw [lower, lowerFrom_plain hs, String.ofList_toList]

theorem isBreak_facts {c : Char} (h : isBreak c = true) :
    c.toNat < 128 ∧ c.toLower = c ∧ isCased c = false ∧ isIgnorable c = false := by
  unfold isBreak at h
  rw [decide_eq_true_eq] at h
  simp only [List.mem_cons, List.not_mem_nil, or_false] at h
  rcases h with rfl | rfl | rfl <;> decide

theorem lowerFrom_break_cons {c : Char} (h : isBreak c = true) (before : Bool) (r : List Char) :
    lowerFrom before (c :: r) = c :: lowerFrom false r := by
  obtain ⟨hascii, hlower, hcased, hignorable⟩ := isBreak_facts h
  rw [lowerFrom_cons hascii, hlower, stillCased, hignorable, hcased]
  rfl

theorem startsCased_append_break {c : Char} (h : isBreak c = true) (cs r : List Char) :
    startsCased (cs ++ c :: r) = startsCased cs := by
  obtain ⟨-, -, hcased, hignorable⟩ := isBreak_facts h
  induction cs with
  | nil => simp [startsCased, hignorable, hcased]
  | cons d cs ih =>
    unfold startsCased at ih ⊢
    rw [List.cons_append, List.dropWhile_cons, List.dropWhile_cons]
    by_cases hd : isIgnorable d = true
    · rw [if_pos hd, if_pos hd]
      exact ih
    · rw [if_neg hd, if_neg hd]

/-- **Lower-casing does not look across a mark.** -/
theorem lowerFrom_append_break {c : Char} (h : isBreak c = true) (before : Bool)
    (cs r : List Char) :
    lowerFrom before (cs ++ c :: r) = lowerFrom before cs ++ c :: lowerFrom false r := by
  induction cs generalizing before with
  | nil => exact lowerFrom_break_cons h before r
  | cons d cs ih =>
    rw [List.cons_append, lowerFrom, lowerFrom, startsCased_append_break h, ih, List.append_assoc]

/-! ### Lengths -/

theorem length_lowerFrom (before : Bool) (cs : List Char) :
    (lowerFrom before cs).length = (cs.flatMap lowerChar).length := by
  induction cs generalizing before with
  | nil => rfl
  | cons c cs ih =>
    rw [lowerFrom, List.length_append, ih, List.flatMap_cons, List.length_append]
    congr 1
    split
    · next hsigma =>
      simp only [Bool.and_eq_true, decide_eq_true_eq] at hsigma
      rw [hsigma.1.1]
      rfl
    · rfl

theorem length_lowerFrom_lt (cs : List Char) {m n : Nat} (hmn : m < n) (hn : n ≤ cs.length)
    (before : Bool) :
    (lowerFrom before (cs.take m)).length < (lowerFrom before (cs.take n)).length := by
  rw [length_lowerFrom, length_lowerFrom]
  have hsplit : cs.take n = cs.take m ++ (cs.drop m).take (n - m) := by
    rw [← List.take_add, Nat.add_sub_cancel' (Nat.le_of_lt hmn)]
  obtain ⟨c, l, hc⟩ : ∃ c l, (cs.drop m).take (n - m) = c :: l :=
    List.exists_cons_of_length_pos (by rw [List.length_take, List.length_drop]; omega)
  have hpos := length_lowerChar_pos c
  rw [hsplit, hc, List.flatMap_append, List.flatMap_cons, List.length_append, List.length_append]
  omega

/-! ### ASCII -/

def IsAscii (cs : List Char) : Prop := ∀ c ∈ cs, c.toNat < 128

instance (cs : List Char) : Decidable (IsAscii cs) :=
  decidable_of_iff (cs.all fun c => decide (c.toNat < 128)) (by simp [IsAscii])

/-- **In ASCII, lower-casing is folding.** -/
theorem lowerFrom_ascii {cs : List Char} (h : IsAscii cs) (before : Bool) :
    lowerFrom before cs = cs.map Char.toLower := by
  induction cs generalizing before with
  | nil => rfl
  | cons c cs ih =>
    rw [lowerFrom_cons (h c List.mem_cons_self), ih fun d hd => h d (List.mem_cons_of_mem c hd)]
    rfl

/-! ### Up to ASCII case -/

/-- Lower-casing treats a capital ASCII letter as its small one, also where it looks at the
neighbours of a sigma. -/
theorem toLower_facts (c : Char) : lowerChar c.toLower = lowerChar c ∧
    isCased c.toLower = isCased c ∧ isIgnorable c.toLower = isIgnorable c ∧
    (c.toLower = capitalSigma ↔ c = capitalSigma) := by
  by_cases hascii : c.toNat < 128
  · obtain ⟨n, hn, rfl⟩ : ∃ n < 128, Char.ofNat n = c := ⟨c.toNat, hascii, Char.ofNat_toNat c⟩
    clear hascii
    revert n
    decide
  · have hhi : ¬ c.toNat ≤ 90 := by omega
    rw [toLower_eq_self fun hcapital => hhi hcapital.2]
    exact ⟨rfl, rfl, rfl, Iff.rfl⟩

theorem startsCased_map_toLower (cs : List Char) :
    startsCased (cs.map Char.toLower) = startsCased cs := by
  induction cs with
  | nil => rfl
  | cons c cs ih =>
    obtain ⟨-, hcased, hignorable, -⟩ := toLower_facts c
    unfold startsCased at ih ⊢
    rw [List.map_cons, List.dropWhile_cons, List.dropWhile_cons, hignorable]
    by_cases hc : isIgnorable c = true
    · rw [if_pos hc, if_pos hc]
      exact ih
    · rw [if_neg hc, if_neg hc]
      exact hcased

/-- Folding a text first does not change its lower-case form. -/
theorem lowerFrom_map_toLower (before : Bool) (cs : List Char) :
    lowerFrom before (cs.map Char.toLower) = lowerFrom before cs := by
  induction cs generalizing before with
  | nil => rfl
  | cons c cs ih =>
    obtain ⟨hlower, hcased, hignorable, hsigma⟩ := toLower_facts c
    rw [List.map_cons, lowerFrom, lowerFrom, startsCased_map_toLower, stillCased, hignorable,
      hcased, ih, hlower, decide_eq_decide.2 hsigma]
    rfl

/-- **Texts that agree up to ASCII case have one lower-case form.** -/
theorem lowerFrom_eq_of_fold_eq {s s' : String} (h : fold s = fold s') (before : Bool) :
    lowerFrom before s.toList = lowerFrom before s'.toList := by
  rw [← lowerFrom_map_toLower, ← lowerFrom_map_toLower before s'.toList]
  exact congrArg (lowerFrom before) h

end AgentRules.Text
