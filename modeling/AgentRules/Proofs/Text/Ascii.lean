import AgentRules.Text.Blank

/-! # Letters and digits

The letters and digits that ASCII has are none of the characters that divide texts. -/

namespace AgentRules.Text

variable {c : Char}

theorem lt_of_isAlphanum (h : c.isAlphanum = true) : c.toNat < 128 := by
  have hranges : ((decide (c.val ≥ 'A'.val ∧ c.val ≤ 'Z'.val) ||
      (c.val ≥ 'a'.val && c.val ≤ 'z'.val)) || (c.val ≥ '0'.val && c.val ≤ '9'.val)) = true := h
  simp only [Bool.or_eq_true, Bool.and_eq_true, decide_eq_true_eq, ge_iff_le,
    UInt32.le_iff_toNat_le] at hranges
  change ((65 ≤ c.toNat ∧ c.toNat ≤ 90) ∨ (97 ≤ c.toNat ∧ c.toNat ≤ 122)) ∨
    (48 ≤ c.toNat ∧ c.toNat ≤ 57) at hranges
  omega

/-- **Letters and digits divide nothing.** -/
theorem isAlphanum_facts (h : c.isAlphanum = true) :
    isBlank c = false ∧ c ∉ ['(', ')', ';', ',', ':'] := by
  have hall : ∀ n < 128, (Char.ofNat n).isAlphanum = true →
      isBlank (Char.ofNat n) = false ∧ Char.ofNat n ∉ ['(', ')', ';', ',', ':'] := by
    decide
  have hfacts := hall c.toNat (lt_of_isAlphanum h)
  rw [Char.ofNat_toNat] at hfacts
  exact hfacts h

end AgentRules.Text
