import AgentRules.Outcome
import AgentRules.Text.Numeral
import AgentRules.Proofs.Path.Spelling

/-! # What numerals are read as

Reading digits one by one under a limit gives the number that they spell, or the fault of passing the
limit (`readDigits_eq_ok_iff`, `readDigits_eq_overflow`): the value only grows, so it does not matter
that the limit is checked at every digit. A signed number may have a sign in front of its digits, and
is read if it is one of 64 bits (`readInt64_eq_ok_iff`). -/

namespace AgentRules.Text

open Outcome

/-! ### Digits -/

theorem le_ofDigitChars (cs : List Char) (n : Nat) : n ≤ Nat.ofDigitChars 10 cs n := by
  induction cs generalizing n with
  | nil => exact Nat.le_refl n
  | cons c cs ih =>
    rw [Nat.ofDigitChars_cons]
    exact Nat.le_trans (by omega) (ih _)

section Digits
variable {limit n m : Nat} {fault : NumeralFault} {cs : List Char}

/-- **Digits are read as the number that they spell**, if this is within the limit. -/
theorem readDigits_eq_ok_iff (hn : n ≤ limit) : readDigits limit fault n cs = .ok m ↔
    (∀ c ∈ cs, c.isDigit = true) ∧ Nat.ofDigitChars 10 cs n = m ∧ m ≤ limit := by
  induction cs generalizing n with
  | nil =>
    rw [readDigits, Except.ok.injEq, Nat.ofDigitChars_nil]
    constructor
    · rintro rfl
      exact ⟨by simp, rfl, hn⟩
    · exact fun h => h.2.1
  | cons c cs ih =>
    rw [readDigits, Nat.ofDigitChars_cons]
    dsimp only
    split
    · next hc =>
      split
      · next hle =>
        rw [ih hle]
        simp [hc]
      · next hgt =>
        -- the digits that follow do not bring the value back under the limit
        have := le_ofDigitChars cs (10 * n + (c.toNat - '0'.toNat))
        refine iff_of_false nofun ?_
        rintro ⟨-, rfl, hle⟩
        omega
    · next hc =>
      exact iff_of_false nofun fun h => hc (h.1 c List.mem_cons_self)

theorem readDigits_eq_overflow (hcs : ∀ c ∈ cs, c.isDigit = true)
    (hn : n ≤ limit) (hlt : limit < Nat.ofDigitChars 10 cs n) :
    readDigits limit fault n cs = .error fault := by
  induction cs generalizing n with
  | nil =>
    rw [Nat.ofDigitChars_nil] at hlt
    omega
  | cons c cs ih =>
    rw [Nat.ofDigitChars_cons] at hlt
    rw [readDigits, if_pos (hcs c List.mem_cons_self)]
    dsimp only
    split
    · next hle => exact ih (fun d hd => hcs d (List.mem_cons_of_mem c hd)) hle hlt
    · rfl

end Digits

/-! ### Signed numbers -/

/-- The characters are digits, at least one, with or without a sign, and spell the number. -/
def Spells (cs : List Char) (n : Int) : Prop :=
  ∃ ds, ds ≠ [] ∧ (∀ d ∈ ds, d.isDigit = true) ∧
    (((cs = ds ∨ cs = '+' :: ds) ∧ n = Nat.ofDigitChars 10 ds 0) ∨
      (cs = '-' :: ds ∧ n = -(Nat.ofDigitChars 10 ds 0 : Int)))

def IsInt64 (n : Int) : Prop := -0x8000000000000000 ≤ n ∧ n ≤ 0x7FFFFFFFFFFFFFFF

instance (n : Int) : Decidable (IsInt64 n) := inferInstanceAs (Decidable (_ ∧ _))

theorem spells_repr (n : Int) : Spells (toString n).toList n := by
  have hvalue (k : Nat) : Nat.ofDigitChars 10 k.repr.toList 0 = k := by
    rw [Nat.toList_repr]
    exact Nat.ofDigitChars_toDigits (by decide) (by decide)
  have hdigits (k : Nat) : ∀ d ∈ k.repr.toList, d.isDigit = true := fun _ => isDigit_of_mem_repr
  cases n with
  | ofNat k => exact ⟨k.repr.toList, repr_ne_nil k, hdigits k, .inl ⟨.inl rfl, by rw [hvalue]; rfl⟩⟩
  | negSucc k =>
    have htext : (toString (Int.negSucc k)).toList = '-' :: (k + 1).repr.toList := by
      show (Int.negSucc k).repr.toList = _
      simp [Int.repr]
    exact ⟨(k + 1).repr.toList, repr_ne_nil _, hdigits _, .inr ⟨htext, by rw [hvalue]; rfl⟩⟩

section Signed
variable {s : String} {ds : List Char} {n : Int}

theorem readInt64_minus (hs : s.toList = '-' :: ds) (hds : ds ≠ []) :
    readInt64 s = (readDigits minInt64Size .tooSmall 0 ds).map fun n => -(n : Int) := by
  rw [readInt64, hs]
  split <;> simp_all

theorem readInt64_plus (hs : s.toList = '+' :: ds) (hds : ds ≠ []) :
    readInt64 s = (readDigits maxInt64 .tooLarge 0 ds).map Int.ofNat := by
  rw [readInt64, hs]
  split <;> simp_all

theorem readInt64_unsigned (hs : s.toList = ds) (hds : ds ≠ []) (hplus : ds.head? ≠ some '+')
    (hminus : ds.head? ≠ some '-') :
    readInt64 s = (readDigits maxInt64 .tooLarge 0 ds).map Int.ofNat := by
  rw [readInt64, hs]
  split <;> simp_all

/-- **A numeral is read as the number that it spells**, or refused for its size. -/
theorem readInt64_of_spells (h : Spells s.toList n) : readInt64 s =
    if IsInt64 n then .ok n else .error (if n < 0 then .tooSmall else .tooLarge) := by
  obtain ⟨ds, hds, hdigits, hsign⟩ := h
  have hpositive : (readDigits maxInt64 .tooLarge 0 ds).map Int.ofNat =
      if IsInt64 (Nat.ofDigitChars 10 ds 0) then .ok (Nat.ofDigitChars 10 ds 0 : Int)
      else .error .tooLarge := by
    split
    · next hrange =>
      have hle : Nat.ofDigitChars 10 ds 0 ≤ maxInt64 := by
        have := hrange.2
        unfold maxInt64
        omega
      rw [(readDigits_eq_ok_iff (Nat.zero_le _)).2 ⟨hdigits, rfl, hle⟩]
      rfl
    · next hrange =>
      have hlt : maxInt64 < Nat.ofDigitChars 10 ds 0 := by
        unfold IsInt64 at hrange
        unfold maxInt64
        omega
      rw [readDigits_eq_overflow hdigits (Nat.zero_le _) hlt]
      rfl
  have hsigned : ¬ (Nat.ofDigitChars 10 ds 0 : Int) < 0 := by omega
  rcases hsign with ⟨hs | hs, rfl⟩ | ⟨hs, rfl⟩
  · obtain ⟨d, ds', rfl⟩ := List.exists_cons_of_ne_nil hds
    have hd := hdigits d List.mem_cons_self
    rw [readInt64_unsigned hs hds, hpositive, if_neg hsigned]
    · rintro ⟨⟩
      cases hd
    · rintro ⟨⟩
      cases hd
  · rw [readInt64_plus hs hds, hpositive, if_neg hsigned]
  · rw [readInt64_minus hs hds]
    split
    · next hrange =>
      have hle : Nat.ofDigitChars 10 ds 0 ≤ minInt64Size := by
        have := hrange.1
        unfold minInt64Size maxInt64
        omega
      rw [(readDigits_eq_ok_iff (Nat.zero_le _)).2 ⟨hdigits, rfl, hle⟩]
      rfl
    · next hrange =>
      have hlt : minInt64Size < Nat.ofDigitChars 10 ds 0 := by
        unfold IsInt64 at hrange
        unfold minInt64Size maxInt64
        omega
      have hneg : -(Nat.ofDigitChars 10 ds 0 : Int) < 0 := by omega
      rw [readDigits_eq_overflow hdigits (Nat.zero_le _) hlt, if_pos hneg]
      rfl

theorem spells_of_readInt64 (h : readInt64 s = .ok n) : Spells s.toList n := by
  unfold readInt64 at h
  split at h
  · cases h
  · cases h
  · cases h
  · next ds hne hs =>
    obtain ⟨_, hread, rfl⟩ := map_eq_ok_iff.1 h
    obtain ⟨m, hm, hcast⟩ := bind_eq_ok_iff.1 hread
    cases hcast
    obtain ⟨hdigits, rfl, -⟩ := (readDigits_eq_ok_iff (Nat.zero_le _)).1 hm
    exact ⟨ds, hne, hdigits, .inr ⟨hs, rfl⟩⟩
  · next ds hne hs =>
    obtain ⟨m, hm, rfl⟩ := map_eq_ok_iff.1 h
    obtain ⟨hdigits, rfl, -⟩ := (readDigits_eq_ok_iff (Nat.zero_le _)).1 hm
    exact ⟨ds, hne, hdigits, .inl ⟨.inr hs, rfl⟩⟩
  · next hne _ _ _ _ =>
    obtain ⟨m, hm, rfl⟩ := map_eq_ok_iff.1 h
    obtain ⟨hdigits, rfl, -⟩ := (readDigits_eq_ok_iff (Nat.zero_le _)).1 hm
    exact ⟨s.toList, hne, hdigits, .inl ⟨.inl rfl, rfl⟩⟩

/-- **The numbers of 64 bits are read from what spells them**, and no other ones. -/
theorem readInt64_eq_ok_iff : readInt64 s = .ok n ↔ Spells s.toList n ∧ IsInt64 n := by
  constructor
  · intro h
    have hspells := spells_of_readInt64 h
    rw [readInt64_of_spells hspells] at h
    split at h
    · next hrange => exact ⟨hspells, hrange⟩
    · cases h
  · rintro ⟨hspells, hrange⟩
    rw [readInt64_of_spells hspells, if_pos hrange]

end Signed

end AgentRules.Text
