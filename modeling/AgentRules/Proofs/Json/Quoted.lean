import AgentRules.Json.Lexeme
import AgentRules.Json.Writer

/-! # Texts between quotes

A text that is written between quotes is read back as it was (`lexeme?_quote`). A character stands
there by itself or as an escape, and the escape is read as one piece that spells the character again
(`exists_piece`); no escape that is written names one half of a pair. -/

namespace AgentRules.Json

theorem hexValue?_hexDigit {n : Nat} (h : n < 16) : hexValue? (hexDigit n) = some n := by
  revert n
  decide

theorem hexValue4?_control {n : Nat} (h : n < 32) :
    hexValue4? '0' '0' (hexDigit (n / 16)) (hexDigit (n % 16)) = some n := by
  have hzero : hexValue? '0' = some 0 := rfl
  have hhigh : hexValue? (hexDigit (n / 16)) = some (n / 16) := hexValue?_hexDigit (by omega)
  have hlow : hexValue? (hexDigit (n % 16)) = some (n % 16) := hexValue?_hexDigit (by omega)
  have hsum : 16 * (n / 16) + n % 16 = n := Nat.div_add_mod n 16
  simp [hexValue4?, hzero, hhigh, hlow, hsum]

theorem joinUnits?_code {n : Nat} (h : n < 32) (us : List TextUnit) :
    joinUnits? (.code n :: us) = (joinUnits? us).map (Char.ofNat n :: ·) := by
  have hleading : isLeading n = false := by simp [isLeading]; omega
  have htrailing : isTrailing n = false := by simp [isTrailing]; omega
  rcases us with _ | ⟨_ | _, us⟩ <;> simp [joinUnits?, hleading, htrailing]

/-- The piece of a text that a character is read back as. -/
structure Spells (u : TextUnit) (c : Char) : Prop where
  read : ∀ cs, units? (escape c ++ cs) = (units? cs).map fun (us, rest) => (u :: us, rest)
  join : ∀ us, joinUnits? (u :: us) = (joinUnits? us).map (c :: ·)

theorem join_char (c : Char) (us : List TextUnit) :
    joinUnits? (.char c :: us) = (joinUnits? us).map (c :: ·) := by
  rw [joinUnits?]

theorem spells_letter {c e : Char} (hescape : escape c = ['\\', e])
    (hletter : simpleEscape? e = some c) (hu : e ≠ 'u') : Spells (.char c) c where
  read cs := by
    rw [hescape, List.cons_append, List.singleton_append, units?, hletter]
    · rcases units? cs with _ | ⟨us, rest⟩ <;> rfl
    · rintro - - - - - rfl
      exact absurd rfl hu
  join := join_char c

theorem spells_control {c : Char} (h : c.toNat < 32)
    (hescape : escape c = ['\\', 'u', '0', '0', hexDigit (c.toNat / 16), hexDigit (c.toNat % 16)]) :
    Spells (.code c.toNat) c where
  read cs := by
    simp only [hescape, List.cons_append, List.nil_append]
    rw [units?, hexValue4?_control h]
    rcases units? cs with _ | ⟨us, rest⟩ <;> rfl
  join us := by rw [joinUnits?_code h, Char.ofNat_toNat]

theorem spells_self {c : Char} (h : 32 ≤ c.toNat) (hescape : escape c = [c]) (hquote : c ≠ '"')
    (hback : c ≠ '\\') : Spells (.char c) c where
  read cs := by
    rw [hescape, List.singleton_append, units?, if_neg (Nat.not_lt.2 h)]
    all_goals simp_all
  join := join_char c

/-- **A character is read back as one piece.** -/
theorem exists_piece (c : Char) : ∃ u, Spells u c := by
  have hchar {n : Nat} (h : c.toNat = n) : c = Char.ofNat n := by rw [← h, Char.ofNat_toNat]
  by_cases hquote : c = '"'
  · exact ⟨_, spells_letter (e := '"') (by simp [escape, hquote]) (by rw [hquote]; rfl) (by decide)⟩
  by_cases hback : c = '\\'
  · exact ⟨_, spells_letter (e := '\\') (by simp [escape, hback]) (by rw [hback]; rfl) (by decide)⟩
  by_cases hn : c = '\n'
  · exact ⟨_, spells_letter (e := 'n') (by simp [escape, hn]) (by rw [hn]; rfl) (by decide)⟩
  by_cases hr : c = '\r'
  · exact ⟨_, spells_letter (e := 'r') (by simp [escape, hr]) (by rw [hr]; rfl) (by decide)⟩
  by_cases ht : c = '\t'
  · exact ⟨_, spells_letter (e := 't') (by simp [escape, ht]) (by rw [ht]; rfl) (by decide)⟩
  by_cases hb : c.toNat = 8
  · exact ⟨_, spells_letter (e := 'b') (by simp [escape, hquote, hback, hn, hr, ht, hb])
      (by rw [hchar hb]; rfl) (by decide)⟩
  by_cases hf : c.toNat = 12
  · exact ⟨_, spells_letter (e := 'f') (by simp [escape, hquote, hback, hn, hr, ht, hf])
      (by rw [hchar hf]; rfl) (by decide)⟩
  by_cases hcontrol : c.toNat < 32
  · exact ⟨_, spells_control hcontrol
      (by simp [escape, hquote, hback, hn, hr, ht, hb, hf, hcontrol])⟩
  · exact ⟨_, spells_self (Nat.le_of_not_lt hcontrol)
      (by simp [escape, hquote, hback, hn, hr, ht, hb, hf, hcontrol]) hquote hback⟩

theorem units?_quoted (s rest : List Char) :
    ∃ us, units? (s.flatMap escape ++ '"' :: rest) = some (us, rest) ∧ joinUnits? us = some s := by
  induction s with
  | nil => exact ⟨[], by simp [units?], rfl⟩
  | cons c s ih =>
    obtain ⟨us, hread, hjoin⟩ := ih
    obtain ⟨u, hu⟩ := exists_piece c
    refine ⟨u :: us, ?_, ?_⟩
    · rw [List.flatMap_cons, List.append_assoc, hu.read, hread]
      rfl
    · rw [hu.join, hjoin]
      rfl

/-- **A text between its quotes is read back.** -/
theorem lexeme?_quote (s : String) (rest : List Char) :
    lexeme? ((quote s).toList ++ rest) = some (.text (some s), rest) := by
  obtain ⟨us, hread, hjoin⟩ := units?_quoted s.toList rest
  have hquote : (quote s).toList ++ rest = '"' :: (s.toList.flatMap escape ++ '"' :: rest) := by
    simp [quote, String.toList_ofList]
  rw [hquote, lexeme?, hread, Option.map_some]
  simp only [hjoin, Option.map_some, String.ofList_toList]

end AgentRules.Json
