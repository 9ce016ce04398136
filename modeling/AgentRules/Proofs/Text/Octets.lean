import AgentRules.Proofs.Text.Boundaries
import AgentRules.Proofs.Text.MaximalRun

/-! # Octets of a text

Scans over the bytes of a text look for ASCII characters. All bytes of another character have their
highest bit set, so an ASCII character is found among the bytes where it stands among the characters
(`isOctet_of_mem`), and next to one the bytes can be cut only between two characters
(`exists_of_encode_append`). The maximal runs of bytes between ASCII characters are thus the encoded
maximal runs of characters between them (`maximalRun_encode_iff`). -/

namespace AgentRules.Text

def octets (s : String) : List UInt8 := s.toByteArray.data.toList

def encode (cs : List Char) : List UInt8 := cs.flatMap String.utf8EncodeChar

/-- Whether a byte is an ASCII character that satisfies `p`. -/
def isOctet (p : Char → Bool) (b : UInt8) : Bool := b < 128 && p (Char.ofNat b.toNat)

variable {p : Char → Bool} {c : Char} {b : UInt8} {cs ds : List Char}

theorem octets_eq_encode (s : String) : octets s = encode s.toList := by
  rw [octets, ← String.utf8Encode_toList, List.utf8Encode, List.data_toByteArray,
    List.toList_toArray, encode]

theorem encode_append (cs ds : List Char) : encode (cs ++ ds) = encode cs ++ encode ds :=
  List.flatMap_append

theorem encode_cons (c : Char) (cs : List Char) :
    encode (c :: cs) = String.utf8EncodeChar c ++ encode cs := List.flatMap_cons

theorem length_encode (cs : List Char) : (encode cs).length = byteLength cs := by
  induction cs with
  | nil => rfl
  | cons c cs ih =>
    rw [encode_cons, List.length_append, String.length_utf8EncodeChar, ih, byteLength_cons]

theorem encode_ne_nil (h : cs ≠ []) : encode cs ≠ [] := by
  have hpos := byteLength_pos h
  rw [← length_encode] at hpos
  exact List.ne_nil_of_length_pos hpos

/-! ### Bytes of a character -/

theorem utf8EncodeChar_ascii (h : c.toNat < 128) :
    String.utf8EncodeChar c = [c.val.toUInt8] ∧ c.val.toUInt8 < 128 ∧
      Char.ofNat c.val.toUInt8.toNat = c := by
  have hval : c.val.toNat = c.toNat := rfl
  have hcode : c.val.toUInt8.toNat = c.toNat := by
    rw [UInt32.toNat_toUInt8]
    omega
  have hsize : c.utf8Size = 1 := by
    rw [Char.utf8Size_eq_one_iff, UInt32.le_iff_toNat_le]
    exact Nat.le_of_lt_succ h
  refine ⟨String.utf8EncodeChar_eq_singleton hsize, ?_, ?_⟩
  · rw [UInt8.lt_iff_toNat_lt, hcode]
    exact h
  · rw [hcode, Char.ofNat_toNat]

/-- The bytes of another character have their highest bit set. -/
theorem le_of_mem_utf8EncodeChar (h : 128 ≤ c.toNat) (hb : b ∈ String.utf8EncodeChar c) :
    128 ≤ b.toNat := by
  have hval : c.val.toNat = c.toNat := rfl
  have hmod (n : Nat) : (UInt8.ofNat n).toNat = n % 256 := UInt8.toNat_ofNat'
  unfold String.utf8EncodeChar at hb
  dsimp only at hb
  split at hb
  · omega
  · split at hb
    · simp only [List.mem_cons, List.not_mem_nil, or_false] at hb
      rcases hb with rfl | rfl <;> rw [hmod] <;> omega
    · split at hb
      · simp only [List.mem_cons, List.not_mem_nil, or_false] at hb
        rcases hb with rfl | rfl | rfl <;> rw [hmod] <;> omega
      · simp only [List.mem_cons, List.not_mem_nil, or_false] at hb
        rcases hb with rfl | rfl | rfl | rfl <;> rw [hmod] <;> omega

/-- **An ASCII character is found among the bytes where it stands among the characters.** -/
theorem isOctet_of_mem (hp : ∀ c, p c = true → c.toNat < 128)
    (hb : b ∈ String.utf8EncodeChar c) : isOctet p b = p c := by
  by_cases hc : c.toNat < 128
  · obtain ⟨hencode, hlt, hchar⟩ := utf8EncodeChar_ascii hc
    rw [hencode, List.mem_singleton] at hb
    rw [hb, isOctet, hchar, decide_eq_true hlt, Bool.true_and]
  · have hle := le_of_mem_utf8EncodeChar (Nat.not_lt.1 hc) hb
    have hlt : ¬ b < 128 := by
      rw [UInt8.lt_iff_toNat_lt]
      exact Nat.not_lt.2 hle
    have hpc : p c = false := Bool.eq_false_iff.2 fun h => hc (hp c h)
    rw [isOctet, decide_eq_false hlt, Bool.false_and, hpc]

theorem lt_of_isOctet (h : isOctet p b = true) : b.toNat < 128 := by
  rw [isOctet, Bool.and_eq_true, decide_eq_true_eq, UInt8.lt_iff_toNat_lt] at h
  exact h.1

/-! ### Cutting between characters -/

/-- A byte of its own is all of an ASCII character. -/
theorem length_utf8EncodeChar_of_mem (hb : b ∈ String.utf8EncodeChar c) (hlt : b.toNat < 128) :
    (String.utf8EncodeChar c).length = 1 := by
  by_cases hc : c.toNat < 128
  · rw [(utf8EncodeChar_ascii hc).1]
    rfl
  · have := le_of_mem_utf8EncodeChar (Nat.not_lt.1 hc) hb
    omega

/-- **Next to an ASCII character the bytes are cut between two characters.** -/
theorem exists_of_encode_append {xs ys : List UInt8} (h : encode cs = xs ++ ys)
    (hcut : (∀ b ∈ xs.getLast?, b.toNat < 128) ∨ ∀ b ∈ ys.head?, b.toNat < 128) :
    ∃ as bs, cs = as ++ bs ∧ encode as = xs ∧ encode bs = ys := by
  induction cs generalizing xs with
  | nil =>
    obtain ⟨rfl, rfl⟩ := List.append_eq_nil_iff.1 h.symm
    exact ⟨[], [], rfl, rfl, rfl⟩
  | cons c cs ih =>
    rw [encode_cons] at h
    rcases List.append_eq_append_iff.1 h with ⟨zs, rfl, hrest⟩ | ⟨zs, hchar, rfl⟩
    · have hcut' : (∀ b ∈ zs.getLast?, b.toNat < 128) ∨ ∀ b ∈ ys.head?, b.toNat < 128 :=
        hcut.imp_left fun hlast b hb => hlast b (List.mem_getLast?_append_of_mem_getLast? hb)
      obtain ⟨as, bs, rfl, rfl, rfl⟩ := ih hrest hcut'
      exact ⟨c :: as, bs, rfl, encode_cons c as, rfl⟩
    · cases zs with
      | nil =>
        rw [List.append_nil] at hchar
        exact ⟨[c], cs, rfl, by rw [← hchar, encode, List.flatMap_singleton], rfl⟩
      | cons z zs =>
        cases hxs : xs.getLast? with
        | none =>
          rw [List.getLast?_eq_none_iff.1 hxs] at hchar ⊢
          exact ⟨[], c :: cs, rfl, rfl, by rw [encode_cons, hchar]; rfl⟩
        | some x =>
          -- the cut would be in the middle of a character, which has one byte
          obtain ⟨front, rfl⟩ := List.getLast?_eq_some_iff.1 hxs
          have hx : x ∈ String.utf8EncodeChar c := by rw [hchar]; simp
          have hz : z ∈ String.utf8EncodeChar c := by rw [hchar]; simp
          have hone : (String.utf8EncodeChar c).length = 1 := by
            rcases hcut with hlast | hhead
            · exact length_utf8EncodeChar_of_mem hx (hlast x hxs)
            · exact length_utf8EncodeChar_of_mem hz (hhead z rfl)
          rw [hchar] at hone
          simp at hone
          omega

/-! ### Runs between ASCII characters -/

section Ascii
variable (hp : ∀ c, p c = true → c.toNat < 128)
include hp

theorem isOctet_of_mem_encode (hb : b ∈ encode cs) : ∃ c ∈ cs, isOctet p b = p c := by
  obtain ⟨c, hc, hb⟩ := List.mem_flatMap.1 hb
  exact ⟨c, hc, isOctet_of_mem hp hb⟩

theorem getLast?_encode : (encode cs).getLast?.map (isOctet p) = cs.getLast?.map p := by
  cases hcs : cs.getLast? with
  | none =>
    rw [List.getLast?_eq_none_iff.1 hcs]
    rfl
  | some c =>
    obtain ⟨front, rfl⟩ := List.getLast?_eq_some_iff.1 hcs
    have hne : String.utf8EncodeChar c ≠ [] := String.utf8EncodeChar_ne_nil
    rw [encode_append, encode, encode, List.flatMap_singleton,
      List.getLast?_append_of_ne_nil _ hne, List.getLast?_eq_some_getLast hne, Option.map_some,
      isOctet_of_mem hp (List.getLast_mem hne), Option.map_some]

theorem head?_encode : (encode cs).head?.map (isOctet p) = cs.head?.map p := by
  cases cs with
  | nil => rfl
  | cons c cs =>
    have hne : String.utf8EncodeChar c ≠ [] := String.utf8EncodeChar_ne_nil
    rw [encode_cons, List.head?_append_of_ne_nil _ hne, List.head?_eq_some_head hne,
      Option.map_some, isOctet_of_mem hp (List.head_mem hne)]
    rfl

theorem takeWhile_encode :
    (encode cs).takeWhile (fun b => !isOctet p b) = encode (cs.takeWhile fun c => !p c) := by
  induction cs with
  | nil => rfl
  | cons c cs ih =>
    rw [encode_cons]
    cases hc : p c with
    | false =>
      have hall : ∀ b ∈ String.utf8EncodeChar c, (!isOctet p b) = true := fun b hb => by
        rw [isOctet_of_mem hp hb, hc]
        rfl
      rw [List.takeWhile_append_of_pos hall, ih, List.takeWhile_cons_of_pos (by simp [hc]),
        encode_cons]
    | true =>
      obtain ⟨b, bs, hb⟩ := List.exists_cons_of_ne_nil (@String.utf8EncodeChar_ne_nil c)
      have hbit : isOctet p b = true := by
        rw [isOctet_of_mem hp (by rw [hb]; exact List.mem_cons_self), hc]
      rw [hb, List.cons_append, List.takeWhile_cons_of_neg (by simp [hbit]),
        List.takeWhile_cons_of_neg (by simp [hc])]
      rfl

/-- **The maximal runs of bytes between ASCII characters are those of the characters.** -/
theorem maximalRun_encode_iff {before run behind : List UInt8} :
    MaximalRun (fun b => !isOctet p b) (encode cs) before run behind ↔
      ∃ as bs ds, MaximalRun (fun c => !p c) cs as bs ds ∧ encode as = before ∧ encode bs = run ∧
        encode ds = behind := by
  constructor
  · rintro ⟨hsplit, hne, hinside, hlast, hhead⟩
    have hlast' : ∀ b ∈ before.getLast?, b.toNat < 128 := fun b hb =>
      lt_of_isOctet (by simpa using hlast b hb)
    have hhead' : ∀ b ∈ behind.head?, b.toNat < 128 := fun b hb =>
      lt_of_isOctet (by simpa using hhead b hb)
    obtain ⟨as, rest, rfl, rfl, hrest⟩ := exists_of_encode_append hsplit (.inl hlast')
    obtain ⟨bs, ds, rfl, rfl, rfl⟩ := exists_of_encode_append hrest (.inr hhead')
    refine ⟨as, bs, ds, ⟨rfl, ?_, fun c hc => ?_, fun c hc => ?_, fun c hc => ?_⟩, rfl, rfl, rfl⟩
    · rintro rfl
      exact hne rfl
    · -- a character of the run shows in its first byte
      obtain ⟨b, hb⟩ := List.exists_mem_of_ne_nil _ (@String.utf8EncodeChar_ne_nil c)
      rw [← isOctet_of_mem hp hb]
      exact hinside b (List.mem_flatMap.2 ⟨c, hc, hb⟩)
    · have hmap := @getLast?_encode p as hp
      rw [Option.mem_def.1 hc, Option.map_some] at hmap
      obtain ⟨b, hb, hbc⟩ := Option.map_eq_some_iff.1 hmap
      rw [← hbc]
      exact hlast b hb
    · have hmap := @head?_encode p ds hp
      rw [Option.mem_def.1 hc, Option.map_some] at hmap
      obtain ⟨b, hb, hbc⟩ := Option.map_eq_some_iff.1 hmap
      rw [← hbc]
      exact hhead b hb
  · rintro ⟨as, bs, ds, ⟨rfl, hne, hinside, hlast, hhead⟩, rfl, rfl, rfl⟩
    refine ⟨by rw [encode_append, encode_append], encode_ne_nil hne, fun b hb => ?_, fun b hb => ?_,
      fun b hb => ?_⟩
    · obtain ⟨c, hc, hbc⟩ := isOctet_of_mem_encode hp hb
      rw [hbc]
      exact hinside c hc
    · have hmap := @getLast?_encode p as hp
      rw [Option.mem_def.1 hb, Option.map_some] at hmap
      obtain ⟨c, hc, hcb⟩ := Option.map_eq_some_iff.1 hmap.symm
      rw [← hcb]
      exact hlast c hc
    · have hmap := @head?_encode p ds hp
      rw [Option.mem_def.1 hb, Option.map_some] at hmap
      obtain ⟨c, hc, hcb⟩ := Option.map_eq_some_iff.1 hmap.symm
      rw [← hcb]
      exact hhead c hc

end Ascii

end AgentRules.Text
