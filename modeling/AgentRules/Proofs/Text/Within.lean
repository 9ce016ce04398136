import AgentRules.Proofs.Text.Octets
import Mathlib.Order.Bounds.Basic

/-! # The last boundary within a number of bytes

A text is cut off at its last boundary within a number of bytes. There are two ways to it. From the
start characters are taken as long as they fit (`takeWithin`). From the other side a place is moved
back byte by byte, until the byte there is the first one of a character (`searchBack?`). Nothing but
the text stops this at place 0, which is a boundary of every text (`isBoundary_zero`), so the way
back does not lead past it (`exists_searchBack?`). Both come to the same place
(`slice?_of_isGreatest`). -/

namespace AgentRules.Text

variable {c : Char} {cs ds : List Char} {s : String} {max n : Nat}

/-! ### First bytes -/

/-- A place among bytes where a character starts or the bytes end, which the byte there tells. -/
def startsAt (bs : List UInt8) (n : Nat) : Bool :=
  bs[n]?.elim (decide (n = bs.length)) fun b => decide b.IsUTF8FirstByte

theorem startsAt_cons_of_lt (h : n < c.utf8Size) (cs : List Char) :
    startsAt (encode (c :: cs)) n = decide (n = 0) := by
  have hlt : n < (String.utf8EncodeChar c).length := by rwa [String.length_utf8EncodeChar]
  have hbyte : (encode (c :: cs))[n]? = some (String.utf8EncodeChar c)[n] := by
    rw [encode_cons, List.getElem?_append_left hlt, List.getElem?_eq_getElem hlt]
  rw [startsAt, hbyte, Option.elim_some, decide_eq_decide,
    UInt8.isUTF8FirstByte_getElem_utf8EncodeChar]

theorem startsAt_cons_of_le (h : c.utf8Size ≤ n) (cs : List Char) :
    startsAt (encode (c :: cs)) n = startsAt (encode cs) (n - c.utf8Size) := by
  have hlength : (String.utf8EncodeChar c).length = c.utf8Size := String.length_utf8EncodeChar c
  have hend : n = c.utf8Size + (encode cs).length ↔ n - c.utf8Size = (encode cs).length := by omega
  rw [startsAt, startsAt, encode_cons, List.getElem?_append_right (hlength.trans_le h),
    List.length_append, hlength, decide_eq_decide.2 hend]

/-- **The first bytes of the characters, and the end, are at the boundaries.** -/
theorem startsAt_encode (cs : List Char) (n : Nat) :
    startsAt (encode cs) n = (dropBytes? cs n).isSome := by
  fun_induction dropBytes? cs n with
  | case1 cs =>
    cases cs with
    | nil => rfl
    | cons c cs => rw [startsAt_cons_of_lt c.utf8Size_pos, decide_eq_true rfl, Option.isSome_some]
  | case2 n => simp [startsAt, encode]
  | case3 c cs n hfits ih => rw [startsAt_cons_of_le hfits, ih]
  | case4 c cs n hfits =>
    have hlt : n + 1 < c.utf8Size := by omega
    simp [startsAt_cons_of_lt hlt]

theorem startsAt_octets (s : String) : startsAt (octets s) = isBoundary s := by
  funext n
  rw [octets_eq_encode, startsAt_encode, isBoundary]

/-! ### Going back -/

/-- Goes back from a place to the next one that satisfies `p`. There is none before place 0. -/
def searchBack? (p : Nat → Bool) : Nat → Option Nat
  | 0 => if p 0 then some 0 else none
  | n + 1 => if p (n + 1) then some (n + 1) else searchBack? p n

/-- **The way back leads to the last place that satisfies `p`.** -/
theorem searchBack?_eq_some_iff {p : Nat → Bool} :
    searchBack? p max = some n ↔ IsGreatest {m | m ≤ max ∧ p m = true} n := by
  have hstop (m : Nat) (hm : p m = true) :
      some m = some n ↔ IsGreatest {k | k ≤ m ∧ p k = true} n := by
    have hgreatest : IsGreatest {k | k ≤ m ∧ p k = true} m :=
      ⟨⟨Nat.le_refl m, hm⟩, fun k hk => hk.1⟩
    rw [Option.some.injEq]
    exact ⟨fun h => h ▸ hgreatest, hgreatest.unique⟩
  induction max with
  | zero =>
    rw [searchBack?]
    split
    · next h0 => exact hstop 0 h0
    · next h0 =>
      refine iff_of_false nofun fun h => h0 ?_
      obtain ⟨hle, hn⟩ := h.1
      rwa [Nat.le_zero.1 hle] at hn
  | succ max ih =>
    rw [searchBack?]
    split
    · next hlast => exact hstop (max + 1) hlast
    · next hlast =>
      have hset : {m | m ≤ max + 1 ∧ p m = true} = {m | m ≤ max ∧ p m = true} := by
        ext m
        refine and_congr_left fun hm => ⟨fun hle => ?_, Nat.le_succ_of_le⟩
        have hne : m ≠ max + 1 := fun h => hlast (h ▸ hm)
        omega
      rw [hset]
      exact ih

/-- **The way back does not lead past the start.** -/
theorem exists_searchBack? {p : Nat → Bool} (h : p 0 = true) (max : Nat) :
    ∃ n, searchBack? p max = some n := by
  induction max with
  | zero => exact ⟨0, if_pos h⟩
  | succ max ih =>
    rw [searchBack?]
    split
    · exact ⟨_, rfl⟩
    · exact ih

theorem isBoundary_zero (s : String) : isBoundary s 0 = true := (isSpan_root s).start_boundary

/-! ### Going forward -/

theorem takeWithin_prefix_self (n : Nat) (cs : List Char) : takeWithin n cs <+: cs := by
  fun_induction takeWithin n cs with
  | case1 n => exact List.prefix_rfl
  | case2 n c cs hfits ih => exact (List.prefix_cons_inj c).2 ih
  | case3 n c cs hfits => exact List.nil_prefix

theorem byteLength_takeWithin_le (n : Nat) (cs : List Char) :
    byteLength (takeWithin n cs) ≤ n := by
  fun_induction takeWithin n cs with
  | case1 n => exact Nat.zero_le n
  | case2 n c cs hfits ih =>
    rw [byteLength_cons]
    omega
  | case3 n c cs hfits => exact Nat.zero_le n

theorem prefix_takeWithin (h : ds <+: cs) (hfits : byteLength ds ≤ n) : ds <+: takeWithin n cs := by
  induction cs generalizing ds n with
  | nil => exact h
  | cons c cs ih =>
    cases ds with
    | nil => exact List.nil_prefix
    | cons d ds =>
      obtain ⟨rfl, hds⟩ := List.cons_prefix_cons.1 h
      rw [byteLength_cons] at hfits
      have hsize : d.utf8Size ≤ n := by omega
      have hrest : byteLength ds ≤ n - d.utf8Size := by omega
      rw [takeWithin, if_pos hsize]
      exact List.cons_prefix_cons.2 ⟨rfl, ih hds hrest⟩

/-- **The characters that are taken end at the last boundary.** -/
theorem isGreatest_takeWithin (max : Nat) (s : String) :
    IsGreatest {n | n ≤ max ∧ isBoundary s n = true} (byteLength (takeWithin max s.toList)) := by
  constructor
  · obtain ⟨rest, hrest⟩ := takeWithin_prefix_self max s.toList
    exact ⟨byteLength_takeWithin_le max s.toList, isBoundary_of_append hrest.symm⟩
  · rintro n ⟨hle, hn⟩
    obtain ⟨ds, rest, hs, rfl⟩ := isBoundary_iff.1 hn
    obtain ⟨more, hmore⟩ := prefix_takeWithin ⟨rest, hs.symm⟩ hle
    rw [← hmore, byteLength_append]
    omega

/-- **Both ways come to the same place.** -/
theorem slice?_of_isGreatest (h : IsGreatest {n | n ≤ max ∧ isBoundary s n = true} n) :
    slice? s 0 n = some (String.ofList (takeWithin max s.toList)) := by
  obtain ⟨rest, hrest⟩ := takeWithin_prefix_self max s.toList
  have hslice := @slice?_append s [] (takeWithin max s.toList) rest hrest.symm
  rw [h.unique (isGreatest_takeWithin max s)]
  rwa [show byteLength [] = 0 from rfl, Nat.zero_add] at hslice

end AgentRules.Text
