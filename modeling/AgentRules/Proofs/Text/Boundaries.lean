import AgentRules.Text.Bytes
import Mathlib.Data.List.Basic

/-! # Boundaries of a text

The places behind the first characters of a text are its boundaries (`isBoundary_iff`), and what
stands between two of them can be cut out (`slice?_append`, `IsSpan.exists_slice`). Of two places
behind first characters, the one that is not greater belongs to fewer of them
(`prefix_of_byteLength_le`). -/

namespace AgentRules

open Text

theorem byteLength_append (cs ds : List Char) :
    byteLength (cs ++ ds) = byteLength cs + byteLength ds := by
  induction cs with
  | nil => exact (Nat.zero_add _).symm
  | cons c cs ih => rw [List.cons_append, byteLength_cons, byteLength_cons, ih, Nat.add_assoc]

theorem byteLength_pos {cs : List Char} (h : cs ≠ []) : 0 < byteLength cs := by
  obtain ⟨c, cs, rfl⟩ := List.exists_cons_of_ne_nil h
  have := c.utf8Size_pos
  rw [byteLength_cons]
  omega

/-! ### Cutting behind some characters -/

theorem dropBytes_append (cs ds : List Char) :
    dropBytes? (cs ++ ds) (byteLength cs) = some ds := by
  induction cs with
  | nil => cases ds <;> rfl
  | cons c cs ih =>
    have hpos : 0 < c.utf8Size := Char.utf8Size_pos c
    obtain ⟨n, hn⟩ : ∃ n, byteLength (c :: cs) = n + 1 :=
      ⟨c.utf8Size + byteLength cs - 1, by rw [byteLength_cons]; omega⟩
    have hsize : n + 1 - c.utf8Size = byteLength cs ∧ c.utf8Size ≤ n + 1 := by
      rw [byteLength_cons] at hn
      omega
    rw [hn, List.cons_append, dropBytes?, if_pos hsize.2, hsize.1, ih]

theorem takeBytes_append (cs ds : List Char) :
    takeBytes? (cs ++ ds) (byteLength cs) = some cs := by
  induction cs with
  | nil => cases ds <;> rfl
  | cons c cs ih =>
    have hpos : 0 < c.utf8Size := Char.utf8Size_pos c
    obtain ⟨n, hn⟩ : ∃ n, byteLength (c :: cs) = n + 1 :=
      ⟨c.utf8Size + byteLength cs - 1, by rw [byteLength_cons]; omega⟩
    have hsize : n + 1 - c.utf8Size = byteLength cs ∧ c.utf8Size ≤ n + 1 := by
      rw [byteLength_cons] at hn
      omega
    rw [hn, List.cons_append, takeBytes?, if_pos hsize.2, hsize.1, ih]
    rfl

theorem exists_of_dropBytes {cs ds : List Char} {n : Nat} (h : dropBytes? cs n = some ds) :
    ∃ before, cs = before ++ ds ∧ byteLength before = n := by
  fun_induction dropBytes? cs n with
  | case1 cs => exact ⟨[], Option.some.inj h, rfl⟩
  | case2 n => cases h
  | case3 c cs n hfits ih =>
    obtain ⟨before, rfl, hlength⟩ := ih h
    refine ⟨c :: before, rfl, ?_⟩
    rw [byteLength_cons, hlength]
    omega
  | case4 c cs n hfits => cases h

theorem exists_of_takeBytes {cs ds : List Char} {n : Nat} (h : takeBytes? cs n = some ds) :
    ∃ behind, cs = ds ++ behind ∧ byteLength ds = n := by
  fun_induction takeBytes? cs n generalizing ds with
  | case1 cs =>
    cases h
    exact ⟨cs, rfl, rfl⟩
  | case2 n => cases h
  | case3 c cs n hfits ih =>
    obtain ⟨es, hes, rfl⟩ := Option.map_eq_some_iff.1 h
    obtain ⟨behind, rfl, hlength⟩ := ih hes
    refine ⟨behind, rfl, ?_⟩
    rw [byteLength_cons, hlength]
    omega
  | case4 c cs n hfits => cases h

/-- Two places of a text are boundaries in this order. -/
structure IsSpan (s : String) (start stop : Nat) : Prop where
  le : start ≤ stop
  start_boundary : isBoundary s start = true
  stop_boundary : isBoundary s stop = true

theorem isBoundary_of_append {s : String} {cs ds : List Char} (h : s.toList = cs ++ ds) :
    isBoundary s (byteLength cs) = true := by
  rw [isBoundary, h, dropBytes_append]
  rfl

/-- **A boundary is the place behind some first characters.** -/
theorem isBoundary_iff {s : String} {n : Nat} :
    isBoundary s n = true ↔ ∃ cs ds, s.toList = cs ++ ds ∧ byteLength cs = n := by
  constructor
  · intro h
    obtain ⟨ds, hds⟩ := Option.isSome_iff_exists.1 h
    obtain ⟨cs, hcs, hn⟩ := exists_of_dropBytes hds
    exact ⟨cs, ds, hcs, hn⟩
  · rintro ⟨cs, ds, hs, rfl⟩
    exact isBoundary_of_append hs

theorem isSpan_root (text : String) : IsSpan text 0 (size text) where
  le := Nat.zero_le _
  start_boundary := @isBoundary_of_append text [] text.toList rfl
  stop_boundary := isBoundary_of_append (List.append_nil text.toList).symm

/-- **What stands between two boundaries is cut out.** -/
theorem slice?_append {s : String} {before cut behind : List Char}
    (h : s.toList = before ++ (cut ++ behind)) :
    slice? s (byteLength before) (byteLength before + byteLength cut) =
      some (String.ofList cut) := by
  have hdrop : dropBytes? s.toList (byteLength before) = some (cut ++ behind) := by
    rw [h, dropBytes_append]
  rw [slice?, sliceChars?, if_pos (Nat.le_add_right _ _), hdrop, Option.bind_some,
    Nat.add_sub_cancel_left, takeBytes_append]
  rfl

theorem exists_of_slice {s cut : String} {start stop : Nat} (h : slice? s start stop = some cut) :
    ∃ before behind, s.toList = before ++ (cut.toList ++ behind) ∧ byteLength before = start ∧
      start + size cut = stop := by
  obtain ⟨cs, hcs, rfl⟩ := Option.map_eq_some_iff.1 h
  rw [sliceChars?] at hcs
  split at hcs
  · obtain ⟨ds, hds, hcs⟩ := Option.bind_eq_some_iff.1 hcs
    obtain ⟨before, hs, hstart⟩ := exists_of_dropBytes hds
    obtain ⟨behind, rfl, hlength⟩ := exists_of_takeBytes hcs
    refine ⟨before, behind, ?_, hstart, ?_⟩
    · rw [String.toList_ofList, hs]
    · rw [size, String.toList_ofList, hlength]
      omega
  · cases hcs

/-! ### Comparing places -/

theorem prefix_of_byteLength_le {s a b : List Char} (ha : a <+: s) (hb : b <+: s)
    (h : byteLength a ≤ byteLength b) : a <+: b := by
  rcases List.prefix_or_prefix_of_prefix ha hb with hab | ⟨c, rfl⟩
  · exact hab
  · cases c with
    | nil => simp
    | cons c cs =>
      have := byteLength_pos (List.cons_ne_nil c cs)
      rw [byteLength_append] at h
      omega

/-! ### Spans -/

namespace IsSpan
variable {s : String} {start stop : Nat} (h : IsSpan s start stop)
include h

theorem stop_le : stop ≤ size s := by
  obtain ⟨cs, ds, hs, rfl⟩ := isBoundary_iff.1 h.stop_boundary
  rw [size, hs, byteLength_append]
  exact Nat.le_add_right _ _

/-- **A span can be cut out.** -/
theorem exists_slice : ∃ cut, slice? s start stop = some cut := by
  obtain ⟨before, rest, hbefore, rfl⟩ := isBoundary_iff.1 h.start_boundary
  obtain ⟨upto, behind, hupto, rfl⟩ := isBoundary_iff.1 h.stop_boundary
  obtain ⟨cut, rfl⟩ := prefix_of_byteLength_le ⟨rest, hbefore.symm⟩ ⟨behind, hupto.symm⟩ h.le
  rw [byteLength_append]
  exact ⟨_, slice?_append (hupto.trans (List.append_assoc _ _ _))⟩

end IsSpan

end AgentRules
