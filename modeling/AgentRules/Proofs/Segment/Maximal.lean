import AgentRules.Proofs.Segment.Runs
import AgentRules.Proofs.Text.Octets

/-! # Segments are maximal runs

What a value is divided into can be said of its bytes: a segment is a maximal run of bytes that are
no separators, in the part of the value in front of the first byte that ends it (`IsSegment`). The
scan lists these runs and no others (`mem_segments_iff`), and a segment that is looked for by its
number is the run with that number in the list (`segments_maximal`). -/

namespace AgentRules.Splitting

open Text

/-! ### The scan for segments -/

section Scan
variable {sep fin : Char → Bool} {cs : List Char} {place : Nat}

/-- The scan does not look behind the first terminator. -/
theorem segmentsFrom_takeWhile (opened : Option Nat) : segmentsFrom sep fin place opened cs =
    segmentsFrom sep (fun _ => false) place opened (cs.takeWhile fun c => !fin c) := by
  induction cs generalizing place opened with
  | nil => rfl
  | cons c cs ih =>
    by_cases hf : fin c = true
    · rw [List.takeWhile_cons_of_neg (by simp [hf])]
      exact if_pos hf
    · rw [List.takeWhile_cons_of_pos (by simp [hf]), segmentsFrom, segmentsFrom, if_neg hf,
        if_neg Bool.false_ne_true]
      simp only [ih]

theorem segmentsFrom_whole (o : Nat) :
    segmentsFrom (fun _ => false) (fun _ => false) place (some o) cs =
      [(o, place + byteLength cs)] := by
  have hrun : segmentRun (fun _ => false) (fun _ => false) cs = cs := by simp [segmentRun]
  have hrest : behindSegment (fun _ => false) (fun _ => false) cs = [] := by simp [behindSegment]
  rw [segmentsFrom_some, hrun, hrest]
  rfl

/-- **The scan lists the places of the maximal runs between separators.** -/
theorem mem_segmentsFrom (sep : Char → Bool) (place : Nat) (cs : List Char) (p : Nat × Nat) :
    p ∈ segmentsFrom sep (fun _ => false) place none cs ↔ ∃ before run behind,
      MaximalRun (fun c => !sep c) cs before run behind ∧ p.1 = place + byteLength before ∧
        p.2 = p.1 + byteLength run := by
  match cs with
  | [] =>
    constructor
    · intro h
      cases h
    · rintro ⟨before, run, behind, h, -⟩
      exact absurd h not_maximalRun_nil
  | c :: cs =>
    by_cases hs : sep c = true
    · rw [segmentsFrom, if_neg Bool.false_ne_true, if_pos hs]
      show p ∈ segmentsFrom sep (fun _ => false) (place + c.utf8Size) none cs ↔ _
      rw [mem_segmentsFrom sep (place + c.utf8Size) cs p]
      constructor
      · rintro ⟨before, run, behind, h, hstart, hstop⟩
        refine ⟨c :: before, run, behind, (maximalRun_cons_iff (by simp [hs])).2 ⟨_, rfl, h⟩, ?_,
          hstop⟩
        rw [byteLength_cons]
        omega
      · rintro ⟨before, run, behind, h, hstart, hstop⟩
        obtain ⟨front, rfl, hrest⟩ := (maximalRun_cons_iff (by simp [hs])).1 h
        refine ⟨front, run, behind, hrest, ?_, hstop⟩
        rw [byteLength_cons] at hstart
        omega
    · -- the run that starts here, and the runs of what it leaves
      have hopen : segmentsFrom sep (fun _ => false) place none (c :: cs) =
          segmentsFrom sep (fun _ => false) place (some place) (c :: cs) := by
        rw [segmentsFrom, segmentsFrom, if_neg Bool.false_ne_true, if_neg hs,
          if_neg Bool.false_ne_true, if_neg hs]
        rfl
      have hrun : segmentRun sep (fun _ => false) (c :: cs) = (c :: cs).takeWhile fun c => !sep c :=
        rfl
      have hrest : behindSegment sep (fun _ => false) (c :: cs) =
          (c :: cs).dropWhile fun c => !sep c := rfl
      have hne : (c :: cs).takeWhile (fun c => !sep c) ≠ [] := by simp [hs]
      have hless : ((c :: cs).dropWhile fun c => !sep c).length < (c :: cs).length := by
        rw [List.dropWhile_cons_of_pos (by simp [hs])]
        exact Nat.lt_succ_of_le (List.dropWhile_suffix _).length_le
      rw [hopen, segmentsFrom_some, hrun, hrest, List.mem_cons, mem_segmentsFrom sep _ _ p]
      constructor
      · rintro (rfl | ⟨front, run, behind, h, hstart, hstop⟩)
        · exact ⟨[], _, _, maximalRun_takeWhile hne, rfl, rfl⟩
        · refine ⟨_, run, behind, (maximalRun_iff hne).2 (.inr ⟨front, rfl, h⟩), ?_, hstop⟩
          rw [byteLength_append]
          omega
      · rintro ⟨before, run, behind, h, hstart, hstop⟩
        rcases (maximalRun_iff hne).1 h with ⟨rfl, rfl, -⟩ | ⟨front, rfl, hleft⟩
        · exact .inl (Prod.ext hstart (hstop.trans (by rw [hstart]; rfl)))
        · refine .inr ⟨front, run, behind, hleft, ?_, hstop⟩
          rw [byteLength_append] at hstart
          omega
termination_by cs.length
decreasing_by
  · exact Nat.lt_succ_self _
  · exact hless

end Scan

/-! ### Segments among the bytes -/

variable (s : Splitting) (value : String)

/-- The bytes of a value in front of the first one that ends it. -/
def visible : List UInt8 := (octets value).takeWhile fun b => !isOctet s.isTerminator b

/-- What is visible of a value falls into what is before a maximal run of bytes that do not divide it,
the run, and what is behind it. -/
def IsSegment (before run behind : List UInt8) : Prop :=
  MaximalRun (fun b => !isOctet (s.cuts value) b) (s.visible value) before run behind

variable {s value}

theorem cuts_ascii (c : Char) (h : s.cuts value c = true) : c.toNat < 128 := by
  have hsep : ∀ c, s.isSeparator c = true → c.toNat < 128 := by
    cases s <;> simp [isSeparator]
  exact hsep c (Bool.and_eq_true_iff.1 h).2

theorem isTerminator_ascii (c : Char) (h : s.isTerminator c = true) : c.toNat < 128 := by
  cases s with
  | word =>
    obtain rfl : c = '(' := by simpa [isTerminator] using h
    decide
  | version => cases h

theorem visible_eq : s.visible value =
    encode (value.toList.takeWhile fun c => !s.isTerminator c) := by
  rw [visible, octets_eq_encode, takeWhile_encode isTerminator_ascii]

/-- A segment in characters: what is before it in the value, and the characters themselves. -/
theorem exists_of_mem_segments {p : Nat × Nat} (h : p ∈ s.segments value) :
    ∃ as bs ds, value.toList = as ++ (bs ++ ds) ∧ p.1 = byteLength as ∧
      p.2 = byteLength as + byteLength bs ∧ bs ≠ [] ∧
      ∃ behind, s.IsSegment value (encode as) (encode bs) behind := by
  rw [segments, segmentsFrom_takeWhile, mem_segmentsFrom] at h
  obtain ⟨as, bs, ds, hmax, hstart, hstop⟩ := h
  have hvalue : value.toList =
      as ++ (bs ++ (ds ++ value.toList.dropWhile fun c => !s.isTerminator c)) := by
    rw [← List.append_assoc bs, ← List.append_assoc as, ← hmax.split,
      List.takeWhile_append_dropWhile]
  refine ⟨as, bs, _, hvalue, by omega, by omega, hmax.nonempty, encode ds, ?_⟩
  rw [IsSegment, visible_eq, maximalRun_encode_iff cuts_ascii]
  exact ⟨as, bs, ds, hmax, rfl, rfl, rfl⟩

/-- **The segments are the maximal runs**, given by their places. -/
theorem mem_segments_iff {start stop : Nat} : (start, stop) ∈ s.segments value ↔
    ∃ before run behind, s.IsSegment value before run behind ∧ before.length = start ∧
      start + run.length = stop := by
  rw [segments, segmentsFrom_takeWhile, mem_segmentsFrom]
  constructor
  · rintro ⟨as, bs, ds, hmax, hstart, hstop⟩
    dsimp only at hstart hstop
    refine ⟨encode as, encode bs, encode ds, ?_, ?_, ?_⟩
    · rw [IsSegment, visible_eq, maximalRun_encode_iff cuts_ascii]
      exact ⟨as, bs, ds, hmax, rfl, rfl, rfl⟩
    · rw [length_encode]
      omega
    · rw [length_encode]
      omega
  · rintro ⟨before, run, behind, hmax, rfl, rfl⟩
    rw [IsSegment, visible_eq, maximalRun_encode_iff cuts_ascii] at hmax
    obtain ⟨as, bs, ds, hmax, rfl, rfl, rfl⟩ := hmax
    refine ⟨as, bs, ds, hmax, ?_, ?_⟩
    · rw [length_encode, Nat.zero_add]
    · rw [length_encode, length_encode]

theorem isSpan_of_mem_segments {p : Nat × Nat} (h : p ∈ s.segments value) :
    p.1 < p.2 ∧ IsSpan value p.1 p.2 := by
  obtain ⟨as, bs, ds, hvalue, hstart, hstop, hne, -⟩ := exists_of_mem_segments h
  have hpos := byteLength_pos hne
  have hboth : value.toList = (as ++ bs) ++ ds := by rw [hvalue, List.append_assoc]
  refine ⟨by omega, by omega, ?_, ?_⟩
  · rw [hstart]
    exact isBoundary_of_append hvalue
  · rw [hstop, ← byteLength_append]
    exact isBoundary_of_append hboth

theorem segments_of_not_divides (h : s.divides value = false) : s.segments value =
    if s.visible value = [] then [] else [(0, (s.visible value).length)] := by
  have hcuts : s.cuts value = fun _ => false := funext fun c => by rw [cuts, h, Bool.false_and]
  rw [segments, segmentsFrom_takeWhile, hcuts, visible_eq]
  cases hcs : value.toList.takeWhile fun c => !s.isTerminator c with
  | nil => rfl
  | cons c cs =>
    rw [if_neg (encode_ne_nil (List.cons_ne_nil c cs)), length_encode, segmentsFrom,
      if_neg Bool.false_ne_true, if_neg Bool.false_ne_true, segmentsFrom_whole, byteLength_cons,
      Option.getD_none, Nat.zero_add]

/-! ### Segments by number -/

/-- The places of the `n`-th segment in the list. -/
def segment? (s : Splitting) (value : String) (n : Int) : Option (Nat × Nat) :=
  if n ≤ 0 then none else (s.segments value)[(n - 1).toNat]?

section Number
variable {n : Int} {p : Nat × Nat}

theorem segment?_eq_none_iff : s.segment? value n = none ↔
    n ≤ 0 ∨ ((s.segments value).length : Int) < n := by
  unfold segment?
  split
  · next hn => exact ⟨fun _ => .inl hn, fun _ => rfl⟩
  · next hn =>
    rw [List.getElem?_eq_none_iff]
    omega

theorem mem_segments_of_segment? (h : s.segment? value n = some p) : p ∈ s.segments value := by
  unfold segment? at h
  split at h
  · cases h
  · exact List.mem_of_getElem? h

theorem places_eq : (s.segmentStart value n).map (fun start => (start, s.segmentEnd value start)) =
    s.segment? value n := by
  unfold segment?
  by_cases hn : n ≤ 0
  · rw [if_pos hn, segmentStart, if_pos hn]
    rfl
  · rw [if_neg hn, segmentStart_eq (by omega)]
    cases hp : (s.segments value)[(n - 1).toNat]? with
    | none => rfl
    | some p =>
      have hstop : s.segmentEnd value p.1 = p.2 := segmentEnd_eq hp
      rw [Option.map_some, Option.map_some, hstop]

theorem single_eq :
    s.single value n = (s.segment? value n).bind fun p => slice? value p.1 p.2 := by
  rw [← places_eq, Option.bind_map]
  rfl

theorem upTo_eq : s.upTo value n = (s.segment? value n).bind fun p => slice? value 0 p.2 := by
  rw [← places_eq, Option.bind_map]
  rfl

/-- **A segment that is looked for is the run with its number**, alone or with all before it. -/
theorem exists_text (h : s.segment? value n = some p) :
    ∃ before run behind text front, s.IsSegment value before run behind ∧ before.length = p.1 ∧
      p.1 + run.length = p.2 ∧ s.single value n = some text ∧ octets text = run ∧
      s.upTo value n = some front ∧ octets front = before ++ run := by
  obtain ⟨as, bs, ds, hvalue, hstart, hstop, -, behind, hsegment⟩ :=
    exists_of_mem_segments (mem_segments_of_segment? h)
  have hboth : value.toList = [] ++ ((as ++ bs) ++ ds) := by
    rw [hvalue, List.nil_append, List.append_assoc]
  have hcut : slice? value p.1 p.2 = some (String.ofList bs) := by
    rw [hstart, hstop]
    exact slice?_append hvalue
  have hfront : slice? value 0 p.2 = some (String.ofList (as ++ bs)) := by
    have hslice := slice?_append hboth
    rw [byteLength_append, show byteLength [] = 0 from rfl, Nat.zero_add] at hslice
    rw [hstop]
    exact hslice
  refine ⟨encode as, encode bs, behind, String.ofList bs, String.ofList (as ++ bs), hsegment, ?_, ?_,
    ?_, ?_, ?_, ?_⟩
  · rw [length_encode, hstart]
  · rw [length_encode, hstart, hstop]
  · rw [single_eq, h, Option.bind_some, hcut]
  · rw [octets_eq_encode, String.toList_ofList]
  · rw [upTo_eq, h, Option.bind_some, hfront]
  · rw [octets_eq_encode, String.toList_ofList, encode_append]

theorem single_eq_none_iff : s.single value n = none ↔ s.segment? value n = none := by
  cases h : s.segment? value n with
  | none => simp [single_eq, h]
  | some p =>
    obtain ⟨-, -, -, text, -, -, -, -, htext, -⟩ := exists_text h
    simp [htext]

theorem upTo_eq_none_iff : s.upTo value n = none ↔ s.segment? value n = none := by
  cases h : s.segment? value n with
  | none => simp [upTo_eq, h]
  | some p =>
    obtain ⟨-, -, -, -, front, -, -, -, -, -, hfront, -⟩ := exists_text h
    simp [hfront]

end Number

/-- **The segments of a value are the maximal runs of its bytes between separators**, in order, in the
part of it in front of the first byte that ends it; a value that is not divided is one run as far as
it is visible. They are spans of the value, none is empty, and each ends where the next one starts or
before it. The segment of a number is the run with that number, and what is cut out up to it are the
bytes from the start of the value to the end of the run; there is none only for a number that the
list does not have. -/
theorem segments_maximal (s : Splitting) (value : String) :
    (∀ start stop, (start, stop) ∈ s.segments value ↔ ∃ before run behind,
      s.IsSegment value before run behind ∧ before.length = start ∧ start + run.length = stop) ∧
    ((s.segments value).Pairwise fun p q => p.2 ≤ q.1) ∧
    (∀ p ∈ s.segments value, p.1 < p.2 ∧ IsSpan value p.1 p.2) ∧
    (s.divides value = false → s.segments value =
      if s.visible value = [] then [] else [(0, (s.visible value).length)]) ∧
    ∀ n : Int,
      (s.single value n = none ↔ n ≤ 0 ∨ ((s.segments value).length : Int) < n) ∧
      (s.upTo value n = none ↔ n ≤ 0 ∨ ((s.segments value).length : Int) < n) ∧
      ∀ p, s.segment? value n = some p → ∃ before run behind text front,
        s.IsSegment value before run behind ∧ before.length = p.1 ∧ p.1 + run.length = p.2 ∧
        s.single value n = some text ∧ octets text = run ∧
        s.upTo value n = some front ∧ octets front = before ++ run := by
  refine ⟨fun _ _ => mem_segments_iff, pieces_segments.2, fun _ => isSpan_of_mem_segments,
    segments_of_not_divides, fun n => ⟨?_, ?_, fun _ => exists_text⟩⟩
  · rw [single_eq_none_iff, segment?_eq_none_iff]
  · rw [upTo_eq_none_iff, segment?_eq_none_iff]

/-- The second word starts behind two characters of two bytes each; an address is not divided. -/
theorem segments_maximal_umlauts :
    word.segment? "Größe über-(alles" 2 = some (8, 13) ∧
    (∃ before run behind, word.IsSegment "Größe über-(alles" before run behind ∧
      before.length = 8 ∧ 8 + run.length = 13) ∧
    version.divides "www.a-b" = false ∧ version.segments "www.a-b" = [(0, 7)] := by
  have hsegment : word.segment? "Größe über-(alles" 2 = some (8, 13) := by decide +kernel
  have hwhole : version.divides "www.a-b" = false := by decide +kernel
  obtain ⟨-, -, -, -, hnumber⟩ := segments_maximal word "Größe über-(alles"
  obtain ⟨before, run, behind, -, -, hmax, hstart, hstop, -⟩ := (hnumber 2).2.2 (8, 13) hsegment
  obtain ⟨-, -, -, hlist, -⟩ := segments_maximal version "www.a-b"
  have hvisible : version.visible "www.a-b" ≠ [] ∧ (version.visible "www.a-b").length = 7 := by
    decide +kernel
  refine ⟨hsegment, ⟨before, run, behind, hmax, hstart, hstop⟩, hwhole, ?_⟩
  rw [hlist hwhole, if_neg hvisible.1, hvisible.2]

end AgentRules.Splitting
