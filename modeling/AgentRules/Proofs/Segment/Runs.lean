import AgentRules.Proofs.Segment.Slicing
import AgentRules.Proofs.Text.Boundaries

/-! # Runs of segments are pieces of the value

Each segment is a piece of the value, and the segments stand one behind the other
(`pieces_segments`). A run starts where one segment starts and stops where a segment stops that is
not before it (`exists_of_rangePlaces`), so between its two places there is always something to cut
out, whichever of the two ways is taken (`range_cuts_piece`). -/

namespace AgentRules.Splitting

open Text

section Scan
variable {sep fin : Char → Bool} {cs : List Char} {place : Nat}

/-- Two places between which some characters of a list stand that starts at `place`. -/
structure IsPiece (cs : List Char) (place : Nat) (p : Nat × Nat) : Prop where
  exists_cut : ∃ before cut, before ++ cut <+: cs ∧ cut ≠ [] ∧
    p.1 = place + byteLength before ∧ p.2 = p.1 + byteLength cut

theorem IsPiece.le_start {p : Nat × Nat} (h : IsPiece cs place p) : place ≤ p.1 := by
  obtain ⟨before, cut, -, -, hstart, -⟩ := h
  omega

theorem IsPiece.append {p : Nat × Nat} (run : List Char)
    (h : IsPiece cs (place + byteLength run) p) : IsPiece (run ++ cs) place p := by
  obtain ⟨before, cut, hsub, hne, hstart, hstop⟩ := h
  refine ⟨run ++ before, cut, ?_, hne, by rw [byteLength_append]; omega, hstop⟩
  rw [List.append_assoc]
  exact (List.prefix_append_right_inj run).2 hsub

/-- The characters of a segment, from a place in it on. -/
def segmentRun (sep fin : Char → Bool) (cs : List Char) : List Char :=
  cs.takeWhile fun c => !fin c && !sep c

/-- What stands behind the segment. -/
def behindSegment (sep fin : Char → Bool) (cs : List Char) : List Char :=
  cs.dropWhile fun c => !fin c && !sep c

theorem segmentRun_append (sep fin : Char → Bool) (cs : List Char) :
    segmentRun sep fin cs ++ behindSegment sep fin cs = cs := List.takeWhile_append_dropWhile

/-- An open segment reaches up to the next mark, and the list goes on from there. -/
theorem segmentsFrom_some (o : Nat) : segmentsFrom sep fin place (some o) cs =
    (o, place + byteLength (segmentRun sep fin cs)) ::
      segmentsFrom sep fin (place + byteLength (segmentRun sep fin cs)) none
        (behindSegment sep fin cs) := by
  unfold segmentRun behindSegment
  induction cs generalizing place with
  | nil => rfl
  | cons c cs ih =>
    by_cases hf : fin c = true
    · simp [segmentsFrom, hf, byteLength]
    · by_cases hs : sep c = true
      · simp [segmentsFrom, hf, hs, byteLength]
      · have hrun : (c :: cs).takeWhile (fun c => !fin c && !sep c) =
            c :: cs.takeWhile fun c => !fin c && !sep c := by simp [hf, hs]
        have hrest : (c :: cs).dropWhile (fun c => !fin c && !sep c) =
            cs.dropWhile fun c => !fin c && !sep c := by simp [hf, hs]
        rw [segmentsFrom, if_neg hf, if_neg hs, Option.getD_some, hrun, hrest, ih, byteLength_cons,
          Nat.add_assoc]

/-- **The segments are pieces of the value, one behind the other.** -/
theorem pieces_segmentsFrom (sep fin : Char → Bool) (place : Nat) (cs : List Char) :
    (∀ p ∈ segmentsFrom sep fin place none cs, IsPiece cs place p) ∧
      (segmentsFrom sep fin place none cs).Pairwise fun p q => p.2 ≤ q.1 := by
  match cs with
  | [] => exact ⟨by simp [segmentsFrom], .nil⟩
  | c :: cs =>
    by_cases hf : fin c = true
    · rw [segmentsFrom, if_pos hf]
      exact ⟨by simp, .nil⟩
    · by_cases hs : sep c = true
      · obtain ⟨hpieces, hordered⟩ := pieces_segmentsFrom sep fin (place + c.utf8Size) cs
        rw [segmentsFrom, if_neg hf, if_pos hs]
        exact ⟨fun p hp => (hpieces p hp).append [c], hordered⟩
      · -- the segment that starts here, and the segments behind it
        have hopen : segmentsFrom sep fin place none (c :: cs) =
            segmentsFrom sep fin place (some place) (c :: cs) := by
          rw [segmentsFrom, segmentsFrom, if_neg hf, if_neg hs, if_neg hf, if_neg hs]
          rfl
        have hne : segmentRun sep fin (c :: cs) ≠ [] := by simp [segmentRun, hf, hs]
        have hless : (behindSegment sep fin (c :: cs)).length < (c :: cs).length := by
          have hlen := congrArg List.length (segmentRun_append sep fin (c :: cs))
          have := List.length_pos_of_ne_nil hne
          rw [List.length_append] at hlen
          omega
        obtain ⟨hpieces, hordered⟩ := pieces_segmentsFrom sep fin
          (place + byteLength (segmentRun sep fin (c :: cs))) (behindSegment sep fin (c :: cs))
        rw [hopen, segmentsFrom_some]
        refine ⟨fun p hp => ?_,
          List.pairwise_cons.2 ⟨fun p hp => (hpieces p hp).le_start, hordered⟩⟩
        have hwhole := segmentRun_append sep fin (c :: cs)
        rcases List.mem_cons.1 hp with rfl | hp
        · exact ⟨[], segmentRun sep fin (c :: cs), ⟨_, hwhole⟩, hne, rfl, rfl⟩
        · have hp := (hpieces p hp).append (segmentRun sep fin (c :: cs))
          rwa [hwhole] at hp
termination_by cs.length
decreasing_by
  · exact Nat.lt_succ_self _
  · exact hless

end Scan

/-! ### The places of a run -/

/-- The place where a run that starts at `start` stops. -/
def rangeStop (s : Splitting) (value : String) (start : Nat) (last : Int) : Option Nat :=
  if last = WordRange.toEnd then some (s.lastSegmentEnd value start)
  else (s.segmentStart value last).map (s.segmentEnd value)

/-- The places between which a run of segments is cut out. -/
def rangePlaces (s : Splitting) (value : String) (first last : Int) : Option (Nat × Nat) :=
  if first ≤ 0 ∨ (last ≠ WordRange.toEnd ∧ last < first) then none
  else (s.segmentStart value first).bind fun start =>
    (s.rangeStop value start last).map fun stop => (start, stop)

variable {s : Splitting} {value : String} {first last : Int}

theorem range_eq_slice : s.range value first last =
    (s.rangePlaces value first last).bind fun p => slice? value p.1 p.2 := by
  unfold range rangePlaces rangeStop
  split
  · rfl
  · rw [Option.bind_assoc]
    refine Option.bind_congr fun start _ => ?_
    rw [Option.bind_map]
    split <;> rfl

theorem pieces_segments : (∀ p ∈ s.segments value, IsPiece value.toList 0 p) ∧
    (s.segments value).Pairwise fun p q => p.2 ≤ q.1 :=
  pieces_segmentsFrom (s.cuts value) s.isTerminator 0 value.toList

/-- **A run goes from the start of a segment to the end of one that is not before it.** -/
theorem exists_of_rangePlaces {start stop : Nat}
    (h : s.rangePlaces value first last = some (start, stop)) :
    ∃ (i j : Nat) (p q : Nat × Nat), i ≤ j ∧ (s.segments value)[i]? = some p ∧
      (s.segments value)[j]? = some q ∧ p.1 = start ∧ q.2 = stop := by
  unfold rangePlaces at h
  split at h
  · cases h
  · next hproper =>
    obtain ⟨start', hstart, h⟩ := Option.bind_eq_some_iff.1 h
    obtain ⟨stop', hstop, h⟩ := Option.map_eq_some_iff.1 h
    cases h
    unfold rangeStop at hstop
    rw [segmentStart_eq (by omega)] at hstart
    obtain ⟨p, hp, hpstart⟩ := Option.map_eq_some_iff.1 hstart
    by_cases hend : last = WordRange.toEnd
    · have hi : (first - 1).toNat < (s.segments value).length :=
        (List.getElem?_eq_some_iff.1 hp).1
      rw [if_pos hend] at hstop
      cases hstop
      have hlast := lastSegmentEnd_eq hp
      rw [hpstart, List.getLast?_eq_getElem?] at hlast
      obtain ⟨q, hq, hqstop⟩ := Option.map_eq_some_iff.1 hlast
      exact ⟨_, _, p, q, by omega, hp, hq, hpstart, hqstop⟩
    · rw [if_neg hend, segmentStart_eq (by omega)] at hstop
      obtain ⟨lastStart, hlast, hqstop⟩ := Option.map_eq_some_iff.1 hstop
      obtain ⟨q, hq, hqstart⟩ := Option.map_eq_some_iff.1 hlast
      rw [← hqstart, segmentEnd_eq hq] at hqstop
      exact ⟨_, _, p, q, by omega, hp, hq, hpstart, hqstop⟩

theorem isPiece_of_rangePlaces {p : Nat × Nat} (h : s.rangePlaces value first last = some p) :
    IsPiece value.toList 0 p := by
  obtain ⟨i, j, q, r, hij, hq, hr, hstart, hstop⟩ := exists_of_rangePlaces h
  obtain ⟨hpieces, hordered⟩ := @pieces_segments s value
  obtain ⟨before, run, hsub, hne, hqstart, hqstop⟩ := hpieces q (List.mem_of_getElem? hq)
  obtain ⟨before', run', hsub', hne', hrstart, hrstop⟩ := hpieces r (List.mem_of_getElem? hr)
  have hpos := byteLength_pos hne
  have hpos' := byteLength_pos hne'
  have hle : q.1 ≤ r.1 := by
    rcases Nat.eq_or_lt_of_le hij with rfl | hlt
    · exact Nat.le_of_eq (congrArg Prod.fst (Option.some.inj (hq.symm.trans hr)))
    · obtain ⟨hi, hqi⟩ := List.getElem?_eq_some_iff.1 hq
      obtain ⟨hj, hrj⟩ := List.getElem?_eq_some_iff.1 hr
      have := List.pairwise_iff_getElem.1 hordered i j hi hj hlt
      rw [hqi, hrj] at this
      omega
  have hshort : byteLength before ≤ byteLength (before' ++ run') := by
    rw [byteLength_append]
    omega
  obtain ⟨cut, hcut⟩ := prefix_of_byteLength_le ((List.prefix_append _ _).trans hsub) hsub' hshort
  have hbytes := congrArg byteLength hcut
  rw [byteLength_append, byteLength_append] at hbytes
  refine ⟨before, cut, by rwa [hcut], ?_, by omega, by omega⟩
  rintro rfl
  have : byteLength [] = 0 := rfl
  omega

/-- **Both ways cut out the same piece of the value.** Whatever the numbers of the first and the
last segment are, a run that is looked for is the run that is read off the list of segments. The two
places of a run are boundaries of the value in this order, with some characters between them, and
these characters are the run; there is no run only if its places are not found. -/
theorem range_cuts_piece (s : Splitting) (value : String) (first last : Int) :
    s.range value first last = rangeOfList value (s.segments value) first last ∧
    (s.rangePlaces value first last = none → s.range value first last = none) ∧
    ∀ start stop, s.rangePlaces value first last = some (start, stop) →
      IsSpan value start stop ∧ stop ≤ size value ∧
      ∃ before cut behind, value.toList = before ++ (cut ++ behind) ∧ cut ≠ [] ∧
        byteLength before = start ∧ byteLength (before ++ cut) = stop ∧
        slice? value start stop = some (String.ofList cut) ∧
        s.range value first last = some (String.ofList cut) := by
  refine ⟨(rangeOfList_segments s value first last).symm, fun h => ?_, fun start stop h => ?_⟩
  · rw [range_eq_slice, h]
    rfl
  · obtain ⟨before, cut, ⟨behind, hvalue⟩, hne, hstart, hstop⟩ := isPiece_of_rangePlaces h
    rw [Nat.zero_add] at hstart
    dsimp only at hstart hstop
    rw [List.append_assoc] at hvalue
    have hslice := slice?_append hvalue.symm
    rw [← hstart, ← hstop] at hslice
    have hend : byteLength (before ++ cut) = stop := by
      rw [byteLength_append]
      omega
    refine ⟨⟨by omega, ?_, ?_⟩, ?_, before, cut, behind, hvalue.symm, hne, hstart.symm, hend,
      hslice, ?_⟩
    · rw [hstart]
      exact isBoundary_of_append hvalue.symm
    · rw [← hend]
      exact isBoundary_of_append (hvalue.symm.trans (List.append_assoc _ _ _).symm)
    · rw [size, ← hvalue, ← hend, byteLength_append, byteLength_append, byteLength_append]
      omega
    · rw [range_eq_slice, h]
      exact hslice

/-- Places count bytes: the run starts behind two characters of two bytes each, and has one more. -/
theorem range_cuts_piece_umlauts :
    word.rangePlaces "Größe über-alles" 2 3 = some (8, 19) ∧ IsSpan "Größe über-alles" 8 19 ∧
      word.range "Größe über-alles" 2 3 =
        rangeOfList "Größe über-alles" (word.segments "Größe über-alles") 2 3 ∧
      slice? "Größe über-alles" 8 19 = some "über-alles" := by
  have hplaces : word.rangePlaces "Größe über-alles" 2 3 = some (8, 19) := by decide +kernel
  have hslice : slice? "Größe über-alles" 8 19 = some "über-alles" := by decide +kernel
  obtain ⟨hboth, -, hcut⟩ := range_cuts_piece word "Größe über-alles" 2 3
  exact ⟨hplaces, (hcut 8 19 hplaces).1, hboth, hslice⟩

end AgentRules.Splitting
