import AgentRules.Segment

/-! # The two ways of cutting out segments

A run of segments can be looked for in the value, or read off the list of all segments. Both cut
out the same text, for whatever numbers of segments (`rangeOfList_segments`).

The scans of the first way are matched with the list that the second one makes: a start is found
where the list has one (`startFrom_outside`), behind a start the scans see the rest of the list
(`seek_segmentsFrom`), and from there they find the ends that it has (`endFrom_eq`,
`lastEndFrom_outside`). -/

namespace AgentRules.Splitting

section Scans
variable {sep fin : Char → Bool} {cs : List Char} {place : Nat}

/-! ### Starts -/

theorem head?_segmentsFrom_some (o : Nat) :
    (segmentsFrom sep fin place (some o) cs).head?.map (·.1) = some o := by
  induction cs generalizing place with
  | nil => rfl
  | cons c cs ih =>
    unfold segmentsFrom
    by_cases hf : fin c = true
    · rw [if_pos hf]; rfl
    · rw [if_neg hf]
      by_cases hs : sep c = true
      · rw [if_pos hs]; rfl
      · rw [if_neg hs]
        exact ih

theorem startFrom_eq_getElem? (n : Nat) (hn : 0 < n) :
    startFrom sep fin place false n cs =
        ((segmentsFrom sep fin place none cs)[n - 1]?).map (·.1) ∧
      ∀ o, startFrom sep fin place true n cs =
        ((segmentsFrom sep fin place (some o) cs)[n]?).map (·.1) := by
  induction cs generalizing place n with
  | nil =>
    refine ⟨rfl, fun o => ?_⟩
    obtain ⟨k, rfl⟩ := Nat.exists_eq_succ_of_ne_zero (Nat.pos_iff_ne_zero.1 hn)
    rfl
  | cons c cs ih =>
    obtain ⟨k, rfl⟩ := Nat.exists_eq_succ_of_ne_zero (Nat.pos_iff_ne_zero.1 hn)
    unfold startFrom segmentsFrom
    by_cases hf : fin c = true
    · simp only [if_pos hf]
      exact ⟨rfl, fun o => rfl⟩
    · simp only [if_neg hf]
      by_cases hs : sep c = true
      · simp only [if_pos hs]
        exact ⟨(ih _ hn).1, fun o => (ih _ hn).1⟩
      · simp only [if_neg hs, ↓reduceIte]
        refine ⟨?_, fun o => (ih _ hn).2 _⟩
        rw [if_neg Bool.false_ne_true]
        cases k with
        | zero =>
          have := @head?_segmentsFrom_some sep fin cs (place + c.utf8Size) place
          rw [List.head?_eq_getElem?] at this
          exact this.symm
        | succ k => exact (ih (k + 1) (Nat.succ_pos k)).2 place

theorem startFrom_outside {n : Nat} (hn : 0 < n) : startFrom sep fin place false n cs =
    ((segmentsFrom sep fin place none cs)[n - 1]?).map (·.1) :=
  (startFrom_eq_getElem? n hn).1

/-! ### Ends -/

theorem endFrom_cons {c : Char} (hf : fin c = false) (hs : sep c = false) :
    endFrom sep fin place (c :: cs) = endFrom sep fin (place + c.utf8Size) cs := by
  simp [endFrom, hf, hs, Text.byteLength, Nat.add_assoc]

theorem head?_segmentsFrom_end (o : Nat) :
    (segmentsFrom sep fin place (some o) cs).head? = some (o, endFrom sep fin place cs) := by
  induction cs generalizing place with
  | nil => rfl
  | cons c cs ih =>
    unfold segmentsFrom
    by_cases hf : fin c = true
    · rw [if_pos hf]
      simp [endFrom, hf, Text.byteLength]
    · rw [if_neg hf]
      by_cases hs : sep c = true
      · rw [if_pos hs]
        simp [endFrom, hs, Text.byteLength]
      · rw [if_neg hs, endFrom_cons (by simpa using hf) (by simpa using hs)]
        exact ih

theorem lastEndFrom_eq_getLast? :
    (∀ last, lastEndFrom sep fin place last cs =
        ((segmentsFrom sep fin place none cs).getLast?.map (·.2)).getD last) ∧
      ∀ o, (segmentsFrom sep fin place (some o) cs).getLast?.map (·.2) =
        some (lastEndFrom sep fin place place cs) := by
  induction cs generalizing place with
  | nil => exact ⟨fun last => rfl, fun o => rfl⟩
  | cons c cs ih =>
    unfold lastEndFrom segmentsFrom
    by_cases hf : fin c = true
    · simp only [if_pos hf]
      exact ⟨fun last => rfl, fun o => rfl⟩
    · simp only [if_neg hf]
      by_cases hs : sep c = true
      · simp only [if_pos hs]
        refine ⟨ih.1, fun o => ?_⟩
        rw [ih.1]
        simp only [Option.toList_some, List.map_singleton, List.singleton_append, List.getLast?_cons]
        cases (segmentsFrom sep fin (place + c.utf8Size) none cs).getLast? <;> rfl
      · simp only [if_neg hs]
        refine ⟨fun last => ?_, fun o => ih.2 _⟩
        rw [ih.2, Option.getD_some]

theorem lastEndFrom_outside (last : Nat) : lastEndFrom sep fin place last cs =
    ((segmentsFrom sep fin place none cs).getLast?.map (·.2)).getD last :=
  lastEndFrom_eq_getLast?.1 last

/-! ### Behind a start -/

theorem seek_self (n : Nat) : seek n n cs = (n, cs) := by
  cases cs with
  | nil => rfl
  | cons c cs => rw [seek, if_pos (Nat.le_refl n)]

theorem seek_cons {n : Nat} {c : Char} (h : place < n) :
    seek n place (c :: cs) = seek n (place + c.utf8Size) cs := by
  rw [seek, if_neg (Nat.not_le.mpr h)]

/-- What a scan sees that has gone forward to the start of a segment: the segment, and behind it the
rest of the list. -/
structure Sought (sep fin : Char → Bool) (place : Nat) (cs : List Char) (start : Nat)
    (rest : List (Nat × Nat)) : Prop where
  le : place ≤ start
  seek : ∃ c ds, fin c = false ∧ sep c = false ∧ seek start place cs = (start, c :: ds) ∧
    segmentsFrom sep fin start none (c :: ds) = rest

theorem Sought.cons {c : Char} {start : Nat} {rest : List (Nat × Nat)}
    (h : Sought sep fin (place + c.utf8Size) cs start rest) :
    Sought sep fin place (c :: cs) start rest := by
  obtain ⟨hle, d, ds, hf, hs, hseek, hrest⟩ := h
  have hpos := c.utf8Size_pos
  exact ⟨by omega, d, ds, hf, hs, by rw [seek_cons (by omega)]; exact hseek, hrest⟩

theorem sought_drop :
    (∀ i start stop, (segmentsFrom sep fin place none cs)[i]? = some (start, stop) →
        Sought sep fin place cs start ((segmentsFrom sep fin place none cs).drop i)) ∧
      ∀ o i start stop, (segmentsFrom sep fin place (some o) cs)[i + 1]? = some (start, stop) →
        Sought sep fin place cs start ((segmentsFrom sep fin place (some o) cs).drop (i + 1)) := by
  induction cs generalizing place with
  | nil =>
    refine ⟨fun i start stop h => ?_, fun o i start stop h => ?_⟩ <;> cases h
  | cons c cs ih =>
    have hopen := segmentsFrom.eq_2 sep fin place none c cs
    unfold segmentsFrom
    by_cases hf : fin c = true
    · simp only [if_pos hf]
      refine ⟨fun i start stop h => ?_, fun o i start stop h => ?_⟩ <;> cases h
    · simp only [if_neg hf] at hopen ⊢
      by_cases hs : sep c = true
      · simp only [if_pos hs]
        exact ⟨fun i start stop h => (ih.1 i start stop h).cons,
          fun o i start stop h => (ih.1 i start stop h).cons⟩
      · simp only [if_neg hs] at hopen ⊢
        refine ⟨fun i start stop h => ?_, fun o i start stop h => (ih.2 _ i start stop h).cons⟩
        cases i with
        | succ i => exact (ih.2 _ i start stop h).cons
        | zero =>
          rw [← List.head?_eq_getElem?, head?_segmentsFrom_end] at h
          cases h
          exact ⟨Nat.le_refl _, c, cs, by simpa using hf, by simpa using hs, seek_self _, hopen⟩

/-- **A scan from the start of a segment sees the rest of the list.** -/
theorem seek_segmentsFrom {i start stop : Nat}
    (h : (segmentsFrom sep fin place none cs)[i]? = some (start, stop)) :
    Sought sep fin place cs start ((segmentsFrom sep fin place none cs).drop i) :=
  sought_drop.1 i start stop h

theorem endFrom_eq {c : Char} (start : Nat) (cs : List Char) (hf : fin c = false) (hs : sep c = false) :
    (segmentsFrom sep fin start none (c :: cs)).head? =
      some (start, endFrom sep fin start (c :: cs)) := by
  rw [segmentsFrom, if_neg (by simp [hf]), if_neg (by simp [hs]), endFrom_cons hf hs]
  exact head?_segmentsFrom_end start

end Scans

/-! ### The two ways -/

section Places
variable {s : Splitting} {value : String}

theorem segmentStart_eq {n : Int} (hn : 0 < n) :
    s.segmentStart value n = ((s.segments value)[(n - 1).toNat]?).map (·.1) := by
  have hn' : (n - 1).toNat = n.toNat - 1 := by omega
  rw [segmentStart, if_neg (by omega), startFrom_outside (by omega), hn']
  rfl

theorem segmentEnd_eq {i start stop : Nat} (h : (s.segments value)[i]? = some (start, stop)) :
    s.segmentEnd value start = stop := by
  obtain ⟨-, c, ds, hf, hs, hseek, hrest⟩ := seek_segmentsFrom h
  have hhead := endFrom_eq start ds hf hs
  have hdrop : (s.segments value).drop i = (start, stop) :: (s.segments value).drop (i + 1) :=
    List.drop_eq_getElem?_toList_append.trans (by rw [h]; rfl)
  have hrest : segmentsFrom (s.cuts value) s.isTerminator start none (c :: ds) = _ :=
    hrest.trans hdrop
  rw [hrest] at hhead
  simp only [List.head?_cons, Option.some.injEq, Prod.mk.injEq, true_and] at hhead
  rw [segmentEnd, hseek]
  exact hhead.symm

theorem lastSegmentEnd_eq {i start stop : Nat}
    (h : (s.segments value)[i]? = some (start, stop)) :
    (s.segments value).getLast?.map (·.2) = some (s.lastSegmentEnd value start) := by
  obtain ⟨hi, -⟩ := List.getElem?_eq_some_iff.1 h
  obtain ⟨-, c, ds, hf, hs, hseek, hrest⟩ := seek_segmentsFrom h
  have hlast : (s.lastSegmentEnd value start) =
      (((s.segments value).drop i).getLast?.map (·.2)).getD start := by
    have hrest : _ = (s.segments value).drop i := hrest
    rw [lastSegmentEnd, hseek, ← hrest]
    exact lastEndFrom_outside start
  rw [hlast, List.getLast?_drop, if_neg (by omega)]
  cases hl : (s.segments value).getLast? with
  | none => rw [List.getLast?_eq_none_iff.1 hl] at hi; exact absurd hi (Nat.not_lt_zero _)
  | some p => rfl

end Places

/-- **A run that is read off the list is the run that is looked for.** -/
theorem rangeOfList_segments (s : Splitting) (value : String) (first last : Int) :
    rangeOfList value (s.segments value) first last = s.range value first last := by
  unfold rangeOfList range
  by_cases hbad : first ≤ 0 ∨ (last ≠ WordRange.toEnd ∧ last < first)
  · rw [if_pos hbad, if_pos hbad]
  · rw [if_neg hbad, if_neg hbad, segmentStart_eq (by omega)]
    cases hfirst : (s.segments value)[(first - 1).toNat]? with
    | none => split <;> (try split) <;> rfl
    | some p =>
      obtain ⟨start, stop⟩ := p
      by_cases hend : last = WordRange.toEnd
      · have hlast := lastSegmentEnd_eq hfirst
        have hpos := (List.getElem?_eq_some_iff.1 hfirst).1
        have hne : (s.segments value).isEmpty = false := by
          rw [List.isEmpty_eq_false_iff]
          exact List.ne_nil_of_length_pos (by omega)
        rw [List.getLast?_eq_getElem?] at hlast
        obtain ⟨q, hq, hstop⟩ := Option.map_eq_some_iff.1 hlast
        simp only [if_pos hend, hne, Bool.false_eq_true, ↓reduceIte, Option.bind_eq_bind,
          Option.bind_some, hq, hstop]
        rfl
      · simp only [if_neg hend, segmentStart_eq (show 0 < last by omega)]
        cases hlast : (s.segments value)[(last - 1).toNat]? with
        | none => simp only [Option.bind_eq_bind, Option.bind_some, hlast]; rfl
        | some q =>
          have hstop : s.segmentEnd value q.1 = q.2 := segmentEnd_eq hlast
          simp only [Option.bind_eq_bind, Option.bind_some, hlast, Option.map_some, hstop]

end AgentRules.Splitting
