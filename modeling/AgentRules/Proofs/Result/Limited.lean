import AgentRules.Proofs.Result.Unambiguous
import AgentRules.Proofs.Text.Strip
import AgentRules.Proofs.Text.Within

/-! # What is analysed of a text

A text is analysed without the blanks around it, and of a long text only a first part is analysed:
the longest one that fits, without the blanks at its end (`limitText_eq_iff`). In place the cut is
found by going back from the limit to a boundary; this neither leads past the start nor cuts through
a character (`limitInPlace?_eq`). A text stays as it is when it is limited just if it fits and has
no blanks at its ends (`limitText_eq_self_iff`). So what is left of a text is analysed as a whole
when it is analysed itself, and the result is the same (`limitText_settles`). -/

namespace AgentRules

open CompiledLibrary Outcome Text

variable {text left : String} {max : Nat}

/-- Limits a text step by step. A search that leads past the start of the text, and a cut through a
character, give nothing. -/
def limitInPlace? (text : String) (max : Nat) : Option String :=
  let trimmed := trim text
  if size trimmed ≤ max then some trimmed
  else (searchBack? (startsAt (octets trimmed)) max).bind fun place =>
    (slice? trimmed 0 place).map trimEnd

/-- What is left of a text within `max` bytes: a first part of the text between blanks that ends at
a boundary of it, fits, and has no blanks at its ends. It is all of that text if this fits, and
otherwise what stands up to the last boundary within the limit, without the blanks at the end. -/
structure IsLimited (max : Nat) (text left : String) : Prop where
  first : left.toList <+: (trim text).toList
  boundary : isBoundary (trim text) (size left) = true
  fits : size left ≤ max
  no_blank : Bare isBlank left.toList
  whole : size (trim text) ≤ max → left = trim text
  cut : max < size (trim text) → ∃ place longest,
    IsGreatest {n | n ≤ max ∧ isBoundary (trim text) n = true} place ∧
    slice? (trim text) 0 place = some longest ∧ left = trimEnd longest

/-! ### Limiting a text -/

theorem limitText_of_le (h : size (trim text) ≤ max) : limitText text max = trim text := by
  rw [size, trim, String.toList_ofList] at h
  simp only [limitText, if_pos h, trim]

theorem limitText_of_lt (h : max < size (trim text)) :
    limitText text max = trimEnd (String.ofList (takeWithin max (trim text).toList)) := by
  have hlong : ¬ byteLength (stripBoth isBlank text.toList) ≤ max := by
    rw [size, trim, String.toList_ofList] at h
    omega
  simp only [limitText, if_neg hlong, trimEnd, trim, String.toList_ofList]

theorem exists_cut (h : max < size (trim text)) : ∃ behind rest,
    takeWithin max (trim text).toList = (limitText text max).toList ++ behind ∧
    (trim text).toList = (limitText text max).toList ++ (behind ++ rest) := by
  obtain ⟨rest, hrest⟩ := takeWithin_prefix_self max (trim text).toList
  obtain ⟨behind, hbehind⟩ := dropEndWhile_prefix_self isBlank (takeWithin max (trim text).toList)
  have hleft : (limitText text max).toList =
      dropEndWhile isBlank (takeWithin max (trim text).toList) := by
    rw [limitText_of_lt h, trimEnd, String.toList_ofList, String.toList_ofList]
  rw [← hleft] at hbehind
  refine ⟨behind, rest, hbehind.symm, ?_⟩
  rw [← List.append_assoc, hbehind, hrest]

theorem bare_limitText (text : String) (max : Nat) : Bare isBlank (limitText text max).toList := by
  rcases Nat.lt_or_ge max (size (trim text)) with hlong | hfits
  · -- the characters that fit start as the trimmed text does
    obtain ⟨rest, hrest⟩ := takeWithin_prefix_self max (trim text).toList
    have hhead := (bare_trim text).1
    rw [← hrest] at hhead
    rw [limitText_of_lt hlong, trimEnd, String.toList_ofList, String.toList_ofList]
    exact bare_dropEndWhile (forall_head?_of_append hhead)
  · rw [limitText_of_le hfits]
    exact bare_trim text

theorem limitText_isLimited (text : String) (max : Nat) :
    IsLimited max text (limitText text max) := by
  rcases Nat.lt_or_ge max (size (trim text)) with hlong | hfits
  · obtain ⟨behind, rest, hwithin, hparts⟩ := exists_cut hlong
    have hlength : size (limitText text max) + byteLength behind ≤ max := by
      rw [size, ← byteLength_append, ← hwithin]
      exact byteLength_takeWithin_le max (trim text).toList
    have hgreatest := isGreatest_takeWithin max (trim text)
    exact {
      first := ⟨behind ++ rest, hparts.symm⟩
      boundary := isBoundary_of_append hparts
      fits := by omega
      no_blank := bare_limitText text max
      whole := fun hfits => absurd hfits (Nat.not_le.2 hlong)
      cut := fun _ => ⟨_, _, hgreatest, slice?_of_isGreatest hgreatest, limitText_of_lt hlong⟩ }
  · have hwhole := limitText_of_le hfits
    exact {
      first := by rw [hwhole]
      boundary := by
        rw [hwhole]
        exact (isSpan_root (trim text)).stop_boundary
      fits := by rwa [hwhole]
      no_blank := bare_limitText text max
      whole := fun _ => hwhole
      cut := fun hlong => absurd hfits (Nat.not_le.2 hlong) }

/-- There is one last boundary within the limit, and so there is one text that can be left. -/
theorem IsLimited.unique {left' : String} (h : IsLimited max text left)
    (h' : IsLimited max text left') : left = left' := by
  rcases Nat.lt_or_ge max (size (trim text)) with hlong | hfits
  · obtain ⟨place, longest, hplace, hslice, rfl⟩ := h.cut hlong
    obtain ⟨place', longest', hplace', hslice', rfl⟩ := h'.cut hlong
    have hsame : place = place' := hplace.unique hplace'
    rw [hsame, hslice'] at hslice
    rw [Option.some.inj hslice]
  · rw [h.whole hfits, h'.whole hfits]

/-- **What is left of a text is the longest part that fits.** -/
theorem limitText_eq_iff : limitText text max = left ↔ IsLimited max text left := by
  constructor
  · rintro rfl
    exact limitText_isLimited text max
  · exact (limitText_isLimited text max).unique

/-- **No step fails when a text is limited in place.** -/
theorem limitInPlace?_eq (text : String) (max : Nat) :
    limitInPlace? text max = some (limitText text max) := by
  rw [limitInPlace?]
  split
  · next hfits => rw [limitText_of_le hfits]
  · next hlong =>
    obtain ⟨place, hplace⟩ := exists_searchBack? (isBoundary_zero (trim text)) max
    have hslice := slice?_of_isGreatest (searchBack?_eq_some_iff.1 hplace)
    rw [startsAt_octets, hplace, Option.bind_some, hslice, Option.map_some,
      limitText_of_lt (Nat.not_le.1 hlong)]

/-- **The texts that stay as they are** fit and have no blanks at their ends. -/
theorem limitText_eq_self_iff :
    limitText text max = text ↔ size text ≤ max ∧ Bare isBlank text.toList := by
  constructor
  · intro h
    have hlimited := limitText_eq_iff.1 h
    exact ⟨hlimited.fits, hlimited.no_blank⟩
  · rintro ⟨hfits, hbare⟩
    have htrim : trim text = text := trim_eq_iff.2 ⟨hbare, padded_self text.toList⟩
    rw [limitText_of_le (htrim.symm ▸ hfits), htrim]

theorem limitText_limitText (text : String) (max : Nat) :
    limitText (limitText text max) max = limitText text max := by
  have hlimited := limitText_isLimited text max
  exact limitText_eq_self_iff.2 ⟨hlimited.fits, hlimited.no_blank⟩

/-! ### Analysing what is left -/

namespace Analyzer
variable {a : Analyzer} {u : UserAgent}

/-- **A result has the text that was analysed.** -/
theorem source_of_parse (h : a.parse text = .ok u) :
    u.source = limitText text a.config.maxLength := by
  obtain ⟨t, -, hrest⟩ := bind_eq_ok_iff.1 h
  obtain ⟨report, -, hresult⟩ := bind_eq_ok_iff.1 hrest
  have hfound : (found (limitText text a.config.maxLength) t report).source =
      limitText text a.config.maxLength := UserAgent.source_receive _ report.writes
  cases hresult
  split
  · exact (UserAgent.frame_derive _ UserAgent.derivations).1.trans hfound
  · exact hfound

theorem parse_limitText (a : Analyzer) (text : String) :
    a.parse (limitText text a.config.maxLength) = a.parse text := by
  unfold parse
  rw [limitText_limitText]

end Analyzer

/-- **A text is limited once.** What is left of a text is the longest part between blanks that fits,
also if it is found in place by going back from the limit, which never leads past the start. Limited
again it stays as it is, so whatever an analyzer finds out about a text it finds out again about the
text of the result; and any rules that compile do give a result. -/
theorem limitText_settles (text : String) (max : Nat) :
    (∀ left, limitText text max = left ↔ IsLimited max text left) ∧
    (∃ place, searchBack? (startsAt (octets (trim text))) max = some place) ∧
    limitInPlace? text max = some (limitText text max) ∧
    limitText (limitText text max) max = limitText text max ∧
    ∀ a : Analyzer, a.config.maxLength = max →
      (∀ u, a.parse text = .ok u → u.source = limitText text max ∧ a.parse u.source = .ok u) ∧
      ∀ rules threshold, compile rules threshold = .ok a.library → ∃ u, a.parse text = .ok u := by
  refine ⟨fun left => limitText_eq_iff, ?_, limitInPlace?_eq text max,
    limitText_limitText text max, ?_⟩
  · rw [startsAt_octets]
    exact exists_searchBack? (isBoundary_zero (trim text)) max
  · rintro a rfl
    refine ⟨fun u hu => ?_, fun rules threshold hl => ?_⟩
    · have hsource := a.source_of_parse hu
      refine ⟨hsource, ?_⟩
      rw [hsource, a.parse_limitText, hu]
    · obtain ⟨t, report, u, h⟩ := a.exists_parsed hl text
      exact ⟨u, h.result⟩

/-- A text with wide blanks, which is 15 bytes long without those around it. Ten bytes end in the
character behind the inner one. -/
def wideText : String := "\u3000Foo/1 \u3000ü Bar "

/-- The cut goes back behind the inner blank, which goes with the one in front of it. -/
theorem limitText_settles_wideText : ∃ library u,
    compile mixedRules 0 = .ok library ∧ 10 < size (trim wideText) ∧
    (∃ place longest, IsGreatest {n | n ≤ 10 ∧ isBoundary (trim wideText) n = true} place ∧
      slice? (trim wideText) 0 place = some longest ∧ "Foo/1" = trimEnd longest) ∧
    Analyzer.parse ⟨library, { maxLength := 10 }⟩ wideText = .ok u ∧ u.source = "Foo/1" ∧
    Analyzer.parse ⟨library, { maxLength := 10 }⟩ "Foo/1" = .ok u ∧
    size (trim wideText) ≤ 15 ∧ limitText wideText 15 = trim wideText := by
  obtain ⟨library, hl⟩ := exists_compile_mixed
  have hleft : limitText wideText 10 = "Foo/1" := by decide
  have hlong : 10 < size (trim wideText) := by decide
  have hfits : size (trim wideText) ≤ 15 := by decide
  obtain ⟨hlimited, -, -, -, hparse⟩ := limitText_settles wideText 10
  obtain ⟨hagain, hexists⟩ := hparse ⟨library, { maxLength := 10 }⟩ rfl
  obtain ⟨u, hu⟩ := hexists mixedRules 0 hl
  obtain ⟨hsource, hsame⟩ := hagain u hu
  rw [hleft] at hsource
  rw [hsource] at hsame
  have hwhole := ((limitText_settles wideText 15).1 _).1 rfl
  exact ⟨library, u, hl, hlong, ((hlimited _).1 hleft).cut hlong, hu, hsource, hsame, hfits,
    hwhole.whole hfits⟩

end AgentRules
