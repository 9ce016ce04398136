import AgentRules.Proofs.Text.Strip
import AgentRules.VersionText

/-! # The normal form of a version number

A version number in its normal form has no underscore, nothing to drop at its ends and no letter
that marks it, and these are the ones that cleaning leaves as they are (`clean_eq_self_iff`).
Cleaning drops white space and the mark first and points last, so it never leaves a point at an end;
but white space or a mark that stands behind points at the start, or white space in front of points
at the end, comes out only when it is too late to drop it. The texts where this happens are
`Covered`. Of all others the normal form is reached, and at once (`clean_normal_iff`). -/

namespace AgentRules.VersionText

open Text

/-- The text starts with a letter that marks a version number, in front of a digit. -/
def Marked (cs : List Char) : Prop :=
  ∃ c d rest, cs = c :: d :: rest ∧ (c = 'v' ∨ c = 'V') ∧ d.isDigit = true

/-- A version number in its normal form. -/
structure Normal (version : String) : Prop where
  no_underscore : '_' ∉ version.toList
  no_point : Bare (· = '.') version.toList
  no_blank : Bare isBlank version.toList
  no_mark : ¬ Marked version.toList

/-- A character that stands between the parts of a version number. -/
def isPoint (c : Char) : Bool := c = '.' || c = '_'

/-- The text between the points at the two ends starts with white space or a mark though there are
points in front of it, or it ends with white space though there are points behind it. -/
def Covered (cs : List Char) : Prop :=
  ∃ front inner back, cs = front ++ (inner ++ back) ∧ Bare isPoint inner ∧
    (∀ c ∈ front, isPoint c = true) ∧ (∀ c ∈ back, isPoint c = true) ∧
    (front ≠ [] ∧ ((∃ c ∈ inner.head?, isBlank c = true) ∨ Marked inner) ∨
      back ≠ [] ∧ ∃ c ∈ inner.getLast?, isBlank c = true)

/-- The point that is written for a point or an underscore. -/
def pointOf (c : Char) : Char := if c = '_' then '.' else c

/-! ### Characters -/

theorem pointOf_of_not_isPoint {c : Char} (h : isPoint c = false) : pointOf c = c := by
  refine if_neg ?_
  rintro rfl
  cases h

theorem isBlank_pointOf (c : Char) : isBlank (pointOf c) = isBlank c := by
  by_cases hc : c = '_'
  · subst hc
    decide
  · rw [pointOf, if_neg hc]

theorem isDigit_facts {c : Char} (h : c.isDigit = true) :
    isPoint c = false ∧ isBlank c = false ∧ c ≠ 'v' ∧ c ≠ 'V' := by
  have hrange : 48 ≤ c.toNat ∧ c.toNat ≤ 57 := by
    rw [Char.isDigit, Bool.and_eq_true, decide_eq_true_eq, decide_eq_true_eq] at h
    exact h
  have hall : ∀ n < 58, 48 ≤ n → isPoint (Char.ofNat n) = false ∧ isBlank (Char.ofNat n) = false ∧
      Char.ofNat n ≠ 'v' ∧ Char.ofNat n ≠ 'V' := by decide
  have hfacts := hall c.toNat (by omega) hrange.1
  rwa [Char.ofNat_toNat] at hfacts

theorem isPoint_of_mark {c : Char} (h : c = 'v' ∨ c = 'V') : isPoint c = false := by
  rcases h with rfl | rfl <;> decide

/-! ### Dropping the mark -/

variable {cs : List Char}

theorem dropMark_eq_self (h : ¬ Marked cs) : dropMark cs = cs := by
  unfold dropMark
  split
  · next c d rest =>
    refine if_neg fun hmark => h ⟨c, d, rest, rfl, hmark⟩
  · rfl

theorem dropMark_cases (cs : List Char) :
    ¬ Marked cs ∧ dropMark cs = cs ∨
      ∃ c d rest, cs = c :: d :: rest ∧ d.isDigit = true ∧ dropMark cs = d :: rest := by
  by_cases h : Marked cs
  · obtain ⟨c, d, rest, rfl, hmark⟩ := h
    exact .inr ⟨c, d, rest, rfl, hmark.2, if_pos hmark⟩
  · exact .inl ⟨h, dropMark_eq_self h⟩

theorem dropMark_sublist (cs : List Char) : (dropMark cs).Sublist cs := by
  rcases dropMark_cases cs with ⟨-, h⟩ | ⟨c, d, rest, rfl, -, h⟩
  · rw [h]
  · rw [h]
    exact List.sublist_cons_self _ _

/-- **A mark is dropped once and leaves no other one.** -/
theorem not_marked_dropMark (cs : List Char) : ¬ Marked (dropMark cs) := by
  rcases dropMark_cases cs with ⟨hnot, h⟩ | ⟨c, d, rest, rfl, hd, h⟩
  · rwa [h]
  · rw [h]
    rintro ⟨c', d', rest', heq, hmark, -⟩
    obtain ⟨-, -, hv, hV⟩ := isDigit_facts hd
    rw [(List.cons.inj heq).1] at hv hV
    exact hmark.elim hv hV

theorem bare_dropMark (h : Bare isBlank cs) : Bare isBlank (dropMark cs) := by
  rcases dropMark_cases cs with ⟨-, heq⟩ | ⟨c, d, rest, rfl, hd, heq⟩
  · rwa [heq]
  · rw [heq]
    refine ⟨?_, fun c hc => h.2 c ?_⟩
    · rintro c ⟨⟩
      exact (isDigit_facts hd).2.1
    · rwa [List.getLast?_cons_cons]

/-! ### What cleaning gives -/

def body (version : String) : List Char := dropMark (stripBoth isBlank version.toList)

def core (version : String) : List Char := stripBoth isPoint (body version)

theorem bare_body (version : String) : Bare isBlank (body version) :=
  bare_dropMark (bare_stripBoth isBlank _)

/-- **What is left is the text between the points, with points for underscores.** -/
theorem toList_clean (version : String) : (clean version).toList = (core version).map pointOf := by
  have hpoint : (fun c => decide (c = '.')) ∘ pointOf = isPoint := by
    funext c
    by_cases hc : c = '_'
    · subst hc
      decide
    · simp [pointOf, isPoint, hc]
  show (String.ofList (stripBoth (fun c => decide (c = '.')) ((body version).map pointOf))).toList = _
  rw [String.toList_ofList, stripBoth_map, hpoint]
  rfl

theorem no_underscore_clean (version : String) : '_' ∉ (clean version).toList := by
  rw [toList_clean, List.mem_map]
  rintro ⟨c, -, hc⟩
  by_cases h : c = '_'
  · rw [h] at hc
    exact absurd hc (by decide)
  · rw [pointOf, if_neg h] at hc
    exact h hc

theorem no_point_clean (version : String) : Bare (· = '.') (clean version).toList := by
  show Bare _ (String.ofList (stripBoth _ _)).toList
  rw [String.toList_ofList]
  exact bare_stripBoth _ _

/-- The ends of what is left are those of the text between the points. -/
theorem no_blank_clean_iff (version : String) :
    Bare isBlank (clean version).toList ↔ Bare isBlank (core version) := by
  rw [toList_clean, Bare, Bare, List.head?_map, List.getLast?_map]
  simp [isBlank_pointOf]

theorem marked_clean_iff (version : String) :
    Marked (clean version).toList ↔ Marked (core version) := by
  rw [toList_clean]
  constructor
  · rintro ⟨c, d, rest, heq, hmark, hd⟩
    obtain ⟨c', cs, hcore, hc, heq⟩ := List.map_eq_cons_iff.1 heq
    obtain ⟨d', rest', rfl, hd', rfl⟩ := List.map_eq_cons_iff.1 heq
    have hback {a b : Char} (ha : pointOf a = b) (hb : b ≠ '.') : a = b := by
      by_cases h : a = '_'
      · rw [h] at ha
        exact absurd ha.symm hb
      · rwa [pointOf, if_neg h] at ha
    have hc : c' = c := hback hc (by rcases hmark with rfl | rfl <;> decide)
    have hd' : d' = d := hback hd' (by rintro rfl; cases hd)
    exact ⟨c, d, rest', by rw [hcore, hc, hd'], hmark, hd⟩
  · rintro ⟨c, d, rest, heq, hmark, hd⟩
    refine ⟨c, d, rest.map pointOf, ?_, hmark, hd⟩
    rw [heq, List.map_cons, List.map_cons, pointOf_of_not_isPoint (isPoint_of_mark hmark),
      pointOf_of_not_isPoint (isDigit_facts hd).1]

theorem normal_clean_iff (version : String) :
    Normal (clean version) ↔ Bare isBlank (core version) ∧ ¬ Marked (core version) := by
  rw [← no_blank_clean_iff, ← marked_clean_iff]
  exact ⟨fun h => ⟨h.no_blank, h.no_mark⟩,
    fun h => ⟨no_underscore_clean version, no_point_clean version, h.1, h.2⟩⟩

/-! ### What points cover -/

theorem not_bare_iff {p : Char → Bool} : ¬ Bare p cs ↔
    (∃ c ∈ cs.head?, p c = true) ∨ ∃ c ∈ cs.getLast?, p c = true := by
  simp only [Bare, not_and_or, not_forall, Bool.not_eq_false, exists_prop]

/-- **White space or a mark comes out just if points cover it.** -/
theorem covered_body_iff (version : String) :
    Covered (body version) ↔ ¬ (Bare isBlank (core version) ∧ ¬ Marked (core version)) := by
  rw [not_and_or, not_not, not_bare_iff]
  constructor
  · rintro ⟨front, inner, back, heq, hbare, hfront, hback, hcovered⟩
    have hinner : core version = inner := stripBoth_eq_iff.2 ⟨hbare, front, back, heq, hfront, hback⟩
    rw [hinner]
    rcases hcovered with ⟨-, hblank | hmark⟩ | ⟨-, hblank⟩
    · exact .inl (.inl hblank)
    · exact .inr hmark
    · exact .inl (.inr hblank)
  · intro h
    obtain ⟨front, back, heq, hfront, hback⟩ := exists_stripped isPoint (body version)
    have hcore : stripBoth isPoint (body version) = core version := rfl
    rw [hcore] at heq
    obtain ⟨hhead, hlast⟩ := bare_body version
    refine ⟨front, core version, back, heq, bare_stripBoth isPoint _, hfront, hback, ?_⟩
    -- without points in the way, the text would start or end so itself
    rcases h with (⟨c, hc, hblank⟩ | ⟨c, hc, hblank⟩) | hmark
    · refine .inl ⟨?_, .inl ⟨c, hc, hblank⟩⟩
      rintro rfl
      have hfirst := hhead c (by rw [heq, List.nil_append, List.head?_append, hc]; rfl)
      rw [hblank] at hfirst
      cases hfirst
    · refine .inr ⟨?_, c, hc, hblank⟩
      rintro rfl
      have hend := hlast c (by rw [heq, List.append_nil, List.getLast?_append, hc]; rfl)
      rw [hblank] at hend
      cases hend
    · refine .inl ⟨?_, .inr hmark⟩
      rintro rfl
      obtain ⟨c, d, rest, hmarked, hmark⟩ := hmark
      rw [hmarked] at heq
      exact not_marked_dropMark _ ⟨c, d, rest ++ back, heq, hmark⟩

/-! ### Normal forms -/

/-- **The normal forms are what cleaning leaves as it is.** -/
theorem clean_eq_self_iff {version : String} : clean version = version ↔ Normal version := by
  rw [← String.toList_inj, toList_clean]
  constructor
  · intro h
    have hunderscore := no_underscore_clean version
    have hpoint := no_point_clean version
    rw [toList_clean, h] at hunderscore hpoint
    -- as nothing gets longer, nothing is dropped
    have hlen := congrArg List.length h
    rw [List.length_map] at hlen
    have hcore : (core version).length ≤ (body version).length :=
      (stripBoth_sublist isPoint (body version)).length_le
    have hstrip := stripBoth_sublist isBlank version.toList
    have hmark : (body version).Sublist (stripBoth isBlank version.toList) := dropMark_sublist _
    have hlong := hlen.symm.le.trans hcore
    refine ⟨hunderscore, hpoint, stripBoth_eq_self_iff.1 ?_, ?_⟩
    · exact hstrip.eq_of_length_le (hlong.trans hmark.length_le)
    · rw [← (hmark.trans hstrip).eq_of_length_le hlong]
      exact not_marked_dropMark _
  · rintro ⟨hunderscore, ⟨hhead, hlast⟩, hblank, hmark⟩
    have hpoint {c : Char} (hc : c ∈ version.toList) (hdot : decide (c = '.') = false) :
        isPoint c = false := by
      have hne : c ≠ '_' := fun h => hunderscore (h ▸ hc)
      simp [isPoint, hne, of_decide_eq_false hdot]
    have hbare : Bare isPoint version.toList :=
      ⟨fun c hc => hpoint (List.mem_of_mem_head? hc) (hhead c hc),
        fun c hc => hpoint (List.mem_of_mem_getLast? hc) (hlast c hc)⟩
    rw [core, body, stripBoth_eq_self_iff.2 hblank, dropMark_eq_self hmark,
      stripBoth_eq_self_iff.2 hbare]
    refine (List.map_congr_left fun c hc => if_neg ?_).trans (List.map_id _)
    rintro rfl
    exact hunderscore hc

/-- **Cleaning reaches the normal form just if points cover nothing.** What is cleaned has no
underscore, and no point at an end. It is in its normal form just if the points at the ends of the
version number, without its white space and its mark, do not cover white space or another mark; and
just then it stays when it is cleaned again. -/
theorem clean_normal_iff (version : String) :
    '_' ∉ (clean version).toList ∧ Bare (· = '.') (clean version).toList ∧
    (Normal (clean version) ↔
      ¬ Covered (dropMark (stripBoth isBlank version.toList))) ∧
    (clean (clean version) = clean version ↔
      ¬ Covered (dropMark (stripBoth isBlank version.toList))) := by
  have hcovered : Normal (clean version) ↔ ¬ Covered (body version) := by
    rw [normal_clean_iff, covered_body_iff, not_not]
  exact ⟨no_underscore_clean version, no_point_clean version, hcovered,
    clean_eq_self_iff.trans hcovered⟩

/-- **Points can cover white space and marks.** -/
theorem clean_not_normal : clean ". 1" = " 1" ∧ clean "1 ." = "1 " ∧ clean "_v1" = "v1" ∧
    ¬ (∀ version, Normal (clean version)) ∧ ¬ ∀ version, clean (clean version) = clean version := by
  have hblank : clean ". 1" = " 1" := by decide
  have hmark : clean "_v1" = "v1" := by decide
  refine ⟨hblank, by decide, hmark, fun h => ?_, fun h => ?_⟩
  · have hfirst := (h ". 1").no_blank.1 ' '
    rw [hblank] at hfirst
    exact absurd (hfirst (by decide)) (by decide)
  · have hagain := h "_v1"
    rw [hmark] at hagain
    exact absurd hagain (by decide)

end AgentRules.VersionText
