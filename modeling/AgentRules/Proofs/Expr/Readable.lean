import AgentRules.Expr.Spelling
import AgentRules.Proofs.Text.Numeral
import AgentRules.Proofs.Text.Strip
import Mathlib.Data.List.TakeWhile

/-! # What expressions are read

An expression that has been read is well formed: its names, counts and ranges are what they should
be. It also is `Readable`: its numbers fit, and no two things that stand side by side in it would
have been read as one. Reading is greedy, so after every step the next character is one that cannot
go on with it (`step?_eq_ok`), and the steps behind have to start with that character. -/

namespace AgentRules

open Outcome Text AgentRules.Expr

/-! ### Well-formed expressions -/

/-- A name: at least one letter, digit or underscore of ASCII, and nothing else. -/
def IsName (name : String) : Prop := name.toList ≠ [] ∧ ∀ c ∈ name.toList, isNameChar c = true

/-- A step goes down by a name and by indices from one on in ascending order, goes past one to three
siblings, and takes a proper run of segments. -/
def PathStep.WellFormed : PathStep → Prop
  | down indices name => isAscending indices = true ∧ IsName name
  | next count | prev count => 1 ≤ count ∧ count ≤ maxJump
  | words range => WordRange.Proper range.first range.last
  | _ => True

/-- A text is put at one side of the value at least. -/
def Wrapper.WellFormed : Wrapper → Prop
  | concat before after => before.isSome = true ∨ after.isSome = true
  | _ => True

/-- All names, steps and functions of an expression are well formed. -/
def Expr.WellFormed : Expr → Prop
  | .fixed _ => True
  | .path root steps => IsName root ∧ ∀ s ∈ steps, s.WellFormed
  | .wrapped w inner steps => w.WellFormed ∧ inner.WellFormed ∧ ∀ s ∈ steps, s.WellFormed

/-- The name that a step goes down to is written in the characters of names. -/
def PathStep.IsNamed : PathStep → Prop
  | .down _ name => ∀ c ∈ name.toList, Expr.isNameChar c = true
  | _ => True

/-- Every step of the expression that goes down does so by a name. -/
def Expr.IsNamed : Expr → Prop
  | .fixed _ => True
  | .path _ steps => ∀ s ∈ steps, s.IsNamed
  | .wrapped _ inner steps => inner.IsNamed ∧ ∀ s ∈ steps, s.IsNamed

theorem PathStep.WellFormed.isNamed {s : PathStep} (h : s.WellFormed) : s.IsNamed := by
  cases s with
  | down indices name => exact h.2.2
  | _ => exact True.intro

theorem Expr.WellFormed.isNamed {e : Expr} (h : e.WellFormed) : e.IsNamed := by
  induction e with
  | fixed text => exact True.intro
  | path root steps => exact fun s hs => (h.2 s hs).isNamed
  | wrapped w inner steps ih => exact ⟨ih h.2.1, fun s hs => (h.2.2 s hs).isNamed⟩

/-! ### Readable expressions -/

/-- The numbers fit into 64 bits. -/
def IndexSpec.Fits : IndexSpec → Prop
  | all => True
  | single n | onward n | upTo n => n ≤ maxNat64
  | between first last => first ≤ maxNat64 ∧ last ≤ maxNat64

/-- The numbers of a step are in their limits. -/
def PathStep.Fits : PathStep → Prop
  | down indices _ => indices.Fits
  | words range => range.first ≤ maxWordIndex ∧ range.last ≤ maxWordIndex
  | _ => True

/-- The first character of a step. -/
def PathStep.mark : PathStep → Char
  | down _ _ => '.'
  | up | startsWith _ => '^'
  | next _ => '>'
  | prev _ => '<'
  | backToFull | inSet _ => '@'
  | words _ => '['
  | equals _ => '='
  | differs _ => '!'
  | endsWith _ => '$'
  | contains _ => '~'
  | lookup _ _ => '{'

/-- The step is not read on at the next character. -/
def PathStep.EndsBefore (next : Option Char) : PathStep → Prop
  | down _ _ => ∀ c ∈ next, isNameChar c = false
  | up => next ≠ some '='
  | .next count => count < maxJump → next ≠ some '>'
  | prev count => count < maxJump → next ≠ some '<'
  | backToFull => next ≠ some '{'
  | _ => True

def firstMark (steps : List PathStep) : Option Char := steps.head?.map PathStep.mark

/-- Steps each of which ends before the next one. -/
def ReadableSteps : List PathStep → Prop
  | [] => True
  | s :: ss => s.WellFormed ∧ s.Fits ∧ s.EndsBefore (firstMark ss) ∧ ReadableSteps ss

/-- The expression is no text in quotes. -/
def Expr.IsDynamic : Expr → Prop
  | .fixed _ => False
  | _ => True

/-- A root is not taken for a function, and a text in the place of the value not for the one in
front of it. -/
def Expr.Readable : Expr → Prop
  | .fixed _ => True
  | .path root steps =>
    IsName root ∧ ((Function.ofName? root).isSome = true → firstMark steps ≠ some '[') ∧
      ReadableSteps steps
  | .wrapped w inner steps =>
    w.WellFormed ∧ (w.function = .concat → w.front = none → inner.IsDynamic) ∧ inner.Readable ∧
      ReadableSteps steps

theorem wellFormed_of_readableSteps {ss : List PathStep} (h : ReadableSteps ss) :
    ∀ s ∈ ss, s.WellFormed := by
  induction ss with
  | nil => simp
  | cons s ss ih =>
    obtain ⟨hs, -, -, hss⟩ := h
    exact List.forall_mem_cons.2 ⟨hs, ih hss⟩

theorem Expr.Readable.wellFormed {e : Expr} (h : e.Readable) : e.WellFormed := by
  induction e with
  | fixed text => exact True.intro
  | path root steps => exact ⟨h.1, wellFormed_of_readableSteps h.2.2⟩
  | wrapped w inner steps ih =>
    obtain ⟨hw, -, hinner, hsteps⟩ := h
    exact ⟨hw, ih hinner, wellFormed_of_readableSteps hsteps⟩

namespace Expr
variable {c d : Cursor}

/-! ### Names and numbers -/

theorem peek_span (p : Char → Bool) (c : Cursor) : ∀ x ∈ (c.span p).2.peek, p x = false :=
  Text.eq_false_of_mem_head?_dropWhile

theorem name_eq_ok {s : String} (h : name c = .ok (s, d)) :
    IsName s ∧ ∀ x ∈ d.peek, isNameChar x = false := by
  unfold name at h
  split at h
  · cases h
  · next x xs e hspan =>
    cases h
    have htaken : c.rest.takeWhile isNameChar = x :: xs := congrArg Prod.fst hspan
    have hrest : (c.span isNameChar).2 = d := by rw [hspan]
    refine ⟨⟨?_, fun y hy => ?_⟩, ?_⟩
    · rw [String.toList_ofList]
      exact List.cons_ne_nil x xs
    · rw [String.toList_ofList, ← htaken] at hy
      exact List.mem_takeWhile_imp hy
    · rw [← hrest]
      exact peek_span isNameChar c

theorem number_le {n : Nat} (h : number c = .ok (n, d)) : n ≤ maxNat64 := by
  unfold number at h
  split at h
  · cases h
  · split at h
    · cases h
    · next hn =>
      cases h
      exact ((readDigits_eq_ok_iff (Nat.zero_le _)).1 hn).2.2

theorem wordIndex_le {n : Int} (h : wordIndex c = .ok (n, d)) : n ≤ maxWordIndex := by
  obtain ⟨⟨m, e⟩, -, h⟩ := bind_eq_ok_iff.1 h
  dsimp only at h
  split at h
  · next hle =>
    cases h
    exact Int.ofNat_le.2 hle
  · cases h

/-! ### Ranges -/

/-- What stands behind the first number of a range has the property that its reader grants. -/
theorem rangeEnd_closed {α : Type} {read : Cursor → Except Misread (α × Cursor)} {P : α → Prop}
    (hread : ∀ {c d x}, read c = .ok (x, d) → P x) {last : α}
    (h : rangeEnd read c = .ok (.closed last, d)) : P last := by
  unfold rangeEnd at h
  split at h
  · cases h
  · split at h
    · obtain ⟨⟨x, e⟩, hx, h⟩ := map_eq_ok_iff.1 h
      cases h
      exact hread hx
    · cases h

theorem fits_of_indexBody {i : IndexSpec} (h : indexBody c = .ok (i, d)) : i.Fits := by
  unfold indexBody at h
  split at h
  · cases h
    exact True.intro
  · split at h
    · obtain ⟨⟨last, e⟩, hlast, h⟩ := map_eq_ok_iff.1 h
      cases h
      exact number_le hlast
    · obtain ⟨⟨first, e⟩, hfirst, h⟩ := bind_eq_ok_iff.1 h
      obtain ⟨⟨stop, f⟩, hstop, h⟩ := bind_eq_ok_iff.1 h
      cases h
      cases stop with
      | alone | unbounded => exact number_le hfirst
      | closed last => exact ⟨number_le hfirst, rangeEnd_closed number_le hstop⟩

theorem indexSpec_eq_ok {i : IndexSpec} (h : indexSpec c = .ok (i, d)) :
    isAscending i = true ∧ i.Fits := by
  obtain ⟨e, -, h⟩ := bind_eq_ok_iff.1 h
  obtain ⟨⟨j, f⟩, hbody, h⟩ := bind_eq_ok_iff.1 h
  obtain ⟨g, -, h⟩ := bind_eq_ok_iff.1 h
  split at h
  · next hasc =>
    cases h
    exact ⟨hasc, fits_of_indexBody hbody⟩
  · cases h

theorem wordBody_le {r : Int × Int} (h : wordBody c = .ok (r, d)) :
    r.1 ≤ maxWordIndex ∧ r.2 ≤ maxWordIndex := by
  unfold wordBody at h
  split at h
  · obtain ⟨⟨last, e⟩, hlast, h⟩ := map_eq_ok_iff.1 h
    cases h
    refine ⟨?_, wordIndex_le hlast⟩
    show (1 : Int) ≤ maxWordIndex
    decide
  · obtain ⟨⟨first, e⟩, hfirst, h⟩ := bind_eq_ok_iff.1 h
    obtain ⟨⟨stop, f⟩, hstop, h⟩ := bind_eq_ok_iff.1 h
    cases h
    refine ⟨wordIndex_le hfirst, ?_⟩
    cases stop with
    | alone => exact wordIndex_le hfirst
    | unbounded =>
      show WordRange.toEnd ≤ maxWordIndex
      decide
    | closed last => exact rangeEnd_closed (P := (· ≤ (maxWordIndex : Int))) wordIndex_le hstop

theorem make_eq_ok {first last : Int} {r : WordRange} (h : WordRange.make first last = .ok r) :
    r = ⟨first, last⟩ ∧ WordRange.Proper first last := by
  unfold WordRange.make at h
  split at h
  · cases h
  · split at h
    · cases h
    · next hfirst hlast =>
      cases h
      refine ⟨rfl, by omega, ?_⟩
      by_cases hend : last = WordRange.toEnd
      · exact .inl hend
      · exact .inr (by omega)

theorem wordRange_eq_ok {r : WordRange} (h : wordRange c = .ok (r, d)) :
    (PathStep.words r).WellFormed ∧ (PathStep.words r).Fits := by
  obtain ⟨e, -, h⟩ := bind_eq_ok_iff.1 h
  obtain ⟨⟨⟨first, last⟩, f⟩, hbody, h⟩ := bind_eq_ok_iff.1 h
  obtain ⟨g, -, h⟩ := bind_eq_ok_iff.1 h
  split at h
  · cases h
  · next range hmake =>
    cases h
    obtain ⟨rfl, hproper⟩ := make_eq_ok hmake
    exact ⟨hproper, wordBody_le hbody⟩

/-! ### Steps -/

theorem repeats_eq {mark : Char} {left n : Nat} (h : repeats mark left c = (n, d)) :
    n ≤ left ∧ (n < left → d.peek ≠ some mark) := by
  induction left generalizing c n with
  | zero =>
    cases h
    exact ⟨Nat.le_refl 0, fun h => absurd h (Nat.lt_irrefl 0)⟩
  | succ left ih =>
    unfold repeats at h
    split at h
    · cases hr : repeats mark left c.advance with
      | mk m e =>
        rw [hr] at h
        cases h
        obtain ⟨hle, hend⟩ := ih hr
        exact ⟨Nat.succ_le_succ hle, fun hlt => hend (Nat.lt_of_succ_lt_succ hlt)⟩
    · next hpeek =>
      cases h
      exact ⟨Nat.zero_le _, fun _ => hpeek⟩

theorem repeats_pos {mark : Char} {n : Nat} (hpeek : c.peek = some mark)
    (h : repeats mark maxJump c = (n, d)) : 1 ≤ n := by
  unfold maxJump repeats at h
  rw [if_pos hpeek] at h
  cases h
  exact Nat.succ_pos _

/-- What a reader of steps grants: where it starts, that the step is well formed, and where it
ends. -/
structure ReadStep (c : Cursor) (s : PathStep) (d : Cursor) : Prop where
  peek : c.peek = some s.mark
  wellFormed : s.WellFormed
  fits : s.Fits
  endsBefore : s.EndsBefore d.peek

theorem downStep_eq_ok {s : PathStep} (hc : c.peek = some '.')
    (h : downStep c.advance = .ok (s, d)) : ReadStep c s d := by
  obtain ⟨⟨indices, e⟩, hindices, h⟩ := bind_eq_ok_iff.1 h
  obtain ⟨⟨child, f⟩, hchild, h⟩ := bind_eq_ok_iff.1 h
  cases h
  obtain ⟨hname, hend⟩ := name_eq_ok hchild
  have hspec : isAscending indices = true ∧ indices.Fits := by
    unfold optionalIndices at hindices
    split at hindices
    · exact indexSpec_eq_ok hindices
    · cases hindices
      exact ⟨rfl, True.intro⟩
  exact ⟨hc, ⟨hspec.1, hname⟩, hspec.2, hend⟩

theorem comparison_eq_ok {e : Cursor} {step : String → PathStep} {s : PathStep}
    (h : comparison step e = .ok (s, d))
    (hstep : ∀ text, ReadStep c (step text) d) : ReadStep c s d := by
  obtain ⟨⟨text, f⟩, -, h⟩ := map_eq_ok_iff.1 h
  cases h
  exact hstep text

/-- **Reading a step leaves a character behind that cannot go on with it.** -/
theorem step?_eq_ok {s : PathStep} (h : step? c = .ok (some (s, d))) : ReadStep c s d := by
  have map_some {x : Except Misread (PathStep × Cursor)}
      (hx : x.map some = .ok (some (s, d))) : x = .ok (s, d) := by
    obtain ⟨y, hy, hy'⟩ := map_eq_ok_iff.1 hx
    cases hy'
    exact hy
  -- a step that has nothing but its mark ends where the character behind it is not taken
  have lone {x y : Char} {rest : List Char} (hc : c.rest = x :: rest)
      (hy : ∀ r, rest = y :: r → False) : c.advance.peek ≠ some y := fun hp => by
    have hadvance : c.advance.rest = rest := by simp [Cursor.advance, hc]
    obtain ⟨r, hr⟩ := List.head?_eq_some_iff.1 (show c.advance.rest.head? = some y from hp)
    exact hy r (hadvance.symm.trans hr)
  unfold step? at h
  split at h
  case h_6 hc => exact downStep_eq_ok (congrArg List.head? hc) (map_some h)
  case h_7 hc | h_14 hc | h_15 hc | h_16 hc | h_17 hc =>
    exact comparison_eq_ok (map_some h) fun _ =>
      ⟨congrArg List.head? hc, True.intro, True.intro, True.intro⟩
  case h_8 hne hc =>
    cases h
    exact ⟨congrArg List.head? hc, True.intro, True.intro, lone hc hne⟩
  case h_9 hc =>
    have hpeek : c.peek = some '>' := congrArg List.head? hc
    cases hr : repeats '>' maxJump c with
    | mk n e =>
      rw [hr] at h
      cases h
      obtain ⟨hle, hend⟩ := repeats_eq hr
      exact ⟨hpeek, ⟨repeats_pos hpeek hr, hle⟩, True.intro, hend⟩
  case h_10 hc =>
    have hpeek : c.peek = some '<' := congrArg List.head? hc
    cases hr : repeats '<' maxJump c with
    | mk n e =>
      rw [hr] at h
      cases h
      obtain ⟨hle, hend⟩ := repeats_eq hr
      exact ⟨hpeek, ⟨repeats_pos hpeek hr, hle⟩, True.intro, hend⟩
  case h_11 hc =>
    obtain ⟨⟨set, e⟩, -, h⟩ := bind_eq_ok_iff.1 (map_some h)
    obtain ⟨f, -, h⟩ := bind_eq_ok_iff.1 h
    cases h
    exact ⟨congrArg List.head? hc, True.intro, True.intro, True.intro⟩
  case h_12 hne hc =>
    cases h
    exact ⟨congrArg List.head? hc, True.intro, True.intro, lone hc hne⟩
  case h_13 hc =>
    obtain ⟨⟨range, e⟩, hrange, h⟩ := map_eq_ok_iff.1 h
    cases h
    obtain ⟨hwf, hfits⟩ := wordRange_eq_ok hrange
    exact ⟨congrArg List.head? hc, hwf, hfits, True.intro⟩
  case h_21 hc =>
    obtain ⟨⟨table, e⟩, -, h⟩ := bind_eq_ok_iff.1 (map_some h)
    obtain ⟨⟨default, f⟩, -, h⟩ := bind_eq_ok_iff.1 h
    obtain ⟨g, -, h⟩ := bind_eq_ok_iff.1 h
    cases h
    exact ⟨congrArg List.head? hc, True.intro, True.intro, True.intro⟩
  all_goals cases h

theorem endsBefore_none {s : PathStep} : s.EndsBefore none := by
  cases s <;> simp [PathStep.EndsBefore]

theorem steps_eq_ok {ss : List PathStep} (h : steps c = .ok (ss, d)) :
    ReadableSteps ss ∧ ∀ m ∈ firstMark ss, c.peek = some m := by
  fun_induction steps c generalizing ss d with
  | case1 => cases h
  | case2 =>
    cases h
    exact ⟨True.intro, by simp [firstMark]⟩
  | case3 c s e hs ih =>
    obtain ⟨⟨rest, f⟩, hrest, h⟩ := map_eq_ok_iff.1 h
    cases h
    obtain ⟨hpeek, hwf, hfits, hend⟩ := step?_eq_ok hs
    obtain ⟨hreadable, hfirst⟩ := ih hrest
    refine ⟨⟨hwf, hfits, ?_, hreadable⟩, fun m hm => ?_⟩
    · cases hm : firstMark rest with
      | none => exact endsBefore_none
      | some m =>
        rw [hfirst m hm] at hend
        exact hend
    · cases hm
      exact hpeek

/-! ### Expressions -/

def isSpace (d : Char) : Bool := d = ' ' || d = '\t'

theorem skipBlanks_eq_self (h : ∀ x ∈ c.peek, isSpace x = false) : c.skipBlanks = c := by
  obtain ⟨rest, place⟩ := c
  cases rest with
  | nil => rfl
  | cons x xs =>
    have hx : (x = ' ' || x = '\t') = false := h x rfl
    simp [Cursor.skipBlanks, Cursor.span, hx, byteLength]

theorem skipBlanks_skipBlanks (c : Cursor) : c.skipBlanks.skipBlanks = c.skipBlanks :=
  skipBlanks_eq_self (peek_span isSpace c)

/-- What the opening of an expression grants. -/
def OpensInto (d : Cursor) : Opening → Prop
  | .fixed _ => True
  | .root name => IsName name ∧ ((Function.ofName? name).isSome = true → d.peek ≠ some '[')
  | .function f front => f = .concat → front = none → d.skipBlanks.peek ≠ some '"'

theorem opening_eq_ok {o : Opening} (h : opening c = .ok (o, d)) : OpensInto d o := by
  unfold opening at h
  dsimp only at h
  split at h
  · obtain ⟨⟨text, e⟩, -, h⟩ := map_eq_ok_iff.1 h
    cases h
    exact True.intro
  · obtain ⟨⟨word, e⟩, hword, h⟩ := bind_eq_ok_iff.1 h
    dsimp only at h
    split at h
    · next f hf hpeek =>
      obtain ⟨⟨front, g⟩, hfront, h⟩ := bind_eq_ok_iff.1 h
      cases h
      rintro rfl rfl
      unfold frontArgument at hfront
      dsimp only at hfront
      split at hfront
      · obtain ⟨⟨text, k⟩, -, hfront⟩ := bind_eq_ok_iff.1 hfront
        obtain ⟨k', -, hfront⟩ := bind_eq_ok_iff.1 hfront
        cases hfront
      · next hquote =>
        cases hfront
        rwa [skipBlanks_skipBlanks]
    · next hroot =>
      cases h
      refine ⟨(name_eq_ok hword).1, fun hf hpeek => ?_⟩
      obtain ⟨f, hf⟩ := Option.isSome_iff_exists.1 hf
      exact hroot f hf hpeek

/-- A text in quotes starts with a mark. -/
theorem isDynamic_of_expr {e : Expr} (hc : c.skipBlanks.peek ≠ some '"')
    (h : expr c = .ok (e, d)) : e.IsDynamic := by
  rw [expr] at h
  split at h
  · cases h
  · next text f hopen =>
    unfold opening at hopen
    dsimp only at hopen
    rw [if_neg hc] at hopen
    obtain ⟨⟨word, g⟩, -, hopen⟩ := bind_eq_ok_iff.1 hopen
    dsimp only at hopen
    split at hopen
    · obtain ⟨⟨front, k⟩, -, hopen⟩ := bind_eq_ok_iff.1 hopen
      cases hopen
    · cases hopen
  · obtain ⟨⟨ss, f⟩, -, h⟩ := map_eq_ok_iff.1 h
    cases h
    exact True.intro
  · obtain ⟨⟨inner, c₁⟩, -, h⟩ := bind_eq_ok_iff.1 h
    obtain ⟨⟨wrapper, c₂⟩, -, h⟩ := bind_eq_ok_iff.1 h
    obtain ⟨⟨ss, c₃⟩, -, h⟩ := bind_eq_ok_iff.1 h
    cases h
    exact True.intro

/-- The wrapper is the function with its arguments, and text is put at one side at least. -/
theorem closing_eq_ok {f : Function} {front : Option String} {w : Wrapper}
    (h : closing f front c = .ok (w, d)) : w.WellFormed ∧
      (w.function = .concat → w.front = none → f = .concat ∧ front = none) := by
  obtain ⟨⟨last, e⟩, hlast, h⟩ := bind_eq_ok_iff.1 h
  obtain ⟨g, -, h⟩ := bind_eq_ok_iff.1 h
  cases h
  cases f with
  | concat =>
    refine ⟨?_, fun _ hfront => ⟨rfl, hfront⟩⟩
    cases front with
    | some text => exact .inl rfl
    | none =>
      obtain ⟨e', -, hlast⟩ := bind_eq_ok_iff.1 hlast
      obtain ⟨⟨text, e''⟩, -, hlast⟩ := bind_eq_ok_iff.1 hlast
      cases hlast
      exact .inr rfl
  | isNull | cleanVersion | normalizeBrand | lookup | lookupByHead | inTableByHead =>
    exact ⟨True.intro, fun h => by cases h⟩

theorem readable_of_expr {e : Expr} (h : expr c = .ok (e, d)) : e.Readable := by
  fun_induction expr c generalizing e d with
  | case1 => cases h
  | case2 =>
    cases h
    exact True.intro
  | case3 c name g hopen =>
    obtain ⟨⟨ss, f⟩, hss, h⟩ := map_eq_ok_iff.1 h
    cases h
    obtain ⟨hname, hroot⟩ := opening_eq_ok hopen
    obtain ⟨hsteps, hfirst⟩ := steps_eq_ok hss
    exact ⟨hname, fun hf hm => hroot hf (hfirst _ hm), hsteps⟩
  | case4 c f front g hopen ih =>
    obtain ⟨⟨inner, c₁⟩, hinner, h⟩ := bind_eq_ok_iff.1 h
    obtain ⟨⟨wrapper, c₂⟩, hclose, h⟩ := bind_eq_ok_iff.1 h
    obtain ⟨⟨ss, c₃⟩, hss, h⟩ := bind_eq_ok_iff.1 h
    cases h
    obtain ⟨hw, hconcat⟩ := closing_eq_ok hclose
    refine ⟨hw, fun hf hfront => ?_, ih hinner, (steps_eq_ok hss).1⟩
    obtain ⟨rfl, rfl⟩ := hconcat hf hfront
    exact isDynamic_of_expr (opening_eq_ok hopen rfl rfl) hinner

/-- **An expression that has been read is readable.** -/
theorem readable_of_parse {text : String} {e : Expr} (h : parse text = .ok e) : e.Readable := by
  unfold parse at h
  rw [mapError_eq_ok_iff] at h
  obtain ⟨⟨f, c⟩, hf, h⟩ := bind_eq_ok_iff.1 h
  dsimp only at h
  split at h
  · cases h
    exact readable_of_expr hf
  · cases h

theorem isNamed_of_parse {text : String} {e : Expr} (h : parse text = .ok e) : e.IsNamed :=
  (readable_of_parse h).wellFormed.isNamed

end Expr

end AgentRules
