import AgentRules.Proofs.Expr.Readable
import AgentRules.Proofs.Path.Spelling

/-! # Reading what is spelled

`Reads` says of a reader that it takes a text as a value, whatever stands behind the text as long as
the next character does not go on with it. Names, numbers and quoted texts are read back, and with
them the ranges and steps that are spelled with them (`reads_step?`, `reads_steps`). -/

namespace AgentRules.Expr

open Outcome Text

/-- A text is read as a value wherever the character behind it is one to stop at. -/
def Reads {α : Type} (read : Cursor → Except Misread (α × Cursor)) (text : List Char) (value : α)
    (stop : Option Char → Prop) : Prop :=
  ∀ rest place, stop rest.head? → ∃ behind, read ⟨text ++ rest, place⟩ = .ok (value, ⟨rest, behind⟩)

def EndOf (p : Char → Bool) (next : Option Char) : Prop := ∀ c ∈ next, p c = false

theorem endOf_some {p : Char → Bool} {c : Char} (h : p c = false) : EndOf p (some c) := by
  rintro d ⟨⟩
  exact h

/-! ### Names, numbers and texts -/

theorem span_append {p : Char → Bool} {text rest : List Char} (place : Nat)
    (htext : ∀ c ∈ text, p c = true) (hrest : EndOf p rest.head?) :
    (Cursor.mk (text ++ rest) place).span p = (text, ⟨rest, place + byteLength text⟩) := by
  have hstop : rest.takeWhile p = [] ∧ rest.dropWhile p = rest := by
    cases rest with
    | nil => exact ⟨rfl, rfl⟩
    | cons c rest =>
      have hc := hrest c rfl
      exact ⟨List.takeWhile_cons_of_neg (by simp [hc]), List.dropWhile_cons_of_neg (by simp [hc])⟩
  have htake : (text ++ rest).takeWhile p = text := by
    rw [List.takeWhile_append_of_pos htext, hstop.1, List.append_nil]
  have hdrop : (text ++ rest).dropWhile p = rest := by
    rw [List.dropWhile_append_of_pos htext, hstop.2]
  rw [Cursor.span, htake, hdrop]

theorem reads_name {s : String} (h : IsName s) : Reads name s.toList s (EndOf isNameChar) := by
  intro rest place hstop
  obtain ⟨c, cs, hs⟩ := List.exists_cons_of_ne_nil h.1
  refine ⟨place + byteLength s.toList, ?_⟩
  rw [name, span_append place h.2 hstop, hs]
  dsimp only
  rw [← hs, String.ofList_toList]

theorem exists_digits (n : Nat) : ∃ c cs, digits n = c :: cs ∧ c.isDigit = true := by
  obtain ⟨c, cs, h⟩ := List.exists_cons_of_ne_nil (repr_ne_nil n)
  refine ⟨c, cs, h, isDigit_of_mem_repr (n := n) ?_⟩
  rw [h]
  exact List.mem_cons_self

theorem reads_number {n : Nat} (h : n ≤ maxNat64) :
    Reads number (digits n) n (EndOf Char.isDigit) := by
  intro rest place hstop
  have hdigits : ∀ c ∈ digits n, c.isDigit = true := fun c hc => isDigit_of_mem_repr hc
  have hvalue : Nat.ofDigitChars 10 (digits n) 0 = n := by
    rw [digits, Nat.toList_repr]
    exact Nat.ofDigitChars_toDigits (by decide) (by decide)
  have hread : readDigits maxNat64 .tooLarge 0 (digits n) = .ok n :=
    (readDigits_eq_ok_iff (Nat.zero_le _)).2 ⟨hdigits, hvalue, h⟩
  obtain ⟨c, cs, hn, -⟩ := exists_digits n
  refine ⟨place + byteLength (digits n), ?_⟩
  rw [number, span_append place hdigits hstop]
  rw [hn] at hread ⊢
  dsimp only
  rw [hread]

theorem expect_cons (c : Char) (rest : List Char) (place : Nat) :
    Cursor.expect c ⟨c :: rest, place⟩ = .ok ⟨rest, place + c.utf8Size⟩ := by
  simp [Cursor.expect, Cursor.peek, Cursor.advance]

theorem quotedRest_escaped (cs rest : List Char) (place : Nat) :
    ∃ behind, quotedRest (cs.flatMap escaped ++ '"' :: rest) place = .ok (cs, ⟨rest, behind⟩) := by
  induction cs generalizing place with
  | nil => exact ⟨place + 1, rfl⟩
  | cons c cs ih =>
    rw [List.flatMap_cons, List.append_assoc, escaped]
    by_cases hc : c = '"' ∨ c = '\\'
    · obtain ⟨behind, h⟩ := ih (place + 2)
      rw [if_pos hc]
      refine ⟨behind, ?_⟩
      rcases hc with rfl | rfl
      · exact map_eq_ok_iff.2 ⟨_, h, rfl⟩
      · exact map_eq_ok_iff.2 ⟨_, h, rfl⟩
    · obtain ⟨behind, h⟩ := ih (place + c.utf8Size)
      rw [not_or] at hc
      rw [if_neg (not_or.2 hc), List.singleton_append]
      refine ⟨behind, ?_⟩
      rw [quotedRest]
      · exact map_eq_ok_iff.2 ⟨_, h, rfl⟩
      · exact hc.1
      · exact fun ds hd => absurd hd hc.2
      · exact fun ds hd => absurd hd hc.2

theorem reads_quoted (s : String) : Reads quoted (quote s) s fun _ => True := by
  intro rest place _
  obtain ⟨behind, h⟩ := quotedRest_escaped s.toList rest (place + ('"' : Char).utf8Size)
  refine ⟨behind, ?_⟩
  rw [quote, List.cons_append, List.append_assoc, List.singleton_append, quoted, expect_cons]
  refine bind_eq_ok_iff.2 ⟨_, rfl, bind_eq_ok_iff.2 ⟨_, h, ?_⟩⟩
  exact congrArg (fun text => Except.ok (text, _)) String.ofList_toList

/-! ### Ranges -/

section Ranges
variable {α : Type} {read : Cursor → Except Misread (α × Cursor)}

theorem reads_alone : Reads (rangeEnd read) [] .alone (· ≠ some '-') := by
  intro rest place hstop
  exact ⟨place, if_pos hstop⟩

theorem reads_unbounded : Reads (rangeEnd read) ['-'] .unbounded (EndOf Char.isDigit) := by
  intro rest place hstop
  have hdigit : ¬ atDigit ⟨rest, place + 1⟩ = true := by
    rw [atDigit, Option.any_eq_true]
    rintro ⟨c, hc, hd⟩
    exact Bool.false_ne_true ((hstop c hc).symm.trans hd)
  exact ⟨place + 1, (if_neg (fun h => h rfl)).trans (if_neg hdigit)⟩

theorem reads_closed {n : Nat} {last : α} (h : Reads read (digits n) last (EndOf Char.isDigit)) :
    Reads (rangeEnd read) ('-' :: digits n) (.closed last) (EndOf Char.isDigit) := by
  intro rest place hstop
  obtain ⟨behind, h⟩ := h rest (place + 1) hstop
  obtain ⟨c, cs, hn, hc⟩ := exists_digits n
  have hdigit : atDigit ⟨digits n ++ rest, place + 1⟩ = true := by
    rw [hn]
    exact hc
  refine ⟨behind, (if_neg (fun h => h rfl)).trans ((if_pos hdigit).trans ?_)⟩
  exact map_eq_ok_iff.2 ⟨_, h, rfl⟩

end Ranges

theorem peek_digits_ne {n : Nat} {rest : List Char} {place : Nat} {d : Char}
    (hd : d.isDigit = false) : (Cursor.mk (digits n ++ rest) place).peek ≠ some d := by
  obtain ⟨c, cs, hn, hc⟩ := exists_digits n
  rw [hn]
  rintro ⟨⟩
  exact Bool.false_ne_true (hd.symm.trans hc)

theorem reads_indicesFrom {first : Nat} {stop : RangeEnd Nat} {text : List Char}
    (hfirst : first ≤ maxNat64) (hstop : Reads (rangeEnd number) text stop (· = some ')'))
    (hhead : EndOf Char.isDigit (text ++ [')']).head?) :
    Reads indexBody (digits first ++ text) (indicesFrom first stop) (· = some ')') := by
  intro rest place hrest
  obtain ⟨rest, rfl⟩ := List.head?_eq_some_iff.1 hrest
  have hhead' : EndOf Char.isDigit (text ++ ')' :: rest).head? := by
    cases text with
    | nil => exact hhead
    | cons c cs => exact hhead
  obtain ⟨between, h⟩ := reads_number hfirst _ place hhead'
  obtain ⟨behind, h'⟩ := hstop (')' :: rest) between rfl
  refine ⟨behind, ?_⟩
  rw [List.append_assoc, indexBody, if_neg (peek_digits_ne (by decide)),
    if_neg (peek_digits_ne (by decide))]
  exact bind_eq_ok_iff.2 ⟨_, h, bind_eq_ok_iff.2 ⟨_, h', rfl⟩⟩

theorem reads_indexBody {i : IndexSpec} (h : i.Fits) :
    Reads indexBody i.spelling i (· = some ')') := by
  have closes {next : Option Char} (h : next = some ')') : EndOf Char.isDigit next := by
    rw [h]
    exact endOf_some rfl
  cases i with
  | all =>
    intro rest place _
    exact ⟨place + 1, rfl⟩
  | upTo last =>
    intro rest place hrest
    obtain ⟨behind, hread⟩ := reads_number h rest (place + 1) (closes hrest)
    refine ⟨behind, ?_⟩
    exact map_eq_ok_iff.2 ⟨_, hread, rfl⟩
  | single n =>
    have halone : Reads (rangeEnd number) [] .alone (· = some ')') := fun rest place hrest =>
      reads_alone rest place (by rw [hrest]; decide)
    have hread := reads_indicesFrom h halone (closes rfl)
    rwa [List.append_nil] at hread
  | onward first =>
    have hopen : Reads (rangeEnd number) ['-'] .unbounded (· = some ')') := fun rest place hrest =>
      reads_unbounded rest place (closes hrest)
    exact reads_indicesFrom h hopen (endOf_some rfl)
  | between first last =>
    have hclosed : Reads (rangeEnd number) ('-' :: digits last) (.closed last) (· = some ')') :=
      fun rest place hrest => reads_closed (reads_number h.2) rest place (closes hrest)
    exact reads_indicesFrom h.1 hclosed (endOf_some rfl)

theorem reads_indexSpec {i : IndexSpec} (hasc : isAscending i = true) (h : i.Fits) :
    Reads indexSpec ('(' :: (i.spelling ++ [')'])) i fun _ => True := by
  intro rest place _
  obtain ⟨behind, hbody⟩ := reads_indexBody h (')' :: rest) (place + 1) rfl
  refine ⟨behind + 1, ?_⟩
  rw [List.cons_append, List.append_assoc, List.singleton_append, indexSpec, expect_cons]
  refine bind_eq_ok_iff.2 ⟨_, rfl, bind_eq_ok_iff.2 ⟨_, hbody, bind_eq_ok_iff.2 ⟨_, rfl, ?_⟩⟩⟩
  exact if_pos hasc

theorem reads_wordIndex {n : Nat} (h : n ≤ maxWordIndex) :
    Reads wordIndex (digits n) n (EndOf Char.isDigit) := by
  intro rest place hstop
  have hfits : n ≤ maxNat64 := Nat.le_trans h (by decide)
  obtain ⟨behind, hread⟩ := reads_number hfits rest place hstop
  exact ⟨behind, bind_eq_ok_iff.2 ⟨_, hread, if_pos h⟩⟩

theorem reads_lastFrom {first : Nat} {stop : RangeEnd Int} {text : List Char}
    (hfirst : first ≤ maxWordIndex)
    (hstop : Reads (rangeEnd wordIndex) ('-' :: text) stop (· = some ']')) :
    Reads wordBody (digits first ++ '-' :: text) (first, lastFrom first stop) (· = some ']') := by
  intro rest place hrest
  obtain ⟨between, h⟩ := reads_wordIndex hfirst ('-' :: text ++ rest) place (endOf_some rfl)
  obtain ⟨behind, h'⟩ := hstop rest between hrest
  refine ⟨behind, ?_⟩
  rw [List.append_assoc, wordBody, if_neg (peek_digits_ne (by decide))]
  exact bind_eq_ok_iff.2 ⟨_, h, bind_eq_ok_iff.2 ⟨_, h', rfl⟩⟩

theorem reads_wordBody {r : WordRange} (h : (PathStep.words r).WellFormed)
    (hfits : (PathStep.words r).Fits) :
    Reads wordBody (r.first.repr.toList ++ '-' :: r.lastForm) (r.first, r.last)
      (· = some ']') := by
  obtain ⟨first, last⟩ := r
  obtain ⟨hone, hlast⟩ : 1 ≤ first ∧ (last = WordRange.toEnd ∨ first ≤ last) := h
  obtain ⟨hf, hl⟩ : first ≤ maxWordIndex ∧ last ≤ maxWordIndex := hfits
  have closes {next : Option Char} (h : next = some ']') : EndOf Char.isDigit next := by
    rw [h]
    exact endOf_some rfl
  obtain ⟨m, rfl⟩ := Int.eq_ofNat_of_zero_le (a := first) (by omega)
  rw [WordRange.lastForm]
  by_cases hend : last = WordRange.toEnd
  · subst hend
    have hopen : Reads (rangeEnd wordIndex) ['-'] .unbounded (· = some ']') :=
      fun rest place hrest => reads_unbounded rest place (closes hrest)
    rw [if_pos rfl]
    exact reads_lastFrom (Int.ofNat_le.1 hf) hopen
  · have hle := hlast.resolve_left hend
    obtain ⟨n, rfl⟩ := Int.eq_ofNat_of_zero_le (a := last) (by omega)
    have hclosed : Reads (rangeEnd wordIndex) ('-' :: digits n) (.closed ↑n) (· = some ']') :=
      fun rest place hrest =>
        reads_closed (reads_wordIndex (Int.ofNat_le.1 hl)) rest place (closes hrest)
    rw [if_neg hend]
    exact reads_lastFrom (Int.ofNat_le.1 hf) hclosed

theorem reads_wordRange {r : WordRange} (h : (PathStep.words r).WellFormed)
    (hfits : (PathStep.words r).Fits) : Reads wordRange r.pathForm.toList r fun _ => True := by
  intro rest place _
  obtain ⟨behind, hbody⟩ := reads_wordBody h hfits (']' :: rest) (place + 1) rfl
  obtain ⟨hone, hlast⟩ : 1 ≤ r.first ∧ (r.last = WordRange.toEnd ∨ r.first ≤ r.last) := h
  have hmake : WordRange.make r.first r.last = .ok r := by
    rw [WordRange.make, if_neg (by omega), if_neg]
    rintro ⟨hopen, hless⟩
    exact absurd (hlast.resolve_left hopen) (by omega)
  have htext : r.pathForm.toList ++ rest =
      '[' :: (r.first.repr.toList ++ '-' :: r.lastForm ++ ']' :: rest) := by
    simp [WordRange.toList_pathForm]
  refine ⟨behind + 1, ?_⟩
  rw [htext, wordRange, expect_cons]
  refine bind_eq_ok_iff.2 ⟨_, rfl, bind_eq_ok_iff.2 ⟨_, hbody, bind_eq_ok_iff.2 ⟨_, rfl, ?_⟩⟩⟩
  rw [hmake]
  rfl

/-! ### Steps -/

theorem repeats_replicate (mark : Char) {n left : Nat} (h : n ≤ left) {rest : List Char}
    (hstop : n < left → rest.head? ≠ some mark) (place : Nat) :
    ∃ behind, repeats mark left ⟨List.replicate n mark ++ rest, place⟩ = (n, ⟨rest, behind⟩) := by
  induction n generalizing left place with
  | zero =>
    refine ⟨place, ?_⟩
    cases left with
    | zero => rfl
    | succ left => exact if_neg (hstop (Nat.succ_pos left))
  | succ n ih =>
    cases left with
    | zero => exact absurd h (Nat.not_succ_le_zero n)
    | succ left =>
      obtain ⟨behind, h⟩ := ih (Nat.le_of_succ_le_succ h)
        (fun hlt => hstop (Nat.succ_lt_succ hlt)) (place + mark.utf8Size)
      refine ⟨behind, (if_pos rfl).trans ?_⟩
      rw [show (Cursor.mk (List.replicate (n + 1) mark ++ rest) place).advance =
        ⟨List.replicate n mark ++ rest, place + mark.utf8Size⟩ from rfl, h]

theorem reads_comparison (step : String → PathStep) (text : String) :
    Reads (comparison step) (quote text) (step text) fun _ => True := by
  intro rest place _
  obtain ⟨behind, h⟩ := reads_quoted text rest place True.intro
  exact ⟨behind, map_eq_ok_iff.2 ⟨_, h, rfl⟩⟩

theorem reads_setStep (set : String) :
    Reads setStep (quote set ++ ['}']) (.inSet set) fun _ => True := by
  intro rest place _
  obtain ⟨behind, h⟩ := reads_quoted set ('}' :: rest) place True.intro
  refine ⟨behind + 1, ?_⟩
  rw [List.append_assoc]
  exact bind_eq_ok_iff.2 ⟨_, h, bind_eq_ok_iff.2 ⟨_, expect_cons _ _ _, rfl⟩⟩

theorem reads_optionalDefault (default : Option String) :
    Reads optionalDefault (spellLast default) default (· = some '}') := by
  intro rest place hrest
  cases default with
  | none =>
    have hclosed : (Cursor.mk (spellLast none ++ rest) place).peek = some '}' := hrest
    refine ⟨place, if_neg ?_⟩
    rw [hclosed]
    decide
  | some text =>
    obtain ⟨behind, h⟩ := reads_quoted text rest (place + 1) True.intro
    exact ⟨behind, (if_pos rfl).trans (map_eq_ok_iff.2 ⟨_, h, rfl⟩)⟩

theorem reads_lookupStep (table : String) (default : Option String) :
    Reads lookupStep (quote table ++ (spellLast default ++ ['}'])) (.lookup table default)
      fun _ => True := by
  intro rest place _
  obtain ⟨between, h⟩ :=
    reads_quoted table (spellLast default ++ '}' :: rest) place True.intro
  obtain ⟨behind, h'⟩ := reads_optionalDefault default ('}' :: rest) between rfl
  refine ⟨behind + 1, ?_⟩
  rw [List.append_assoc, List.append_assoc, List.singleton_append]
  exact bind_eq_ok_iff.2 ⟨_, h, bind_eq_ok_iff.2 ⟨_, h',
    bind_eq_ok_iff.2 ⟨_, expect_cons _ _ _, rfl⟩⟩⟩

theorem reads_downStep {indices : IndexSpec} {name : String}
    (h : (PathStep.down indices name).WellFormed) (hfits : indices.Fits) :
    Reads downStep ('(' :: (indices.spelling ++ ')' :: name.toList)) (.down indices name)
      (EndOf isNameChar) := by
  intro rest place hstop
  obtain ⟨between, hindices⟩ := reads_indexSpec h.1 hfits (name.toList ++ rest) place True.intro
  obtain ⟨behind, hname⟩ := reads_name h.2 rest between hstop
  refine ⟨behind, ?_⟩
  rw [List.cons_append, List.append_assoc, List.singleton_append] at hindices
  rw [List.cons_append, List.append_assoc, List.cons_append]
  exact bind_eq_ok_iff.2 ⟨_, hindices, bind_eq_ok_iff.2 ⟨_, hname, rfl⟩⟩

theorem step?_up {rest : List Char} (place : Nat) (h : rest.head? ≠ some '=') :
    step? ⟨'^' :: rest, place⟩ = .ok (some (.up, ⟨rest, place + 1⟩)) := by
  unfold step?
  split
  case h_7 hc => exact absurd (congrArg List.head? (List.cons.inj hc).2) h
  case h_8 => rfl
  all_goals grind

theorem step?_backToFull {rest : List Char} (place : Nat) (h : rest.head? ≠ some '{') :
    step? ⟨'@' :: rest, place⟩ = .ok (some (.backToFull, ⟨rest, place + 1⟩)) := by
  unfold step?
  split
  case h_11 hc => exact absurd (congrArg List.head? (List.cons.inj hc).2) h
  case h_12 => rfl
  all_goals grind

/-- **A step that ends before what stands behind it is read back.** -/
theorem step?_spelling {s : PathStep} (h : s.WellFormed) (hfits : s.Fits) {rest : List Char}
    (hend : s.EndsBefore rest.head?) (place : Nat) :
    ∃ behind, step? ⟨s.spelling ++ rest, place⟩ = .ok (some (s, ⟨rest, behind⟩)) := by
  have marked {read : Cursor → Except Misread (PathStep × Cursor)} {text : List Char}
      {stop : Option Char → Prop} {c : Cursor} {behindMarks : Nat} (hread : Reads read text s stop)
      (hstop : stop rest.head?) (hstep : step? c = (read ⟨text ++ rest, behindMarks⟩).map some) :
      ∃ behind, step? c = .ok (some (s, ⟨rest, behind⟩)) := by
    obtain ⟨behind, hread⟩ := hread rest behindMarks hstop
    exact ⟨behind, hstep.trans (map_eq_ok_iff.2 ⟨_, hread, rfl⟩)⟩
  cases s with
  | down indices name => exact marked (reads_downStep h hfits) hend rfl
  | up => exact ⟨place + 1, step?_up place hend⟩
  | next count =>
    obtain ⟨n, rfl⟩ := Nat.exists_eq_add_of_le' h.1
    obtain ⟨behind, hread⟩ := repeats_replicate '>' h.2 hend place
    refine ⟨behind, ?_⟩
    exact congrArg (fun r : Nat × Cursor => Except.ok (some (PathStep.next r.1, r.2))) hread
  | prev count =>
    obtain ⟨n, rfl⟩ := Nat.exists_eq_add_of_le' h.1
    obtain ⟨behind, hread⟩ := repeats_replicate '<' h.2 hend place
    refine ⟨behind, ?_⟩
    exact congrArg (fun r : Nat × Cursor => Except.ok (some (PathStep.prev r.1, r.2))) hread
  | backToFull => exact ⟨place + 1, step?_backToFull place hend⟩
  | words range =>
    obtain ⟨behind, hread⟩ := reads_wordRange h hfits rest place True.intro
    have hstep : step? ⟨range.pathForm.toList ++ rest, place⟩ =
        (wordRange ⟨range.pathForm.toList ++ rest, place⟩).map
          fun r => some (.words r.1, r.2) := by
      rw [WordRange.toList_pathForm]
      rfl
    exact ⟨behind, hstep.trans (map_eq_ok_iff.2 ⟨_, hread, rfl⟩)⟩
  | equals text => exact marked (reads_comparison .equals text) True.intro rfl
  | differs text => exact marked (reads_comparison .differs text) True.intro rfl
  | startsWith text => exact marked (reads_comparison .startsWith text) True.intro rfl
  | endsWith text => exact marked (reads_comparison .endsWith text) True.intro rfl
  | contains text => exact marked (reads_comparison .contains text) True.intro rfl
  | inSet set => exact marked (reads_setStep set) True.intro rfl
  | lookup table default => exact marked (reads_lookupStep table default) True.intro rfl

/-! ### Lists of steps -/

theorem steps_none {c : Cursor} (h : step? c = .ok none) : steps c = .ok ([], c) := by
  rw [steps]
  split <;> simp_all

theorem steps_some {c d : Cursor} {s : PathStep} (h : step? c = .ok (some (s, d))) :
    steps c = (steps d).map fun (ss, e) => (s :: ss, e) := by
  rw [steps]
  split <;> simp_all

/-- What ends a list of steps: the end of the text and the marks behind an argument. -/
def EndsSteps (next : Option Char) : Prop := next = none ∨ next = some ']' ∨ next = some ';'

/-- What ends a list of steps goes on with none of them. -/
theorem endsBefore_of_endsSteps {next : Option Char} (h : EndsSteps next) (s : PathStep) :
    s.EndsBefore next := by
  rcases h with rfl | rfl | rfl
  · exact endsBefore_none
  all_goals
    cases s <;> simp [PathStep.EndsBefore, isNameChar]

theorem step?_endsSteps {rest : List Char} (h : EndsSteps rest.head?) (place : Nat) :
    step? ⟨rest, place⟩ = .ok none := by
  cases rest with
  | nil => rfl
  | cons c rest =>
    rcases h with h | h | h
    all_goals
      cases h
      try rfl

theorem head?_spelling {s : PathStep} (h : s.WellFormed) : s.spelling.head? = some s.mark := by
  cases s with
  | next count | prev count =>
    obtain ⟨n, rfl⟩ := Nat.exists_eq_add_of_le' h.1
    rfl
  | words range => rw [PathStep.spelling, WordRange.toList_pathForm]; rfl
  | _ => rfl

/-- **Readable steps are read back.** -/
theorem reads_steps {ss : List PathStep} (h : ReadableSteps ss) :
    Reads steps (ss.flatMap (·.spelling)) ss EndsSteps := by
  intro rest place hrest
  induction ss generalizing place with
  | nil => exact ⟨place, steps_none (step?_endsSteps hrest place)⟩
  | cons s ss ih =>
    obtain ⟨hwf, hfits, hend, hss⟩ := h
    have hend : s.EndsBefore (ss.flatMap (·.spelling) ++ rest).head? := by
      cases ss with
      | nil => exact endsBefore_of_endsSteps hrest s
      | cons t ss =>
        rw [List.flatMap_cons, List.append_assoc, List.head?_append, head?_spelling hss.1]
        exact hend
    obtain ⟨between, hstep⟩ := step?_spelling hwf hfits hend place
    obtain ⟨behind, hread⟩ := ih hss between
    refine ⟨behind, ?_⟩
    rw [List.flatMap_cons, List.append_assoc, steps_some hstep]
    exact map_eq_ok_iff.2 ⟨_, hread, rfl⟩

end AgentRules.Expr
