import AgentRules.Proofs.Text.Ascii
import AgentRules.Proofs.Text.Numeral
import AgentRules.Proofs.Text.Strip
import AgentRules.Rules.ExtractLine

/-! # What extract lines are read as

An extract line is read as what it says just if it is written as that: the field, a numeral for the
confidence and the expression, each between blanks, with colons between them (`parse_eq_ok_iff`). The
first two colons are those, since neither a field nor a numeral has one; the expression may have as
many as it likes. So what is read can be written down again and is read back (`parse_roundtrip`). -/

namespace AgentRules.ExtractLine

open Text

/-! ### How lines are written -/

/-- A field that can be named, a number of 64 bits, and an expression that is something and has no
blanks at its ends. -/
structure Valid (x : ExtractLine) : Prop where
  field : isFieldName x.field = true
  confidence : IsInt64 x.confidence
  expression : x.expression ≠ ""
  no_blank : Bare isBlank x.expression.toList

/-- The line says this, with blanks and a numeral of some form. -/
def Written (x : ExtractLine) (line : String) : Prop :=
  ∃ field confidence expression numeral,
    line.toList = field ++ ':' :: (confidence ++ ':' :: expression) ∧
    Padded x.field.toList field ∧ Padded numeral confidence ∧ Spells numeral x.confidence ∧
    Padded x.expression.toList expression

/-- The line as one would write it. -/
def print (x : ExtractLine) : String :=
  x.field ++ " : " ++ toString x.confidence ++ " : " ++ x.expression

/-! ### Cutting at colons -/

theorem not_mem_of_padded {text cs : List Char} (hcolon : ':' ∉ text) (h : Padded text cs) :
    ':' ∉ cs := by
  obtain ⟨front, back, rfl, hfront, hback⟩ := h
  intro hmem
  rcases List.mem_append.1 hmem with hmem | hmem
  · cases hfront _ hmem
  · rcases List.mem_append.1 hmem with hmem | hmem
    · exact hcolon hmem
    · cases hback _ hmem

/-- **The cut is at the first colon.** -/
theorem cutAtColon_eq_some_iff {cs before behind : List Char} :
    cutAtColon cs = some (before, behind) ↔ ':' ∉ before ∧ cs = before ++ ':' :: behind := by
  constructor
  · intro h
    unfold cutAtColon at h
    split at h
    · cases h
    · next c rest hrest =>
      cases h
      have hstop : c ∈ (cs.dropWhile (· ≠ ':')).head? := by
        rw [hrest]
        rfl
      obtain rfl : c = ':' := by simpa using eq_false_of_mem_head?_dropWhile c hstop
      refine ⟨fun hmem => ?_, ?_⟩
      · simpa using List.mem_takeWhile_imp hmem
      · rw [← hrest, List.takeWhile_append_dropWhile]
  · rintro ⟨hbefore, rfl⟩
    have hpos : ∀ c ∈ before, decide (c ≠ ':') = true := fun c hc => by
      rw [decide_eq_true_eq]
      rintro rfl
      exact hbefore hc
    rw [cutAtColon, List.dropWhile_append_of_pos hpos, List.takeWhile_append_of_pos hpos]
    simp

/-- **Only the first two colons divide a line.** -/
theorem parts_eq_some_iff {line field confidence expression : String} :
    parts line = some (field, confidence, expression) ↔
      ':' ∉ field.toList ∧ ':' ∉ confidence.toList ∧
        line.toList = field.toList ++ ':' :: (confidence.toList ++ ':' :: expression.toList) := by
  constructor
  · intro h
    obtain ⟨⟨before, rest⟩, hfirst, h⟩ := Option.bind_eq_some_iff.1 h
    obtain ⟨⟨middle, behind⟩, hsecond, h⟩ := Option.bind_eq_some_iff.1 h
    cases h
    obtain ⟨hbefore, hline⟩ := cutAtColon_eq_some_iff.1 hfirst
    obtain ⟨hmiddle, rfl⟩ := cutAtColon_eq_some_iff.1 hsecond
    simp only [String.toList_ofList]
    exact ⟨hbefore, hmiddle, hline⟩
  · rintro ⟨hfield, hconfidence, hline⟩
    have hfirst := cutAtColon_eq_some_iff.2 ⟨hfield, hline⟩
    have hsecond : cutAtColon (confidence.toList ++ ':' :: expression.toList) =
        some (confidence.toList, expression.toList) := cutAtColon_eq_some_iff.2 ⟨hconfidence, rfl⟩
    simp [parts, hfirst, hsecond]

/-! ### The parts -/

theorem facts_of_isAlphanum {c : Char} (h : c.isAlphanum = true) : isBlank c = false ∧ c ≠ ':' := by
  obtain ⟨hblank, hmarks⟩ := isAlphanum_facts h
  refine ⟨hblank, ?_⟩
  rintro rfl
  exact hmarks (by decide)

theorem fieldName_facts {name : String} (h : isFieldName name = true) :
    ∀ c ∈ name.toList, isBlank c = false ∧ c ≠ ':' := by
  intro c hc
  have hname := List.all_eq_true.1 (Bool.and_eq_true_iff.1 h).2 c hc
  rcases Bool.or_eq_true_iff.1 hname with hname | hname
  · exact facts_of_isAlphanum hname
  · rw [of_decide_eq_true hname]
    decide

theorem spells_facts {cs : List Char} {n : Int} (h : Spells cs n) :
    ∀ c ∈ cs, isBlank c = false ∧ c ≠ ':' := by
  obtain ⟨ds, -, hdigits, hsign⟩ := h
  have hdigit : ∀ c ∈ ds, isBlank c = false ∧ c ≠ ':' := fun c hc =>
    facts_of_isAlphanum (by simp [Char.isAlphanum, hdigits c hc])
  rcases hsign with ⟨rfl | rfl, -⟩ | ⟨rfl, -⟩
  · exact hdigit
  · exact List.forall_mem_cons.2 ⟨by decide, hdigit⟩
  · exact List.forall_mem_cons.2 ⟨by decide, hdigit⟩

/-! ### Reading a line -/

variable {x : ExtractLine} {line : String}

theorem parse_eq_of_spells {name : String} {field confidence expression numeral : List Char}
    {n : Int} (hline : line.toList = field ++ ':' :: (confidence ++ ':' :: expression))
    (hname : isFieldName name = true) (hfield : Padded name.toList field)
    (hnumeral : Padded numeral confidence) (hspells : Spells numeral n) : parse line =
      if IsInt64 n then
        if trim (String.ofList expression) = "" then .error (.emptyExpression line)
        else .ok ⟨name, n, trim (String.ofList expression)⟩
      else .error (.confidence line (if n < 0 then .tooSmall else .tooLarge)) := by
  have hnames := fieldName_facts hname
  have hdigits := spells_facts hspells
  have hcolon : ':' ∉ field := not_mem_of_padded (fun h => (hnames _ h).2 rfl) hfield
  have hcolon' : ':' ∉ confidence := not_mem_of_padded (fun h => (hdigits _ h).2 rfl) hnumeral
  have hparts : parts line =
      some (String.ofList field, String.ofList confidence, String.ofList expression) := by
    refine parts_eq_some_iff.2 ?_
    simp only [String.toList_ofList]
    exact ⟨hcolon, hcolon', hline⟩
  have htrim : trim (String.ofList field) = name := by
    rw [trim_eq_iff, String.toList_ofList]
    exact ⟨bare_of_forall fun c hc => (hnames c hc).1, hfield⟩
  have htrim' : trim (String.ofList confidence) = String.ofList numeral := by
    rw [trim_eq_iff, String.toList_ofList, String.toList_ofList]
    exact ⟨bare_of_forall fun c hc => (hdigits c hc).1, hnumeral⟩
  have hread := readInt64_of_spells (s := String.ofList numeral) (by rwa [String.toList_ofList])
  rw [parse, hparts]
  dsimp only
  rw [htrim, htrim', if_neg (by simp [hname]), hread]
  by_cases hrange : IsInt64 n
  · rw [if_pos hrange, if_pos hrange]
  · rw [if_neg hrange, if_neg hrange]

/-- **A line that says something valid is read as that.** -/
theorem parse_of_written (hx : x.Valid) (h : x.Written line) : parse line = .ok x := by
  obtain ⟨field, confidence, expression, numeral, hline, hfield, hnumeral, hspells, hexpression⟩ := h
  have htrim : trim (String.ofList expression) = x.expression := by
    rw [trim_eq_iff, String.toList_ofList]
    exact ⟨hx.no_blank, hexpression⟩
  rw [parse_eq_of_spells hline hx.field hfield hnumeral hspells, if_pos hx.confidence, htrim,
    if_neg hx.expression]

/-- **What is read is valid, and the line says it.** -/
theorem written_of_parse (h : parse line = .ok x) : x.Valid ∧ x.Written line := by
  unfold parse at h
  split at h
  · cases h
  · next field confidence expression hparts =>
    dsimp only at h
    split at h
    · cases h
    · next hfield =>
      split at h
      · cases h
      · next n hn =>
        split at h
        · cases h
        · next hne =>
          cases h
          obtain ⟨-, -, hline⟩ := parts_eq_some_iff.1 hparts
          obtain ⟨hspells, hrange⟩ := readInt64_eq_ok_iff.1 hn
          exact ⟨⟨by simpa using hfield, hrange, hne, bare_trim expression⟩,
            ⟨_, _, _, _, hline, padded_trim field, padded_trim confidence, hspells,
              padded_trim expression⟩⟩

/-- **A line is read as what it says.** -/
theorem parse_eq_ok_iff : parse line = .ok x ↔ x.Valid ∧ x.Written line :=
  ⟨written_of_parse, fun h => parse_of_written h.1 h.2⟩

/-! ### Writing a line -/

theorem written_of_padded {field confidence expression : List Char}
    (hfield : Padded x.field.toList field)
    (hconfidence : Padded (toString x.confidence).toList confidence)
    (hexpression : Padded x.expression.toList expression) :
    x.Written (String.ofList (field ++ ':' :: (confidence ++ ':' :: expression))) :=
  ⟨field, confidence, expression, _, String.toList_ofList, hfield, hconfidence,
    spells_repr x.confidence, hexpression⟩

theorem written_print (x : ExtractLine) : x.Written x.print := by
  have hblank : ∀ c ∈ [' '], isBlank c = true := List.all_eq_true.1 rfl
  refine ⟨x.field.toList ++ [' '], ' ' :: ((toString x.confidence).toList ++ [' ']),
    ' ' :: x.expression.toList, _, by simp [print], ?_, ?_, spells_repr x.confidence, ?_⟩
  · exact ⟨[], [' '], rfl, by simp, hblank⟩
  · exact ⟨[' '], [' '], rfl, hblank, hblank⟩
  · exact ⟨[' '], [], by simp, hblank, by simp⟩

/-- A fault that a line can have, which quotes the line. -/
def IsFault (line : String) : Fault → Prop
  | .extractShape l | .fieldName _ l | .confidence l _ | .emptyExpression l => l = line
  | _ => False

theorem isFault_of_parse {fault : Fault} (h : parse line = .error fault) : IsFault line fault := by
  unfold parse at h
  split at h
  · cases h
    rfl
  · dsimp only at h
    split at h
    · cases h
      rfl
    · split at h
      · cases h
        rfl
      · split at h
        · cases h
          rfl
        · cases h

/-- **Extract lines round-trip.** -/
theorem parse_roundtrip :
    (∀ x : ExtractLine, x.Valid → ∀ field confidence expression,
      Padded x.field.toList field → Padded (toString x.confidence).toList confidence →
      Padded x.expression.toList expression →
      parse (String.ofList (field ++ ':' :: (confidence ++ ':' :: expression))) = .ok x) ∧
    (∀ line x, parse line = .ok x ↔ x.Valid ∧ x.Written line) ∧
    (∀ line x, parse line = .ok x → parse x.print = .ok x) ∧
    (∀ line, (∀ x : ExtractLine, x.Valid → ¬ x.Written line) →
      ∃ fault, parse line = .error fault ∧ IsFault line fault) ∧
    (∀ name n, isFieldName name = true → ¬ IsInt64 n → ∀ field confidence expression,
      Padded name.toList field → Padded (toString n).toList confidence →
      ∀ line, line = String.ofList (field ++ ':' :: (confidence ++ ':' :: expression)) →
        parse line = .error (.confidence line (if n < 0 then .tooSmall else .tooLarge))) := by
  refine ⟨fun x hx field confidence expression hfield hconfidence hexpression => ?_,
    fun line x => parse_eq_ok_iff, fun line x h => ?_, fun line hnone => ?_, ?_⟩
  · exact parse_of_written hx (written_of_padded hfield hconfidence hexpression)
  · exact parse_of_written (written_of_parse h).1 (written_print x)
  · cases h : parse line with
    | ok x =>
      obtain ⟨hx, hwritten⟩ := written_of_parse h
      exact absurd hwritten (hnone x hx)
    | error fault => exact ⟨fault, rfl, isFault_of_parse h⟩
  · rintro name n hname hrange field confidence expression hfield hconfidence line rfl
    rw [parse_eq_of_spells String.toList_ofList hname hfield hconfidence (spells_repr n),
      if_neg hrange]

/-- The line of an expression with a colon, and one with a number that is too large. -/
theorem parse_roundtrip_colon :
    parse "X:\t-7 : a:b" = .ok ⟨"X", -7, "a:b"⟩ ∧
    parse (print ⟨"X", -7, "a:b"⟩) = .ok ⟨"X", -7, "a:b"⟩ ∧
    parse "X:9223372036854775808:a" =
      .error (.confidence "X:9223372036854775808:a" .tooLarge) := by
  obtain ⟨hread, -, hprint, -, hrange⟩ := parse_roundtrip
  have hbare : Bare isBlank "a:b".toList := by simp [Bare, isBlank]
  have hvalid : Valid ⟨"X", -7, "a:b"⟩ := ⟨by decide, by decide, by decide, hbare⟩
  have hblank : ∀ c ∈ [' '], isBlank c = true := List.all_eq_true.1 rfl
  have htab : ∀ c ∈ ['\t'], isBlank c = true := List.all_eq_true.1 rfl
  have hline := hread ⟨"X", -7, "a:b"⟩ hvalid ['X'] ['\t', '-', '7', ' '] [' ', 'a', ':', 'b']
    (padded_self _) ⟨['\t'], [' '], rfl, htab, hblank⟩ ⟨[' '], [], rfl, hblank, by simp⟩
  refine ⟨hline, hprint _ _ hline, ?_⟩
  exact hrange "X" 9223372036854775808 (by decide) (by decide) ['X'] _ ['a'] (padded_self _)
    (padded_self _) _ rfl

end AgentRules.ExtractLine
