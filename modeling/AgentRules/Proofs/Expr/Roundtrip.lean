import AgentRules.Proofs.Expr.Reading

/-! # Spelling and reading back

A readable expression is read back from its spelling (`reads_expr`), and what has been read is
readable. So the canonical text of an expression that has been read is another text of that
expression (`parse_spell`), and different expressions have different ones (`spell_inj`). -/

namespace AgentRules.Expr

open Outcome Text

/-! ### What separates arguments -/

def NoBlank (next : Option Char) : Prop := EndOf isSpace next

theorem skipBlanks_mk {rest : List Char} (h : NoBlank rest.head?) (place : Nat) :
    (Cursor.mk rest place).skipBlanks = ⟨rest, place⟩ :=
  skipBlanks_eq_self h

theorem separator_cons {rest : List Char} (h : NoBlank rest.head?) (place : Nat) :
    separator ⟨';' :: rest, place⟩ = .ok ⟨rest, place + 1⟩ := by
  have hsemicolon : NoBlank (';' :: rest).head? := endOf_some rfl
  rw [separator, skipBlanks_mk hsemicolon, expect_cons]
  exact congrArg Except.ok (skipBlanks_mk h (place + 1))

theorem reads_separated {read : Cursor → Except Misread (String × Cursor)} {text : String}
    (hread : Reads read (quote text) text fun _ => True) :
    Reads (separated read) (spellFront (some text)) (some text) NoBlank := by
  intro rest place hrest
  obtain ⟨behind, h⟩ := hread (';' :: rest) place True.intro
  refine ⟨behind + 1, ?_⟩
  rw [spellFront, List.append_assoc]
  exact bind_eq_ok_iff.2 ⟨_, h, bind_eq_ok_iff.2 ⟨_, separator_cons hrest behind, rfl⟩⟩

theorem reads_tableName (table : String) : Reads tableName (quote table) table fun _ => True := by
  intro rest place hrest
  obtain ⟨behind, h⟩ := reads_quoted table rest place hrest
  exact ⟨behind, (if_pos rfl).trans h⟩

theorem reads_optionalLast (last : Option String) :
    Reads optionalLast (spellLast last) last (· = some ']') := by
  intro rest place hrest
  have hclose : NoBlank rest.head? := by
    rw [hrest]
    exact endOf_some rfl
  cases last with
  | none =>
    refine ⟨place, ?_⟩
    rw [spellLast, List.nil_append, optionalLast, skipBlanks_mk hclose, if_neg]
    rw [show (Cursor.mk rest place).peek = some ']' from hrest]
    decide
  | some text =>
    obtain ⟨behind, h⟩ := reads_quoted text rest (place + 1) True.intro
    exact ⟨behind, map_eq_ok_iff.2 ⟨_, h, rfl⟩⟩

/-! ### Functions -/

theorem ofName?_name (f : Function) : Function.ofName? f.name = some f := by
  cases f <;> rfl

theorem isName_name (f : Function) : IsName f.name := by
  have hne : f.name.toList ≠ [] := by cases f <;> decide
  have hall : f.name.toList.all isNameChar = true := by cases f <;> decide
  exact ⟨hne, List.all_eq_true.1 hall⟩

theorem reads_front (w : Wrapper) :
    Reads (frontArgument w.function) (spellFront w.front) w.front fun next =>
      NoBlank next ∧ (w.function = .concat → w.front = none → next ≠ some '"') := by
  intro rest place ⟨hblank, hquote⟩
  cases w with
  | isNull | cleanVersion | normalizeBrand => exact ⟨place, rfl⟩
  | concat before after =>
    cases before with
    | none => exact ⟨place, if_neg (hquote rfl rfl)⟩
    | some text =>
      obtain ⟨behind, h⟩ := reads_separated (reads_quoted text) rest place hblank
      exact ⟨behind, h⟩
  | lookup table default => exact reads_separated (reads_tableName table) rest place hblank
  | lookupByHead table default => exact reads_separated (reads_tableName table) rest place hblank
  | inTableByHead table => exact reads_separated (reads_tableName table) rest place hblank

theorem reads_last {w : Wrapper} (h : w.WellFormed) :
    Reads (lastArgument w.function w.front) (spellLast w.last) w.last (· = some ']') := by
  cases w with
  | isNull | cleanVersion | normalizeBrand | inTableByHead table =>
    exact fun rest place _ => ⟨place, rfl⟩
  | lookup table default | lookupByHead table default => exact reads_optionalLast default
  | concat before after =>
    cases before with
    | some text => exact reads_optionalLast after
    | none =>
      obtain ⟨text, rfl⟩ := Option.isSome_iff_exists.1 (h.resolve_left (by decide))
      intro rest place _
      have hquote : NoBlank (quote text ++ rest).head? := endOf_some rfl
      obtain ⟨behind, hread⟩ := reads_quoted text rest (place + 1) True.intro
      exact ⟨behind, bind_eq_ok_iff.2 ⟨_, separator_cons hquote place,
        bind_eq_ok_iff.2 ⟨_, hread, rfl⟩⟩⟩

theorem wrapper_function (w : Wrapper) : w.function.wrapper w.front w.last = w := by
  cases w <;> rfl

theorem reads_closing {w : Wrapper} (h : w.WellFormed) :
    Reads (closing w.function w.front) (spellLast w.last ++ [']']) w fun _ => True := by
  intro rest place _
  have hclose : NoBlank (']' :: rest).head? := endOf_some rfl
  obtain ⟨behind, hlast⟩ := reads_last h (']' :: rest) place rfl
  refine ⟨behind + 1, ?_⟩
  rw [List.append_assoc, List.singleton_append]
  refine bind_eq_ok_iff.2 ⟨_, hlast, bind_eq_ok_iff.2 ⟨⟨rest, behind + 1⟩, ?_, ?_⟩⟩
  · rw [skipBlanks_mk hclose]
    exact expect_cons _ _ _
  · rw [wrapper_function]
    rfl

/-! ### What opens an expression -/

theorem exists_spelling {e : Expr} (h : e.Readable) :
    ∃ c cs, e.spelling = c :: cs ∧ (c = '"' ∧ ¬ e.IsDynamic ∨ isNameChar c = true) := by
  have named {s : String} {rest : List Char} (hs : IsName s) :
      ∃ c cs, s.toList ++ rest = c :: cs ∧ isNameChar c = true := by
    obtain ⟨c, cs, hc⟩ := List.exists_cons_of_ne_nil hs.1
    refine ⟨c, cs ++ rest, by rw [hc, List.cons_append], hs.2 c ?_⟩
    rw [hc]
    exact List.mem_cons_self
  cases e with
  | fixed text => exact ⟨'"', _, rfl, .inl ⟨rfl, id⟩⟩
  | path root steps =>
    obtain ⟨c, cs, hspelling, hc⟩ := named h.1
    exact ⟨c, cs, hspelling, .inr hc⟩
  | wrapped w inner steps =>
    obtain ⟨c, cs, hspelling, hc⟩ := named (isName_name w.function)
    exact ⟨c, cs, hspelling, .inr hc⟩

theorem noBlank_of_isNameChar {c : Char} (h : isNameChar c = true) : NoBlank (some c) := by
  refine endOf_some ?_
  by_contra hd
  have hspace : c = ' ' ∨ c = '\t' := by
    rw [Bool.not_eq_false, isSpace, Bool.or_eq_true, decide_eq_true_eq, decide_eq_true_eq] at hd
    exact hd
  rcases hspace with rfl | rfl
  · exact absurd h (by decide)
  · exact absurd h (by decide)

theorem ne_quote_of_isNameChar {c : Char} (h : isNameChar c = true) : c ≠ '"' := by
  rintro rfl
  exact absurd h (by decide)

/-- A name is read as a name: it starts with neither a blank nor the mark of a text. -/
theorem opening_name {word : String} (h : IsName word) {rest : List Char}
    (hend : EndOf isNameChar rest.head?) (place : Nat) :
    ∃ behind, opening ⟨word.toList ++ rest, place⟩ =
      match Function.ofName? word, rest.head? with
      | some f, some '[' => do
        let (front, c) ← frontArgument f (Cursor.mk rest behind).advance.skipBlanks
        return (.function f front, c)
      | _, _ => .ok (.root word, ⟨rest, behind⟩) := by
  obtain ⟨behind, hname⟩ := reads_name h rest place hend
  obtain ⟨c, cs, hc⟩ := List.exists_cons_of_ne_nil h.1
  have hnamed : isNameChar c = true := h.2 c (by rw [hc]; exact List.mem_cons_self)
  have hhead : (word.toList ++ rest).head? = some c := by rw [hc]; rfl
  have hblank : NoBlank (word.toList ++ rest).head? := by
    rw [hhead]
    exact noBlank_of_isNameChar hnamed
  have hquote : (Cursor.mk (word.toList ++ rest) place).peek ≠ some '"' := fun hp =>
    ne_quote_of_isNameChar hnamed (Option.some.inj (hhead.symm.trans hp))
  refine ⟨behind, ?_⟩
  rw [opening]
  dsimp only
  rw [skipBlanks_mk hblank, if_neg hquote, hname]
  rfl

theorem opening_root {root : String} (hroot : IsName root) {rest : List Char}
    (hend : EndOf isNameChar rest.head?)
    (hfunction : (Function.ofName? root).isSome = true → rest.head? ≠ some '[') (place : Nat) :
    ∃ behind, opening ⟨root.toList ++ rest, place⟩ = .ok (.root root, ⟨rest, behind⟩) := by
  obtain ⟨behind, hopen⟩ := opening_name hroot hend place
  refine ⟨behind, hopen.trans ?_⟩
  split
  · next f hf hbracket => exact absurd hbracket (hfunction (by rw [hf]; rfl))
  · rfl

theorem opening_function {w : Wrapper} {rest : List Char} (hblank : NoBlank rest.head?)
    (hquote : w.function = .concat → w.front = none → rest.head? ≠ some '"') (place : Nat) :
    ∃ behind, opening ⟨w.function.name.toList ++ '[' :: (spellFront w.front ++ rest), place⟩ =
      .ok (.function w.function w.front, ⟨rest, behind⟩) := by
  have hbracket : EndOf isNameChar ('[' :: (spellFront w.front ++ rest)).head? := endOf_some rfl
  obtain ⟨between, hopen⟩ := opening_name (isName_name w.function) hbracket place
  have hfront : NoBlank (spellFront w.front ++ rest).head? := by
    cases w.front with
    | none => exact hblank
    | some text => exact endOf_some rfl
  obtain ⟨behind, hread⟩ := reads_front w rest (between + 1) ⟨hblank, hquote⟩
  refine ⟨behind, hopen.trans ?_⟩
  rw [ofName?_name]
  refine bind_eq_ok_iff.2 ⟨⟨w.front, ⟨rest, behind⟩⟩, ?_, rfl⟩
  rw [← hread]
  exact congrArg (frontArgument w.function) (skipBlanks_mk hfront (between + 1))

/-! ### The recursion -/

theorem expr_fixed {c d : Cursor} {text : String} (h : opening c = .ok (.fixed text, d)) :
    expr c = .ok (.fixed text, d) := by
  rw [expr]
  split <;> simp_all

theorem expr_root {c d : Cursor} {root : String} (h : opening c = .ok (.root root, d)) :
    expr c = (steps d).map fun (ss, e) => (.path root ss, e) := by
  rw [expr]
  split <;> simp_all

theorem expr_function {c d : Cursor} {f : Function} {front : Option String}
    (h : opening c = .ok (.function f front, d)) :
    expr c = do
      let (e, c) ← expr d
      let (wrapper, c) ← closing f front c
      let (ss, c) ← steps c
      return (.wrapped wrapper e ss, c) := by
  rw [expr]
  split <;> simp_all

/-- No step goes on with a name. -/
theorem endOf_mark (s : PathStep) : EndOf isNameChar (some s.mark) := by
  cases s <;> exact endOf_some rfl

theorem head?_steps {steps : List PathStep} (h : ∀ s ∈ steps, s.WellFormed) (rest : List Char) :
    (steps.flatMap (·.spelling) ++ rest).head? = (firstMark steps).or rest.head? := by
  cases steps with
  | nil => rfl
  | cons s ss =>
    rw [List.flatMap_cons, List.append_assoc, List.head?_append,
      head?_spelling (h s List.mem_cons_self)]
    rfl

theorem endOf_steps {steps : List PathStep} {next : Option Char} (h : EndsSteps next) :
    EndOf isNameChar ((firstMark steps).or next) := by
  cases steps with
  | nil => rcases h with rfl | rfl | rfl <;> simp [firstMark, EndOf, isNameChar]
  | cons s ss => exact endOf_mark s

theorem steps_ne_bracket {steps : List PathStep} {next : Option Char} (h : EndsSteps next)
    (hmark : firstMark steps ≠ some '[') : (firstMark steps).or next ≠ some '[' := by
  cases steps with
  | nil => rcases h with rfl | rfl | rfl <;> decide
  | cons s ss => exact hmark

/-- **A readable expression is read back from its spelling.** -/
theorem reads_expr {e : Expr} (h : e.Readable) : Reads expr e.spelling e EndsSteps := by
  induction e with
  | fixed text =>
    intro rest place _
    obtain ⟨behind, hread⟩ := reads_quoted text rest place True.intro
    have hblank : NoBlank (quote text ++ rest).head? := endOf_some rfl
    refine ⟨behind, expr_fixed ?_⟩
    rw [opening]
    dsimp only
    rw [spelling, skipBlanks_mk hblank]
    exact (if_pos rfl).trans (map_eq_ok_iff.2 ⟨_, hread, rfl⟩)
  | path root steps =>
    obtain ⟨hroot, hfunction, hsteps⟩ := h
    intro rest place hrest
    have hhead := head?_steps (wellFormed_of_readableSteps hsteps) rest
    obtain ⟨between, hopen⟩ := opening_root hroot (hhead ▸ endOf_steps hrest)
      (fun hf => hhead ▸ steps_ne_bracket hrest (hfunction hf)) place
    obtain ⟨behind, hread⟩ := reads_steps hsteps rest between hrest
    refine ⟨behind, ?_⟩
    rw [spelling, List.append_assoc, expr_root hopen]
    exact map_eq_ok_iff.2 ⟨_, hread, rfl⟩
  | wrapped w inner steps ih =>
    obtain ⟨hw, hconcat, hinner, hsteps⟩ := h
    intro rest place hrest
    obtain ⟨c, cs, hc, hstart⟩ := exists_spelling hinner
    -- what the inner expression starts with is no blank, and no text where one could stand in front
    have hblank : ∀ tail, NoBlank (inner.spelling ++ tail).head? := by
      rw [hc]
      rcases hstart with ⟨rfl, -⟩ | hnamed
      · exact fun tail => endOf_some rfl
      · exact fun tail => noBlank_of_isNameChar hnamed
    have hquote : w.function = .concat → w.front = none →
        ∀ tail, (inner.spelling ++ tail).head? ≠ some '"' := by
      rw [hc]
      rintro hf hfront tail ⟨⟩
      rcases hstart with ⟨-, hfixed⟩ | hnamed
      · exact hfixed (hconcat hf hfront)
      · exact ne_quote_of_isNameChar hnamed rfl
    have hends : EndsSteps (spellLast w.last ++
        (']' :: (steps.flatMap (·.spelling) ++ rest))).head? := by
      cases w.last with
      | none => exact .inr (.inl rfl)
      | some text => exact .inr (.inr rfl)
    obtain ⟨p₁, hopen⟩ := opening_function (hblank _) (fun hf hfront => hquote hf hfront _) place
    obtain ⟨p₂, hexpr⟩ := ih hinner _ p₁ hends
    obtain ⟨p₃, hclosing⟩ := reads_closing hw (steps.flatMap (·.spelling) ++ rest) p₂ True.intro
    obtain ⟨behind, hread⟩ := reads_steps hsteps rest p₃ hrest
    refine ⟨behind, ?_⟩
    rw [List.append_assoc, List.singleton_append] at hclosing
    simp only [spelling, List.append_assoc, List.cons_append]
    rw [expr_function hopen]
    exact bind_eq_ok_iff.2 ⟨_, hexpr, bind_eq_ok_iff.2 ⟨_, hclosing,
      bind_eq_ok_iff.2 ⟨_, hread, rfl⟩⟩⟩

theorem parse_spell_of_readable {e : Expr} (h : e.Readable) : parse e.spell = .ok e := by
  obtain ⟨behind, hread⟩ := reads_expr h [] 0 (.inl rfl)
  rw [List.append_nil] at hread
  rw [parse, mapError_eq_ok_iff, spell, String.toList_ofList]
  exact bind_eq_ok_iff.2 ⟨_, hread, rfl⟩

theorem spell_inj {e f : Expr} (he : e.Readable) (hf : f.Readable) (h : e.spell = f.spell) :
    e = f := by
  have hread := parse_spell_of_readable he
  rw [h, parse_spell_of_readable hf] at hread
  exact (Except.ok.inj hread).symm

/-- **The canonical text of an expression that has been read is read as that expression, which is
well formed.** -/
theorem parse_spell {text : String} {e : Expr} (h : parse text = .ok e) :
    parse e.spell = .ok e ∧ e.WellFormed :=
  ⟨parse_spell_of_readable (readable_of_parse h), (readable_of_parse h).wellFormed⟩

/-- Blanks and abbreviated ranges go, and the marks in a row stay apart: `^^=` is a step up and a
comparison, and the fourth `>` is a step of its own. -/
theorem parse_spell_nested : ∃ e,
    parse "Concat[ \"a\\\"\" ;\tLookUp[T; agent.product[-2]^^=\"b\\\\\">>>>@@\x7b\"s\"\x7d ] ]" = .ok e ∧
    e.spell = "Concat[\"a\\\"\";LookUp[\"T\";agent.(*)product[1-2]^^=\"b\\\\\">>>>@@\x7b\"s\"\x7d]]" ∧
    parse e.spell = .ok e ∧ e.WellFormed := by
  let e : Expr := .wrapped (.concat (some "a\"") none) (.wrapped (.lookup "T" none) (.path "agent"
    [.down .all "product", .words ⟨1, 2⟩, .up, .startsWith "b\\", .next 3, .next 1, .backToFull,
      .inSet "s"]) []) []
  have hread : parse
      "Concat[ \"a\\\"\" ;\tLookUp[T; agent.product[-2]^^=\"b\\\\\">>>>@@\x7b\"s\"\x7d ] ]" = .ok e := by
    decide +kernel
  exact ⟨e, hread, by decide +kernel, parse_spell hread⟩

end AgentRules.Expr
