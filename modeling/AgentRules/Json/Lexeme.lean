import AgentRules.Json.Value

/-! # Lexemes of JSON

A document is cut into marks, words, numbers and texts; blanks between them are dropped. -/

namespace AgentRules.Json

/-- A piece of a document. -/
inductive Lexeme
  | openArray
  | closeArray
  | openObject
  | closeObject
  | comma
  | colon
  /-- A value that has no parts. -/
  | atom (value : Json)
  /-- A text, which may be a key. -/
  | text (s : Option String)

/-! ### Texts -/

def hexValue? (c : Char) : Option Nat :=
  if c.isDigit then some (c.toNat - 48)
  else if 'a' ≤ c ∧ c ≤ 'f' then some (c.toNat - 87)
  else if 'A' ≤ c ∧ c ≤ 'F' then some (c.toNat - 55)
  else none

def hexValue4? (a b c d : Char) : Option Nat := do
  return 4096 * (← hexValue? a) + 256 * (← hexValue? b) + 16 * (← hexValue? c) + (← hexValue? d)

/-- Whether a code starts a pair of codes that name one character. -/
def isLeading (n : Nat) : Bool := 0xD800 ≤ n && n < 0xDC00

/-- Whether a code ends such a pair. -/
def isTrailing (n : Nat) : Bool := 0xDC00 ≤ n && n < 0xE000

/-- The character that a pair of codes names. -/
def pairChar (leading trailing : Nat) : Char :=
  Char.ofNat (0x10000 + 1024 * (leading - 0xD800) + (trailing - 0xDC00))

/-- The character that an escape of one letter names. -/
def simpleEscape? : Char → Option Char
  | '"' => some '"'
  | '\\' => some '\\'
  | '/' => some '/'
  | 'b' => some (Char.ofNat 8)
  | 'f' => some (Char.ofNat 12)
  | 'n' => some '\n'
  | 'r' => some '\r'
  | 't' => some '\t'
  | _ => none

/-- A piece of a text: a character, or a code that is spelled with an escape. -/
inductive TextUnit
  | char (c : Char)
  | code (n : Nat)

/-- Reads the pieces of a text up to its closing quote. -/
def units? : List Char → Option (List TextUnit × List Char)
  | '"' :: cs => some ([], cs)
  | '\\' :: 'u' :: a :: b :: c :: d :: cs =>
    match hexValue4? a b c d, units? cs with
    | some n, some (us, rest) => some (.code n :: us, rest)
    | _, _ => none
  | '\\' :: e :: cs =>
    match simpleEscape? e, units? cs with
    | some c, some (us, rest) => some (.char c :: us, rest)
    | _, _ => none
  | c :: cs =>
    if c.toNat < 32 then none else (units? cs).map fun (us, rest) => (.char c :: us, rest)
  | [] => none

/-- The characters that pieces spell, if every code is that of a character or one of a pair. -/
def joinUnits? : List TextUnit → Option (List Char)
  | [] => some []
  | .char c :: us => (joinUnits? us).map (c :: ·)
  | .code n :: .code m :: us =>
    if isLeading n && isTrailing m then (joinUnits? us).map (pairChar n m :: ·)
    else if isLeading n || isTrailing n then none
    else (joinUnits? (.code m :: us)).map (Char.ofNat n :: ·)
  | .code n :: us =>
    if isLeading n || isTrailing n then none else (joinUnits? us).map (Char.ofNat n :: ·)

/-! ### Numbers -/

/-- Some digits, at least one, and what follows. -/
def digits? (cs : List Char) : Option (List Char × List Char) :=
  let ds := cs.takeWhile Char.isDigit
  if ds.isEmpty then none else some (ds, cs.drop ds.length)

/-- The digits before a point; they start with a zero only if it is alone. -/
def whole? (cs : List Char) : Option (List Char × List Char) :=
  match cs with
  | '0' :: rest => some (['0'], rest)
  | cs => digits? cs

/-- A part of a number that may be missing: nothing, or a mark with what has to follow it. -/
def optionalPart (isMark : Char → Bool) (part : List Char → Option (List Char × List Char))
    (cs : List Char) : Option (List Char × List Char) :=
  match cs with
  | c :: rest => if isMark c then (part rest).map fun (ds, r) => (c :: ds, r) else some ([], cs)
  | [] => some ([], [])

/-- The digits of an exponent, perhaps behind a sign. -/
def exponent? (cs : List Char) : Option (List Char × List Char) :=
  match cs with
  | c :: rest =>
    if c = '+' || c = '-' then (digits? rest).map fun (ds, r) => (c :: ds, r) else digits? cs
  | [] => none

/-- A number and what follows. -/
def number? (cs : List Char) : Option (List Char × List Char) := do
  let (sign, cs) := match cs with
    | '-' :: rest => (['-'], rest)
    | cs => ([], cs)
  let (whole, cs) ← whole? cs
  let (fraction, cs) ← optionalPart (· = '.') digits? cs
  let (exponent, cs) ← optionalPart (fun c => c = 'e' || c = 'E') exponent? cs
  return (sign ++ whole ++ fraction ++ exponent, cs)

/-! ### The cut -/

/-- Whether a character may stand between lexemes. -/
def isGap (c : Char) : Bool := c = ' ' || c = '\n' || c = '\t' || c = '\r'

/-- The lexeme at the start of a document, and what follows. -/
def lexeme? : List Char → Option (Lexeme × List Char)
  | '[' :: cs => some (.openArray, cs)
  | ']' :: cs => some (.closeArray, cs)
  | '\x7b' :: cs => some (.openObject, cs)
  | '\x7d' :: cs => some (.closeObject, cs)
  | ',' :: cs => some (.comma, cs)
  | ':' :: cs => some (.colon, cs)
  | 'n' :: 'u' :: 'l' :: 'l' :: cs => some (.atom .null, cs)
  | 't' :: 'r' :: 'u' :: 'e' :: cs => some (.atom (.bool true), cs)
  | 'f' :: 'a' :: 'l' :: 's' :: 'e' :: cs => some (.atom (.bool false), cs)
  | '"' :: cs =>
    (units? cs).map fun (us, rest) => (.text ((joinUnits? us).map String.ofList), rest)
  | cs => (number? cs).map fun (ds, rest) => (.atom (.number (String.ofList ds)), rest)

/-! ### Every lexeme has a character -/

theorem length_units? {cs rest : List Char} {us : List TextUnit} (h : units? cs = some (us, rest)) :
    rest.length < cs.length := by
  fun_induction units? cs generalizing us rest with
  | case1 => grind
  | case2 a b c d cs n vs rest' hcs _ ih =>
    have := ih hcs
    simp_all only [Option.some.injEq, Prod.mk.injEq, List.length_cons]
    omega
  | case3 => simp at h
  | case4 e cs _ c vs rest' hcs _ ih =>
    have := ih hcs
    simp_all only [Option.some.injEq, Prod.mk.injEq, List.length_cons]
    omega
  | case5 => simp at h
  | case6 => simp at h
  | case7 c cs _ _ _ _ ih =>
    obtain ⟨⟨vs, rest'⟩, hcs, heq⟩ := Option.map_eq_some_iff.1 h
    have := ih hcs
    simp_all only [Prod.mk.injEq, List.length_cons]
    omega
  | case8 => simp at h

theorem length_digits? {cs ds rest : List Char} (h : digits? cs = some (ds, rest)) :
    rest.length < cs.length := by
  have hle := (List.takeWhile_prefix (l := cs) Char.isDigit).length_le
  simp only [digits?, List.isEmpty_iff, Option.ite_none_left_eq_some, Option.some.injEq,
    Prod.mk.injEq] at h
  have := List.length_pos_iff.2 h.1
  rw [← h.2.2, List.length_drop]
  omega

theorem length_whole? {cs ds rest : List Char} (h : whole? cs = some (ds, rest)) :
    rest.length < cs.length := by
  unfold whole? at h
  split at h
  · simp_all
  · exact length_digits? h

theorem length_exponent? {cs ds rest : List Char} (h : exponent? cs = some (ds, rest)) :
    rest.length < cs.length := by
  unfold exponent? at h
  split at h
  · split at h
    · obtain ⟨⟨es, rest'⟩, hcs, heq⟩ := Option.map_eq_some_iff.1 h
      have := length_digits? hcs
      simp_all only [Prod.mk.injEq, List.length_cons]
      omega
    · exact length_digits? h
  · simp at h

theorem length_optionalPart {isMark : Char → Bool}
    {part : List Char → Option (List Char × List Char)}
    (hp : ∀ {cs ds rest}, part cs = some (ds, rest) → rest.length < cs.length)
    {cs ds rest : List Char} (h : optionalPart isMark part cs = some (ds, rest)) :
    rest.length ≤ cs.length := by
  unfold optionalPart at h
  split at h
  · split at h
    · obtain ⟨⟨es, rest'⟩, hcs, heq⟩ := Option.map_eq_some_iff.1 h
      have := hp hcs
      simp_all only [Prod.mk.injEq, List.length_cons]
      omega
    · simp_all
  · simp_all

theorem length_number? {cs ds rest : List Char} (h : number? cs = some (ds, rest)) :
    rest.length < cs.length := by
  unfold number? at h
  simp only [Option.bind_eq_bind, Option.bind_eq_some_iff, Option.pure_def, Option.some.injEq,
    Prod.mk.injEq] at h
  obtain ⟨⟨w, r1⟩, h1, ⟨f, r2⟩, h2, ⟨e, r3⟩, h3, -, rfl⟩ := h
  have h1 := length_whole? h1
  have h2 := length_optionalPart length_digits? h2
  have h3 := length_optionalPart length_exponent? h3
  split at h1 <;> simp_all <;> omega

theorem length_lexeme? {cs rest : List Char} {x : Lexeme} (h : lexeme? cs = some (x, rest)) :
    rest.length < cs.length := by
  unfold lexeme? at h
  split at h
  case h_10 =>
    obtain ⟨⟨us, rest'⟩, hcs, heq⟩ := Option.map_eq_some_iff.1 h
    have := length_units? hcs
    simp_all only [Prod.mk.injEq, List.length_cons]
    omega
  case h_11 =>
    obtain ⟨⟨us, rest'⟩, hcs, heq⟩ := Option.map_eq_some_iff.1 h
    have := length_number? hcs
    simp_all only [Prod.mk.injEq]
  all_goals simp_all <;> omega

/-- The lexemes of a document, if it can be cut into lexemes. -/
def lexemes? (cs : List Char) : Option (List Lexeme) :=
  match cs with
  | [] => some []
  | c :: cs =>
    if isGap c then lexemes? cs
    else
      match _h : lexeme? (c :: cs) with
      | none => none
      | some (x, rest) => (lexemes? rest).map (x :: ·)
termination_by cs.length
decreasing_by
  · simp
  · exact length_lexeme? _h

end AgentRules.Json
