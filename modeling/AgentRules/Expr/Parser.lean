import AgentRules.Expr.Step

/-! # Reading path expressions

    expr     := function step* | text | name step*
    function := NAME '[' arguments ']'

An expression is opened by a text, by the name of a root, or by a function with the argument in
front of its expression. Behind that expression stands the function's last argument. Blanks may
stand around the arguments of a function and nowhere else. -/

namespace AgentRules.Expr

open Text

/-! ### Functions -/

/-- The functions that an expression can be wrapped in. -/
inductive Function
  | isNull
  | cleanVersion
  | normalizeBrand
  | concat
  | lookup
  | lookupByHead
  | inTableByHead
deriving Repr, DecidableEq

/-- The function of a name. -/
def Function.ofName? : String → Option Function
  | "IsNull" => some isNull
  | "CleanVersion" => some cleanVersion
  | "NormalizeBrand" => some normalizeBrand
  | "Concat" => some concat
  | "LookUp" => some lookup
  | "LookUpPrefix" => some lookupByHead
  | "IsInLookUpPrefix" => some inTableByHead
  | _ => none

def separator (c : Cursor) : Except Misread Cursor := do
  let c ← c.skipBlanks.expect ';'
  return c.skipBlanks

def tableName (c : Cursor) : Except Misread (String × Cursor) :=
  if c.peek = some '"' then quoted c else name c

/-- Reads an argument and what separates it from the next one. -/
def separated (read : Cursor → Except Misread (String × Cursor)) (c : Cursor) :
    Except Misread (Option String × Cursor) := do
  let (text, c) ← read c
  let c ← separator c
  return (some text, c)

/-- Reads the argument in front of the expression: the text that goes before its value, which may be
left out, or the name of a table. -/
def frontArgument (f : Function) (c : Cursor) : Except Misread (Option String × Cursor) :=
  match f with
  | .isNull | .cleanVersion | .normalizeBrand => .ok (none, c)
  | .concat => if c.peek = some '"' then separated quoted c else .ok (none, c)
  | .lookup | .lookupByHead | .inTableByHead => separated tableName c

def optionalLast (c : Cursor) : Except Misread (Option String × Cursor) :=
  let c := c.skipBlanks
  if c.peek = some ';' then (quoted c.advance.skipBlanks).map fun (text, c) => (some text, c)
  else .ok (none, c)

/-- Reads the argument behind the expression: the text that goes behind its value, which may be left
out if there is one in front, or a default. -/
def lastArgument (f : Function) (front : Option String) (c : Cursor) :
    Except Misread (Option String × Cursor) :=
  match f, front with
  | .isNull, _ | .cleanVersion, _ | .normalizeBrand, _ | .inTableByHead, _ => .ok (none, c)
  | .concat, none => do
    let c ← separator c
    let (text, c) ← quoted c
    return (some text, c)
  | .concat, some _ | .lookup, _ | .lookupByHead, _ => optionalLast c

/-- The function with the arguments around its expression. -/
def Function.wrapper (f : Function) (front last : Option String) : Wrapper :=
  match f with
  | .isNull => .isNull
  | .cleanVersion => .cleanVersion
  | .normalizeBrand => .normalizeBrand
  | .concat => .concat front last
  | .lookup => .lookup (front.getD "") last
  | .lookupByHead => .lookupByHead (front.getD "") last
  | .inTableByHead => .inTableByHead (front.getD "")

/-! ### Expressions -/

/-- What opens an expression. -/
inductive Opening
  | fixed (text : String)
  | root (name : String)
  | function (f : Function) (front : Option String)

/-- Reads what opens an expression. -/
def opening (c : Cursor) : Except Misread (Opening × Cursor) :=
  let c := c.skipBlanks
  if c.peek = some '"' then (quoted c).map fun (text, c) => (.fixed text, c)
  else do
    let (word, c) ← name c
    match Function.ofName? word, c.peek with
    | some f, some '[' =>
      let (front, c) ← frontArgument f c.advance.skipBlanks
      return (.function f front, c)
    | _, _ => return (.root word, c)

def closing (f : Function) (front : Option String) (c : Cursor) :
    Except Misread (Wrapper × Cursor) := do
  let (last, c) ← lastArgument f front c
  let c ← c.skipBlanks.expect ']'
  return (f.wrapper front last, c)

/-! ### Less is left -/

open Outcome

theorem length_separator {c d : Cursor} (h : separator c = .ok d) :
    d.rest.length < c.rest.length := by
  obtain ⟨e, he, h⟩ := bind_eq_ok_iff.1 h
  cases h
  have := length_skipBlanks c
  have := length_expect he
  have := length_skipBlanks e
  omega

theorem length_tableName {c d : Cursor} {s : String} (h : tableName c = .ok (s, d)) :
    d.rest.length < c.rest.length := by
  unfold tableName at h
  split at h
  · exact length_quoted h
  · exact length_name h

theorem length_separated {read : Cursor → Except Misread (String × Cursor)}
    (hr : ∀ {c d s}, read c = .ok (s, d) → d.rest.length < c.rest.length) {c d : Cursor}
    {s : Option String} (h : separated read c = .ok (s, d)) : d.rest.length < c.rest.length := by
  obtain ⟨⟨text, e⟩, he, h⟩ := bind_eq_ok_iff.1 h
  obtain ⟨f, hf, h⟩ := bind_eq_ok_iff.1 h
  cases h
  exact Nat.lt_trans (length_separator hf) (hr he)

theorem length_frontArgument {f : Function} {c d : Cursor} {s : Option String}
    (h : frontArgument f c = .ok (s, d)) : d.rest.length ≤ c.rest.length := by
  unfold frontArgument at h
  split at h
  case h_4 =>
    split at h
    · exact Nat.le_of_lt (length_separated length_quoted h)
    · cases h; exact Nat.le_refl _
  case h_5 | h_6 | h_7 => exact Nat.le_of_lt (length_separated length_tableName h)
  all_goals cases h; exact Nat.le_refl _

theorem length_opening {c d : Cursor} {o : Opening} (h : opening c = .ok (o, d)) :
    d.rest.length < c.rest.length := by
  have hb := length_skipBlanks c
  unfold opening at h
  dsimp only at h
  split at h
  · obtain ⟨⟨text, e⟩, he, h⟩ := map_eq_ok_iff.1 h
    cases h
    exact Nat.lt_of_lt_of_le (length_quoted he) hb
  · obtain ⟨⟨word, e⟩, he, h⟩ := bind_eq_ok_iff.1 h
    have := length_name he
    dsimp only at h
    split at h
    · obtain ⟨⟨front, g⟩, hg, h⟩ := bind_eq_ok_iff.1 h
      cases h
      have := length_frontArgument hg
      have := length_skipBlanks e.advance
      have := length_advance_le e
      dsimp only
      omega
    · cases h; omega

/-! ### The recursion -/

/-- Reads an expression. -/
def expr (start : Cursor) : Except Misread (Expr × Cursor) :=
  match _h : opening start with
  | .error e => .error e
  | .ok (.fixed text, c) => .ok (.fixed text, c)
  | .ok (.root name, c) => (steps c).map fun (ss, c) => (.path name ss, c)
  | .ok (.function f front, c) => do
    let (e, c) ← expr c
    let (wrapper, c) ← closing f front c
    let (ss, c) ← steps c
    return (.wrapped wrapper e ss, c)
termination_by start.rest.length
decreasing_by exact length_opening _h

def parse (text : String) : Except Fault Expr :=
  let outcome := do
    let (e, c) ← expr ⟨text.toList, 0⟩
    let c := c.skipBlanks
    if c.rest.isEmpty then return e else c.fail .trailing
  outcome.mapError fun misread => .path text misread.place misread.complaint

end AgentRules.Expr
