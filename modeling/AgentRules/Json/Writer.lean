import AgentRules.Json.Value

/-! # Writing JSON

A value is written in one line without blanks, or with a line for each item and member, indented by
two blanks for each level. In a text, quotes, backslashes and control characters are escaped and
nothing else is. -/

namespace AgentRules.Json

/-! ### Texts -/

def hexDigit (n : Nat) : Char := if n < 10 then Char.ofNat (48 + n) else Char.ofNat (87 + n)

/-- A character as it stands in a text. -/
def escape (c : Char) : List Char :=
  if c = '"' then ['\\', '"']
  else if c = '\\' then ['\\', '\\']
  else if c = '\n' then ['\\', 'n']
  else if c = '\r' then ['\\', 'r']
  else if c = '\t' then ['\\', 't']
  else if c.toNat = 8 then ['\\', 'b']
  else if c.toNat = 12 then ['\\', 'f']
  else if c.toNat < 32 then
    ['\\', 'u', '0', '0', hexDigit (c.toNat / 16), hexDigit (c.toNat % 16)]
  else [c]

def quote (s : String) : String := String.ofList ('"' :: (s.toList.flatMap escape ++ ['"']))

/-! ### Values -/

/-- What stands between the parts of a value. -/
structure Layout where
  /-- What starts a line at a depth. -/
  line : Nat → String
  /-- What stands between a key and its value. -/
  colon : String

def Layout.compact : Layout := ⟨fun _ => "", ":"⟩

/-- A line for each item and member, indented by two blanks for each level. -/
def Layout.indented : Layout :=
  ⟨fun depth => String.ofList ('\n' :: List.replicate (2 * depth) ' '), ": "⟩

/-- Parts at a depth, enclosed in brackets; brackets without parts stand together. -/
def Layout.enclose (l : Layout) (opening closing : String) (depth : Nat) (parts : List String) :
    String :=
  if parts.isEmpty then opening ++ closing
  else opening ++ l.line (depth + 1) ++ ("," ++ l.line (depth + 1)).intercalate parts ++
    l.line depth ++ closing

mutual

/-- Writes a value that stands at a depth. -/
def write (l : Layout) (depth : Nat) : Json → String
  | null => "null"
  | bool b => if b then "true" else "false"
  | number literal => literal
  | text s => quote (s.getD "")
  | array items => l.enclose "[" "]" depth (writeItems l (depth + 1) items)
  | object members => l.enclose "\x7b" "\x7d" depth (writeMembers l (depth + 1) members)

def writeItems (l : Layout) (depth : Nat) : List Json → List String
  | [] => []
  | j :: js => write l depth j :: writeItems l depth js

def writeMembers (l : Layout) (depth : Nat) : List (Option String × Json) → List String
  | [] => []
  | (k, v) :: ms => (quote (k.getD "") ++ l.colon ++ write l depth v) :: writeMembers l depth ms

end

def compact (j : Json) : String := write .compact 0 j

def pretty (j : Json) : String := write .indented 0 j

end AgentRules.Json
