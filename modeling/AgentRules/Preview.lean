import AgentRules.Text.Blank

/-! # Previews for messages

Texts are shortened for a message: blanks in a row become one, and what is too long ends with an
ellipsis. A list of keys shows its first ones and their number. -/

namespace AgentRules

open Text

/-- The first `left` characters, where blanks in a row count as one; `blank` says that the character
before is blank. -/
def previewFrom : Bool → Nat → List Char → List Char
  | _, _, [] => []
  | blank, left, c :: cs =>
    if isBlank c && blank then previewFrom true left cs
    else match left with
      | 0 => ['…']
      | left + 1 => (if isBlank c then ' ' else c) :: previewFrom (isBlank c) left cs

/-- A text of at most `max` characters and an ellipsis. -/
def preview (text : String) (max : Nat) : String :=
  String.ofList (previewFrom false max text.toList)

/-- The length of a key in a list. -/
def keyPreviewLength : Nat := 60

/-- A list of keys, of which at most `limit` are shown. -/
def previewKeys (keys : List String) (limit : Nat) : String :=
  if keys.isEmpty then "[empty]"
  else
    let shown := ", ".intercalate ((keys.take limit).map (preview · keyPreviewLength))
    let more := if limit < keys.length then ", …" else ""
    s!"[{shown}{more}] (total: {keys.length})"

end AgentRules
