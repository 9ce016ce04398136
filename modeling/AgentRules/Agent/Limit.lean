import AgentRules.Text.Blank
import AgentRules.Text.Bytes

/-! # Limiting an agent text

A text is analysed without blanks at its ends and up to a number of bytes. A longer one is cut back
to a boundary, and to its last character that is not blank. -/

namespace AgentRules

open Text

/-- The part of a text that is analysed. -/
def limitText (text : String) (max : Nat) : String :=
  let cs := stripBoth isBlank text.toList
  String.ofList <|
    if byteLength cs ≤ max then cs else dropEndWhile isBlank (takeWithin max cs)

end AgentRules
