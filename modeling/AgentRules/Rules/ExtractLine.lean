import AgentRules.Fault
import AgentRules.Text.Blank

/-! # Extract lines

A line `Field : confidence : expression` says which field a rule writes, how sure it is and where
the value comes from. Only the first two colons divide the line. -/

namespace AgentRules

open Text

/-- What an extract line says. -/
structure ExtractLine where
  field : String
  confidence : Int
  expression : String
deriving Repr, DecidableEq

namespace ExtractLine

/-- The characters before and behind the first colon. -/
def cutAtColon (cs : List Char) : Option (List Char × List Char) :=
  match cs.dropWhile (· ≠ ':') with
  | [] => none
  | _ :: rest => some (cs.takeWhile (· ≠ ':'), rest)

def parts (line : String) : Option (String × String × String) := do
  let (field, rest) ← cutAtColon line.toList
  let (confidence, expression) ← cutAtColon rest
  return (String.ofList field, String.ofList confidence, String.ofList expression)

/-- Whether a text can name a field: it has ASCII letters, digits and underscores alone. -/
def isFieldName (name : String) : Bool :=
  !name.toList.isEmpty && name.toList.all fun c => c.isAlphanum || c = '_'

/-- Reads a line. -/
def parse (line : String) : Except Fault ExtractLine :=
  match parts line with
  | none => .error (.extractShape line)
  | some (field, confidence, expression) =>
    let field := trim field
    if !isFieldName field then .error (.fieldName field line)
    else match readInt64 (trim confidence) with
      | .error fault => .error (.confidence line fault)
      | .ok n =>
        let expression := trim expression
        if expression = "" then .error (.emptyExpression line) else .ok ⟨field, n, expression⟩

end ExtractLine

end AgentRules
