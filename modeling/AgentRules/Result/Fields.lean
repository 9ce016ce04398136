/-! # Fields

What is known of an agent is a list of fields, each with a value and with the confidence in it. A
field is written once and replaced only at a higher confidence. -/

namespace AgentRules

/-- A value and how sure it is. -/
structure Field where
  value : String
  confidence : Int
deriving Repr, DecidableEq

/-- Fields by their names, in the order in which they were first written. -/
abbrev Fields := List (String × Field)

namespace Fields

def get? (fields : Fields) (name : String) : Option Field := fields.lookup name

/-- The fields with one of them written anew, at its place, or behind the others if it is not there
yet. -/
def put (name : String) (field : Field) : Fields → Fields
  | [] => [(name, field)]
  | (n, f) :: rest => if n = name then (n, field) :: rest else (n, f) :: put name field rest

/-- Whether a field would be written with this confidence. -/
def wouldRaise (fields : Fields) (name : String) (confidence : Int) : Bool :=
  match fields.get? name with
  | some f => f.confidence < confidence
  | none => true

/-- The fields with one written, if the confidence is higher than that of the value it has. -/
def raise (fields : Fields) (name value : String) (confidence : Int) : Fields :=
  if fields.wouldRaise name confidence then fields.put name ⟨value, confidence⟩ else fields

def names (fields : Fields) : List String := (fields.map (·.1)).mergeSort fun a b => a ≤ b

end Fields

end AgentRules
