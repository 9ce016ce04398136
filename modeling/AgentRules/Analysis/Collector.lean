import AgentRules.Result.Fields

/-! # Collecting what rules write

Rules offer values for fields. A collector keeps for each field the first value of the highest
confidence, and notes every other value that was offered with the confidence it then had. What is
kept is written at the end, the least sure fields first. -/

namespace AgentRules

/-- Two values of one field with the same confidence, of which the first was kept. -/
structure Collision where
  field : String
  confidence : Int
  kept : String
  rejected : String
deriving Repr, DecidableEq

/-- The values kept, and the collisions, the last one first. -/
structure Collector where
  fields : Fields := []
  collisions : List Collision := []
deriving Repr, DecidableEq

/-- A value that is offered for a field. -/
structure Offer where
  field : String
  value : String
  confidence : Int
deriving Repr, DecidableEq

namespace Collector

/-- The collision that an offer makes with the value that is kept. -/
def collision? (c : Collector) (o : Offer) : Option Collision :=
  match c.fields.get? o.field with
  | some f =>
    if o.confidence = f.confidence ∧ f.value ≠ o.value then
      some ⟨o.field, o.confidence, f.value, o.value⟩
    else none
  | none => none

def offer (c : Collector) (o : Offer) : Collector :=
  ⟨c.fields.raise o.field o.value o.confidence, (c.collision? o).toList ++ c.collisions⟩

/-- Whether a field is written before another one: with less confidence, or as much and an earlier
name. -/
def writtenBefore (a b : Offer) : Bool :=
  a.confidence < b.confidence || (a.confidence == b.confidence && a.field ≤ b.field)

def flush (c : Collector) : List Offer :=
  (c.fields.map fun (name, f) => ⟨name, f.value, f.confidence⟩).mergeSort writtenBefore

end Collector

end AgentRules
