/-! # Ranges of segments and of children

A `WordRange` selects segments of a value, an `IndexRange` selects children of a node. Both count
from one and include both ends. `maxIndex` closes a range of children that is left open. -/

namespace AgentRules

/-- A run of segments; the last one is `toEnd` for a run that goes on to the end of the value. -/
structure WordRange where
  first : Int
  last : Int
deriving Repr, DecidableEq, Hashable

/-- Why two numbers are no range of segments. -/
inductive WordRangeFault
  | startsBelowOne (first last : Int)
  | endsBeforeStart (first last : Int)
deriving Repr, DecidableEq

def WordRangeFault.message : WordRangeFault → String
  | .startsBelowOne first last => s!"word range must start at 1 or later, got [{first}-{last}]"
  | .endsBeforeStart first last => s!"word range end precedes start: [{first}-{last}]"

namespace WordRange

/-- The last segment of an open run. -/
def toEnd : Int := -1

/-- Whether two numbers form a run: it starts at one or later and is open or ends where it starts
or later. -/
def Proper (first last : Int) : Prop := 1 ≤ first ∧ (last = toEnd ∨ first ≤ last)

instance (first last : Int) : Decidable (Proper first last) := by unfold Proper; infer_instance

def make (first last : Int) : Except WordRangeFault WordRange :=
  if first < 1 then .error (.startsBelowOne first last)
  else if last ≠ toEnd ∧ last < first then .error (.endsBeforeStart first last)
  else .ok ⟨first, last⟩

def single (n : Int) : Except WordRangeFault WordRange := make n n

/-- The run as it stands in a path: `[1-2]`, or `[2-]` if it is open. -/
def pathForm (r : WordRange) : String :=
  if r.last = toEnd then s!"[{r.first}-]" else s!"[{r.first}-{r.last}]"

/-- The run as it stands in the text of a step: `[1:2]`. -/
def stepForm (r : WordRange) : String := s!"[{r.first}:{r.last}]"

end WordRange

/-- A run of child indices. -/
structure IndexRange where
  start : Nat
  stop : Nat
deriving Repr, DecidableEq

namespace IndexRange

def has (r : IndexRange) (index : Nat) : Bool := r.start ≤ index && index ≤ r.stop

def isEmpty (r : IndexRange) : Bool := r.stop < r.start

def count (r : IndexRange) : Nat := r.stop + 1 - r.start

def toList (r : IndexRange) : List Nat := List.range' r.start r.count

/-- The run as it stands in the text of a step: `[1:3]`. -/
def stepForm (r : IndexRange) : String := s!"[{r.start}:{r.stop}]"

end IndexRange

/-- The largest child index that an open range of children of this name is written out to. -/
def maxIndex (name : String) : Nat :=
  match name with
  | "agent" | "name" | "key" => 1
  | "value" | "comments" | "email" | "base64" => 2
  | "keyvalue" | "url" => 3
  | "uuid" => 4
  | "version" => 5
  | "text" => 8
  | "product" => 10
  | "entry" => 20
  | _ => 10

end AgentRules
