import AgentRules.Json.Writer
import AgentRules.NodePath
import AgentRules.Result.Fields

/-! # What is known of an agent

The result of an analysis: the text that was analysed, the fields that were found, and the matches
if they were kept. Fields that were not found have a value too, which says so. -/

namespace AgentRules

/-- The result of an analysis. -/
structure UserAgent where
  source : String
  fields : Fields := []
  /-- The keys that matched, with the values that came out. -/
  matched : List (String × String) := []
deriving Repr, DecidableEq

namespace UserAgent

/-- The value of a field that is not known. -/
def unknownValue : String := "Unknown"

/-- The confidence in a field that is not known. -/
def unknownConfidence : Int := -1

def get? (u : UserAgent) (name : String) : Option Field := u.fields.get? name

def value (u : UserAgent) (name : String) : String := (u.get? name).elim unknownValue (·.value)

def confidence (u : UserAgent) (name : String) : Int :=
  (u.get? name).elim unknownConfidence (·.confidence)

/-- Whether a field has a value that says something. -/
def isKnown (u : UserAgent) (name : String) : Bool :=
  (u.get? name).any fun f => 0 ≤ f.confidence && f.value ≠ unknownValue

/-- The result with a field written, if the confidence is higher than that of the value it has. -/
def raise (u : UserAgent) (name value : String) (confidence : Int) : UserAgent :=
  { u with fields := u.fields.raise name value confidence }

/-- Whether the text was found to be malformed. -/
def hasSyntaxError (u : UserAgent) : Bool := u.value NodePath.syntaxError = "true"

def names (u : UserAgent) : List String := u.fields.names

def sourceName : String := "Useragent"

def matchesName : String := "__Matches__"

def matchJson (entry : String × String) : Json :=
  .ofMembers [("key", .ofString entry.1), ("value", .ofString entry.2)]

/-- The result as it is written: the text, the values of the fields in the order of their names, and
the matches if there are any. -/
def toJson (u : UserAgent) : Json :=
  .ofMembers ((sourceName, .ofString u.source) ::
    ((u.names.map fun n => (n, .ofString (u.value n))) ++
      if u.matched.isEmpty then []
      else [(matchesName, .array (u.matched.map matchJson))]))

def render (pretty : Bool) (u : UserAgent) : String :=
  if pretty then u.toJson.pretty else u.toJson.compact

end UserAgent

end AgentRules
