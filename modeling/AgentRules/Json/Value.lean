/-! # JSON values

A value as a document spells it. Members of an object keep their order and may repeat a key, and a
number keeps its digits. A text can be spelled with an escape that names no character; such a text
is part of a well-formed document, but it stands for nothing and is `none` here. -/

namespace AgentRules

/-- A JSON value. -/
inductive Json
  | null
  | bool (b : Bool)
  | number (literal : String)
  | text (s : Option String)
  | array (items : List Json)
  | object (members : List (Option String × Json))

namespace Json

def ofString (s : String) : Json := text (some s)

def ofStrings (xs : List String) : Json := array (xs.map ofString)

def ofMembers (members : List (String × Json)) : Json :=
  object (members.map fun (k, v) => (some k, v))

end Json

end AgentRules
