import AgentRules.Text.Blank

/-! # Version numbers

A version number is written with points between its parts and without the letter that some agents
put in front of it. -/

namespace AgentRules.VersionText

open Text

/-- The characters without a `v` that stands in front of a digit. -/
def dropMark : List Char → List Char
  | c :: d :: cs => if (c = 'v' ∨ c = 'V') ∧ d.isDigit then d :: cs else c :: d :: cs
  | cs => cs

def clean (version : String) : String :=
  let cs := dropMark (stripBoth isBlank version.toList)
  String.ofList (stripBoth (· = '.') (cs.map fun c => if c = '_' then '.' else c))

end AgentRules.VersionText
