/-! # Comparison up to ASCII case

`Char.toLower` maps `A` to `Z` and nothing else, so two texts agree up to ASCII case when their
images under it are equal. -/

namespace AgentRules.Text

def fold (s : String) : List Char := s.toList.map Char.toLower

/-- Whether two texts are equal up to ASCII case. -/
def equalFold (a b : String) : Bool := fold a == fold b

/-- Whether a text starts with `head` up to ASCII case. -/
def startsFold (s head : String) : Bool := (fold head).isPrefixOf (fold s)

/-- Whether a text ends with `tail` up to ASCII case. -/
def endsFold (s tail : String) : Bool := (fold tail).isSuffixOf (fold s)

/-- Whether some characters occur in a row in a list of characters. -/
def occursIn (needle : List Char) : List Char → Bool
  | [] => needle.isEmpty
  | c :: cs => needle.isPrefixOf (c :: cs) || occursIn needle cs

end AgentRules.Text
