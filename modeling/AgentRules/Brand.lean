import AgentRules.Text.Blank
import AgentRules.Text.Case
import AgentRules.Text.Numeric

/-! # Brand names

A brand name is spelled the same way however it was written. Short names and words that hold a
digit are codes and go into capitals, short words in capitals are acronyms and stay, and any other
word gets one capital at its start. A capital further inside is kept behind three small letters,
where it marks a joined word. -/

namespace AgentRules.Brand

open Text

/-- The characters between the words of a name. -/
def isBreak (c : Char) : Bool := c = ' ' || c = '-' || c = '_' || c = '/'

/-- The longest name or word that goes into capitals as a whole. -/
def codeLength : Nat := 3

/-- The longest word in capitals that is left alone. -/
def acronymLength : Nat := 4

/-- How many small letters before a capital keep it. -/
def joinLength : Nat := 3

/-- The rest of a word behind its first character; `run` counts the small letters just passed. -/
def restOfWord (run : Nat) : List Char → List Char
  | [] => []
  | c :: cs =>
    if isUpperLetter c then
      (if joinLength ≤ run then [c] else lowerChar c) ++ restOfWord 0 cs
    else lowerChar c ++ restOfWord (run + 1) cs

/-- The spelling of one word. -/
def spellWord (word : List Char) : List Char :=
  if word.length ≤ codeLength ∨ word.any isNumeric then word.flatMap upperChar
  else if word.length ≤ acronymLength ∧ word.all isUpperLetter then word
  else match word with
    | [] => []
    | c :: cs => upperChar c ++ restOfWord 0 cs

/-- The spelling of some words and of the marks between them. A blank is left out if the mark before
it is a blank too, which `blank` says; `word` holds the word being read, last character first. -/
def spellWords (blank : Bool) (word : List Char) : List Char → List Char
  | [] => spellWord word.reverse
  | c :: cs =>
    if !isBreak c then spellWords blank (c :: word) cs
    else spellWord word.reverse ++
      if c = ' ' then (if blank then [] else [' ']) ++ spellWords true [] cs
      else c :: spellWords false [] cs

/-- The spelling of a brand name. -/
def normalize (brand : String) : String :=
  let cs := stripBoth isBlank brand.toList
  String.ofList <|
    if cs.length ≤ codeLength then cs.flatMap upperChar else spellWords false [] cs

end AgentRules.Brand
