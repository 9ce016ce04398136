import AgentRules.Text.CaseRuns
import AgentRules.Text.LetterRuns

/-! # Upper and lower case

Case mappings of whole texts. Lower-casing looks at the neighbours of one character, the capital
sigma: it becomes a final sigma behind a cased letter and not before one, where characters that
casing ignores are looked past in both directions. Everything else is mapped character by character.

ASCII characters never reach the tables, so facts about them hold without looking into those. -/

namespace AgentRules.Text

def isUpperLetter (c : Char) : Bool :=
  if c.val < 128 then c.isUpper else CodeRun.anyHas upperLetterRuns c.toNat

/-- Whether a character is a letter of upper, lower or title case. -/
def isCased (c : Char) : Bool :=
  if c.val < 128 then c.isAlpha else CodeRun.anyHas casedRuns c.toNat

/-- Whether casing looks past a character. -/
def isIgnorable (c : Char) : Bool :=
  if c.val < 128 then c == '\x27' || c == '.' || c == ':' || c == '^' || c == '\x60'
  else CodeRun.anyHas ignorableRuns c.toNat

/-- The lower-case form of one character, without regard to its neighbours. -/
def lowerChar (c : Char) : List Char :=
  if c.val < 128 then [c.toLower]
  else if c.toNat = 0x130 then ['i', Char.ofNat 0x307]
  else [Char.ofNat (CaseRun.image lowerRuns c.toNat)]

/-- The upper-case form of one character. -/
def upperChar (c : Char) : List Char :=
  if c.val < 128 then [c.toUpper]
  else match upperExpansions.find? (·.1 = c.toNat) with
    | some (_, codes) => codes.map Char.ofNat
    | none => [Char.ofNat (CaseRun.image upperRuns c.toNat)]

def capitalSigma : Char := Char.ofNat 0x3A3

def finalSigma : Char := Char.ofNat 0x3C2

/-- Whether the first character that casing does not ignore is a cased letter. -/
def startsCased (cs : List Char) : Bool :=
  match cs.dropWhile isIgnorable with
  | [] => false
  | c :: _ => isCased c

/-- Whether the place behind `c` is behind a cased letter; `before` says so of the place before. -/
def stillCased (before : Bool) (c : Char) : Bool := if isIgnorable c then before else isCased c

/-- The lower-case form of a text that stands behind a cased letter if `before` says so. -/
def lowerFrom (before : Bool) : List Char → List Char
  | [] => []
  | c :: cs =>
    (if c = capitalSigma && before && !startsCased cs then [finalSigma] else lowerChar c) ++
      lowerFrom (stillCased before c) cs

def lower (s : String) : String := String.ofList (lowerFrom false s.toList)

def upper (s : String) : String := String.ofList (s.toList.flatMap upperChar)

end AgentRules.Text
