import AgentRules.Range
import AgentRules.Text.Bytes

/-! # Segments of a value

A value is divided into segments: the maximal runs of characters that are not separators, up to the
first terminator. Segments count from one and are given by the places where they start and end.

Runs of segments are cut out in two ways. `range` looks for the two places it needs, scanning the
value anew for each; `rangeOfList` reads them off the list of all segments, which `segments` makes
in one scan and which serves any number of ranges. -/

namespace AgentRules

/-- How a value is divided. -/
inductive Splitting
  /-- At blanks and punctuation, up to an opening parenthesis. -/
  | word
  /-- At the marks between the parts of a version; addresses stay whole. -/
  | version
deriving Repr, DecidableEq

namespace Splitting

open Text

def isSeparator : Splitting → Char → Bool
  | word, c => c ∈ [' ', '\t', '.', ':', ';', '=', '&', '?', '-', '_', '+', '/', '\\', ',']
  | version, c => c ∈ ['.', '_', '-']

def isTerminator : Splitting → Char → Bool
  | word, c => c = '('
  | version, _ => false

/-- Whether a value is divided at all: a version that looks like a web or mail address is not. -/
def divides : Splitting → String → Bool
  | word, _ => true
  | version, value =>
    let cs := value.toList
    !("www.".toList.isPrefixOf cs || "http".toList.isPrefixOf cs ||
      ('@' ∈ cs && '.' ∈ cs))

/-- The separators that divide a given value. -/
def cuts (s : Splitting) (value : String) (c : Char) : Bool := s.divides value && s.isSeparator c

/-! ### Scans -/

/-- The place of the first character that starts at place `n` or later, and the characters from
there on; the scan stands at `place`. -/
def seek (n : Nat) : Nat → List Char → Nat × List Char
  | place, [] => (place, [])
  | place, c :: cs => if n ≤ place then (place, c :: cs) else seek n (place + c.utf8Size) cs

/-- The start of the segment that is `left` segment starts away from `place`; `inside` says that the
scan stands in a segment that has been counted. -/
def startFrom (sep fin : Char → Bool) : Nat → Bool → Nat → List Char → Option Nat
  | _, _, _, [] => none
  | place, inside, left, c :: cs =>
    if fin c then none
    else if sep c then startFrom sep fin (place + c.utf8Size) false left cs
    else if inside then startFrom sep fin (place + c.utf8Size) true left cs
    else if left = 1 then some place
    else startFrom sep fin (place + c.utf8Size) true (left - 1) cs

/-- The end of the segment that starts at `place`. -/
def endFrom (sep fin : Char → Bool) (place : Nat) (cs : List Char) : Nat :=
  place + byteLength (cs.takeWhile fun c => !fin c && !sep c)

/-- The end of the last segment from `place` on; `last` if there is none. -/
def lastEndFrom (sep fin : Char → Bool) : Nat → Nat → List Char → Nat
  | _, last, [] => last
  | place, last, c :: cs =>
    if fin c then last
    else if sep c then lastEndFrom sep fin (place + c.utf8Size) last cs
    else lastEndFrom sep fin (place + c.utf8Size) (place + c.utf8Size) cs

/-- The segments from `place` on; `opened` is the start of a segment that the scan stands in. -/
def segmentsFrom (sep fin : Char → Bool) : Nat → Option Nat → List Char → List (Nat × Nat)
  | place, opened, [] => opened.toList.map (·, place)
  | place, opened, c :: cs =>
    if fin c then opened.toList.map (·, place)
    else if sep c then
      opened.toList.map (·, place) ++ segmentsFrom sep fin (place + c.utf8Size) none cs
    else segmentsFrom sep fin (place + c.utf8Size) (some (opened.getD place)) cs

/-! ### Places of a value -/

/-- The place where the `n`-th segment starts. -/
def segmentStart (s : Splitting) (value : String) (n : Int) : Option Nat :=
  if n ≤ 0 then none
  else startFrom (s.cuts value) s.isTerminator 0 false n.toNat value.toList

/-- The place where the segment that starts at `start` ends; the end of the value if `start` is
beyond it. -/
def segmentEnd (s : Splitting) (value : String) (start : Nat) : Nat :=
  let (place, cs) := seek start 0 value.toList
  endFrom (s.cuts value) s.isTerminator place cs

/-- The place where the last segment from `start` on ends. -/
def lastSegmentEnd (s : Splitting) (value : String) (start : Nat) : Nat :=
  let (place, cs) := seek start 0 value.toList
  lastEndFrom (s.cuts value) s.isTerminator place place cs

/-- The places where the segments start and end, in order. -/
def segments (s : Splitting) (value : String) : List (Nat × Nat) :=
  segmentsFrom (s.cuts value) s.isTerminator 0 none value.toList

/-! ### Cutting out segments -/

def single (s : Splitting) (value : String) (n : Int) : Option String := do
  let start ← s.segmentStart value n
  slice? value start (s.segmentEnd value start)

/-- The value up to the end of the `n`-th segment. -/
def upTo (s : Splitting) (value : String) (n : Int) : Option String := do
  let start ← s.segmentStart value n
  slice? value 0 (s.segmentEnd value start)

/-- The segments from `first` to `last` with what stands between them; up to the last segment if
`last` is `WordRange.toEnd`. -/
def range (s : Splitting) (value : String) (first last : Int) : Option String :=
  if first ≤ 0 ∨ (last ≠ WordRange.toEnd ∧ last < first) then none
  else do
    let start ← s.segmentStart value first
    let stop ←
      if last = WordRange.toEnd then pure (s.lastSegmentEnd value start)
      else (s.segmentStart value last).map (s.segmentEnd value)
    slice? value start stop

/-- The same cut, made at the places that a list of segments gives. -/
def rangeOfList (value : String) (list : List (Nat × Nat)) (first last : Int) : Option String :=
  if first ≤ 0 ∨ (last ≠ WordRange.toEnd ∧ last < first) then none
  else do
    let lastIndex ←
      if last = WordRange.toEnd then (if list.isEmpty then none else some (list.length - 1))
      else some (last - 1).toNat
    let (start, _) ← list[(first - 1).toNat]?
    let (_, stop) ← list[lastIndex]?
    slice? value start stop

end Splitting

end AgentRules
