/-! # Runs of code points

A property of characters, or a mapping of characters, is stored as a list of runs. A run names every
`stride`-th code point from `first` to `last`; a run that maps also names the image of `first`, and
the other members keep their distance from it. -/

namespace AgentRules.Text

/-- Every `stride`-th code point from `first` to `last`. -/
structure CodeRun where
  first : Nat
  last : Nat
  stride : Nat
deriving Repr, DecidableEq

def CodeRun.has (r : CodeRun) (code : Nat) : Bool :=
  r.first ≤ code && code ≤ r.last && (code - r.first) % r.stride == 0

/-- A run of code points, moved so that its first member lands on `target`. -/
structure CaseRun where
  source : CodeRun
  target : Nat
deriving Repr, DecidableEq

/-- The image of a code point under the first run it is a member of; itself if there is none. -/
def CaseRun.image (runs : List CaseRun) (code : Nat) : Nat :=
  match runs.find? (·.source.has code) with
  | some r => r.target + (code - r.source.first)
  | none => code

/-- Whether a code point is a member of one of the runs. -/
def CodeRun.anyHas (runs : List CodeRun) (code : Nat) : Bool := runs.any (·.has code)

end AgentRules.Text
