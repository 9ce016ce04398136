import AgentRules.Fault

/-! # Matches

The matches of an analysis are counted, and kept one by one if that is asked for. There is a limit
to their number, and it is an error of the rules' compilation to pass it. -/

namespace AgentRules

/-- A key that matched, the value that came out and the node where it was found. -/
structure Match where
  key : String
  value : String
  node : Nat
deriving Repr, DecidableEq

/-- The matches so far, the last one first. -/
structure Matches where
  capacity : Nat
  keep : Bool
  count : Nat := 0
  kept : List Match := []
deriving Repr, DecidableEq

namespace Matches

def add (m : Matches) (entry : Match) : Except Fault Matches :=
  if m.capacity ≤ m.count then .error (.matchOverflow m.capacity entry.key)
  else .ok { m with count := m.count + 1, kept := if m.keep then entry :: m.kept else m.kept }

def clear (m : Matches) : Matches := { m with count := 0, kept := [] }

def entries (m : Matches) : List Match := m.kept.reverse

end Matches

end AgentRules
