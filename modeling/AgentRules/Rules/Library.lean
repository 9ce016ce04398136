import AgentRules.Fault

/-! # Rule libraries

A rule library holds lookup tables, sets and rules, as they are written down. Tables have names of
their own and so have sets; `merge` puts two libraries together and keeps that so. -/

namespace AgentRules

/-- A lookup table: its entries in order, and what it gives for any other key. -/
structure TableDefinition where
  name : String
  map : List (String × String) := []
  default : Option String := none
deriving Repr, DecidableEq

/-- A set of texts. -/
structure SetDefinition where
  name : String
  values : List String := []
deriving Repr, DecidableEq

/-- A rule: the expressions that have to hold, and the lines that say what is written then. -/
structure Rule where
  source : RuleSource := {}
  require : List String := []
  extract : List String := []
deriving Repr, DecidableEq

/-- Tables, sets and rules. -/
structure RuleLibrary where
  lookups : List TableDefinition := []
  sets : List SetDefinition := []
  rules : List Rule := []
deriving Repr, DecidableEq

/-- The first name that repeats an earlier one or one of those known. -/
def firstRepeat? (known : List String) : List String → Option String
  | [] => none
  | n :: ns => if n ∈ known then some n else firstRepeat? (n :: known) ns

namespace RuleLibrary

def isEmpty (l : RuleLibrary) : Bool := l.lookups.isEmpty && l.sets.isEmpty && l.rules.isEmpty

def tableNames (l : RuleLibrary) : List String := l.lookups.map (·.name)

def setNames (l : RuleLibrary) : List String := l.sets.map (·.name)

/-- The library followed by another one, if no name of that one is taken. -/
def merge (a b : RuleLibrary) : Except Fault RuleLibrary :=
  match firstRepeat? a.tableNames b.tableNames, firstRepeat? a.setNames b.setNames with
  | some name, _ => .error (.duplicateTable name)
  | none, some name => .error (.duplicateSet name)
  | none, none => .ok ⟨a.lookups ++ b.lookups, a.sets ++ b.sets, a.rules ++ b.rules⟩

/-- The library with its rules placed in a file, by their indices. -/
def stamp (file : String) (l : RuleLibrary) : RuleLibrary :=
  { l with rules := l.rules.mapIdx fun i r => { r with source := ⟨file, i⟩ } }

end RuleLibrary

end AgentRules
