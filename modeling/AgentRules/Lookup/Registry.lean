import AgentRules.Lookup.Table
import Std.Data.HashSet

/-! # The tables and sets that rules refer to

Rules name tables and sets. Every table is also a set, that of its keys, unless a set of the same
name is written down. -/

namespace AgentRules

/-- A named set of texts. -/
structure LookupSet where
  name : String
  values : Std.HashSet String

namespace LookupSet

def make (name : String) (values : List String) : LookupSet := ⟨name, Std.HashSet.ofList values⟩

def ofTable (t : LookupTable) : LookupSet := make t.name t.keys

def has (s : LookupSet) (text : String) : Bool := s.values.contains text

def size (s : LookupSet) : Nat := s.values.size

end LookupSet

/-- Tables and sets by their names. -/
structure Registry where
  tables : Std.HashMap String LookupTable
  sets : Std.HashMap String LookupSet

namespace Registry

def addTable (r : Registry) (d : TableDefinition) : Except Fault Registry := do
  let t ← LookupTable.ofDefinition d
  if r.tables.contains d.name then throw (.duplicateTable d.name)
  return { r with tables := r.tables.insert d.name t }

def addSet (r : Registry) (d : SetDefinition) : Except Fault Registry :=
  if r.sets.contains d.name then .error (.duplicateSet d.name)
  else .ok { r with sets := r.sets.insert d.name (LookupSet.make d.name d.values) }

/-- The registry with the keys of a table as a set, unless there is a set of its name. -/
def addKeys (r : Registry) (d : TableDefinition) : Registry :=
  match r.tables[d.name]? with
  | some t => { r with sets := r.sets.insertIfNew d.name (LookupSet.ofTable t) }
  | none => r

def ofDefinitions (tables : List TableDefinition) (sets : List SetDefinition) :
    Except Fault Registry := do
  let r ← tables.foldlM addTable ⟨∅, ∅⟩
  let r ← sets.foldlM addSet r
  return tables.foldl addKeys r

def table (r : Registry) (name : String) : Except Fault LookupTable :=
  match r.tables[name]? with
  | some t => .ok t
  | none => .error (.unknownTable name)

def set (r : Registry) (name : String) : Except Fault LookupSet :=
  match r.sets[name]? with
  | some s => .ok s
  | none => .error (.unknownSet name)

end Registry

end AgentRules
