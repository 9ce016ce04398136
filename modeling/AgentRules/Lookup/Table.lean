import AgentRules.Rules.Library
import Std.Data.HashMap

/-! # Lookup tables

A table maps keys to values, case by case and key by key. It also finds the longest of its keys that
a text starts with: keys are kept in buckets by their first characters, so only the keys in a few
buckets are compared with the text. -/

namespace AgentRules

/-- How many leading characters a bucket or a short index key is made of. -/
def headLength : Nat := 3

def headOf (s : String) (n : Nat) : String := String.ofList (s.toList.take n)

/-- A table with its keys distinct. -/
structure LookupTable where
  name : String
  /-- The entries in the order in which they were written down. -/
  entries : List (String × String)
  default : Option String
  /-- The value of each key. -/
  index : Std.HashMap String String
  /-- The entries by the head of their key, the last one first. -/
  buckets : Std.HashMap String (List (String × String))

namespace LookupTable

def empty (name : String) (default : Option String) : LookupTable := ⟨name, [], default, ∅, ∅⟩

/-- The table with one entry more, if its key is new. -/
def add (t : LookupTable) (entry : String × String) : Except Fault LookupTable :=
  if t.index.contains entry.1 then .error (.duplicateKey t.name entry.1)
  else
    let head := headOf entry.1 headLength
    .ok { t with
      index := t.index.insert entry.1 entry.2
      buckets := t.buckets.insert head (entry :: t.buckets.getD head []) }

def make (name : String) (entries : List (String × String)) (default : Option String) :
    Except Fault LookupTable := do
  let t ← entries.foldlM add (empty name default)
  return { t with entries := entries }

def ofDefinition (d : TableDefinition) : Except Fault LookupTable := make d.name d.map d.default

def keys (t : LookupTable) : List String := t.entries.map (·.1)

def get? (t : LookupTable) (key : String) : Option String := t.index[key]?

/-- The value of a key, or what the table gives for any other. -/
def getOrDefault? (t : LookupTable) (key : String) : Option String := (t.get? key).or t.default

/-- The better of two entries: the new one if its key starts the text and is longer. -/
def better (text : String) (best : Option (String × String)) (entry : String × String) :
    Option (String × String) :=
  if entry.1.toList.isPrefixOf text.toList && best.all (fun b => b.1.length < entry.1.length) then
    some entry
  else best

/-- The entry with the longest key that a text starts with. -/
def longestHead? (t : LookupTable) (text : String) : Option (String × String) :=
  (List.range (min text.length headLength + 1)).foldl
    (fun best n => (t.buckets.getD (headOf text n) []).foldl (better text) best) none

def hasHead (t : LookupTable) (text : String) : Bool := (t.longestHead? text).isSome

end LookupTable

end AgentRules
