import AgentRules.Json.Reader
import AgentRules.Json.Writer
import AgentRules.Rules.Library

/-! # Rule documents

A rule document is a JSON value that spells a library. Every record in it is an object, where
unknown members are passed over, or an array of its parts in order, where the last ones may be
missing.

The places of rules are not taken from a document: each rule is placed in the file that is read, by
its index. -/

namespace AgentRules.RuleDocument

/-! ### Parts -/

def text? : Json → Option String
  | .text s => s
  | _ => none

/-- A list whose items are read one by one. -/
def list? {α : Type} (item? : Json → Option α) : Json → Option (List α)
  | .array items => items.mapM item?
  | _ => none

/-- A part that may be missing. -/
def optional? {α : Type} (missing : α) (part? : Json → Option α) : Option Json → Option α
  | none => some missing
  | some j => part? j

/-- A text or nothing. -/
def nullable? : Json → Option (Option String)
  | .null => some none
  | j => (text? j).map some

/-- An object whose members are texts, in order and with any repetitions. -/
def pairs? : Json → Option (List (String × String))
  | .object members => members.mapM fun (k, v) => do return (← k, ← text? v)
  | _ => none

/-- A natural number of 64 bits in plain digits. -/
def index? : Json → Option Nat
  | .number literal =>
    if literal.toList.all Char.isDigit then (Text.readNat64 literal).toOption else none
  | _ => none

/-- The parts of a record by the names of its members. A member that has a name here stands once at
most. -/
def record? (names : List String) : Json → Option (List (Option Json))
  | .array items =>
    if items.length ≤ names.length then some (names.zipIdx.map fun (_, i) => items[i]?) else none
  | .object members => do
    let members ← members.mapM fun (k, v) => do return (← k, v)
    if names.all fun n => members.countP (·.1 = n) ≤ 1 then
      return names.map fun n => members.lookup n
    else none
  | _ => none

/-! ### Records -/

def table? (j : Json) : Option TableDefinition := do
  match ← record? ["name", "map", "default"] j with
  | [some name, some map, default] =>
    return ⟨← text? name, ← pairs? map, ← optional? none nullable? default⟩
  | _ => none

def set? (j : Json) : Option SetDefinition := do
  match ← record? ["name", "values"] j with
  | [some name, some values] => return ⟨← text? name, ← list? text? values⟩
  | _ => none

def source? (j : Json) : Option RuleSource := do
  match ← record? ["file", "index"] j with
  | [some file, some index] => return ⟨← text? file, ← index? index⟩
  | _ => none

def rule? (j : Json) : Option Rule := do
  match ← record? ["source", "require", "extract"] j with
  | [source, require, extract] =>
    return ⟨← optional? {} source? source, ← optional? [] (list? text?) require,
      ← optional? [] (list? text?) extract⟩
  | _ => none

def library? (j : Json) : Option RuleLibrary := do
  match ← record? ["lookups", "sets", "matchers"] j with
  | [lookups, sets, rules] =>
    return ⟨← optional? [] (list? table?) lookups, ← optional? [] (list? set?) sets,
      ← optional? [] (list? rule?) rules⟩
  | _ => none

/-! ### Documents -/

def read (file document : String) : Except Fault RuleLibrary :=
  match (Json.read? document).bind library? with
  | some l => .ok (l.stamp file)
  | none => .error (.document file)

def readBytes (file : String) (bytes : List UInt8) : Except Fault RuleLibrary :=
  match Text.decode bytes with
  | .ok document => read file document
  | .error fault => .error (.notUtf8 file fault)

/-- Reads documents in order and merges them. -/
def readAll (documents : List (String × String)) : Except Fault RuleLibrary :=
  documents.foldlM (fun merged (file, document) => do merged.merge (← read file document)) {}

/-! ### Writing -/

def ofTable (d : TableDefinition) : Json :=
  .ofMembers ([("name", .ofString d.name),
    ("map", .ofMembers (d.map.map fun (k, v) => (k, .ofString v)))] ++
    d.default.toList.map fun v => ("default", .ofString v))

def ofSet (d : SetDefinition) : Json :=
  .ofMembers [("name", .ofString d.name), ("values", .ofStrings d.values)]

def ofRule (r : Rule) : Json :=
  .ofMembers [("require", .ofStrings r.require), ("extract", .ofStrings r.extract)]

def ofLibrary (l : RuleLibrary) : Json :=
  .ofMembers [("lookups", .array (l.lookups.map ofTable)), ("sets", .array (l.sets.map ofSet)),
    ("matchers", .array (l.rules.map ofRule))]

def write (l : RuleLibrary) : String := (ofLibrary l).compact

end AgentRules.RuleDocument
