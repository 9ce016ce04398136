import AgentRules.Analyzer.Failure
import AgentRules.Rules.Document

/-! # Rules in files

Rules are read from a file, or from those files of a folder that have the right extension, in the
order of their names. What stands at a path is a value here, so that reading rules is a function of
it. -/

namespace AgentRules

/-- What stands at a path. -/
inductive Place
  | missing
  | file (bytes : List UInt8)
  | folder (entries : List (String × Place))

namespace Place

/-- Whether a name in a folder is that of a rule file: it has the extension and more. -/
def isRuleFile (name : String) : Bool :=
  ".json".toList.isSuffixOf name.toList && ".json".length < name.length

def join (path name : String) : String :=
  if path.toList.isEmpty || path.toList.getLast? = some '/' then path ++ name
  else path ++ "/" ++ name

/-- The text of a file. -/
def text (path : String) : Place → Except Failure String
  | missing => .error (.unreadable path .notFound)
  | folder _ => .error (.unreadable path .isFolder)
  | file bytes =>
    match Text.decode bytes with
    | .ok text => .ok text
    | .error _ => .error (.unreadable path .notUtf8)

/-- The rule files at a path, with their paths. -/
def ruleFiles (path : String) : Place → List (String × Place)
  | folder entries =>
    ((entries.filter (isRuleFile ·.1)).mergeSort fun a b => a.1 ≤ b.1).map fun (name, place) =>
      (join path name, place)
  | place => [(path, place)]

/-- The rules at a path. -/
def rules (path : String) (place : Place) : Except Failure RuleLibrary := do
  let files := place.ruleFiles path
  if files.isEmpty then throw (.noRuleFiles path)
  let documents ← files.mapM fun (path, place) => do return (path, ← place.text path)
  (RuleDocument.readAll documents).mapError .refused

end Place

end AgentRules
