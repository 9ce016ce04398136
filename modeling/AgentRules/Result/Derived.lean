import AgentRules.Result.UserAgent
import AgentRules.Segment

/-! # Derived fields

Some fields are made of others once the rules are done: the first part of a version, and a name with
a version behind it. They are as sure as what they are made of and give way to a value from the
rules that is as sure. -/

namespace AgentRules

/-- How a field is made. -/
inductive Derivation
  /-- The first segment of a version. -/
  | major (version : String)
  /-- A name and a version with a blank between them. -/
  | nameVersion (name version : String)
deriving Repr, DecidableEq

namespace UserAgent

/-- The derived fields, each behind those that it is made of. -/
def derivations : List (String × Derivation) := [
  ("AgentVersionMajor", .major "AgentVersion"),
  ("OperatingSystemVersionMajor", .major "OperatingSystemVersion"),
  ("LayoutEngineVersionMajor", .major "LayoutEngineVersion"),
  ("AgentNameVersion", .nameVersion "AgentName" "AgentVersion"),
  ("AgentNameVersionMajor", .nameVersion "AgentName" "AgentVersionMajor"),
  ("OperatingSystemNameVersion", .nameVersion "OperatingSystemName" "OperatingSystemVersion")]

/-- The value that a derivation gives, if what it is made of is known. -/
def derived? (u : UserAgent) : Derivation → Option Field
  | .major version =>
    if u.isKnown version then
      (Splitting.version.single (u.value version) 1).map fun v => ⟨v, u.confidence version⟩
    else none
  | .nameVersion name version =>
    if u.isKnown name && u.isKnown version then
      some ⟨u.value name ++ " " ++ u.value version, max (u.confidence name) (u.confidence version)⟩
    else none

/-- The result with one derived field. -/
def deriveField (u : UserAgent) (d : String × Derivation) : UserAgent :=
  match u.derived? d.2 with
  | some f => u.raise d.1 f.value f.confidence
  | none => u

/-- The result with its derived fields. -/
def derive (u : UserAgent) : UserAgent := derivations.foldl deriveField u

end UserAgent

end AgentRules
