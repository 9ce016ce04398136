import AgentRules.Index.Compile

/-! # Actions and compiled rules

Each expression of a rule that looks at the tree becomes an action. A rule refers to its actions by
their numbers and keeps the values that it writes without looking. -/

namespace AgentRules

/-- What an action is for. -/
inductive Role
  /-- The rule needs a match; if `isNull`, it needs that there is none. -/
  | require (isNull : Bool)
  /-- The rule writes the value into a field. -/
  | extract (field : String) (confidence : Int)
deriving Repr, DecidableEq

/-- A compiled expression of a rule. -/
structure Action where
  /-- The number of the rule. -/
  rule : Nat
  role : Role
  path : CompiledPath

/-- A value that a rule writes whatever the tree is. -/
structure FixedExtract where
  field : String
  confidence : Int
  value : String
deriving Repr, DecidableEq

/-- A rule with its actions. -/
structure CompiledRule where
  source : RuleSource
  require : List Nat := []
  extract : List Nat := []
  fixed : List FixedExtract := []
deriving Repr, DecidableEq

def Action.isNullRequirement (a : Action) : Bool := a.role = .require true

/-- Whether a rule can hold though nothing is found for it. -/
def CompiledRule.isZeroInput (rule : CompiledRule) (actions : Array Action) : Bool :=
  rule.extract.isEmpty && rule.require.all fun id => actions[id]?.any (·.isNullRequirement)

end AgentRules
