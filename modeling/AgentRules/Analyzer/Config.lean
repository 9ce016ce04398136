import AgentRules.Analyzer.Failure

/-! # Configuration

Where the rules come from, and how texts are analysed with them. -/

namespace AgentRules

/-- Where rules come from. -/
inductive RuleOrigin
  | builtIn
  /-- A file, or the rule files of a folder. -/
  | path (path : String)
  /-- A document. -/
  | inline (document : String)
deriving Repr, DecidableEq

/-- How an analyzer works. -/
structure Config where
  origin : RuleOrigin := .builtIn
  /-- The number of bytes up to which a text is analysed. -/
  maxLength : Nat := 2048
  /-- Whether derived fields are made. -/
  derives : Bool := true
  /-- Whether matches are kept. -/
  keepsMatches : Bool := false
deriving Repr, DecidableEq

def Config.validate (c : Config) : Except Failure Unit :=
  if c.maxLength = 0 then .error .zeroLength else .ok ()

end AgentRules
