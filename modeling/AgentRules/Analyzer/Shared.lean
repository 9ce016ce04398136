import AgentRules.Analyzer.Basic

/-! # The shared analyzer

A program can share one analyzer. It is made once, by asking for it or beforehand, and stays: to
make it again changes nothing. Each operation gives the state behind it. -/

namespace AgentRules

/-- The shared analyzer, if it has been made. -/
abbrev Shared := Option Analyzer

namespace Shared

def init (placeAt : String → Place) (config : Config) : Shared → Except Failure Shared
  | some a => .ok (some a)
  | none => ((Analyzer.ofConfig placeAt config).mapError (.initialization false)).map some

def initWithRules (rules : RuleLibrary) (config : Config) : Shared → Except Failure Shared
  | some a => .ok (some a)
  | none => ((Analyzer.ofRules rules config).mapError (.initialization true)).map some

/-- The analyzer, which is made with the built-in rules if there is none. -/
def get (placeAt : String → Place) : Shared → Except Failure Analyzer
  | some a => .ok a
  | none => Analyzer.ofConfig placeAt {}

def initialized : Shared → Except Failure Analyzer
  | some a => .ok a
  | none => .error .notInitialized

end Shared

end AgentRules
