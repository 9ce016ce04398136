import AgentRules.Agent.Grammar
import AgentRules.Agent.Limit
import AgentRules.Analysis.Session
import AgentRules.Analyzer.Config
import AgentRules.Result.Derived
import AgentRules.Rules.BuiltIn
import AgentRules.Rules.Place

/-! # Analyzers

An analyzer is a compiled library with a configuration. It limits a text, makes its tree, applies
the rules to the tree and derives further fields. No text is refused: of a malformed one less is
found. -/

namespace AgentRules

/-- Compiled rules with a configuration. -/
structure Analyzer where
  library : CompiledLibrary
  config : Config

/-- The file name of rules that are given as a document. -/
def inlineName : String := "<inline>"

/-- The rules of an origin, where `placeAt` tells what stands at a path. -/
def RuleOrigin.load (placeAt : String → Place) : RuleOrigin → Except Failure RuleLibrary
  | builtIn => BuiltIn.library.mapError .refused
  | path p => (placeAt p).rules p
  | inline document => (RuleDocument.read inlineName document).mapError .refused

/-- The built-in rules, compiled. -/
def BuiltIn.compiled : Except Fault CompiledLibrary := do
  CompiledLibrary.compile (← BuiltIn.library) SyntaxTree.fewRanges

namespace Analyzer

def ofCompiled (library : CompiledLibrary) (config : Config) : Except Failure Analyzer := do
  config.validate
  return ⟨library, config⟩

def ofRules (rules : RuleLibrary) (config : Config) : Except Failure Analyzer := do
  let library ← (CompiledLibrary.compile rules SyntaxTree.fewRanges).mapError .refused
  ofCompiled library config

def ofConfig (placeAt : String → Place) (config : Config) : Except Failure Analyzer := do
  match config.origin with
  | .builtIn => ofCompiled (← BuiltIn.compiled.mapError .builtIn) config
  | origin => ofRules (← origin.load placeAt) config

/-- What is found before derived fields: that the text is or is not malformed, and what rules
write. -/
def found (source : String) (t : SyntaxTree) (report : Report) : UserAgent :=
  report.writes.foldl (fun u o => u.raise o.field o.value o.confidence)
    (({ source } : UserAgent).raise NodePath.syntaxError t.flag 0)

/-- Analyses a text. -/
def parse (a : Analyzer) (text : String) : Except Failure UserAgent := do
  let source := limitText text a.config.maxLength
  let t ← (Grammar.parse source).mapError .refused
  let report ← (a.library.analyze t a.config.keepsMatches).mapError .refused
  let u := { found source t report with
    matched := report.matched.entries.map fun m => (m.key, m.value) }
  return if a.config.derives then u.derive else u

end Analyzer

end AgentRules
