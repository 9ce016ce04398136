import AgentRules.Expr.Basic
import AgentRules.Text.Numeral
import AgentRules.Text.Utf8

/-! # What can be wrong with rules, expressions and trees

Every refusal is a cause with the data it needs, and `message` is its wording. A cause found while a
rule is put together is wrapped once in the place of that rule. -/

namespace AgentRules

open Text

/-- Where a rule stands: the file and the index in it. -/
structure RuleSource where
  file : String := ""
  index : Nat := 0
deriving Repr, DecidableEq

def RuleSource.describe (s : RuleSource) : String :=
  if s.file = "" then s!"<inline>#{s.index}" else s!"{s.file}#{s.index}"

/-- What is wrong at a place of an expression. -/
inductive Complaint
  | expected (c : Char)
  | expectedName
  | expectedNumber
  | expectedEquals
  | badNumber (fault : NumeralFault)
  | unterminated
  | unexpected (code : Nat)
  | trailing
  | indexRange
  | wordRange (fault : WordRangeFault)
  | wordIndex (n : Nat)
deriving Repr, DecidableEq

/-- The wording of the complaint. An unexpected byte is shown as the character with its code. -/
def Complaint.message : Complaint → String
  | expected c => s!"expected `{c}`"
  | expectedName => "expected a name"
  | expectedNumber => "expected a number"
  | expectedEquals => "expected `=` after comparison operator"
  | badNumber fault => s!"invalid number: {fault.message}"
  | unterminated => "unterminated string literal"
  | unexpected code => s!"unexpected character `{Char.ofNat code}`"
  | trailing => "unexpected trailing input"
  | indexRange => "child range must be 1-based and ascending"
  | wordRange fault => s!"Invalid input: {fault.message}"
  | wordIndex n => s!"word index {n} is too large"

/-- Why rules, an expression or a tree are refused. -/
inductive Fault
  /-- A document is not of the form of a rule document. -/
  | document (file : String)
  | notUtf8 (file : String) (fault : Utf8Fault)
  | extractShape (line : String)
  | fieldName (name line : String)
  | confidence (line : String) (fault : NumeralFault)
  | emptyExpression (line : String)
  /-- An expression cannot be read from a place on. -/
  | path (expression : String) (offset : Nat) (complaint : Complaint)
  /-- A rule writes nothing. -/
  | noExtract
  /-- Something is wrong with a rule. -/
  | rule (source : RuleSource) (cause : Fault)
  | unknownTable (name : String)
  | unknownSet (name : String)
  | duplicateKey (table key : String)
  | duplicateTable (name : String)
  | duplicateSet (name : String)
  | wordRange (fault : WordRangeFault)
  | emptyIndexRange (indices : IndexSpec) (name : String) (last : Nat)
  | fixedRequirement (expression : String)
  | isNullExtract (expression : String)
  | fixedInside (text : String)
  | isNullInside
  | concatEmpty
  | agentBelowRoot
  | unknownParent (id : Nat)
  | unknownNode (id : Nat)
  | span (start stop : Nat)
  /-- More matches arise in an analysis than the rules allow for. -/
  | matchOverflow (capacity : Nat) (key : String)
deriving Repr, DecidableEq

namespace Fault

/-- The wording of the fault. -/
def message : Fault → String
  | document file => s!"Rule parse failed: {file}: <json>"
  | notUtf8 file fault => s!"Rule parse failed: {file}: not UTF-8: {fault.message}"
  | extractShape line =>
    s!"Rule parse failed: extract `{line}` must look like `Field : confidence : expression`"
  | fieldName name line => s!"Rule parse failed: invalid field name `{name}` in extract `{line}`"
  | confidence line fault =>
    s!"Rule parse failed: invalid confidence in extract `{line}`: {fault.message}"
  | emptyExpression line => s!"Rule parse failed: empty expression in extract `{line}`"
  | path expression offset complaint =>
    s!"Invalid path expression `{expression}` at offset {offset}: {complaint.message}"
  | noExtract => "matcher has no extract"
  | rule source cause => s!"Invalid rule {source.describe}: {cause.message}"
  | unknownTable name => s!"Unknown lookup table `{name}`"
  | unknownSet name => s!"Unknown lookup set `{name}`"
  | duplicateKey table key => s!"Duplicate key `{key}` in lookup `{table}`"
  | duplicateTable name => s!"Duplicate definition of `lookup {name}`"
  | duplicateSet name => s!"Duplicate definition of `set {name}`"
  | wordRange fault => s!"Invalid input: {fault.message}"
  | emptyIndexRange indices name last =>
    s!"Invalid input: child range {indices.describe} of `{name}` is empty " ++
      s!"(maximum index is {last})"
  | fixedRequirement expression =>
    s!"Invalid input: fixed value `{expression}` cannot be used as a requirement"
  | isNullExtract expression =>
    s!"Invalid input: IsNull is only meaningful in a requirement: `{expression}`"
  | fixedInside text =>
    s!"Invalid input: fixed value \"{text}\" cannot be used inside a function"
  | isNullInside => "Invalid input: IsNull must be the outermost function"
  | concatEmpty => "Invalid input: Concat needs a prefix or a postfix"
  | agentBelowRoot => "Invalid input: agent node can only be the root"
  | unknownParent id => s!"Invalid input: unknown parent node {id}"
  | unknownNode id => s!"Invalid input: unknown node {id}"
  | span start stop => s!"Invalid input: span {start}..{stop} is outside the source text"
  | matchOverflow capacity key =>
    "Core invariant violation: matches list overflow: " ++
      s!"capacity {capacity} exceeded while adding `{key}`"

/-- The fault as one of a rule, which it stays if it is one already. -/
def within (source : RuleSource) : Fault → Fault
  | rule inner cause => rule inner cause
  | cause => rule source cause

end Fault

end AgentRules
