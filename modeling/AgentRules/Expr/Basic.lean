import AgentRules.Range

/-! # Path expressions

A path expression names places in the syntax tree of an agent text and says which value is taken
there. It starts at a named root, or at a function applied to another expression, and goes on in
steps: to child nodes, to other nodes, to a part of the value, or through a condition on it. A
quoted text is an expression too and stands for itself. -/

namespace AgentRules

/-- The child indices that a step names. -/
inductive IndexSpec
  /-- Every index. -/
  | all
  /-- One index. -/
  | single (n : Nat)
  /-- A closed range. -/
  | between (first last : Nat)
  /-- A range without an end. -/
  | onward (first : Nat)
  /-- A range without a start. -/
  | upTo (last : Nat)
deriving Repr, DecidableEq

/-- The indices that are meant for children of a name, where `maxIndex` ends an open range. -/
def IndexSpec.resolve (name : String) : IndexSpec → IndexRange
  | all => ⟨1, maxIndex name⟩
  | single n => ⟨n, n⟩
  | between first last => ⟨first, last⟩
  | onward first => ⟨first, maxIndex name⟩
  | upTo last => ⟨1, last⟩

def IndexSpec.describe : IndexSpec → String
  | all => "All"
  | single n => s!"Exact({n})"
  | between first last => s!"Between({first}, {last})"
  | onward first => s!"From({first})"
  | upTo last => s!"UpTo({last})"

/-- A step of a path. -/
inductive PathStep
  | down (indices : IndexSpec) (name : String)
  | up
  | next (count : Nat)
  | prev (count : Nat)
  | backToFull
  | words (range : WordRange)
  | equals (text : String)
  | differs (text : String)
  | startsWith (text : String)
  | endsWith (text : String)
  | contains (text : String)
  | inSet (set : String)
  | lookup (table : String) (default : Option String)
deriving Repr, DecidableEq

/-- A function that wraps an expression. -/
inductive Wrapper
  | isNull
  | cleanVersion
  | normalizeBrand
  | concat (before after : Option String)
  | lookup (table : String) (default : Option String)
  | lookupByHead (table : String) (default : Option String)
  | inTableByHead (table : String)
deriving Repr, DecidableEq

/-- A path expression. -/
inductive Expr
  /-- A quoted text. -/
  | fixed (text : String)
  /-- A path that starts at a root. -/
  | path (root : String) (steps : List PathStep)
  /-- A path that starts at the value of a function. -/
  | wrapped (wrapper : Wrapper) (inner : Expr) (steps : List PathStep)
deriving Repr, DecidableEq

end AgentRules
