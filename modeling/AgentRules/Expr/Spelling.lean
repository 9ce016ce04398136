import AgentRules.Expr.Parser

/-! # Spelling expressions

Every expression has one canonical text. It has no blanks, a step down always has its indices, a run
of segments its dash, and the names of tables stand in quotes as all other texts do. -/

namespace AgentRules

/-- A character in quotes; a mark or a backslash has a backslash in front. -/
def escaped (c : Char) : List Char := if c = '"' ∨ c = '\\' then ['\\', c] else [c]

def quote (text : String) : List Char := '"' :: (text.toList.flatMap escaped ++ ['"'])

def digits (n : Nat) : List Char := n.repr.toList

def IndexSpec.spelling : IndexSpec → List Char
  | all => ['*']
  | single n => digits n
  | between first last => digits first ++ '-' :: digits last
  | onward first => digits first ++ ['-']
  | upTo last => '-' :: digits last

/-- The last argument of a function or a lookup, if there is one. -/
def spellLast : Option String → List Char
  | some text => ';' :: quote text
  | none => []

/-- A step of a path. -/
def PathStep.spelling : PathStep → List Char
  | down indices name => '.' :: '(' :: (indices.spelling ++ ')' :: name.toList)
  | up => ['^']
  | next count => List.replicate count '>'
  | prev count => List.replicate count '<'
  | backToFull => ['@']
  | words range => range.pathForm.toList
  | equals text => '=' :: quote text
  | differs text => '!' :: '=' :: quote text
  | startsWith text => '^' :: '=' :: quote text
  | endsWith text => '$' :: '=' :: quote text
  | contains text => '~' :: '=' :: quote text
  | inSet set => '@' :: '{' :: (quote set ++ ['}'])
  | lookup table default => '{' :: (quote table ++ (spellLast default ++ ['}']))

namespace Wrapper

/-- The function that a wrapper applies. -/
def function : Wrapper → Expr.Function
  | isNull => .isNull
  | cleanVersion => .cleanVersion
  | normalizeBrand => .normalizeBrand
  | concat _ _ => .concat
  | lookup _ _ => .lookup
  | lookupByHead _ _ => .lookupByHead
  | inTableByHead _ => .inTableByHead

def front : Wrapper → Option String
  | concat before _ => before
  | lookup table _ | lookupByHead table _ | inTableByHead table => some table
  | _ => none

def last : Wrapper → Option String
  | concat _ after => after
  | lookup _ default | lookupByHead _ default => default
  | _ => none

end Wrapper

/-- The name of a function. -/
def Expr.Function.name : Expr.Function → String
  | isNull => "IsNull"
  | cleanVersion => "CleanVersion"
  | normalizeBrand => "NormalizeBrand"
  | concat => "Concat"
  | lookup => "LookUp"
  | lookupByHead => "LookUpPrefix"
  | inTableByHead => "IsInLookUpPrefix"

/-- The first argument of a function, if there is one. -/
def spellFront : Option String → List Char
  | some text => quote text ++ [';']
  | none => []

namespace Expr

def spelling : Expr → List Char
  | .fixed text => quote text
  | .path root steps => root.toList ++ steps.flatMap (·.spelling)
  | .wrapped w inner steps =>
    w.function.name.toList ++ '[' :: (spellFront w.front ++ (inner.spelling ++
      (spellLast w.last ++ ']' :: steps.flatMap (·.spelling))))

/-- The canonical text of an expression. -/
def spell (e : Expr) : String := String.ofList e.spelling

end Expr

end AgentRules
