import AgentRules.Brand
import AgentRules.Lookup.Registry
import AgentRules.Text.AsciiFold
import AgentRules.Tree.View
import AgentRules.VersionText

/-! # Steps of a chain

A chain is run from a node of a syntax tree, with a value. Its steps come in four sorts: a *move*
goes to one other node and takes its text as the value, going *down* tries several children, a
*test* lets the value pass or not, and a *change* makes a new value of it. A mark at the start of a
chain says that the chain must not succeed; the chain itself passes over it. -/

namespace AgentRules

open Text

/-- A step to one node, whose text becomes the value. -/
inductive Move
  | up
  | next (count : Nat)
  | prev (count : Nat)
  | backToFull

/-- A condition on the value. -/
inductive Test
  | equals (text : String)
  | differs (text : String)
  | startsWith (text : String)
  | endsWith (text : String)
  | contains (text : String)
  | inSet (set : LookupSet)
  | inTableByHead (table : LookupTable)

/-- A new value made of the value. -/
inductive Change
  | words (range : WordRange)
  | lookup (table : LookupTable) (default : Option String)
  | lookupByHead (table : LookupTable) (default : Option String)
  | cleanVersion
  | normalizeBrand
  | concat (before after : String)
  | concatBefore (text : String)
  | concatAfter (text : String)

/-- A step of a chain. -/
inductive Step
  | isNull
  | move (move : Move)
  | down (range : IndexRange) (name : String)
  | test (test : Test)
  | change (change : Change)

/-! ### What the sorts of steps do -/

def Move.target (t : SyntaxTree) (node : Nat) : Move → Option Nat
  | up => t.semanticParent node
  | next count => t.sibling node count
  | prev count => t.sibling node (-(count : Int))
  | backToFull => some node

/-- Whether a value passes. Equality and affixes are compared up to ASCII case, containment in
lower case, membership as it is. -/
def Test.accepts (value : String) : Test → Bool
  | equals text => equalFold value text
  | differs text => !equalFold value text
  | startsWith text => startsFold value text
  | endsWith text => endsFold value text
  | contains text => occursIn (lower text).toList (lower value).toList
  | inSet set => set.has value
  | inTableByHead table => table.hasHead value

/-- The new value. A lookup falls back on the default of the step, then on that of the table. -/
def Change.apply (value : String) : Change → Option String
  | words range => Splitting.word.range value range.first range.last
  | lookup table default => ((table.get? value).or default).or table.default
  | lookupByHead table default =>
    (((table.longestHead? value).map (·.2)).or default).or table.default
  | cleanVersion => some (VersionText.clean value)
  | normalizeBrand => some (Brand.normalize value)
  | concat before after => some (before ++ value ++ after)
  | concatBefore text => some (text ++ value)
  | concatAfter text => some (value ++ text)

/-- The children that going down tries, in order. They are numbered by a common count, so the search
ends at the first of the name beyond the range. -/
def SyntaxTree.candidates (t : SyntaxTree) (node : Nat) (range : IndexRange) (name : String) :
    List Nat :=
  ((((t.pathChildren node).filter (·.name = name)).takeWhile (·.index ≤ range.stop)).filter
    (range.start ≤ ·.index)).map (·.node)

/-! ### Steps that cannot fail -/

/-- Whether some value has no image. -/
def Change.canFail : Change → Bool
  | words _ => true
  | lookup table default | lookupByHead table default => default.isNone && table.default.isNone
  | _ => false

/-- Whether the step can end a walk. -/
def Step.canFail : Step → Bool
  | move .backToFull => false
  | change c => c.canFail
  | _ => true

/-! ### The text of a step -/

def describeDefault : Option String → String
  | some value => s!" ; default={value}"
  | none => " ; default=null"

/-- The text of a move. -/
def Move.describe : Move → String
  | up => "Up()"
  | next 1 => "Next()"
  | next count => s!"Next({count})"
  | prev 1 => "Prev()"
  | prev count => s!"Prev({count})"
  | backToFull => "BackToFull()"

/-- The text of a test. -/
def Test.describe : Test → String
  | equals text => s!"Equals({text})"
  | differs text => s!"NotEquals({text})"
  | startsWith text => s!"StartsWith({text})"
  | endsWith text => s!"EndsWith({text})"
  | contains text => s!"Contains({text})"
  | inSet set => s!"IsInSet(@{set.name})"
  | inTableByHead table => s!"IsInLookUpPrefix(@{table.name})"

/-- The text of a change. -/
def Change.describe : Change → String
  | words range => s!"WordRange({range.stepForm})"
  | lookup table default => s!"Lookup(@{table.name}{describeDefault default})"
  | lookupByHead table default => s!"LookupPrefix(@{table.name}{describeDefault default})"
  | cleanVersion => "CleanVersion()"
  | normalizeBrand => "NormalizeBrand()"
  | concat before after => s!"Concat({before};{after})"
  | concatBefore text => s!"ConcatPrefix({text})"
  | concatAfter text => s!"ConcatPostfix({text})"

def Step.describe : Step → String
  | isNull => "IsNull()"
  | move m => m.describe
  | down range name => s!"Down({range.stepForm}{name})"
  | test t => t.describe
  | change c => c.describe

end AgentRules
