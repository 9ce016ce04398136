import AgentRules.Fault
import AgentRules.Text.Bytes
import AgentRules.Tree.Kind

/-! # Syntax trees

The nodes of a syntax tree stand in an array in the order in which they were added; node `0` is the
root and covers the whole source. A node knows its parent, its children in order, and the places of
the source where it starts and ends.

A tree is built by three operations. `add?` hangs a node under an earlier one, `setStop?` moves the
end of a node, and `markSyntaxError` notes that the source is malformed. The first two refuse what
would break the tree. -/

namespace AgentRules

/-- A node of a syntax tree. -/
structure Node where
  kind : NodeKind
  parent : Option Nat
  children : Array Nat
  start : Nat
  stop : Nat
deriving Repr, DecidableEq

/-- A text with its nodes. -/
structure SyntaxTree where
  source : String
  nodes : Array Node
  syntaxError : Bool
deriving Repr, DecidableEq

namespace SyntaxTree

/-! ### Building -/

def ofSource (source : String) : SyntaxTree :=
  ⟨source, #[⟨.agent, none, #[], 0, Text.size source⟩], false⟩

/-- Whether two places of the source are boundaries in this order. -/
def isSpan (t : SyntaxTree) (start stop : Nat) : Bool :=
  start ≤ stop && Text.isBoundary t.source start && Text.isBoundary t.source stop

/-- The tree with a new last node under `parent`, whose number is the old size. -/
def add? (t : SyntaxTree) (parent : Nat) (kind : NodeKind) (start stop : Nat) :
    Except Fault SyntaxTree :=
  if kind = .agent then .error .agentBelowRoot
  else if t.nodes.size ≤ parent then .error (.unknownParent parent)
  else if !t.isSpan start stop then .error (.span start stop)
  else
    let nodes := t.nodes.modify parent fun n => { n with children := n.children.push t.nodes.size }
    .ok { t with nodes := nodes.push ⟨kind, some parent, #[], start, stop⟩ }

/-- The tree with the end of a node moved. -/
def setStop? (t : SyntaxTree) (id stop : Nat) : Except Fault SyntaxTree :=
  match t.nodes[id]? with
  | none => .error (.unknownNode id)
  | some n =>
    if !t.isSpan n.start stop then .error (.span n.start stop)
    else .ok { t with nodes := t.nodes.modify id fun n => { n with stop := stop } }

/-- The tree with its source known to be malformed. -/
def markSyntaxError (t : SyntaxTree) : SyntaxTree := { t with syntaxError := true }

/-! ### Reading -/

def size (t : SyntaxTree) : Nat := t.nodes.size

/-- The kind of a node; a separator stands in for a node that is not there. -/
def kind (t : SyntaxTree) (id : Nat) : NodeKind :=
  match t.nodes[id]? with
  | some n => n.kind
  | none => .separator

def flag (t : SyntaxTree) : String := if t.syntaxError then "true" else "false"

def children (t : SyntaxTree) (id : Nat) : List Nat :=
  match t.nodes[id]? with
  | some n => n.children.toList
  | none => []

def text (t : SyntaxTree) (id : Nat) : String :=
  match t.nodes[id]? with
  | some n => (Text.slice? t.source n.start n.stop).getD ""
  | none => ""

def isWrapper (t : SyntaxTree) (id : Nat) : Bool := (t.kind id).isWrapper

end SyntaxTree

end AgentRules
