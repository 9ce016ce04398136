import AgentRules.Agent.Token
import AgentRules.Tree.Basic

/-! # Branches

A branch is a node of a syntax tree with everything below it, before it is planted in a tree. It is
planted node by node, every node before its children, so the nodes of a tree made of branches stand
in the order of the text. -/

namespace AgentRules

/-- A node with what is below it. -/
inductive Branch
  | mk (kind : NodeKind) (start stop : Nat) (children : List Branch)

namespace Branch

def start : Branch → Nat
  | mk _ start _ _ => start

def stop : Branch → Nat
  | mk _ _ stop _ => stop

def leaf (kind : NodeKind) (start stop : Nat) : Branch := mk kind start stop []

/-- A branch that only wraps another one. -/
def wrap (kind : NodeKind) (b : Branch) : Branch := mk kind b.start b.stop [b]

/-- A branch that starts at a place and ends with the last of its children. -/
def around (kind : NodeKind) (start : Nat) (children : List Branch) : Branch :=
  mk kind start (children.getLast?.elim start stop) children

mutual

/-- Plants a branch under a node. -/
def plant (t : SyntaxTree) (parent : Nat) : Branch → Except Fault SyntaxTree
  | mk kind start stop children => do
    let planted ← t.add? parent kind start stop
    plantAll planted t.size children

/-- Plants branches under a node, one behind the other. -/
def plantAll (t : SyntaxTree) (parent : Nat) : List Branch → Except Fault SyntaxTree
  | [] => .ok t
  | b :: bs => do
    let planted ← plant t parent b
    plantAll planted parent bs

end

end Branch

end AgentRules
