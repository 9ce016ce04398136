/-! # Paths of nodes

A path names the way from the root of a syntax tree to a node: at each level the index and the name
of the child. -/

namespace AgentRules.NodePath

def root : String := "agent"

/-- The path under which it is told whether the source is malformed. -/
def syntaxError : String := "__SyntaxError__"

def child (path : String) (index : Nat) (name : String) : String := s!"{path}.({index}){name}"

end AgentRules.NodePath
