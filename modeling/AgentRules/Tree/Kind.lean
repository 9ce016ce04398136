import AgentRules.Segment

/-! # Kinds of nodes

What a node of the syntax tree stands for, the name under which a path reaches it, and how its text
is divided into segments. Two kinds wrap others and are transparent to paths; separators have no
place in them. -/

namespace AgentRules

/-- What a node stands for. -/
inductive NodeKind
  | agent
  | product
  | productName
  | productVersion
  | name
  | comments
  | commentEntry
  | text
  | version
  | keyValue
  | key
  | url
  | email
  | uuid
  | base64
  | separator
deriving Repr, DecidableEq

/-- Which children of a node count together: versions and comments have a count of their own. -/
inductive CountKind
  | child
  | version
  | comment
deriving Repr, DecidableEq

namespace NodeKind

def isWrapper : NodeKind → Bool
  | productName | productVersion => true
  | _ => false

/-- The name in paths, and the count that gives the index. -/
def pathName : NodeKind → Option (String × CountKind)
  | product => some ("product", .child)
  | name => some ("name", .child)
  | version => some ("version", .version)
  | comments => some ("comments", .comment)
  | commentEntry => some ("entry", .child)
  | text => some ("text", .child)
  | keyValue => some ("keyvalue", .child)
  | key => some ("key", .child)
  | url => some ("url", .child)
  | email => some ("email", .child)
  | uuid => some ("uuid", .child)
  | base64 => some ("base64", .child)
  | agent | productName | productVersion | separator => none

/-- How the text of a node of this kind is divided, if it is. -/
def splitting : NodeKind → Option Splitting
  | name | text | commentEntry | key => some .word
  | version => some .version
  | _ => none

end NodeKind

/-- How many children of each count have been met. -/
structure Counts where
  child : Nat := 0
  version : Nat := 0
  comment : Nat := 0
deriving Repr, DecidableEq

/-- The counts with one child more, and its index. -/
def Counts.bump (n : Counts) : CountKind → Nat × Counts
  | .child => (n.child + 1, { n with child := n.child + 1 })
  | .version => (n.version + 1, { n with version := n.version + 1 })
  | .comment => (n.comment + 1, { n with comment := n.comment + 1 })

end AgentRules
