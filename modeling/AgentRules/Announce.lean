import AgentRules.Tree.View

/-! # Announcing the nodes of a tree

A tree is announced node by node, each under its path with its text: first whether the source is
malformed, then the root, then its descendants, every node before its children. Behind a node whose
text is divided come the runs of segments that are asked for at its path.

What listens is an action of any monad, so it can keep a state and can refuse. Many ranges of one
node are cut out of a list of its segments, few of them one by one; `threshold` is the largest
number that is few. -/

namespace AgentRules

/-- What is done with a path, a value and a node. -/
abbrev Listener (m : Type → Type) := String → String → Nat → m Unit

namespace SyntaxTree

/-- The number of ranges up to which each is cut out by a scan of its own. -/
def fewRanges : Nat := 4

/-- The runs of segments of a value, each with its range. -/
def cutRanges (threshold : Nat) (splitting : Splitting) (value : String) (ranges : List WordRange) :
    List (WordRange × String) :=
  if threshold < ranges.length then
    let segments := splitting.segments value
    ranges.filterMap fun r => (Splitting.rangeOfList value segments r.first r.last).map (r, ·)
  else ranges.filterMap fun r => (splitting.range value r.first r.last).map (r, ·)

variable {m : Type → Type} [Monad m]

/-- Announces the runs of segments that are asked for at a path. -/
def announceRanges (threshold : Nat) (ranges : String → List WordRange) (listen : Listener m)
    (path value : String) (node : Nat) : Option Splitting → m Unit
  | none => pure ()
  | some splitting =>
    (cutRanges threshold splitting value (ranges path)).forM fun (r, cut) =>
      listen (path ++ r.pathForm) cut node

/-- Announces the descendants of a node that has a path. -/
def announceBelow (t : SyntaxTree) (threshold : Nat) (ranges : String → List WordRange)
    (listen : Listener m) (node : Nat) (path : String) : m Unit :=
  (t.pathChildren node).forM fun child => do
    if _ : node < child.node ∧ child.node < t.size then
      let path := NodePath.child path child.index child.name
      let value := t.text child.node
      listen path value child.node
      announceRanges threshold ranges listen path value child.node
        (t.kind child.node).splitting
      announceBelow t threshold ranges listen child.node path
termination_by t.size - node

def announce (t : SyntaxTree) (threshold : Nat) (ranges : String → List WordRange)
    (listen : Listener m) : m Unit := do
  listen NodePath.syntaxError t.flag 0
  listen NodePath.root (t.text 0) 0
  announceBelow t threshold ranges listen 0 NodePath.root

end SyntaxTree

end AgentRules
