import AgentRules.NodePath
import AgentRules.Tree.Basic

/-! # The tree that paths see

Paths see a simpler tree than the one that is stored: a wrapper is replaced by what it wraps, and
separators are left out. Siblings are numbered by their counts, and a node's path strings together
the numbers and names from the root down to it.

* `semanticParent`, `semanticChildren`: one level up and one level down.
* `sibling`: a node some places before or behind another one.
* `pathOf`: the path of a node, for nodes that paths reach. -/

namespace AgentRules

/-- A child as paths see it. -/
structure SemanticChild where
  node : Nat
  name : String
  count : CountKind
  splitting : Option Splitting
deriving Repr, DecidableEq

/-- A child with its index. -/
structure PathChild where
  node : Nat
  name : String
  index : Nat
deriving Repr, DecidableEq

namespace SyntaxTree

/-- The nearest node above that is no wrapper. -/
def semanticParent (t : SyntaxTree) (id : Nat) : Option Nat :=
  match (t.nodes[id]?).bind (·.parent) with
  | none => none
  | some p =>
    if t.isWrapper p then
      if _ : p < id then semanticParent t p else none
    else some p
termination_by id

def describe (t : SyntaxTree) (id : Nat) : Option SemanticChild :=
  (t.kind id).pathName.map fun (name, count) => ⟨id, name, count, (t.kind id).splitting⟩

/-- The children that paths see, in order. -/
def semanticChildren (t : SyntaxTree) (id : Nat) : List SemanticChild :=
  (t.children id).flatMap fun c =>
    if t.isWrapper c then (t.children c).filterMap t.describe else (t.describe c).toList

/-- Numbers children from given counts on. -/
def numberFrom (counts : Counts) : List SemanticChild → List PathChild
  | [] => []
  | c :: cs =>
    let (index, counts) := counts.bump c.count
    ⟨c.node, c.name, index⟩ :: numberFrom counts cs

/-- The children that paths see, with their indices. -/
def pathChildren (t : SyntaxTree) (id : Nat) : List PathChild :=
  numberFrom {} (t.semanticChildren id)

/-- The node `offset` places behind a node among its siblings, before it if `offset` is negative. -/
def sibling (t : SyntaxTree) (id : Nat) (offset : Int) : Option Nat := do
  let parent ← t.semanticParent id
  let nodes := (t.semanticChildren parent).map (·.node)
  let place ← nodes.idxOf? id
  let target := (place : Int) + offset
  if target < 0 then none else nodes[target.toNat]?

/-- The path of a node, if paths reach it. -/
def pathOf (t : SyntaxTree) (id : Nat) : Option String :=
  if id = 0 then some NodePath.root
  else match t.semanticParent id with
    | none => none
    | some parent =>
      if _ : parent < id then
        match pathOf t parent, (t.pathChildren parent).find? (·.node = id) with
        | some path, some child => some (NodePath.child path child.index child.name)
        | _, _ => none
      else none
termination_by id

end SyntaxTree

end AgentRules
