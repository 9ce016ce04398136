import Mathlib.Data.List.Perm.Subperm
import AgentRules.Proofs.Announce.Told

/-! # Announcing with a stack and a table

A tree can also be announced in a loop. On a stack stand the nodes that have been entered, each with
the children it still has, and a table keeps a state for each of them (`NodeState`): its path, and
counts of its own that number its children. What has no state is taken for a child of the root. A
node that is left loses its state.

The loop does what the recursion does (`announceLoop_eq`), in twice as many rounds as the tree has
nodes. That the next child has the index that paths give it is carried by `Entered`: the children
still to come, numbered on from the counts in the table, are the last of the numbered children. -/

namespace AgentRules

/-- What is kept of a node while its children are announced. -/
structure NodeState where
  path : String
  counts : Counts
deriving Repr, DecidableEq

/-- The states of the nodes. -/
abbrev NodeStates := Array (Option NodeState)

namespace NodeStates

/-- Changes the state of a node, if there is a place for it. -/
def put? (states : NodeStates) (n : Nat) (state : Option NodeState) : Option NodeStates :=
  if n < states.size then some (states.setIfInBounds n state) else none

/-- Counts a child of a node and makes its state. What is given is its path. -/
def enterChild? (states : NodeStates) (parent : Nat) (child : SemanticChild) :
    Option (String × NodeStates) := do
  match ← states[parent]? with
  | some state =>
    let (index, counts) := state.counts.bump child.count
    let path := NodePath.child state.path index child.name
    let states ← put? states parent (some { state with counts := counts })
    let states ← put? states child.node (some ⟨path, {}⟩)
    pure (path, states)
  | none =>
    let path := NodePath.child NodePath.root 1 child.name
    let states ← put? states child.node (some ⟨path, {}⟩)
    pure (path, states)

end NodeStates

namespace SyntaxTree

open NodeStates

section Loop
variable {m : Type → Type} [Monad m] (t : SyntaxTree) (threshold : Nat)
  (ranges : String → List WordRange) (listen : Listener m)

def announceNode (path : String) (n : Nat) (splitting : Option Splitting) : m Unit := do
  let value := t.text n
  listen path value n
  announceRanges threshold ranges listen path value n splitting

/-- Announces the children on the stack and all that is below them. Whether all of it was done is
`false` if there are not enough rounds, or no place in the table. -/
def announceStack : Nat → List (Nat × List SemanticChild) → NodeStates → m Bool
  | 0, _, _ => pure false
  | _ + 1, [], _ => pure true
  | rounds + 1, (n, []) :: stack, states =>
    match put? states n none with
    | none => pure false
    | some states => announceStack rounds stack states
  | rounds + 1, (n, child :: children) :: stack, states =>
    match enterChild? states n child with
    | none => pure false
    | some (path, states) => do
      announceNode t threshold ranges listen path child.node child.splitting
      let below := t.semanticChildren child.node
      announceStack rounds ((child.node, below) :: (n, children) :: stack) states

/-- Announces a tree in a loop. -/
def announceLoop (rounds : Nat) : m Bool := do
  listen NodePath.syntaxError t.flag 0
  match put? (Array.replicate t.size none) 0 (some ⟨NodePath.root, {}⟩) with
  | none => pure false
  | some states => do
    listen NodePath.root (t.text 0) 0
    announceStack t threshold ranges listen rounds [(0, t.semanticChildren 0)] states

end Loop

/-! ### Nodes on the stack -/

/-- A node has been entered: the table has its path, and the children it still has are numbered on
from the counts there. -/
structure Entered (t : SyntaxTree) (states : NodeStates) (n : Nat) (path : String)
    (counts : Counts) (children : List SemanticChild) : Prop where
  named : Named t n path
  places : states.size = t.size
  state : states[n]? = some (some ⟨path, counts⟩)
  rest : children <:+ t.semanticChildren n
  numbered : numberFrom counts children <:+ t.pathChildren n

variable {t : SyntaxTree} {states : NodeStates} {n : Nat} {path : String} {counts : Counts}
  {child : SemanticChild} {children : List SemanticChild}

/-- The states of the nodes before a node are the same. -/
def SameBefore (n : Nat) (states states' : NodeStates) : Prop :=
  states'.size = states.size ∧ ∀ p < n, states'[p]? = states[p]?

/-- The child that is announced next. -/
def nextChild (counts : Counts) (child : SemanticChild) : PathChild :=
  ⟨child.node, child.name, (counts.bump child.count).1⟩

def nextPath (path : String) (counts : Counts) (child : SemanticChild) : String :=
  NodePath.child path (counts.bump child.count).1 child.name

namespace Entered
variable {states' : NodeStates} (h : Entered t states n path counts (child :: children))
include h

theorem next_mem : nextChild counts child ∈ t.pathChildren n :=
  h.numbered.subset List.mem_cons_self

theorem lt_next (ht : WellFormed t) : n < child.node ∧ child.node < t.size :=
  ht.lt_of_mem_pathChildren h.next_mem

theorem splitting_next (ht : WellFormed t) :
    child.splitting = (t.kind child.node).splitting := by
  obtain ⟨hdescribe, -⟩ := ht.mem_semanticChildren.1 (h.rest.subset List.mem_cons_self)
  exact (describe_eq_some.1 hdescribe).2.2

/-- **The next child is entered under its path**, and the others are numbered on. -/
theorem enterChild (ht : WellFormed t) : ∃ states',
    enterChild? states n child = some (nextPath path counts child, states') ∧
      Entered t states' child.node (nextPath path counts child) {}
        (t.semanticChildren child.node) ∧
      Entered t states' n path (counts.bump child.count).2 children ∧
      SameBefore n states states' := by
  obtain ⟨hlt, hsize⟩ := h.lt_next ht
  have hplaces := h.places
  refine ⟨(states.setIfInBounds n (some ⟨path, (counts.bump child.count).2⟩)).setIfInBounds
    child.node (some ⟨nextPath path counts child, {}⟩), ?_, ?_, ?_, ?_⟩
  · rw [enterChild?, h.state]
    simp only [Option.bind_eq_bind, Option.bind_some, put?, Array.size_setIfInBounds,
      if_pos (show n < states.size by omega), if_pos (show child.node < states.size by omega)]
    rfl
  · refine ⟨.child h.named h.next_mem, by simpa using hplaces, ?_, List.suffix_refl _,
      List.suffix_refl _⟩
    rw [Array.getElem?_setIfInBounds_self_of_lt (by simpa [hplaces] using hsize)]
  · refine ⟨h.named, by simpa using hplaces, ?_, (List.suffix_cons _ _).trans h.rest,
      (List.suffix_cons _ _).trans h.numbered⟩
    rw [Array.getElem?_setIfInBounds_ne (by omega),
      Array.getElem?_setIfInBounds_self_of_lt (by omega)]
  · refine ⟨by simp, fun p hp => ?_⟩
    rw [Array.getElem?_setIfInBounds_ne (by omega), Array.getElem?_setIfInBounds_ne (by omega)]

end Entered

theorem Entered.of_sameBefore {states' : NodeStates} {k : Nat} (hn : n < k)
    (hsame : SameBefore k states states') (h : Entered t states n path counts children) :
    Entered t states' n path counts children where
  named := h.named
  places := hsame.1.trans h.places
  state := (hsame.2 n hn).trans h.state
  rest := h.rest
  numbered := h.numbered

/-! ### Rounds -/

/-- The rounds in which children and all below them are entered and left, and then the node itself
is left. -/
def roundsFor (t : SyntaxTree) (children : List SemanticChild) : Nat :=
  2 * ((children.map (·.node)).flatMap fun c => c :: t.semanticBelow c).length + 1

theorem roundsFor_cons (t : SyntaxTree) (child : SemanticChild) (children : List SemanticChild) :
    roundsFor t (child :: children) = 2 * (t.semanticBelow child.node).length + 1 +
      roundsFor t children + 1 := by
  simp only [roundsFor, List.map_cons, List.flatMap_cons, List.length_append, List.length_cons]
  omega

theorem roundsFor_semanticChildren (ht : WellFormed t) (n : Nat) :
    roundsFor t (t.semanticChildren n) = 2 * (t.semanticBelow n).length + 1 := by
  rw [roundsFor, semanticBelow_eq_flatMap ht, ← node_numberFrom {}, List.flatMap_map]
  rfl

/-! ### The loop -/

section Run
variable {m : Type → Type} [Monad m] [LawfulMonad m] (threshold : Nat)
  (ranges : String → List WordRange) (listen : Listener m)

def announceChild (t : SyntaxTree) (path : String) (c : PathChild) : m Unit := do
  let path := NodePath.child path c.index c.name
  announceNode t threshold ranges listen path c.node (t.kind c.node).splitting
  announceBelow t threshold ranges listen c.node path

theorem announceBelow_eq_forM (ht : WellFormed t) (n : Nat) (path : String) :
    t.announceBelow threshold ranges listen n path =
      forM (t.pathChildren n) (announceChild threshold ranges listen t path) := by
  rw [announceBelow]
  refine Fold.forM_congr fun c hc => ?_
  rw [dif_pos (ht.lt_of_mem_pathChildren hc), announceChild]
  simp only [announceNode, bind_assoc]

/-- **The loop announces what is below the node on top of the stack**, and goes on with the rest of
the stack. -/
theorem announceStack_eq (ht : WellFormed t) {states : NodeStates} {n : Nat} {path : String}
    {counts : Counts} {children : List SemanticChild}
    (h : Entered t states n path counts children) :
    ∃ states', SameBefore n states states' ∧ ∀ rounds stack,
      announceStack t threshold ranges listen (rounds + roundsFor t children)
          ((n, children) :: stack) states =
        forM (numberFrom counts children) (announceChild threshold ranges listen t path) >>=
          fun _ => announceStack t threshold ranges listen rounds stack states' := by
  cases children with
  | nil =>
    have hn : n < states.size := by
      rw [h.places]
      exact ht.lt_size_of_named h.named
    refine ⟨states.setIfInBounds n none, ⟨by simp, fun p hp => ?_⟩, fun rounds stack => ?_⟩
    · rw [Array.getElem?_setIfInBounds_ne (by omega)]
    · rw [numberFrom, List.forM_nil, pure_bind]
      simp only [roundsFor, List.map_nil, List.flatMap_nil, List.length_nil, announceStack, put?,
        if_pos hn]
  | cons child children =>
    obtain ⟨hlt, hsize⟩ := h.lt_next ht
    obtain ⟨entered, henter, hchild, hnode, hsame⟩ := h.enterChild ht
    obtain ⟨left, hleft, hbelow⟩ := announceStack_eq ht hchild
    obtain ⟨states', hsame', hrest⟩ := announceStack_eq ht (hnode.of_sameBefore hlt hleft)
    refine ⟨states', ⟨?_, fun p hp => ?_⟩, fun rounds stack => ?_⟩
    · rw [hsame'.1, hleft.1, hsame.1]
    · rw [hsame'.2 p hp, hleft.2 p (by omega), hsame.2 p hp]
    · have hrounds : rounds + roundsFor t (child :: children) = rounds + roundsFor t children +
          roundsFor t (t.semanticChildren child.node) + 1 := by
        rw [roundsFor_cons, roundsFor_semanticChildren ht]
        omega
      rw [hrounds, announceStack, henter]
      simp only [hbelow, hrest, h.splitting_next ht, numberFrom, List.forM_cons, announceChild,
        announceBelow_eq_forM threshold ranges listen ht, bind_assoc]
      rfl
termination_by (t.size - n, children.length)

theorem length_semanticBelow_root (ht : WellFormed t) : (t.semanticBelow 0).length < t.size := by
  have hnodup : (0 :: t.semanticBelow 0).Nodup := by
    rw [List.nodup_cons, mem_semanticBelow_root ht]
    exact ⟨fun h => Nat.lt_irrefl 0 h.1, nodup_semanticBelow_root ht⟩
  have hsub : 0 :: t.semanticBelow 0 ⊆ List.range t.size := by
    refine List.cons_subset.2 ⟨List.mem_range.2 ht.size_pos, fun n hn => ?_⟩
    obtain ⟨-, path, hnamed⟩ := (mem_semanticBelow_root ht).1 hn
    exact List.mem_range.2 (ht.lt_size_of_named hnamed)
  have hle := (List.subperm_of_subset hnodup hsub).length_le
  rwa [List.length_cons, List.length_range] at hle

/-- **The loop announces the tree.** Two rounds for each node are enough. -/
theorem announceLoop_eq (ht : WellFormed t) {rounds : Nat} (h : 2 * t.size ≤ rounds) :
    announceLoop t threshold ranges listen rounds =
      t.announce threshold ranges listen >>= fun _ => pure true := by
  have hroot : Entered t ((Array.replicate t.size none).setIfInBounds 0 (some ⟨NodePath.root, {}⟩))
      0 NodePath.root {} (t.semanticChildren 0) := by
    refine ⟨.root, by simp, ?_, List.suffix_refl _, List.suffix_refl _⟩
    rw [Array.getElem?_setIfInBounds_self_of_lt (by simpa using ht.size_pos)]
  have hlength := length_semanticBelow_root ht
  obtain ⟨rest, hrounds⟩ : ∃ rest, rounds = rest + 1 + roundsFor t (t.semanticChildren 0) := by
    rw [roundsFor_semanticChildren ht]
    exact ⟨rounds - 1 - (2 * (t.semanticBelow 0).length + 1), by omega⟩
  obtain ⟨states, -, hstack⟩ := announceStack_eq threshold ranges listen ht hroot
  rw [announceLoop, announce, put?, if_pos (by simpa using ht.size_pos), hrounds]
  simp only [hstack, announceBelow_eq_forM threshold ranges listen ht, bind_assoc]
  rfl

end Run

end SyntaxTree

end AgentRules
