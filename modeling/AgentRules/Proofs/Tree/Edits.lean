import AgentRules.Outcome
import AgentRules.Proofs.InPlace
import AgentRules.Proofs.Tree.Sound

/-! # Trees that are edited

A tree is edited in place: a node is put down before its parent is told of it, and each edit may be
refused. An edit is made as a whole or not at all (`Edit.atomic_attempt`), so whatever edits are tried
on the root of a source, and whichever of them are refused, the tree is one that is built
(`built_edited`), and holds what readers of trees rely on (`edited_sound`). -/

namespace AgentRules.SyntaxTree

variable {t : SyntaxTree}

/-! ### Edits in place -/

/-- Refuses places that are no span of the source. -/
def checkSpan (start stop : Nat) : Attempt SyntaxTree Unit := do
  if !(← get).isSpan start stop then throw (.span start stop)

/-- Puts a new node down and then hangs it under an earlier one. -/
def addNode (parent : Nat) (kind : NodeKind) (start stop : Nat) : Attempt SyntaxTree Nat := do
  if kind = .agent then throw .agentBelowRoot
  if (← get).nodes.size ≤ parent then throw (.unknownParent parent)
  checkSpan start stop
  let id := (← get).nodes.size
  modify fun t => { t with nodes := t.nodes.push ⟨kind, some parent, #[], start, stop⟩ }
  modify fun t =>
    { t with nodes := t.nodes.modify parent fun n => { n with children := n.children.push id } }
  return id

def moveStop (id stop : Nat) : Attempt SyntaxTree Unit := do
  match (← get).nodes[id]? with
  | none => throw (.unknownNode id)
  | some n =>
    checkSpan n.start stop
    modify fun t => { t with nodes := t.nodes.modify id fun n => { n with stop := stop } }

theorem perform_checkSpan (start stop : Nat) (t : SyntaxTree) :
    (checkSpan start stop).perform t =
      if t.isSpan start stop then (.ok (), t) else (.error (.span start stop), t) := by
  rw [checkSpan, Attempt.perform_bind, Attempt.perform_get]
  dsimp only
  cases t.isSpan start stop <;> rfl

theorem push_modify {α : Type} (xs : Array α) (x : α) (f : α → α) {i : Nat} (h : i < xs.size) :
    (xs.push x).modify i f = (xs.modify i f).push x := by
  refine Array.ext_getElem? fun j => ?_
  rw [Array.getElem?_modify, Array.getElem?_push, Array.getElem?_push, Array.getElem?_modify,
    Array.size_modify]
  by_cases hj : j = xs.size
  · rw [if_pos hj, if_pos hj, if_neg (by omega)]
  · rw [if_neg hj, if_neg hj]

theorem atomic_addNode (parent : Nat) (kind : NodeKind) (start stop : Nat) :
    (addNode parent kind start stop).Atomic fun t =>
      (t.add? parent kind start stop).map fun u => (t.nodes.size, u) := by
  intro t
  dsimp only [add?]
  by_cases hkind : kind = .agent
  · rw [addNode, if_pos hkind, if_pos hkind]
    rfl
  rw [addNode, if_neg hkind, if_neg hkind]
  simp only [Attempt.perform_bind, Attempt.perform_get]
  by_cases hparent : t.nodes.size ≤ parent
  · rw [if_pos hparent, if_pos hparent]
    rfl
  rw [if_neg hparent, if_neg hparent]
  simp only [Attempt.perform_bind, Attempt.perform_get, perform_checkSpan]
  cases t.isSpan start stop with
  | false => rfl
  | true =>
    rw [← push_modify _ _ _ (Nat.not_le.1 hparent)]
    rfl

theorem atomic_moveStop (id stop : Nat) :
    (moveStop id stop).Atomic fun t => (t.setStop? id stop).map fun u => ((), u) := by
  intro t
  rw [moveStop, Attempt.perform_bind, Attempt.perform_get]
  dsimp only [setStop?]
  cases t.nodes[id]? with
  | none => rfl
  | some n =>
    dsimp only
    rw [Attempt.perform_bind, perform_checkSpan]
    cases t.isSpan n.start stop <;> rfl

/-- An edit of a tree. -/
inductive Edit
  | add (parent : Nat) (kind : NodeKind) (start stop : Nat)
  | setStop (id stop : Nat)
  | markSyntaxError

def Edit.apply (t : SyntaxTree) : Edit → Except Fault SyntaxTree
  | add parent kind start stop => t.add? parent kind start stop
  | setStop id stop => t.setStop? id stop
  | markSyntaxError => .ok t.markSyntaxError

/-- A tree lets a node in under an earlier one, but no second root, and it lets the end of a node be
moved; what a node covers has to be a span. -/
def Edit.Permitted (t : SyntaxTree) : Edit → Prop
  | add parent kind start stop => kind ≠ .agent ∧ parent < t.size ∧ IsSpan t.source start stop
  | setStop id stop => ∃ n, t.nodes[id]? = some n ∧ IsSpan t.source n.start stop
  | markSyntaxError => True

theorem Edit.exists_apply_iff {e : Edit} : (∃ u, e.apply t = .ok u) ↔ e.Permitted t := by
  cases e with
  | add => exact exists_add_iff
  | setStop => exact exists_setStop_iff
  | markSyntaxError => exact ⟨fun _ => trivial, fun _ => ⟨_, rfl⟩⟩

def Edit.attempt : Edit → Attempt SyntaxTree Unit
  | add parent kind start stop => discard (addNode parent kind start stop)
  | setStop id stop => moveStop id stop
  | markSyntaxError => modify SyntaxTree.markSyntaxError

/-- **An edit is made as a whole or not at all.** -/
theorem Edit.atomic_attempt (e : Edit) :
    e.attempt.Atomic fun t => (e.apply t).map fun u => ((), u) := by
  cases e with
  | add parent kind start stop =>
    intro t
    rw [attempt, (atomic_addNode parent kind start stop).discard t]
    dsimp only [apply]
    cases t.add? parent kind start stop <;> rfl
  | setStop id stop => exact atomic_moveStop id stop
  | markSyntaxError => exact fun t => rfl

/-! ### Trees -/

/-- The tree of a source after some edits have been tried, whether they were refused or not. -/
def edited (source : String) (edits : List Edit) : SyntaxTree :=
  edits.foldl (fun t e => (e.attempt.perform t).2) (ofSource source)

theorem built_apply {e : Edit} {u : SyntaxTree} (ht : Built t) (h : e.apply t = .ok u) :
    Built u ∧ u.source = t.source := by
  cases e with
  | add => exact ⟨.add ht h, (add_eq_ok h).2.2.1⟩
  | setStop => exact ⟨.setStop ht h, (setStop_eq_ok h).1⟩
  | markSyntaxError =>
    cases h
    exact ⟨.markSyntaxError ht, rfl⟩

/-- **Trees that are edited are built**, whichever edits are refused on the way. -/
theorem built_edited (source : String) (edits : List Edit) :
    Built (edited source edits) ∧ (edited source edits).source = source := by
  refine List.foldlRecOn (motive := fun t => Built t ∧ t.source = source) edits _
    ⟨.ofSource source, rfl⟩ fun t ht e _ => ?_
  refine e.atomic_attempt.keeps (P := fun t => Built t ∧ t.source = source) ht fun _ u hu => ?_
  obtain ⟨v, hv, huv⟩ := Outcome.map_eq_ok_iff.1 hu
  cases huv
  obtain ⟨hbuilt, hsource⟩ := built_apply ht.1 hv
  exact ⟨hbuilt, hsource.trans ht.2⟩

/-- **Edits leave a tree sound.** Whatever edits are tried on the tree of a source, one after the
other, it stays sound. Those that are not permitted are refused, and leave it as it was. At each node
the way up to the parent that paths see ends, and so does the way to its path. -/
theorem edited_sound (source : String) (edits : List Edit) :
    (edited source edits).source = source ∧ (edited source edits).Sound ∧
    (∀ e : Edit, (e.attempt.perform (edited source edits)).1 = .ok () ↔
      e.Permitted (edited source edits)) ∧
    (∀ (e : Edit) f, (e.attempt.perform (edited source edits)).1 = .error f →
      e.apply (edited source edits) = .error f ∧
      (e.attempt.perform (edited source edits)).2 = edited source edits) ∧
    (∀ e : Edit, (e.attempt.perform (edited source edits)).1 = .ok () →
      e.apply (edited source edits) = .ok (e.attempt.perform (edited source edits)).2) ∧
    ∀ id < (edited source edits).size,
      (∀ r, Climbs (edited source edits) id r ↔ r = (edited source edits).semanticParent id) ∧
      ∀ r, Spells (edited source edits) id r ↔ r = (edited source edits).pathOf id := by
  obtain ⟨hbuilt, hsource⟩ := built_edited source edits
  refine ⟨hsource, hbuilt.sound, fun e => ?_, fun e f hf => ?_, fun e hx => ?_, fun id hid =>
    ⟨fun _ => hbuilt.wellFormed.climbs_iff hid, fun _ => hbuilt.wellFormed.spells_iff hid⟩⟩
  · rw [← Edit.exists_apply_iff]
    constructor
    · intro hx
      obtain ⟨u, hu, -⟩ := Outcome.map_eq_ok_iff.1 (e.atomic_attempt.of_ok hx)
      exact ⟨u, hu⟩
    · rintro ⟨u, hu⟩
      rw [e.atomic_attempt.perform_of_ok (Outcome.map_eq_ok_iff.2 ⟨u, hu, rfl⟩)]
  · obtain ⟨hrefused, hstate⟩ := e.atomic_attempt.of_error hf
    exact ⟨Outcome.map_eq_error_iff.1 hrefused, hstate⟩
  · obtain ⟨u, hu, hstate⟩ := Outcome.map_eq_ok_iff.1 (e.atomic_attempt.of_ok hx)
    rw [hu, ← (Prod.mk.inj hstate).2]

/-- Edits of a source whose first and last characters take two bytes each. Those inside a character,
behind the end, under a node that is not there or with a second root are refused. -/
def umlautEdits : List Edit :=
  [.add 0 .product 0 5, .add 1 .name 0 1, .add 1 .name 0 40, .add 9 .name 0 2, .add 0 .agent 0 2,
    .add 1 .productName 0 3, .setStop 2 1, .add 2 .name 0 2, .setStop 3 3, .setStop 7 3,
    .markSyntaxError, .add 1 .version 3 5]

theorem edited_sound_umlautEdits :
    (edited "Ünï" umlautEdits).size = 5 ∧ (edited "Ünï" umlautEdits).children 1 = [2, 4] ∧
    (edited "Ünï" umlautEdits).syntaxError = true ∧
    Text.slice? "Ünï" 0 3 = some ((edited "Ünï" umlautEdits).text 3) ∧
    ((Edit.setStop 3 4).attempt.perform (edited "Ünï" umlautEdits)).2 = edited "Ünï" umlautEdits ∧
    Climbs (edited "Ünï" umlautEdits) 3 (some 1) ∧
    Spells (edited "Ünï" umlautEdits) 4 (some "agent.(1)product.(1)version") := by
  obtain ⟨hsource, hsound, -, hrefused, -, hends⟩ := edited_sound "Ünï" umlautEdits
  have hsize : (edited "Ünï" umlautEdits).size = 5 := by decide +kernel
  have hnode : (edited "Ünï" umlautEdits).nodes[3]? = some ⟨.name, some 2, #[], 0, 3⟩ := by
    decide +kernel
  have hclimbs := (hends 3 (by rw [hsize]; decide)).1
  have hspells := (hends 4 (by rw [hsize]; decide)).2
  refine ⟨hsize, by decide +kernel, by decide +kernel, ?_, ?_, (hclimbs _).2 ?_, (hspells _).2 ?_⟩
  · have htext := hsound.text 3 _ hnode
    rwa [hsource] at htext
  · exact (hrefused (.setStop 3 4) (.span 0 4) (by decide +kernel)).2
  · decide +kernel
  · decide +kernel

end AgentRules.SyntaxTree
