import AgentRules.Proofs.Announce.Told
import AgentRules.Proofs.Index.Keys
import AgentRules.Proofs.Index.Registered

/-! # An analysis as a list of trials

Announcing, making keys and looking up actions only decide which actions are tried, in which order
and from where. `trials` lists this beforehand, and an analysis runs through the list
(`analyze_eq`). As no key comes up twice (`nodup_dispatched`), the trials of a compiled library are
at most as many as its capacity (`length_trials_le`).

A trial either leaves the session as it is or notes one match (`attempt_eq`). -/

namespace AgentRules

/-- An action that is tried from a node, for a value, because of a key. -/
structure Trial where
  key : String
  value : String
  node : Nat
  id : Nat
deriving Repr, DecidableEq

namespace CompiledLibrary

/-- The keys that come up while some notices are told. -/
def dispatched (l : CompiledLibrary) (notices : List Notice) : List String :=
  notices.flatMap fun x => Session.keysOf l x.path x.value

def trialsOf (l : CompiledLibrary) (notices : List Notice) : List Trial :=
  notices.flatMap fun x => (Session.keysOf l x.path x.value).flatMap fun key =>
    (l.actionsFor key).map fun id => ⟨key, x.value, x.node, id⟩

/-- **The trials of an analysis**, in order. -/
def trials (l : CompiledLibrary) (t : SyntaxTree) : List Trial := l.trialsOf (t.notices l.rangesAt)

end CompiledLibrary

namespace Session

/-- The session after a trial. -/
def attempt (l : CompiledLibrary) (t : SyntaxTree) (s : Session) (x : Trial) :
    Except Fault Session :=
  tryAction l t x.key x.value x.node s x.id

end Session

open CompiledLibrary Session

/-! ### Running through the trials -/

section Run
variable (l : CompiledLibrary) (t : SyntaxTree)

theorem inform_eq (x : Notice) (s : Session) :
    inform l t x.path x.value x.node s =
      ((keysOf l x.path x.value).flatMap fun key =>
        (l.actionsFor key).map fun id => (⟨key, x.value, x.node, id⟩ : Trial)).foldlM
          (attempt l t) s := by
  rw [Fold.foldlM_flatMap, inform]
  congr 1
  funext s key
  rw [List.foldlM_map]
  rfl

theorem run_listen (notices : List Notice) (s : Session) :
    (forM notices fun x => l.listen t x.path x.value x.node).run s =
      ((l.trialsOf notices).foldlM (attempt l t) s).map ((), ·) := by
  induction notices generalizing s with
  | nil => rfl
  | cons x xs ih =>
    have hx : (l.listen t x.path x.value x.node).run s =
        (inform l t x.path x.value x.node s).map ((), ·) := by
      cases h : inform l t x.path x.value x.node s <;> simp [CompiledLibrary.listen, h] <;> rfl
    have htrials : l.trialsOf (x :: xs) = ((keysOf l x.path x.value).flatMap fun key =>
        (l.actionsFor key).map fun id => ⟨key, x.value, x.node, id⟩) ++ l.trialsOf xs :=
      List.flatMap_cons
    rw [List.forM_cons, StateT.run_bind, hx, htrials, List.foldlM_append, ← inform_eq]
    cases inform l t x.path x.value x.node s with
    | error e => rfl
    | ok s' => exact ih s'

/-- **An analysis runs through its trials.** -/
theorem analyze_eq (ht : SyntaxTree.WellFormed t) (keep : Bool) :
    l.analyze t keep =
      ((l.trials t).foldlM (attempt l t) (start l keep)).map (·.finish l) := by
  unfold analyze
  rw [SyntaxTree.announce_eq t _ _ _ ht, run_listen]
  unfold trials
  cases (l.trialsOf (t.notices l.rangesAt)).foldlM (attempt l t) (start l keep) <;> rfl

end Run

/-! ### The number of trials -/

section Count
variable {l : CompiledLibrary} {t : SyntaxTree}

theorem length_trialsOf (notices : List Notice) : (l.trialsOf notices).length =
    ((l.dispatched notices).flatMap l.actionsFor).length := by
  have hkeys (ks : List String) (x : Notice) : (ks.flatMap fun key =>
      (l.actionsFor key).map fun id => (⟨key, x.value, x.node, id⟩ : Trial)).length =
        (ks.flatMap l.actionsFor).length := by
    induction ks with
    | nil => rfl
    | cons k ks ih =>
      rw [List.flatMap_cons, List.flatMap_cons, List.length_append, List.length_append, ih,
        List.length_map]
  unfold trialsOf dispatched
  induction notices with
  | nil => rfl
  | cons x xs ih =>
    rw [List.flatMap_cons, List.flatMap_cons, List.length_append, ih, List.flatMap_append,
      List.length_append, hkeys]

/-- **No key comes up twice.** -/
theorem nodup_dispatched (hl : Registered l) (ht : SyntaxTree.WellFormed t) :
    (l.dispatched (t.notices l.rangesAt)).Nodup := by
  unfold dispatched
  rw [List.nodup_flatMap]
  refine ⟨fun x hx => nodup_keysOf (SyntaxTree.plain_lower_path ht hx), ?_⟩
  have hpaths := List.pairwise_map.1 (SyntaxTree.nodup_lower_paths ht hl.nodup_rangesAt)
  refine hpaths.imp_of_mem fun hx hy hne key hkx hky => hne ?_
  -- both paths are what stands in front of the first mark of the key
  rw [← String.toList_inj, ← pathPart_of_mem_keysOf (SyntaxTree.plain_lower_path ht hx) hkx,
    ← pathPart_of_mem_keysOf (SyntaxTree.plain_lower_path ht hy) hky]

theorem length_trials_le (hl : Registered l) (ht : SyntaxTree.WellFormed t) :
    (l.trials t).length ≤ l.capacity := by
  rw [trials, length_trialsOf]
  exact hl.enough _ (nodup_dispatched hl ht)

end Count

/-! ### What a trial does -/

namespace Session
variable {l : CompiledLibrary} {t : SyntaxTree}

/-- The session with a match noted, the count of matches apart. -/
def record (s : Session) (id : Nat) (action : Action) (value : String) : Session :=
  (s.note id action.role value).touch action.rule

/-- What a trial finds: the action, the node where its chain ends and the value there. -/
def finds (l : CompiledLibrary) (t : SyntaxTree) (x : Trial) : Option (Action × Nat × String) :=
  (l.actions[x.id]?).bind fun action =>
    (action.path.chain.walk t x.node (some x.value)).map fun found => (action, found)

theorem record_matched (s : Session) (m : Matches) (id : Nat) (action : Action) (value : String) :
    { s with matched := m }.record id action value =
      { s.record id action value with matched := m } := by
  unfold record note touch
  cases action.role <;> dsimp only <;> split <;> rfl

/-- **A trial that finds nothing changes nothing; one that finds something adds a match.** -/
theorem attempt_eq (s : Session) (x : Trial) : attempt l t s x =
    match finds l t x with
    | none => .ok s
    | some (action, node, value) => (s.matched.add ⟨x.key, value, node⟩).map fun m =>
        { s.record x.id action value with matched := m } := by
  unfold attempt tryAction finds
  cases l.actions[x.id]? with
  | none => rfl
  | some action =>
    rw [Option.bind_some]
    dsimp only
    cases action.path.chain.walk t x.node (some x.value) with
    | none => rfl
    | some found =>
      rw [Option.map_some]
      dsimp only
      cases s.matched.add ⟨x.key, found.2, found.1⟩ with
      | error e => rfl
      | ok m => exact congrArg Except.ok (record_matched s m x.id action found.2)

end Session

end AgentRules
