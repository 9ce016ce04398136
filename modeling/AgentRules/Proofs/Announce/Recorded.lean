import AgentRules.Outcome
import AgentRules.Proofs.Announce.Stacked

/-! # What a listener has heard

A listener may refuse a notice, and then the announcement ends. `recorder` is a listener with a
state that keeps what it has accepted, also when it refuses, so its record shows how far an
announcement went: up to the first notice that is refused, or to the end (`tell_append`,
`tell_cons_error`). -/

namespace AgentRules

/-- A listener that accepts or refuses in a state, and keeps what it has accepted. -/
def recorder {σ ε : Type} (accept : σ → Notice → Except ε σ) :
    Listener (ExceptT ε (StateM (σ × List Notice))) := fun path value node =>
  ExceptT.mk fun (s, heard) =>
    match accept s ⟨path, value, node⟩ with
    | .error e => (.error e, s, heard)
    | .ok s' => (.ok (), s', heard ++ [⟨path, value, node⟩])

namespace SyntaxTree

/-! ### Accepting and refusing -/

section Recorder
variable {σ ε : Type} {accept : σ → Notice → Except ε σ} {s s' : σ}

/-- Telling a recorder notices one by one. -/
def tell (accept : σ → Notice → Except ε σ) (l : List Notice) :
    ExceptT ε (StateM (σ × List Notice)) Unit :=
  forM l fun x => recorder accept x.path x.value x.node

theorem tell_cons_ok {x : Notice} {l : List Notice} (heard : List Notice)
    (h : accept s x = .ok s') :
    (tell accept (x :: l)).run.run (s, heard) = (tell accept l).run.run (s', heard ++ [x]) := by
  have hx : (recorder accept x.path x.value x.node).run.run (s, heard) =
      (.ok (), s', heard ++ [x]) := by
    simp only [recorder, ExceptT.run_mk, StateT.run, h]
  rw [tell, List.forM_cons, ExceptT.run_bind, StateT.run_bind, hx]
  rfl

theorem tell_cons_error {x : Notice} {l : List Notice} {e : ε} (heard : List Notice)
    (h : accept s x = .error e) :
    (tell accept (x :: l)).run.run (s, heard) = (.error e, s, heard) := by
  have hx : (recorder accept x.path x.value x.node).run.run (s, heard) =
      (.error e, s, heard) := by
    simp only [recorder, ExceptT.run_mk, StateT.run, h]
  rw [tell, List.forM_cons, ExceptT.run_bind, StateT.run_bind, hx]
  rfl

theorem tell_append {l : List Notice} (rest heard : List Notice)
    (h : l.foldlM accept s = .ok s') :
    (tell accept (l ++ rest)).run.run (s, heard) =
      (tell accept rest).run.run (s', heard ++ l) := by
  induction l generalizing s heard with
  | nil =>
    cases h
    rw [List.nil_append, List.append_nil]
  | cons x l ih =>
    rw [List.foldlM_cons] at h
    obtain ⟨u, hu, h⟩ := Outcome.bind_eq_ok_iff.1 h
    rw [List.cons_append, tell_cons_ok heard hu, ih _ h, List.append_assoc, List.singleton_append]

end Recorder

/-- **What a tree announces.** Every listener is told the notices of the tree, in order, also by the
loop with a stack and a table; a node with a path is told once under it, and no other node is told.
A listener that refuses a notice has heard all that stand before it and nothing else, and its
refusal is the outcome. -/
theorem announce_eq_notices {t : SyntaxTree} (ht : Built t) (threshold : Nat)
    (ranges : String → List WordRange) :
    (∀ (m : Type → Type) [Monad m] [LawfulMonad m] (listen : Listener m),
      t.announce threshold ranges listen =
        forM (t.notices ranges) fun x => listen x.path x.value x.node) ∧
    (∀ (m : Type → Type) [Monad m] [LawfulMonad m] (listen : Listener m) (rounds : Nat),
      2 * t.size ≤ rounds → t.announceLoop threshold ranges listen rounds =
        (forM (t.notices ranges) fun x => listen x.path x.value x.node) >>= fun _ => pure true) ∧
    (∀ n path, t.pathOf n = some path →
      (t.notices ranges).filter (fun x => x.node = n ∧ x.path = path) =
        [⟨path, t.text n, n⟩]) ∧
    (∀ x ∈ t.notices ranges, ∃ path, t.pathOf x.node = some path) ∧
    ∀ (σ ε : Type) (accept : σ → Notice → Except ε σ) (s s' : σ),
      ((t.notices ranges).foldlM accept s = .ok s' →
        (t.announce threshold ranges (recorder accept)).run.run (s, []) =
          (.ok (), s', t.notices ranges)) ∧
      ∀ n x e, ((t.notices ranges).take n).foldlM accept s = .ok s' →
        (t.notices ranges)[n]? = some x → accept s' x = .error e →
        (t.announce threshold ranges (recorder accept)).run.run (s, []) =
          (.error e, s', (t.notices ranges).take n) := by
  have hwf := ht.wellFormed
  refine ⟨fun m _ _ listen => announce_eq t threshold ranges listen hwf,
    fun m _ _ listen rounds h => ?_, fun n path h => filter_notices hwf (hwf.pathOf_eq_some.1 h),
    fun x hx => pathOf_of_mem_notices hwf hx, fun σ ε accept s s' => ⟨fun h => ?_, ?_⟩⟩
  · rw [announceLoop_eq threshold ranges listen hwf h, announce_eq t threshold ranges listen hwf]
  · rw [announce_eq t threshold ranges _ hwf]
    have := tell_append [] [] h
    rw [List.append_nil] at this
    exact this
  · intro n x e htake hx he
    rw [announce_eq t threshold ranges _ hwf]
    have hsplit : t.notices ranges =
        (t.notices ranges).take n ++ x :: (t.notices ranges).drop (n + 1) := by
      have hdrop := List.drop_eq_getElem?_toList_append (l := t.notices ranges) (i := n)
      rw [hx] at hdrop
      exact (List.take_append_drop n _).symm.trans (congrArg _ hdrop)
    have hrun : (tell accept ((t.notices ranges).take n ++
        x :: (t.notices ranges).drop (n + 1))).run.run (s, []) = _ :=
      tell_append _ [] htake
    rw [← hsplit, tell_cons_error _ he] at hrun
    exact hrun

theorem notices_nested : nested.notices (fun _ => [⟨1, 1⟩]) =
    [⟨"__SyntaxError__", "true", 0⟩, ⟨"agent", "ab/1", 0⟩, ⟨"agent.(1)product", "ab/1", 1⟩,
      ⟨"agent.(1)product.(1)name", "ab", 3⟩, ⟨"agent.(1)product.(1)name[1-1]", "ab", 3⟩,
      ⟨"agent.(1)product.(1)version", "1", 5⟩, ⟨"agent.(1)product.(1)version[1-1]", "1", 5⟩] := by
  decide +kernel

/-- A listener that accepts four notices has heard the first four. -/
theorem announce_nested_refused : Built nested ∧
    (nested.announce 0 (fun _ => [⟨1, 1⟩]) (recorder fun (n : Nat) x =>
        if n = 4 then .error x.path else .ok (n + 1))).run.run (0, []) =
      (.error "agent.(1)product.(1)name[1-1]", 4,
        [⟨"__SyntaxError__", "true", 0⟩, ⟨"agent", "ab/1", 0⟩, ⟨"agent.(1)product", "ab/1", 1⟩,
          ⟨"agent.(1)product.(1)name", "ab", 3⟩]) := by
  refine ⟨built_nested, ?_⟩
  obtain ⟨-, -, -, -, h⟩ := announce_eq_notices built_nested 0 fun _ => [⟨1, 1⟩]
  rw [notices_nested] at h
  exact (h Nat String _ 0 4).2 4 _ _ rfl rfl rfl

end SyntaxTree

end AgentRules
