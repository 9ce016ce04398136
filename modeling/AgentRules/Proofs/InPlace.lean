import AgentRules.Fault

/-! # Changes in place

Libraries and trees are changed by functions that give the new value or a fault. In place a change
is attempted step by step, and what has been written stays where a later step is refused
(`Attempt`). `Atomic` says that an attempt comes to what a function gives all the same: the change
is made as a whole, or the state is left as it was (`Atomic.of_error`). -/

namespace AgentRules

/-- An attempt to change a state in place. What is written before it is refused stays written. -/
abbrev Attempt (σ α : Type) := ExceptT Fault (StateM σ) α

namespace Attempt
variable {σ α β : Type} {a : Attempt σ α} {s : σ}

/-- Makes an attempt: what comes of it, and the state that is left. -/
def perform (a : Attempt σ α) (s : σ) : Except Fault α × σ := (ExceptT.run a).run s

@[simp] theorem perform_bind (a : Attempt σ α) (k : α → Attempt σ β) (s : σ) :
    (a >>= k).perform s = match a.perform s with
      | (.ok x, s') => (k x).perform s'
      | (.error f, s') => (.error f, s') := by
  show (match a.perform s with | (r, s') => ((ExceptT.bindCont k r).run s' : Id _)) = _
  obtain ⟨r, s'⟩ := a.perform s
  cases r <;> rfl

@[simp] theorem perform_get (s : σ) : (get : Attempt σ σ).perform s = (.ok s, s) := rfl

/-- A change is made as a whole, or the state is left as it was. -/
def Atomic (a : Attempt σ α) (f : σ → Except Fault (α × σ)) : Prop :=
  ∀ s, a.perform s = match f s with
    | .ok (x, s') => (.ok x, s')
    | .error e => (.error e, s)

namespace Atomic
variable {f : σ → Except Fault (α × σ)} (h : Atomic a f)
include h

/-- **What is refused changes nothing.** -/
theorem of_error {e : Fault} (he : (a.perform s).1 = .error e) :
    f s = .error e ∧ (a.perform s).2 = s := by
  rw [h s] at he ⊢
  cases hf : f s with
  | ok r =>
    rw [hf] at he
    cases he
  | error e' =>
    rw [hf] at he
    cases he
    exact ⟨rfl, rfl⟩

theorem of_ok {x : α} (hx : (a.perform s).1 = .ok x) : f s = .ok (x, (a.perform s).2) := by
  rw [h s] at hx ⊢
  cases hf : f s with
  | ok r =>
    rw [hf] at hx
    cases hx
    rfl
  | error e =>
    rw [hf] at hx
    cases hx

theorem perform_of_ok {x : α} {s' : σ} (hf : f s = .ok (x, s')) : a.perform s = (.ok x, s') := by
  rw [h s, hf]

theorem perform_of_error {e : Fault} (hf : f s = .error e) : a.perform s = (.error e, s) := by
  rw [h s, hf]

theorem keeps {P : σ → Prop} (hs : P s) (hf : ∀ x s', f s = .ok (x, s') → P s') :
    P (a.perform s).2 := by
  cases hc : (a.perform s).1 with
  | ok x => exact hf x _ (h.of_ok hc)
  | error e => rwa [(h.of_error hc).2]

theorem discard : Atomic (Functor.discard a) fun s => (f s).map fun r => ((), r.2) := by
  intro s
  show (a >>= fun _ => pure ()).perform s = _
  rw [perform_bind, h s]
  dsimp only
  cases f s <;> rfl

end Atomic

end Attempt

end AgentRules
