import AgentRules.Outcome
import Mathlib.Data.List.Nodup

/-! # Folds over lists

Announcing, dispatching and compiling run one action after another over a list. Lists that are made
of lists are run over in one go (`forM_flatMap`, `foldlM_flatMap`), and what each step keeps is kept
by the whole (`foldlM_invariant`, and `foldlM_prefix` where it speaks of what has been run over). A
run that reads its elements first is a run over what is read (`foldlM_bind_eq_ok_iff`), and a run
that is refused is refused by one step (`exists_of_foldlM_error`). What one element of a list
gives alone is all that the list gives (`flatMap_eq_single`). -/

namespace AgentRules.Fold

theorem flatMap_eq_single {α β : Type} [DecidableEq α] {l : List α} (hl : l.Nodup) {a : α}
    {f : α → List β} (h : ∀ b ∈ l, b ≠ a → f b = []) :
    l.flatMap f = if a ∈ l then f a else [] := by
  by_cases ha : a ∈ l
  · obtain ⟨xs, ys, rfl⟩ := List.append_of_mem ha
    obtain ⟨hnot, -⟩ := List.nodup_cons.1 (List.nodup_middle.1 hl)
    rw [List.mem_append, not_or] at hnot
    have hnil {zs : List α} (hsub : zs ⊆ xs ++ a :: ys) (hzs : a ∉ zs) : zs.flatMap f = [] :=
      List.flatMap_eq_nil_iff.2 fun b hb => h b (hsub hb) fun hba => hzs (hba ▸ hb)
    rw [if_pos ha, List.flatMap_append, List.flatMap_cons,
      hnil (List.subset_append_left _ _) hnot.1,
      hnil (fun b hb => List.mem_append_right _ (List.mem_cons_of_mem a hb)) hnot.2,
      List.nil_append, List.append_nil]
  · rw [if_neg ha]
    exact List.flatMap_eq_nil_iff.2 fun b hb => h b hb fun hba => ha (hba ▸ hb)

section Monads
variable {m : Type → Type} [Monad m] {α β γ : Type}

theorem forM_congr {l : List α} {f g : α → m Unit} (h : ∀ a ∈ l, f a = g a) :
    forM l f = forM l g := by
  induction l with
  | nil => rfl
  | cons a l ih =>
    rw [List.forM_cons, List.forM_cons, h a List.mem_cons_self,
      ih fun b hb => h b (List.mem_cons_of_mem a hb)]

variable [LawfulMonad m]

theorem forM_flatMap (l : List α) (f : α → List β) (g : β → m Unit) :
    forM (l.flatMap f) g = forM l fun a => forM (f a) g := by
  induction l with
  | nil => rfl
  | cons a l ih => rw [List.flatMap_cons, List.forM_append, List.forM_cons, ih]

theorem foldlM_flatMap (l : List α) (f : α → List β) (g : γ → β → m γ) (c : γ) :
    (l.flatMap f).foldlM g c = l.foldlM (fun c a => (f a).foldlM g c) c := by
  induction l generalizing c with
  | nil => rfl
  | cons a l ih =>
    rw [List.flatMap_cons, List.foldlM_append, List.foldlM_cons]
    simp only [ih]

end Monads

section Outcomes
variable {ε α β : Type} {f : β → α → Except ε β} {l : List α} {b r : β}

theorem foldlM_invariant (P : β → Prop) (step : ∀ b a r, P b → a ∈ l → f b a = .ok r → P r)
    (hb : P b) (h : l.foldlM f b = .ok r) : P r := by
  induction l generalizing b with
  | nil =>
    cases h
    exact hb
  | cons a l ih =>
    rw [List.foldlM_cons] at h
    obtain ⟨c, hc, h⟩ := Outcome.bind_eq_ok_iff.1 h
    exact ih (fun b a r hb ha => step b a r hb (List.mem_cons_of_mem _ ha))
      (step b a c hb List.mem_cons_self hc) h

/-- What every step keeps, with what has been run over so far, holds of the whole list in the end. -/
theorem foldlM_prefix (P : List α → β → Prop)
    (step : ∀ done b a r, P done b → f b a = .ok r → P (done ++ [a]) r) {done : List α}
    (hb : P done b) (h : l.foldlM f b = .ok r) : P (done ++ l) r := by
  induction l generalizing b done with
  | nil =>
    cases h
    rwa [List.append_nil]
  | cons a l ih =>
    rw [List.foldlM_cons] at h
    obtain ⟨c, hc, h⟩ := Outcome.bind_eq_ok_iff.1 h
    rw [List.append_cons]
    exact ih (step done b a c hb hc) h

theorem foldlM_map_into {γ : Type} {g : γ → α → Except ε γ} {into : γ → β}
    (h : ∀ c a, f (into c) a = (g c a).map into) (l : List α) (c : γ) :
    l.foldlM f (into c) = (l.foldlM g c).map into := by
  induction l generalizing c with
  | nil => rfl
  | cons a l ih =>
    rw [List.foldlM_cons, List.foldlM_cons, h]
    cases g c a with
    | error e => rfl
    | ok c' => exact ih c'

/-- A run that reads each element first is a run over what is read, if everything can be read. -/
theorem foldlM_bind_eq_ok_iff {γ : Type} {read : α → Except ε γ} {g : β → γ → Except ε β} :
    (l.foldlM (fun b a => read a >>= g b) b = .ok r) ↔
      ∃ cs, List.Forall₂ (fun a c => read a = .ok c) l cs ∧ cs.foldlM g b = .ok r := by
  induction l generalizing b with
  | nil =>
    constructor
    · intro h
      exact ⟨[], .nil, h⟩
    · rintro ⟨cs, hcs, h⟩
      cases hcs
      exact h
  | cons a l ih =>
    rw [List.foldlM_cons, Outcome.bind_eq_ok_iff]
    constructor
    · rintro ⟨b', hb', h⟩
      obtain ⟨c, hc, hg⟩ := Outcome.bind_eq_ok_iff.1 hb'
      obtain ⟨cs, hcs, h⟩ := ih.1 h
      refine ⟨c :: cs, .cons hc hcs, ?_⟩
      rw [List.foldlM_cons, hg]
      exact h
    · rintro ⟨cs, hcs, h⟩
      obtain ⟨c, cs, hc, hrest, rfl⟩ := List.forall₂_cons_left_iff.1 hcs
      rw [List.foldlM_cons] at h
      obtain ⟨b', hg, h⟩ := Outcome.bind_eq_ok_iff.1 h
      exact ⟨b', Outcome.bind_eq_ok_iff.2 ⟨c, hc, hg⟩, ih.2 ⟨cs, hrest, h⟩⟩

/-- A run that is refused is refused at some element, behind a run over those in front of it. -/
theorem exists_of_foldlM_error {e : ε} (h : l.foldlM f b = .error e) :
    ∃ done a rest c, l = done ++ a :: rest ∧ done.foldlM f b = .ok c ∧ f c a = .error e := by
  induction l generalizing b with
  | nil => cases h
  | cons a l ih =>
    rw [List.foldlM_cons] at h
    cases hc : f b a with
    | error e' =>
      rw [hc] at h
      cases h
      exact ⟨[], a, l, b, rfl, rfl, hc⟩
    | ok c =>
      rw [hc] at h
      obtain ⟨done, a', rest, c', rfl, hdone, he⟩ := ih h
      refine ⟨a :: done, a', rest, c', rfl, ?_, he⟩
      rw [List.foldlM_cons, hc]
      exact hdone

end Outcomes

end AgentRules.Fold
