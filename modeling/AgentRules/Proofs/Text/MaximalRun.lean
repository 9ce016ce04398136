import AgentRules.Proofs.Text.Strip
import Mathlib.Data.List.Basic
import Mathlib.Data.List.TakeWhile

/-! # Maximal runs

A run of elements that satisfy a condition is maximal if the elements next to it, where there are
any, do not satisfy it. A list that starts with such an element starts with a maximal run
(`maximalRun_takeWhile`), and the others are those of what is left behind it (`maximalRun_iff`); a
list that starts with another element has the maximal runs of its rest (`maximalRun_cons_iff`). -/

namespace AgentRules.Text

/-- A list falls into what is before a maximal run of elements that satisfy `p`, the run, and what is
behind it. -/
structure MaximalRun {α : Type} (p : α → Bool) (xs before run behind : List α) : Prop where
  split : xs = before ++ (run ++ behind)
  nonempty : run ≠ []
  inside : ∀ x ∈ run, p x = true
  before_last : ∀ x ∈ before.getLast?, p x = false
  behind_head : ∀ x ∈ behind.head?, p x = false

variable {α : Type} {p : α → Bool} {x : α} {xs before run behind : List α}

/-! ### The first elements of a class -/

theorem take_length_takeWhile (p : α → Bool) (xs : List α) :
    xs.take (xs.takeWhile p).length = xs.takeWhile p :=
  (List.prefix_iff_eq_take.1 (List.takeWhile_prefix p)).symm

theorem drop_length_takeWhile (p : α → Bool) (xs : List α) :
    xs.drop (xs.takeWhile p).length = xs.dropWhile p := by
  have h := @List.drop_left _ (xs.takeWhile p) (xs.dropWhile p)
  rwa [List.takeWhile_append_dropWhile] at h

theorem length_takeWhile_add (p : α → Bool) (xs : List α) :
    (xs.takeWhile p).length + (xs.dropWhile p).length = xs.length := by
  rw [← List.length_append, List.takeWhile_append_dropWhile]

/-! ### Runs -/

theorem not_maximalRun_nil : ¬ MaximalRun p [] before run behind := fun h => by
  have := h.split
  have := h.nonempty
  simp_all

/-- **A list that starts with no run has the runs of its rest.** -/
theorem maximalRun_cons_iff (hx : p x = false) : MaximalRun p (x :: xs) before run behind ↔
    ∃ front, before = x :: front ∧ MaximalRun p xs front run behind := by
  constructor
  · rintro ⟨hsplit, hne, hinside, hlast, hhead⟩
    cases before with
    | nil =>
      obtain ⟨y, run, rfl⟩ := List.exists_cons_of_ne_nil hne
      obtain ⟨rfl, -⟩ := List.cons.inj hsplit
      rw [hinside x List.mem_cons_self] at hx
      cases hx
    | cons y front =>
      obtain ⟨rfl, hrest⟩ := List.cons.inj hsplit
      refine ⟨front, rfl, hrest, hne, hinside, fun z hz => hlast z ?_, hhead⟩
      rw [List.getLast?_cons, Option.mem_def.1 hz]
      rfl
  · rintro ⟨front, rfl, hsplit, hne, hinside, hlast, hhead⟩
    refine ⟨by rw [hsplit]; rfl, hne, hinside, fun z hz => ?_, hhead⟩
    rw [List.getLast?_cons] at hz
    cases hfront : front.getLast? with
    | none =>
      rw [hfront] at hz
      cases hz
      exact hx
    | some y =>
      rw [hfront] at hz
      cases hz
      exact hlast y hfront

/-- Elements outside the class are no part of a run, however many there are. -/
theorem maximalRun_append_iff {front : List α} (h : ∀ x ∈ front, p x = false) :
    MaximalRun p (front ++ xs) before run behind ↔
      ∃ rest, before = front ++ rest ∧ MaximalRun p xs rest run behind := by
  induction front generalizing before with
  | nil => simp
  | cons x front ih =>
    rw [List.cons_append, maximalRun_cons_iff (h x List.mem_cons_self)]
    have ih := fun before => @ih before fun y hy => h y (List.mem_cons_of_mem x hy)
    constructor
    · rintro ⟨before', rfl, hmax⟩
      obtain ⟨rest, rfl, hrest⟩ := (ih before').1 hmax
      exact ⟨rest, rfl, hrest⟩
    · rintro ⟨rest, rfl, hmax⟩
      exact ⟨front ++ rest, rfl, (ih _).2 ⟨rest, rfl, hmax⟩⟩

/-- **The first elements of a class are a maximal run.** -/
theorem maximalRun_takeWhile (h : xs.takeWhile p ≠ []) :
    MaximalRun p xs [] (xs.takeWhile p) (xs.dropWhile p) where
  split := List.takeWhile_append_dropWhile.symm
  nonempty := h
  inside _ := List.mem_takeWhile_imp
  before_last := by simp
  behind_head := eq_false_of_mem_head?_dropWhile

theorem eq_takeWhile_of_maximalRun (h : MaximalRun p xs [] run behind) :
    run = xs.takeWhile p ∧ behind = xs.dropWhile p := by
  obtain ⟨rfl, -, hinside, -, hhead⟩ := h
  have hbehind : behind.takeWhile p = [] ∧ behind.dropWhile p = behind := by
    cases behind with
    | nil => exact ⟨rfl, rfl⟩
    | cons y behind => simp [hhead y rfl]
  rw [List.nil_append, List.takeWhile_append_of_pos hinside, List.dropWhile_append_of_pos hinside,
    hbehind.1, hbehind.2, List.append_nil]
  exact ⟨rfl, rfl⟩

/-- A maximal run behind other elements is one of what the class leaves. -/
theorem exists_of_maximalRun (hne : before ≠ []) (h : MaximalRun p xs before run behind) :
    ∃ front, before = xs.takeWhile p ++ front ∧
      MaximalRun p (xs.dropWhile p) front run behind := by
  obtain ⟨rfl, hrun, hinside, hlast, hhead⟩ := h
  -- what is before the run ends with an element outside the class, so the first run ends before it
  have hdrop : before.dropWhile p ≠ [] := fun hdrop => by
    have hout := hlast _ (List.getLast?_eq_some_getLast hne)
    rw [List.dropWhile_eq_nil_iff.1 hdrop _ (List.getLast_mem hne)] at hout
    cases hout
  have hwhole : before.takeWhile p ++ before.dropWhile p = before :=
    List.takeWhile_append_dropWhile
  have htake : (before ++ (run ++ behind)).takeWhile p = before.takeWhile p := by
    rw [List.takeWhile_append, if_neg]
    intro hlength
    have := congrArg List.length hwhole
    rw [List.length_append, hlength] at this
    exact hdrop (List.eq_nil_of_length_eq_zero (by omega))
  have hrest : (before ++ (run ++ behind)).dropWhile p = before.dropWhile p ++ (run ++ behind) := by
    rw [List.dropWhile_append, if_neg (by simpa using hdrop)]
  refine ⟨before.dropWhile p, by rw [htake, hwhole], hrest, hrun, hinside, fun y hy => ?_, hhead⟩
  rw [← hwhole] at hlast
  exact hlast y (List.mem_getLast?_append_of_mem_getLast? hy)

/-- **A list has the run that a class takes from its start, and the runs of what is left.** -/
theorem maximalRun_iff (h : xs.takeWhile p ≠ []) : MaximalRun p xs before run behind ↔
    (before = [] ∧ run = xs.takeWhile p ∧ behind = xs.dropWhile p) ∨
      ∃ front, before = xs.takeWhile p ++ front ∧
        MaximalRun p (xs.dropWhile p) front run behind := by
  constructor
  · intro hmax
    rcases eq_or_ne before [] with rfl | hne
    · exact .inl ⟨rfl, eq_takeWhile_of_maximalRun hmax⟩
    · exact .inr (exists_of_maximalRun hne hmax)
  · rintro (⟨rfl, rfl, rfl⟩ | ⟨front, rfl, hsplit, hrun, hinside, hlast, hhead⟩)
    · exact maximalRun_takeWhile h
    · refine ⟨?_, hrun, hinside, fun y hy => ?_, hhead⟩
      · rw [List.append_assoc, ← hsplit, List.takeWhile_append_dropWhile]
      · cases front with
        | nil =>
          -- what the class leaves does not start with a run
          obtain ⟨x, run, rfl⟩ := List.exists_cons_of_ne_nil hrun
          have hstop : x ∈ (xs.dropWhile p).head? := by
            rw [hsplit]
            rfl
          have hout := eq_false_of_mem_head?_dropWhile x hstop
          rw [hinside x List.mem_cons_self] at hout
          cases hout
        | cons x front =>
          rw [List.getLast?_append_of_ne_nil _ (List.cons_ne_nil x front)] at hy
          exact hlast y hy

end AgentRules.Text
