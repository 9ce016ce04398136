import AgentRules.Proofs.Analysis.Findings
import Mathlib.Algebra.BigOperators.Group.Finset.Piecewise

/-! # What a run leaves behind

After an analysis a session has marked the rules one of whose actions has found something, each of
them once (`touched_analysis`), has counted a match for everything that was found
(`count_analysis`), and knows of each action whether it has found something and what it found first
(`hits_analysis`, `valueOf_analysis`). All of this is said by what the actions have `found`. -/

namespace AgentRules

open CompiledLibrary

/-! ### What is found -/

/-- The values at which the walks of an action end in an analysis, in order. -/
def CompiledLibrary.found (l : CompiledLibrary) (t : SyntaxTree) (id : Nat) : List String :=
  (l.trials t).filterMap (Session.foundIn l t id)

/-- Whether an action of the rule finds something. -/
def CompiledLibrary.touches (l : CompiledLibrary) (t : SyntaxTree) (rule : Nat) : Bool :=
  (List.range l.actions.size).any fun id =>
    l.actions[id]?.any (·.rule = rule) && !(l.found t id).isEmpty

theorem touches_iff {l : CompiledLibrary} {t : SyntaxTree} {rule : Nat} :
    l.touches t rule = true ↔
      ∃ (id : Nat) (a : Action), l.actions[id]? = some a ∧ a.rule = rule ∧ l.found t id ≠ [] := by
  simp only [touches, List.any_eq_true, List.mem_range, Bool.and_eq_true, Option.any_eq_true,
    decide_eq_true_eq, Bool.not_eq_true', List.isEmpty_eq_false_iff]
  constructor
  · rintro ⟨id, -, ⟨a, ha, hrule⟩, hfound⟩
    exact ⟨id, a, ha, hrule, hfound⟩
  · rintro ⟨id, a, ha, hrule, hfound⟩
    exact ⟨id, (Array.getElem?_eq_some_iff.1 ha).1, ⟨a, ha, hrule⟩, hfound⟩

namespace Session
variable {l : CompiledLibrary} {t : SyntaxTree} {s s' : Session}

theorem foundIn_eq_some {id : Nat} {x : Trial} {value : String} :
    foundIn l t id x = some value ↔
      x.id = id ∧ ∃ a node, finds l t x = some (a, node, value) := by
  unfold foundIn
  split
  · next h => simp [h, Option.map_eq_some_iff]
  · next h => simp [h]

theorem exists_finds_iff {rule : Nat} :
    (∃ x ∈ l.trials t, ∃ a found, finds l t x = some (a, found) ∧ a.rule = rule) ↔
      l.touches t rule = true := by
  rw [touches_iff]
  constructor
  · rintro ⟨x, hx, a, ⟨node, value⟩, hf, hrule⟩
    refine ⟨x.id, a, action_of_finds hf, hrule, ?_⟩
    exact List.ne_nil_of_mem (List.mem_filterMap.2 ⟨x, hx, foundIn_eq_some.2 ⟨rfl, a, node, hf⟩⟩)
  · rintro ⟨id, a, ha, hrule, hfound⟩
    obtain ⟨value, hvalue⟩ := List.exists_mem_of_ne_nil _ hfound
    obtain ⟨x, hx, hvalue⟩ := List.mem_filterMap.1 hvalue
    obtain ⟨rfl, b, node, hf⟩ := foundIn_eq_some.1 hvalue
    have hb := action_of_finds hf
    rw [ha] at hb
    cases hb
    exact ⟨x, hx, a, _, hf, hrule⟩

/-! ### Touching rules -/

/-- The list of touched rules says what the marks say. -/
structure Marked (l : CompiledLibrary) (s : Session) : Prop where
  size : s.isTouched.size = l.rules.size
  nodup : s.touched.Nodup
  mem : ∀ i, i ∈ s.touched ↔ s.isTouched[i]? = some true

theorem marked_start (l : CompiledLibrary) (keep : Bool) : Marked l (start l keep) := by
  refine ⟨by simp [start], List.nodup_nil, fun i => ?_⟩
  simp [start, Array.getElem?_replicate]

theorem Marked.touch (h : Marked l s) {rule : Nat} (hrule : rule < l.rules.size) :
    Marked l (s.touch rule) ∧ ∀ i, i ∈ (s.touch rule).touched ↔ i ∈ s.touched ∨ rule = i := by
  obtain ⟨hsize, hnodup, hmem⟩ := h
  have hlt : rule < s.isTouched.size := by rwa [hsize]
  unfold Session.touch
  split
  · next htouched =>
    have hin : rule ∈ s.touched := by
      rw [hmem, Array.getElem?_eq_getElem hlt]
      rw [Array.getElem?_eq_getElem hlt, Option.getD_some] at htouched
      rw [htouched]
    refine ⟨⟨hsize, hnodup, hmem⟩, fun i => ⟨.inl, ?_⟩⟩
    rintro (hi | rfl)
    · exact hi
    · exact hin
  · next htouched =>
    have hout : rule ∉ s.touched := fun hin => htouched (by rw [(hmem rule).1 hin]; rfl)
    refine ⟨⟨by rw [Array.size_modify, hsize], List.nodup_cons.2 ⟨hout, hnodup⟩, fun i => ?_⟩,
      fun i => by rw [List.mem_cons, or_comm, eq_comm]⟩
    rw [List.mem_cons, hmem, Array.getElem?_modify]
    by_cases hi : rule = i
    · subst hi
      rw [if_pos rfl, Array.getElem?_eq_getElem hlt]
      simp
    · rw [if_neg hi]
      exact or_iff_right fun h => hi h.symm

theorem isTouched_note (s : Session) (id : Nat) (role : Role) (value : String) :
    (s.note id role value).isTouched = s.isTouched ∧
      (s.note id role value).touched = s.touched := by
  cases role <;> exact ⟨rfl, rfl⟩

variable (hrules : ∀ (id : Nat) a, l.actions[id]? = some a → a.rule < l.rules.size)
include hrules

/-- **A trial touches the rule for which it finds something.** -/
theorem touched_attempt (hs : Marked l s) {x : Trial} (h : attempt l t s x = .ok s') :
    Marked l s' ∧ ∀ i, i ∈ s'.touched ↔
      i ∈ s.touched ∨ ∃ a found, finds l t x = some (a, found) ∧ a.rule = i := by
  rcases attempt_eq_ok h with ⟨hf, rfl⟩ | ⟨a, node, value, m, hf, rfl⟩
  · exact ⟨hs, fun i => by simp [hf]⟩
  · obtain ⟨hflags, hlist⟩ := isTouched_note s x.id a.role value
    have hnoted : Marked l (s.note x.id a.role value) := by
      refine ⟨?_, ?_, ?_⟩
      · rw [hflags]
        exact hs.size
      · rw [hlist]
        exact hs.nodup
      · rw [hflags, hlist]
        exact hs.mem
    obtain ⟨⟨hsize, hnodup, hmem⟩, htouched⟩ := hnoted.touch (hrules _ a (action_of_finds hf))
    refine ⟨⟨hsize, hnodup, hmem⟩, fun i => ?_⟩
    show i ∈ ((s.note x.id a.role value).touch a.rule).touched ↔ _
    rw [htouched, hlist, hf]
    simp

/-- **The rules that are touched in a run.** -/
theorem touched_run {xs : List Trial} (hs : Marked l s) (h : xs.foldlM (attempt l t) s = .ok s') :
    Marked l s' ∧ ∀ i, i ∈ s'.touched ↔
      i ∈ s.touched ∨ ∃ x ∈ xs, ∃ a found, finds l t x = some (a, found) ∧ a.rule = i := by
  induction xs generalizing s with
  | nil =>
    cases h
    exact ⟨hs, by simp⟩
  | cons x xs ih =>
    rw [List.foldlM_cons] at h
    obtain ⟨s₁, h₁, h⟩ := Outcome.bind_eq_ok_iff.1 h
    obtain ⟨hs₁, htouched⟩ := touched_attempt hrules hs h₁
    obtain ⟨hs', hrest⟩ := ih hs₁ h
    refine ⟨hs', fun i => ?_⟩
    rw [hrest, htouched, or_assoc, List.exists_mem_cons_iff]

omit hrules

/-! ### Counting matches -/

theorem count_attempt {x : Trial} (h : attempt l t s x = .ok s') :
    s'.matched.count = s.matched.count + (finds l t x).toList.length := by
  rw [attempt_eq] at h
  cases hf : finds l t x with
  | none =>
    rw [hf] at h
    cases h
    rfl
  | some found =>
    obtain ⟨a, node, value⟩ := found
    rw [hf] at h
    obtain ⟨m, hm, rfl⟩ := Outcome.map_eq_ok_iff.1 h
    unfold Matches.add at hm
    split at hm
    · cases hm
    · cases hm
      rfl

/-- **Everything that is found is counted.** -/
theorem count_run {xs : List Trial} (h : xs.foldlM (attempt l t) s = .ok s') :
    s'.matched.count = s.matched.count + (xs.filterMap (finds l t)).length := by
  induction xs generalizing s with
  | nil =>
    cases h
    rfl
  | cons x xs ih =>
    rw [List.foldlM_cons] at h
    obtain ⟨s₁, h₁, h⟩ := Outcome.bind_eq_ok_iff.1 h
    rw [ih h, count_attempt h₁, List.filterMap_cons]
    cases finds l t x with
    | none => rfl
    | some found =>
      rw [List.length_cons, Option.toList_some, List.length_singleton]
      omega

theorem length_filterMap_finds (xs : List Trial) :
    (xs.filterMap (finds l t)).length =
      ∑ id ∈ Finset.range l.actions.size, (xs.filterMap (foundIn l t id)).length := by
  induction xs with
  | nil => simp
  | cons x xs ih =>
    cases hf : finds l t x with
    | none =>
      have hnone (id : Nat) : foundIn l t id x = none := by
        unfold foundIn
        rw [hf, Option.map_none, ite_self]
      simp only [List.filterMap_cons, hf, hnone, ih]
    | some found =>
      have hid : x.id < l.actions.size := (Array.getElem?_eq_some_iff.1 (action_of_finds hf)).1
      have hcons (id : Nat) : ((x :: xs).filterMap (foundIn l t id)).length =
          (if x.id = id then 1 else 0) + (xs.filterMap (foundIn l t id)).length := by
        unfold foundIn
        by_cases h : x.id = id
        · rw [List.filterMap_cons, if_pos h, if_pos h, hf, Option.map_some, List.length_cons]
          exact Nat.add_comm _ _
        · rw [List.filterMap_cons, if_neg h, if_neg h, Nat.zero_add]
      rw [List.filterMap_cons, hf, List.length_cons, ih, Finset.sum_congr rfl fun id _ => hcons id,
        Finset.sum_add_distrib, Finset.sum_ite_eq, if_pos (Finset.mem_range.2 hid)]
      exact Nat.add_comm _ _

/-! ### A whole analysis -/

section Analysis
variable {keep : Bool} (h : (l.trials t).foldlM (attempt l t) (start l keep) = .ok s)
include h

/-- **The matches of an analysis** are what its actions have found. -/
theorem count_analysis :
    s.matched.count = ∑ id ∈ Finset.range l.actions.size, (l.found t id).length := by
  rw [count_run h, length_filterMap_finds]
  exact Nat.zero_add _

theorem hits_analysis {id : Nat} {a : Action} {isNull : Bool} (ha : l.actions[id]? = some a)
    (hrole : a.role = .require isNull) : 0 < s.hits[id]?.getD 0 ↔ l.found t id ≠ [] := by
  have hid : id < l.actions.size := (Array.getElem?_eq_some_iff.1 ha).1
  have hzero : ¬ 0 < (start l keep).hits[id]?.getD 0 := by simp [start, hid]
  rw [run_hits ha hrole (by simpa [start] using hid) h, or_iff_right hzero, ← List.head?_filterMap]
  exact List.isSome_head?

theorem valueOf_analysis {id : Nat} {a : Action} {field : String} {confidence : Int}
    (ha : l.actions[id]? = some a) (hrole : a.role = .extract field confidence) :
    s.valueOf id = (l.found t id).head? := by
  have hid : id < l.actions.size := (Array.getElem?_eq_some_iff.1 ha).1
  have hnone : (start l keep).valueOf id = none := by simp [start, valueOf, hid]
  rw [run_valueOf ha hrole (by simpa [start] using hid) h, hnone, Option.none_or, found,
    List.head?_filterMap]

/-- **The touched rules of an analysis** are those for which something has been found, once each. -/
theorem touched_analysis
    (hrules : ∀ (id : Nat) a, l.actions[id]? = some a → a.rule < l.rules.size) :
    s.touched.Nodup ∧ ∀ i, i ∈ s.touched ↔ l.touches t i = true := by
  obtain ⟨hs, htouched⟩ := touched_run hrules (marked_start l keep) h
  refine ⟨hs.nodup, fun i => ?_⟩
  rw [htouched, exists_finds_iff]
  exact or_iff_right List.not_mem_nil

end Analysis

end Session

end AgentRules
