import AgentRules.Proofs.Analysis.Trials

/-! # The matches fit

Every trial adds at most one match, and an analysis of a compiled library has no more trials than
the library has room for matches, so no match is ever refused (`run_paired`). Whether the matches
are kept makes no other difference: two sessions that differ in this alone stay `Paired`, step by
step (`attempt_paired`). -/

namespace AgentRules.Session

/-- Two accounts of the same matches, one of which keeps them. -/
structure Paired (kept bare : Matches) : Prop where
  keep_kept : kept.keep = true
  keep_bare : bare.keep = false
  capacity : bare.capacity = kept.capacity
  count : bare.count = kept.count
  length_kept : kept.kept.length = kept.count
  nil_bare : bare.kept = []

theorem Paired.add {kept bare : Matches} (h : Paired kept bare) (entry : Match)
    (hlt : kept.count < kept.capacity) : ∃ kept' bare', kept.add entry = .ok kept' ∧
      bare.add entry = .ok bare' ∧ Paired kept' bare' ∧ kept'.capacity = kept.capacity ∧
      kept'.count = kept.count + 1 := by
  obtain ⟨hkeep, hbare, hcap, hcount, hlength, hnil⟩ := h
  refine ⟨{ kept with count := kept.count + 1, kept := entry :: kept.kept },
    { bare with count := bare.count + 1 }, ?_, ?_, ?_, rfl, rfl⟩
  · rw [Matches.add, if_neg (by omega), if_pos hkeep]
  · rw [Matches.add, if_neg (by omega), hbare]
    rfl
  · refine ⟨hkeep, hbare, hcap, ?_, ?_, hnil⟩
    · show bare.count + 1 = kept.count + 1
      rw [hcount]
    · show kept.kept.length + 1 = kept.count + 1
      rw [hlength]

section Run
variable {l : CompiledLibrary} {t : SyntaxTree} {s : Session} {m : Matches}

/-- **A trial keeps two sessions in step**, while there is room for a match. -/
theorem attempt_paired (h : Paired s.matched m) (hlt : s.matched.count < s.matched.capacity)
    (x : Trial) : ∃ s' m', attempt l t s x = .ok s' ∧
      attempt l t { s with matched := m } x = .ok { s' with matched := m' } ∧
      Paired s'.matched m' ∧ s'.matched.capacity = s.matched.capacity ∧
      s'.matched.count ≤ s.matched.count + 1 := by
  rw [attempt_eq, attempt_eq]
  cases finds l t x with
  | none => exact ⟨s, m, rfl, rfl, h, rfl, Nat.le_succ _⟩
  | some found =>
    obtain ⟨action, node, value⟩ := found
    obtain ⟨kept, bare, hkept, hbare, hpair, hcap, hcount⟩ := h.add ⟨x.key, value, node⟩ hlt
    refine ⟨{ s.record x.id action value with matched := kept }, bare, ?_, ?_, hpair, hcap,
      Nat.le_of_eq hcount⟩
    · dsimp only
      rw [hkept]
      rfl
    · dsimp only
      rw [hbare, record_matched]
      rfl

/-- **Trials that there is room for are all made.** -/
theorem run_paired {xs : List Trial} (h : Paired s.matched m)
    (hroom : s.matched.count + xs.length ≤ s.matched.capacity) :
    ∃ s' m', xs.foldlM (attempt l t) s = .ok s' ∧
      xs.foldlM (attempt l t) { s with matched := m } = .ok { s' with matched := m' } ∧
      Paired s'.matched m' ∧ s'.matched.count ≤ s.matched.capacity := by
  induction xs generalizing s m with
  | nil =>
    rw [List.length_nil] at hroom
    exact ⟨s, m, rfl, rfl, h, hroom⟩
  | cons x xs ih =>
    rw [List.length_cons] at hroom
    obtain ⟨s₁, m₁, hs, hm, hpair, hcap, hcount⟩ := attempt_paired h (by omega) x
    obtain ⟨s', m', hs', hm', hpair', hle⟩ := ih hpair (by omega)
    refine ⟨s', m', ?_, ?_, hpair', by omega⟩
    · rw [List.foldlM_cons, hs]
      exact hs'
    · rw [List.foldlM_cons, hm]
      exact hm'

end Run

end AgentRules.Session

namespace AgentRules.CompiledLibrary

/-- All trials of an analysis are made, whether the matches are kept or not. -/
theorem exists_runs {l : CompiledLibrary} {t : SyntaxTree} (hl : Registered l)
    (ht : SyntaxTree.WellFormed t) : ∃ s m,
      (l.trials t).foldlM (Session.attempt l t) (Session.start l true) = .ok s ∧
      (l.trials t).foldlM (Session.attempt l t) (Session.start l false) =
        .ok { s with matched := m } ∧
      Session.Paired s.matched m ∧ s.matched.count ≤ l.capacity := by
  have hpair : Session.Paired (Session.start l true).matched
      (Session.start l false).matched := ⟨rfl, rfl, rfl, rfl, rfl, rfl⟩
  have hroom : (Session.start l true).matched.count + (l.trials t).length ≤
      (Session.start l true).matched.capacity := by
    have := length_trials_le hl ht
    show 0 + _ ≤ l.capacity
    omega
  exact Session.run_paired hpair hroom

theorem exists_run {l : CompiledLibrary} {t : SyntaxTree} (hl : Registered l)
    (ht : SyntaxTree.WellFormed t) (keep : Bool) :
    ∃ s, (l.trials t).foldlM (Session.attempt l t) (Session.start l keep) = .ok s := by
  obtain ⟨s, m, hs, hm, -⟩ := exists_runs hl ht
  cases keep with
  | true => exact ⟨s, hs⟩
  | false => exact ⟨_, hm⟩

/-- **The matches never overflow.** Every tree is analysed by every compiled library, with no more
matches than the library provides for; when the matches are kept there are as many entries as
matches, and when they are not, nothing else is different. -/
theorem analyze_within_capacity {library : RuleLibrary} {threshold : Nat} {l : CompiledLibrary}
    {t : SyntaxTree} (hl : compile library threshold = .ok l) (ht : SyntaxTree.Built t) :
    ∃ kept bare, l.analyze t true = .ok kept ∧ l.analyze t false = .ok bare ∧
      kept.matched.count ≤ l.capacity ∧ kept.matched.entries.length = kept.matched.count ∧
      bare.matched.entries = [] ∧ bare.matched.count = kept.matched.count ∧
      bare.writes = kept.writes ∧ bare.touched = kept.touched ∧ bare.fired = kept.fired ∧
      bare.collisions = kept.collisions := by
  have hreg := registered_of_compile hl
  have hwf := ht.wellFormed
  obtain ⟨s, m, hs, hm, hpair, hle⟩ := exists_runs hreg hwf
  refine ⟨s.finish l, { s with matched := m }.finish l, ?_, ?_, hle, ?_, ?_, hpair.count, rfl, rfl,
    rfl, rfl⟩
  · rw [analyze_eq l t hwf, hs]
    rfl
  · rw [analyze_eq l t hwf, hm]
    rfl
  · show s.matched.kept.reverse.length = s.matched.count
    rw [List.length_reverse, hpair.length_kept]
  · show m.kept.reverse = []
    rw [hpair.nil_bare]
    rfl

/-- A rule that asks for a name and writes it. -/
def nameRules : RuleLibrary :=
  ⟨[], [], [⟨{}, ["agent.product.name=\"AB\""], ["AgentName:1:agent.product.name"]⟩]⟩

/-- The rule is compiled, and a tree with a name is analysed. -/
theorem analyze_within_capacity_nested : ∃ l, compile nameRules 0 = .ok l ∧
    SyntaxTree.Built SyntaxTree.nested ∧
    ∃ kept bare, l.analyze SyntaxTree.nested true = .ok kept ∧
      l.analyze SyntaxTree.nested false = .ok bare ∧ kept.matched.count ≤ l.capacity ∧
      kept.matched.entries.length = kept.matched.count ∧ bare.matched.entries = [] ∧
      bare.writes = kept.writes := by
  have hok : (compile nameRules 0).isOk = true := by decide +kernel
  cases hl : compile nameRules 0 with
  | error e =>
    rw [hl] at hok
    cases hok
  | ok l =>
    obtain ⟨kept, bare, hkept, hbare, hcap, hlen, hnil, -, hwrites, -⟩ :=
      analyze_within_capacity hl SyntaxTree.built_nested
    exact ⟨l, rfl, SyntaxTree.built_nested, kept, bare, hkept, hbare, hcap, hlen, hnil, hwrites⟩

end AgentRules.CompiledLibrary
