import AgentRules.Proofs.Index.Choices
import AgentRules.Proofs.Index.Folding

/-! # Which expressions compile

Compiling decides everything about an expression that can be decided without a tree. It accepts an
expression that can be read just if the expression is meaningful: the tables and sets it names are
there, no open range of children starts behind the last child of its name, and it starts at the path
of a node. `Expr.Meaningful` says this of all stages of the expression alike, whereas compiling meets
them in two states, as steps of a path and as steps of a chain. Whether the mark that nothing may be
found is allowed depends on the place of the function that makes it (`Draft.exists_visit_iff`), and
on what the expression is for (`compiles_iff_meaningful`). -/

namespace AgentRules

open Text Outcome

/-! ### What is meaningful -/

/-- An open range starts at an index that a child of the name can have. -/
def IndexSpec.StartsWithin (name : String) : IndexSpec → Prop
  | onward first => first ≤ maxIndex name
  | _ => True

/-- What a step refers to is there. -/
def PathStep.Resolves (r : Registry) : PathStep → Prop
  | down indices name => indices.StartsWithin name
  | inSet set => ∃ s, r.set set = .ok s
  | lookup table _ => ∃ t, r.table table = .ok t
  | _ => True

def Wrapper.Resolves (r : Registry) : Wrapper → Prop
  | lookup table _ | lookupByHead table _ | inTableByHead table => ∃ t, r.table table = .ok t
  | _ => True

def Stage.Resolves (r : Registry) : Stage → Prop
  | step s => s.Resolves r
  | wrapper w => w.Resolves r

namespace Expr

/-- The expression is about a path, and all that it refers to is there. -/
structure Meaningful (r : Registry) (e : Expr) : Prop where
  root : e.root.isSome = true
  resolves : ∀ s ∈ e.stages, s.Resolves r

/-- No function of the expression asks that nothing is found. -/
def NullFree (e : Expr) : Prop := .wrapper .isNull ∉ e.stages

/-- The expression is about whether nothing is found for another one. -/
def IsNullOf (e : Expr) : Prop := ∃ inner steps, e = .wrapped .isNull inner steps ∧ inner.NullFree

theorem nullFree_path (root : String) (steps : List PathStep) : (path root steps).NullFree := by
  simp [NullFree, stages]

theorem nullFree_wrapped {w : Wrapper} {inner : Expr} {steps : List PathStep} :
    (wrapped w inner steps).NullFree ↔ w ≠ .isNull ∧ inner.NullFree := by
  simp only [NullFree, stages, List.mem_append, List.mem_cons, List.mem_map, reduceCtorEq, and_false,
    exists_false, or_false, Stage.wrapper.injEq, not_or]
  constructor
  · rintro ⟨hinner, hw⟩
    exact ⟨fun h => hw h.symm, hinner⟩
  · rintro ⟨hw, hinner⟩
    exact ⟨hinner, fun h => hw h.symm⟩

variable {r : Registry}

theorem not_meaningful_fixed (text : String) : ¬ (fixed text).Meaningful r := fun h => by
  have hroot := h.root
  simp [root] at hroot

theorem meaningful_path {root : String} {steps : List PathStep} :
    (path root steps).Meaningful r ↔ ∀ s ∈ steps, s.Resolves r := by
  constructor
  · intro h s hs
    exact h.resolves (.step s) (List.mem_map.2 ⟨s, hs, rfl⟩)
  · intro h
    refine ⟨rfl, fun st hst => ?_⟩
    obtain ⟨s, hs, rfl⟩ := List.mem_map.1 hst
    exact h s hs

theorem meaningful_wrapped {w : Wrapper} {inner : Expr} {steps : List PathStep} :
    (wrapped w inner steps).Meaningful r ↔
      inner.Meaningful r ∧ w.Resolves r ∧ ∀ s ∈ steps, s.Resolves r := by
  constructor
  · rintro ⟨hroot, h⟩
    refine ⟨⟨hroot, fun s hs => h s (List.mem_append_left _ hs)⟩, ?_, fun s hs => ?_⟩
    · exact h (.wrapper w) (List.mem_append_right _ List.mem_cons_self)
    · refine h (.step s) (List.mem_append_right _ (List.mem_cons_of_mem _ ?_))
      exact List.mem_map.2 ⟨s, hs, rfl⟩
  · rintro ⟨⟨hroot, hinner⟩, hw, hsteps⟩
    refine ⟨hroot, fun st hst => ?_⟩
    rcases List.mem_append.1 hst with hst | hst
    · exact hinner st hst
    · rcases List.mem_cons.1 hst with rfl | hst
      · exact hw
      · obtain ⟨s, hs, rfl⟩ := List.mem_map.1 hst
        exact hsteps s hs

end Expr

/-! ### Single stages -/

/-- Child indices that are ascending are some, unless an open range starts too late. -/
theorem not_isEmpty_resolve_iff {indices : IndexSpec} {name : String}
    (h : Expr.isAscending indices = true) :
    (indices.resolve name).isEmpty = false ↔ indices.StartsWithin name := by
  have hmax := one_le_maxIndex name
  rw [IndexRange.isEmpty, decide_eq_false_iff_not, Nat.not_lt]
  cases indices with
  | all => exact iff_of_true hmax True.intro
  | single n => exact iff_of_true (Nat.le_refl n) True.intro
  | between first last =>
    have hasc : 1 ≤ first ∧ first ≤ last := by simpa [Expr.isAscending] using h
    exact iff_of_true hasc.2 True.intro
  | onward first => exact Iff.rfl
  | upTo last =>
    have hasc : 1 ≤ last := by simpa [Expr.isAscending] using h
    exact iff_of_true hasc True.intro

theorem exists_map_iff {ε α β : Type} {x : Except ε α} {f : α → β} :
    (∃ b, x.map f = .ok b) ↔ ∃ a, x = .ok a := by
  simp only [map_eq_ok_iff]
  exact ⟨fun ⟨_, a, ha, _⟩ => ⟨a, ha⟩, fun ⟨a, ha⟩ => ⟨_, a, ha, rfl⟩⟩

variable {r : Registry}

theorem exists_resolveIndices_iff {indices : IndexSpec} {name : String}
    (h : Expr.isAscending indices = true) :
    (∃ range, resolveIndices indices name = .ok range) ↔ indices.StartsWithin name := by
  rw [← not_isEmpty_resolve_iff h]
  unfold resolveIndices
  dsimp only
  cases (indices.resolve name).isEmpty <;> simp

theorem PathStep.exists_compile_iff {s : PathStep} (hs : s.WellFormed) :
    (∃ c, s.compile r = .ok c) ↔ s.Resolves r := by
  cases s with
  | down indices name => exact exists_map_iff.trans (exists_resolveIndices_iff hs.1)
  | inSet set => exact exists_map_iff
  | lookup table default => exact exists_map_iff
  | _ => exact iff_of_true ⟨_, rfl⟩ True.intro

theorem Wrapper.exists_compile_iff {w : Wrapper} (hw : w.WellFormed) :
    (∃ c, w.compile r = .ok c) ↔ w.Resolves r := by
  cases w with
  | lookup table default | lookupByHead table default | inTableByHead table =>
    exact exists_map_iff
  | concat before after =>
    refine iff_of_true ?_ True.intro
    cases before <;> cases after <;> first | exact ⟨_, rfl⟩ | simp [WellFormed] at hw
  | isNull | cleanVersion | normalizeBrand => exact iff_of_true ⟨_, rfl⟩ True.intro

namespace Draft
variable {d d' : Draft}

/-- A step of the expression is taken by either visitor under the same condition. -/
theorem exists_step_iff {s : PathStep} (hs : s.WellFormed) :
    (∃ d', d.step r s = .ok d') ↔ s.Resolves r := by
  have hpush : (∃ d', (s.compile r).map d.push = .ok d') ↔ s.Resolves r :=
    exists_map_iff.trans (PathStep.exists_compile_iff hs)
  unfold Draft.step
  split
  · exact hpush
  · cases s with
    | down indices name => exact exists_map_iff.trans (exists_resolveIndices_iff hs.1)
    | words | equals | startsWith => exact iff_of_true ⟨_, rfl⟩ True.intro
    | up | next | prev | backToFull | differs | endsWith | contains | inSet | lookup => exact hpush

theorem exists_steps_iff {steps : List PathStep} (hs : ∀ s ∈ steps, s.WellFormed) :
    (∃ d', steps.foldlM (Draft.step r) d = .ok d') ↔ ∀ s ∈ steps, s.Resolves r := by
  induction steps generalizing d with
  | nil => exact iff_of_true ⟨d, rfl⟩ (by simp)
  | cons s steps ih =>
    obtain ⟨hs, hsteps⟩ := List.forall_mem_cons.1 hs
    rw [List.forall_mem_cons, List.foldlM_cons, ← exists_step_iff (d := d) hs]
    simp only [bind_eq_ok_iff]
    constructor
    · rintro ⟨d', d₁, hd₁, hd'⟩
      exact ⟨⟨d₁, hd₁⟩, (ih hsteps).1 ⟨d', hd'⟩⟩
    · rintro ⟨⟨d₁, hd₁⟩, hrest⟩
      obtain ⟨d', hd'⟩ := (ih (d := d₁) hsteps).2 hrest
      exact ⟨d', d₁, hd₁, hd'⟩

/-! ### Expressions -/

theorem visit_wrapped {w : Wrapper} (hw : w ≠ .isNull) (outermost : Bool) (inner : Expr)
    (steps : List PathStep) : d.visit r outermost (.wrapped w inner steps) =
      (d.visit r false inner >>= fun d₁ => w.compile r >>= fun c =>
        steps.foldlM (Draft.step r) (d₁.push c)) := by
  cases w with
  | isNull => exact absurd rfl hw
  | cleanVersion | normalizeBrand | concat | lookup | lookupByHead | inTableByHead => rfl

theorem exists_visit_inner_iff {e : Expr} (he : e.WellFormed) :
    (∃ d', d.visit r false e = .ok d') ↔ e.Meaningful r ∧ e.NullFree := by
  induction e generalizing d with
  | fixed text =>
    refine iff_of_false ?_ fun h => Expr.not_meaningful_fixed text h.1
    rintro ⟨d', hd'⟩
    cases hd'
  | path root steps =>
    rw [Expr.meaningful_path, and_iff_left (Expr.nullFree_path root steps)]
    exact exists_steps_iff he.2
  | wrapped w inner steps ih =>
    obtain ⟨hw, hinner, hsteps⟩ := he
    rw [Expr.meaningful_wrapped, Expr.nullFree_wrapped]
    by_cases hnull : w = .isNull
    · subst hnull
      refine iff_of_false ?_ fun h => h.2.1 rfl
      rintro ⟨d', hd'⟩
      cases hd'
    · rw [visit_wrapped hnull, ← Wrapper.exists_compile_iff hw]
      simp only [bind_eq_ok_iff]
      constructor
      · rintro ⟨d', d₁, hd₁, c, hc, hd'⟩
        obtain ⟨hmean, hfree⟩ := (ih hinner).1 ⟨d₁, hd₁⟩
        exact ⟨⟨hmean, ⟨c, hc⟩, (exists_steps_iff hsteps).1 ⟨d', hd'⟩⟩, hnull, hfree⟩
      · rintro ⟨⟨hmean, ⟨c, hc⟩, hres⟩, -, hfree⟩
        obtain ⟨d₁, hd₁⟩ := (ih (d := d) hinner).2 ⟨hmean, hfree⟩
        obtain ⟨d', hd'⟩ := (exists_steps_iff (d := d₁.push c) hsteps).2 hres
        exact ⟨d', d₁, hd₁, c, hc, hd'⟩

/-- **All meaningful expressions are compiled** in which only the outermost function asks for
nothing. -/
theorem exists_visit_iff {e : Expr} (he : e.WellFormed) :
    (∃ d', d.visit r true e = .ok d') ↔ e.Meaningful r ∧ (e.NullFree ∨ e.IsNullOf) := by
  have hother (h : d.visit r true e = d.visit r false e) (hnot : ¬ e.IsNullOf) :
      (∃ d', d.visit r true e = .ok d') ↔ e.Meaningful r ∧ (e.NullFree ∨ e.IsNullOf) := by
    rw [or_iff_left hnot, h]
    exact exists_visit_inner_iff he
  cases e with
  | fixed text => exact hother rfl (by simp [Expr.IsNullOf])
  | path root steps => exact hother rfl (by simp [Expr.IsNullOf])
  | wrapped w inner steps =>
    by_cases hnull : w = .isNull
    · subst hnull
      obtain ⟨-, hinner, hsteps⟩ := he
      have hfree : (Expr.wrapped .isNull inner steps).NullFree ∨
          (Expr.wrapped .isNull inner steps).IsNullOf ↔ inner.NullFree := by
        rw [Expr.nullFree_wrapped, or_iff_right (by simp)]
        refine ⟨?_, fun h => ⟨inner, steps, rfl, h⟩⟩
        rintro ⟨i, ss, heq, h⟩
        cases heq
        exact h
      have hvisit : d.visit r true (.wrapped .isNull inner steps) =
          (visit r false { d with usesIsNull := true, steps := d.steps ++ [.isNull] } inner >>=
            fun d₁ => steps.foldlM (Draft.step r) d₁) := rfl
      rw [hfree, Expr.meaningful_wrapped, hvisit]
      simp only [bind_eq_ok_iff]
      constructor
      · rintro ⟨d', d₁, hd₁, hd'⟩
        obtain ⟨hmean, hfree⟩ := (exists_visit_inner_iff hinner).1 ⟨d₁, hd₁⟩
        exact ⟨⟨hmean, True.intro, (exists_steps_iff hsteps).1 ⟨d', hd'⟩⟩, hfree⟩
      · rintro ⟨⟨hmean, -, hres⟩, hfree⟩
        obtain ⟨d₁, hd₁⟩ := (exists_visit_inner_iff hinner).2 ⟨hmean, hfree⟩
        obtain ⟨d', hd'⟩ := (exists_steps_iff (d := d₁) hsteps).2 hres
        exact ⟨d', d₁, hd₁, hd'⟩
    · refine hother ?_ ?_
      · rw [visit_wrapped hnull, visit_wrapped hnull]
      · rintro ⟨i, ss, heq, -⟩
        cases heq
        exact hnull rfl

/-! ### The mark -/

theorem usesIsNull_step {s : PathStep} (h : d.step r s = .ok d') :
    d'.usesIsNull = d.usesIsNull := by
  have hpush (h : (s.compile r).map d.push = .ok d') : d'.usesIsNull = d.usesIsNull := by
    obtain ⟨c, -, rfl⟩ := map_eq_ok_iff.1 h
    rfl
  unfold Draft.step at h
  split at h
  · exact hpush h
  · cases s with
    | down indices name =>
      obtain ⟨range, -, rfl⟩ := map_eq_ok_iff.1 h
      rfl
    | words range | equals text =>
      cases h
      rfl
    | startsWith text =>
      cases h
      unfold Draft.startWith
      split
      · rfl
      · dsimp only
        split <;> rfl
    | up | next | prev | backToFull | differs | endsWith | contains | inSet | lookup =>
      exact hpush h

theorem usesIsNull_steps {steps : List PathStep} (h : steps.foldlM (Draft.step r) d = .ok d') :
    d'.usesIsNull = d.usesIsNull :=
  Fold.foldlM_invariant (fun d' => d'.usesIsNull = d.usesIsNull)
    (fun _ _ _ hb _ h => (usesIsNull_step h).trans hb) rfl h

theorem usesIsNull_visit_inner {e : Expr} (h : d.visit r false e = .ok d') :
    d'.usesIsNull = d.usesIsNull := by
  induction e generalizing d d' with
  | fixed text => cases h
  | path root steps => exact usesIsNull_steps (d := { d with paths := [root] }) h
  | wrapped w inner steps ih =>
    by_cases hnull : w = .isNull
    · subst hnull
      cases h
    · rw [visit_wrapped hnull] at h
      obtain ⟨d₁, hd₁, h⟩ := bind_eq_ok_iff.1 h
      obtain ⟨c, -, h⟩ := bind_eq_ok_iff.1 h
      have hinner : d₁.usesIsNull = d.usesIsNull := ih hd₁
      have hsteps : d'.usesIsNull = (d₁.push c).usesIsNull := usesIsNull_steps h
      exact hsteps.trans hinner

theorem usesIsNull_visit {e : Expr} (he : e.WellFormed) (hd : d.usesIsNull = false)
    (h : d.visit r true e = .ok d') : d'.usesIsNull = true ↔ e.IsNullOf := by
  have hother (h : d.visit r false e = .ok d') (hnot : ¬ e.IsNullOf) :
      d'.usesIsNull = true ↔ e.IsNullOf := by
    rw [usesIsNull_visit_inner h, hd]
    exact iff_of_false Bool.false_ne_true hnot
  cases e with
  | fixed text => cases h
  | path root steps => exact hother h (by simp [Expr.IsNullOf])
  | wrapped w inner steps =>
    by_cases hnull : w = .isNull
    · subst hnull
      obtain ⟨d₁, hd₁, h⟩ := bind_eq_ok_iff.1 h
      refine iff_of_true ?_ ⟨inner, steps, rfl, ?_⟩
      · rw [usesIsNull_steps h]
        exact usesIsNull_visit_inner hd₁
      · exact ((exists_visit_inner_iff he.2.1).1 ⟨d₁, hd₁⟩).2
    · refine hother ?_ ?_
      · rwa [visit_wrapped hnull] at h ⊢
      · rintro ⟨i, ss, heq, -⟩
        cases heq
        exact hnull rfl

end Draft

/-! ### Compiled expressions -/

theorem Expr.IsNullOf.not_nullFree {e : Expr} (h : e.IsNullOf) : ¬ e.NullFree := by
  obtain ⟨inner, steps, rfl, -⟩ := h
  exact fun hfree => (nullFree_wrapped.1 hfree).1 rfl

namespace CompiledPath
variable {s : String} {c : CompiledPath}

theorem compile_cases (h : compile r s = .ok c) : ∃ e, Expr.parse s = .ok e ∧
    ((∃ text, e = .fixed text) ∧ c.fixedValue.isSome = true ∧ c.usesIsNull = false ∨
      (∃ d, Draft.visit r true {} e = .ok d ∧ c.keys = d.paths.map (⟨·, d.selector⟩) ∧
        c.chain = d.steps ∧ c.usesIsNull = d.usesIsNull) ∧ c.fixedValue = none) := by
  unfold compile at h
  obtain ⟨e, he, h⟩ := bind_eq_ok_iff.1 h
  refine ⟨e, he, ?_⟩
  cases e with
  | fixed text =>
    cases h
    exact .inl ⟨⟨text, rfl⟩, rfl, rfl⟩
  | path root steps | wrapped w inner steps =>
    obtain ⟨d, hd, h⟩ := bind_eq_ok_iff.1 h
    cases h
    exact .inr ⟨⟨d, hd, rfl, rfl, rfl⟩, rfl⟩

theorem exists_compile_of_visit {e : Expr} {d : Draft} (he : Expr.parse s = .ok e)
    (hd : Draft.visit r true {} e = .ok d) :
    ∃ c, compile r s = .ok c ∧ c.fixedValue = none ∧ c.usesIsNull = d.usesIsNull := by
  cases e with
  | fixed text => cases hd
  | path root steps | wrapped w inner steps =>
    refine ⟨_, bind_eq_ok_iff.2 ⟨_, he, bind_eq_ok_iff.2 ⟨d, hd, rfl⟩⟩, rfl, rfl⟩

theorem exists_compileExtract_iff : (∃ c, compileExtract r s = .ok c) ↔
    ∃ e, Expr.parse s = .ok e ∧ ((∃ text, e = .fixed text) ∨ e.Meaningful r ∧ e.NullFree) := by
  constructor
  · rintro ⟨c, hc⟩
    obtain ⟨hc, hnull⟩ := CompiledLibrary.compileExtract_eq_ok hc
    obtain ⟨e, he, ⟨hfixed, -⟩ | ⟨⟨d, hd, -, -, huses⟩, -⟩⟩ := compile_cases hc
    · exact ⟨e, he, .inl hfixed⟩
    · have hwf := (Expr.readable_of_parse he).wellFormed
      obtain ⟨hmean, hfree | hnullOf⟩ := (Draft.exists_visit_iff hwf).1 ⟨d, hd⟩
      · exact ⟨e, he, .inr ⟨hmean, hfree⟩⟩
      · rw [hnull, eq_comm, ← Bool.not_eq_true, Draft.usesIsNull_visit hwf rfl hd] at huses
        exact absurd hnullOf huses
  · rintro ⟨e, he, ⟨text, rfl⟩ | ⟨hmean, hfree⟩⟩
    · exact ⟨_, bind_eq_ok_iff.2 ⟨_, bind_eq_ok_iff.2 ⟨_, he, rfl⟩, rfl⟩⟩
    · have hwf := (Expr.readable_of_parse he).wellFormed
      obtain ⟨d, hd⟩ := (Draft.exists_visit_iff (d := {}) hwf).2 ⟨hmean, .inl hfree⟩
      obtain ⟨c, hc, -, huses⟩ := exists_compile_of_visit he hd
      have hnull : c.usesIsNull = false := by
        rw [huses, ← Bool.not_eq_true, Draft.usesIsNull_visit hwf rfl hd]
        exact fun h => h.not_nullFree hfree
      refine ⟨c, bind_eq_ok_iff.2 ⟨c, hc, ?_⟩⟩
      simp [hnull, pure, Except.pure]

theorem exists_compileRequire_iff : (∃ c, compileRequire r s = .ok c) ↔
    ∃ e, Expr.parse s = .ok e ∧ e.Meaningful r ∧ (e.NullFree ∨ e.IsNullOf) := by
  constructor
  · rintro ⟨c, hc⟩
    obtain ⟨c', hc', hfixed, -⟩ := CompiledLibrary.compileRequire_eq_ok hc
    obtain ⟨e, he, ⟨-, hsome, -⟩ | ⟨⟨d, hd, -⟩, -⟩⟩ := compile_cases hc'
    · rw [hfixed] at hsome
      cases hsome
    · exact ⟨e, he, (Draft.exists_visit_iff (Expr.readable_of_parse he).wellFormed).1 ⟨d, hd⟩⟩
  · rintro ⟨e, he, h⟩
    obtain ⟨d, hd⟩ :=
      (Draft.exists_visit_iff (d := {}) (Expr.readable_of_parse he).wellFormed).2 h
    obtain ⟨c, hc, hfixed, -⟩ := exists_compile_of_visit he hd
    refine ⟨{ c with chain := c.chain.prune }, bind_eq_ok_iff.2 ⟨c, hc, ?_⟩⟩
    simp [hfixed, pure, Except.pure]

theorem ready_of_compile (h : compile r s = .ok c) (hfixed : c.fixedValue = none) : c.Ready := by
  obtain ⟨e, he, ⟨-, hsome, -⟩ | ⟨⟨d, hd, hkeys, hchain, -⟩, -⟩⟩ := compile_cases h
  · rw [hfixed] at hsome
    cases hsome
  · have hwf := (Expr.readable_of_parse he).wellFormed
    refine (Draft.Ready.visit hwf (by simp) hd).compiled hkeys fun st hst => ?_
    rwa [hchain] at hst

theorem mem_of_mem_prune {chain : Chain} {st : Step} (h : st ∈ chain.prune) : st ∈ chain := by
  rw [Chain.prune, dropEndWhile, List.mem_reverse] at h
  exact List.mem_reverse.1 ((List.dropWhile_sublist _).subset h)

theorem Ready.prune (h : c.Ready) : Ready { c with chain := c.chain.prune } :=
  ⟨h.ne_nil, h.nodup, h.selector, fun st hst => h.proper st (mem_of_mem_prune hst)⟩

/-- **Compiling accepts the meaningful expressions and no other ones.** What a rule extracts is a
quoted text, or asks for nothing nowhere; what it requires is no quoted text, and may as a whole ask
for nothing. Whatever is accepted and looks at a tree can be found there by some key, its keys are
told apart and ask the same of the value, and its chain goes down by proper ranges. -/
theorem compiles_iff_meaningful (r : Registry) (s : String) :
    ((∃ c, compileExtract r s = .ok c) ↔ ∃ e, Expr.parse s = .ok e ∧
      ((∃ text, e = .fixed text) ∨ e.Meaningful r ∧ e.NullFree)) ∧
    ((∃ c, compileRequire r s = .ok c) ↔ ∃ e, Expr.parse s = .ok e ∧
      e.Meaningful r ∧ (e.NullFree ∨ e.IsNullOf)) ∧
    ∀ c, compileExtract r s = .ok c ∨ compileRequire r s = .ok c → c.fixedValue = none →
      c.keys ≠ [] ∧ (c.keys.map IndexKey.folded).Nodup ∧
      (∃ selector, ∀ key ∈ c.keys, key.selector = selector) ∧
      ∀ range name, .down range name ∈ c.chain → 1 ≤ range.start ∧ range.start ≤ range.stop := by
  refine ⟨exists_compileExtract_iff, exists_compileRequire_iff, fun c hc hfixed => ?_⟩
  have hready : c.Ready := by
    rcases hc with hc | hc
    · exact ready_of_compile (CompiledLibrary.compileExtract_eq_ok hc).1 hfixed
    · obtain ⟨c', hc', hfixed', rfl⟩ := CompiledLibrary.compileRequire_eq_ok hc
      exact (ready_of_compile hc' hfixed').prune
  exact ⟨hready.ne_nil, hready.nodup, hready.selector, fun range name h => hready.proper _ h⟩

end CompiledPath

end AgentRules
