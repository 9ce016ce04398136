import AgentRules.Proofs.Index.Endings

/-! # The choices that an expression is written out into

While a draft is static, every step down multiplies its paths by the indices of a range. There is
always an index to choose, so no path is lost, and the index and the name can be read back from a
path, so no two choices make the same one, even in lower case. What is left to the chain goes down
by ranges of the same sort. A draft with all this is `Ready`; every step of compiling keeps it
(`Draft.Ready.visit`), so the keys of a compiled expression are some and all different. -/

namespace AgentRules

open Text Outcome

/-! ### Ranges of children -/

theorem one_le_maxIndex (name : String) : 1 ≤ maxIndex name := by
  unfold maxIndex
  split <;> decide

/-- A range of children that is not empty and counts from one. -/
def IndexRange.Proper (range : IndexRange) : Prop := 1 ≤ range.start ∧ range.start ≤ range.stop

theorem proper_of_resolveIndices {indices : IndexSpec} {name : String} {range : IndexRange}
    (hasc : Expr.isAscending indices = true) (h : resolveIndices indices name = .ok range) :
    range.Proper := by
  have hstart : 1 ≤ (indices.resolve name).start := by
    cases indices <;> simp_all [Expr.isAscending, IndexSpec.resolve]
  unfold resolveIndices at h
  dsimp only at h
  split at h
  · cases h
  · next hempty =>
    cases h
    refine ⟨hstart, ?_⟩
    simp only [IndexRange.isEmpty, decide_eq_true_eq] at hempty
    omega

/-- The step goes down by a proper range, if it goes down. -/
def Step.Proper : Step → Prop
  | down range _ => range.Proper
  | _ => True

variable {r : Registry}

theorem PathStep.proper_of_compile {s : PathStep} {c : Step} (hs : s.WellFormed)
    (h : s.compile r = .ok c) : c.Proper := by
  cases s with
  | down indices name =>
    obtain ⟨range, hrange, rfl⟩ := map_eq_ok_iff.1 h
    exact proper_of_resolveIndices hs.1 hrange
  | inSet | lookup =>
    obtain ⟨found, -, rfl⟩ := map_eq_ok_iff.1 h
    exact True.intro
  | up | next | prev | backToFull | words | equals | differs | startsWith | endsWith | contains =>
    cases h
    exact True.intro

theorem Wrapper.proper_of_compile {w : Wrapper} {c : Step} (h : w.compile r = .ok c) :
    c.Proper := by
  cases w with
  | lookup | lookupByHead | inTableByHead =>
    obtain ⟨table, -, rfl⟩ := map_eq_ok_iff.1 h
    exact True.intro
  | concat before after =>
    cases before <;> cases after <;> cases h <;> exact True.intro
  | isNull | cleanVersion | normalizeBrand =>
    cases h
    exact True.intro

/-! ### Drafts -/

/-- The draft has paths, all different in lower case, and its chain goes down by proper ranges. -/
structure Draft.Ready (d : Draft) : Prop where
  regular : d.Regular
  ne_nil : d.paths ≠ []
  distinct : d.paths.Pairwise (lower · ≠ lower ·)
  proper : ∀ s ∈ d.steps, s.Proper

namespace Draft.Ready
variable {d d' : Draft}

theorem withSteps (h : d.Ready) (hpaths : d'.paths = d.paths) (hranges : d'.ranges = d.ranges)
    (hsteps : ∀ s ∈ d'.steps, s ∈ d.steps ∨ s.Proper) : d'.Ready := by
  refine ⟨h.regular.of_paths hpaths hranges, ?_, ?_, fun s hs => ?_⟩
  · rw [hpaths]
    exact h.ne_nil
  · rw [hpaths]
    exact h.distinct
  · exact (hsteps s hs).elim (h.proper s) id

theorem push (h : d.Ready) {s : Step} (hs : s.Proper) : (d.push s).Ready := by
  refine h.withSteps rfl rfl fun s' hs' => ?_
  rcases List.mem_append.1 hs' with hs' | hs'
  · exact .inl hs'
  · rw [List.mem_singleton.1 hs']
    exact .inr hs

theorem start (d : Draft) (hproper : ∀ s ∈ d.steps, s.Proper) {root : String} (h : IsName root) :
    Ready { d with paths := [root] } :=
  ⟨.start d h, List.cons_ne_nil _ _, List.pairwise_singleton _ _, hproper⟩

/-- **Going down keeps the choices apart**: a child's path gives back the parent's and the index. -/
theorem descend (h : d.Ready) {range : IndexRange} (hrange : range.Proper) {name : String}
    (hname : IsName name) : (d.descend range name).Ready := by
  have hread {p q : String} {i j : Nat} (hp : p ∈ d.paths) (hq : q ∈ d.paths)
      (heq : lower (NodePath.child p i name) = lower (NodePath.child q j name)) :
      lower p = lower q ∧ i = j := by
    have hn := isPathText_of_isName hname
    rw [lower_child (h.regular.isPathText p hp) hn, lower_child (h.regular.isPathText q hq) hn]
      at heq
    have hmark : ')' ∉ (lower name).toList := not_mem_lower_name hname (by decide)
    obtain ⟨hpq, hij, -⟩ := NodePath.child_inj hmark hmark heq
    exact ⟨hpq, hij⟩
  refine ⟨h.regular.descend range hname, ?_, ?_, h.proper⟩
  · obtain ⟨p, hp⟩ := List.exists_mem_of_ne_nil _ h.ne_nil
    have hfirst : range.start ∈ range.toList := by
      obtain ⟨hone, hle⟩ := hrange
      rw [IndexRange.toList, List.mem_range'_1, IndexRange.count]
      omega
    exact List.ne_nil_of_mem
      (List.mem_flatMap.2 ⟨p, hp, List.mem_map.2 ⟨range.start, hfirst, rfl⟩⟩)
  · refine List.pairwise_flatMap.2 ⟨fun p hp => ?_, ?_⟩
    · have hindices : range.toList.Nodup := List.nodup_range'
      refine List.pairwise_map.2 (hindices.imp ?_)
      intro i j hij heq
      exact hij (hread hp hp heq).2
    · refine List.Pairwise.imp_of_mem ?_ h.distinct
      intro p q hp hq hpq x hx y hy heq
      obtain ⟨i, -, rfl⟩ := List.mem_map.1 hx
      obtain ⟨j, -, rfl⟩ := List.mem_map.1 hy
      exact hpq (hread hp hq heq).1

theorem takeWords (h : d.Ready) (range : WordRange) : (d.takeWords range).Ready := by
  refine ⟨h.regular.takeWords range, ?_, ?_, h.proper⟩
  · exact List.map_eq_nil_iff.not.2 h.ne_nil
  · refine List.pairwise_map.2 (List.Pairwise.imp_of_mem ?_ h.distinct)
    intro p q hp hq hpq heq
    have hrun := isPathText_of_plain (plain_pathForm range)
    rw [(h.regular.isPathText p hp).lower_append hrun,
      (h.regular.isPathText q hq).lower_append hrun, lower_plain (plain_pathForm range)] at heq
    exact hpq (WordRange.ranged_inj heq).1

theorem startWith (h : d.Ready) (text : String) : (d.startWith text).Ready := by
  unfold Draft.startWith
  split
  · exact h
  · dsimp only
    split
    · exact h.withSteps rfl rfl fun s hs => .inl hs
    · refine h.withSteps rfl rfl fun s hs => ?_
      rcases List.mem_append.1 hs with hs | hs
      · exact .inl hs
      · rw [List.mem_singleton.1 hs]
        exact .inr True.intro

/-- **A step keeps the draft ready.** -/
theorem step {s : PathStep} (hs : s.WellFormed) (h : d.Ready) (hd : d.step r s = .ok d') :
    d'.Ready := by
  have hpush {s : PathStep} (hs : s.WellFormed) (hd : (s.compile r).map d.push = .ok d') :
      d'.Ready := by
    obtain ⟨c, hc, rfl⟩ := map_eq_ok_iff.1 hd
    exact h.push (PathStep.proper_of_compile hs hc)
  unfold Draft.step at hd
  split at hd
  · exact hpush hs hd
  · cases s with
    | down indices name =>
      obtain ⟨range, hrange, rfl⟩ := map_eq_ok_iff.1 hd
      exact h.descend (proper_of_resolveIndices hs.1 hrange) hs.2
    | words range =>
      cases hd
      exact h.takeWords range
    | equals text =>
      cases hd
      exact h.withSteps rfl rfl fun s hs => .inl hs
    | startsWith text =>
      cases hd
      exact h.startWith text
    | up | next | prev | backToFull | differs | endsWith | contains | inSet | lookup =>
      exact hpush hs hd

theorem steps {steps : List PathStep} (hs : ∀ s ∈ steps, s.WellFormed) (h : d.Ready)
    (hd : steps.foldlM (Draft.step r) d = .ok d') : d'.Ready :=
  Fold.foldlM_invariant Draft.Ready (fun _ s _ h hmem hd => step (hs s hmem) h hd) h hd

/-- **The draft of an expression is ready.** Whatever paths were there before it are replaced, so
only the chain in front has to be proper. -/
theorem visit {e : Expr} (he : e.WellFormed) {outermost : Bool}
    (hproper : ∀ s ∈ d.steps, s.Proper) (hd : d.visit r outermost e = .ok d') : d'.Ready := by
  induction e generalizing d d' outermost with
  | fixed text => cases hd
  | path root ss => exact steps he.2 (start d hproper he.1) hd
  | wrapped w inner ss ih =>
    obtain ⟨-, hinner, hsteps⟩ := he
    cases w with
    | isNull =>
      unfold Draft.visit at hd
      cases outermost with
      | false => cases hd
      | true =>
        obtain ⟨d₁, hd₁, hd⟩ := bind_eq_ok_iff.1 hd
        refine steps hsteps (ih hinner ?_ hd₁) hd
        intro s hs
        rcases List.mem_append.1 hs with hs | hs
        · exact hproper s hs
        · rw [List.mem_singleton.1 hs]
          exact True.intro
    | cleanVersion | normalizeBrand | concat | lookup | lookupByHead | inTableByHead =>
      obtain ⟨d₁, hd₁, hd⟩ := bind_eq_ok_iff.1 hd
      obtain ⟨c, hc, hd⟩ := bind_eq_ok_iff.1 hd
      exact steps hsteps ((ih hinner hproper hd₁).push (Wrapper.proper_of_compile hc)) hd

end Draft.Ready

/-! ### Compiled expressions -/

/-- The keys of a compiled expression are some and all different, they ask the same of the value,
and its chain goes down by proper ranges. -/
structure CompiledPath.Ready (c : CompiledPath) : Prop where
  ne_nil : c.keys ≠ []
  nodup : (c.keys.map IndexKey.folded).Nodup
  selector : ∃ s, ∀ key ∈ c.keys, key.selector = s
  proper : ∀ s ∈ c.chain, s.Proper

theorem Draft.Ready.compiled {d : Draft} (h : d.Ready) {c : CompiledPath}
    (hkeys : c.keys = d.paths.map fun p => ⟨p, d.selector⟩) (hchain : ∀ s ∈ c.chain, s ∈ d.steps) :
    c.Ready := by
  refine ⟨?_, ?_, ⟨d.selector, fun key hkey => ?_⟩, fun s hs => h.proper s (hchain s hs)⟩
  · rw [hkeys]
    exact List.map_eq_nil_iff.not.2 h.ne_nil
  · rw [hkeys, List.map_map]
    refine List.pairwise_map.2 (List.Pairwise.imp_of_mem ?_ h.distinct)
    intro p q hp hq hpq heq
    exact hpq (folded_inj_lower (h.regular.isPathText p hp).plain_lower
      (h.regular.isPathText q hq).plain_lower heq).1
  · rw [hkeys] at hkey
    obtain ⟨p, -, rfl⟩ := List.mem_map.1 hkey
    rfl

end AgentRules
