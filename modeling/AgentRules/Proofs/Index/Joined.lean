import AgentRules.Proofs.Index.Rules

/-! # Libraries one behind the other

Rules are compiled one by one, and nothing that has been compiled before is looked at, apart from
the numbers that are in use. So the rules of a list are compiled behind other rules as they are by
themselves, with other numbers (`agree_addRules`): a list of rules compiles behind another one if it
does so by itself, and the actions and rules of both stand one behind the other
(`agree_compile`). -/

namespace AgentRules

open Outcome

/-! ### Outcomes that agree -/

/-- Both outcomes are values that are related, or neither is a value. -/
def Agree {ε α β : Type} (R : α → β → Prop) : Except ε α → Except ε β → Prop
  | .ok a, .ok b => R a b
  | .error _, .error _ => True
  | _, _ => False

namespace Agree
variable {ε ε' α β α' β' γ : Type} {R : α → β → Prop} {R' : α' → β' → Prop} {x : Except ε α}
  {y : Except ε β}

theorem bind {f : α → Except ε α'} {g : β → Except ε β'} (h : Agree R x y)
    (hfg : ∀ a b, R a b → Agree R' (f a) (g b)) : Agree R' (x >>= f) (y >>= g) := by
  cases x with
  | error e =>
    cases y with
    | error e' => exact True.intro
    | ok b => exact False.elim h
  | ok a =>
    cases y with
    | error e' => exact False.elim h
    | ok b => exact hfg a b h

theorem mapError {f g : ε → ε'} (h : Agree R x y) : Agree R (x.mapError f) (y.mapError g) := by
  cases x with
  | error e => cases y with
    | error e' => exact True.intro
    | ok b => exact False.elim h
  | ok a => cases y with
    | error e' => exact False.elim h
    | ok b => exact h

theorem foldlM {f : α → γ → Except ε α} {g : β → γ → Except ε β}
    (hfg : ∀ a b c, R a b → Agree R (f a c) (g b c)) (l : List γ) {a : α} {b : β} (h : R a b) :
    Agree R (l.foldlM f a) (l.foldlM g b) := by
  induction l generalizing a b with
  | nil => exact h
  | cons c l ih =>
    rw [List.foldlM_cons, List.foldlM_cons]
    exact (hfg a b c h).bind fun a b h => ih h

theorem and_ok (h : Agree R x y) : Agree (fun a b => R a b ∧ x = .ok a ∧ y = .ok b) x y := by
  cases x with
  | error e => cases y with
    | error e' => exact True.intro
    | ok b => exact False.elim h
  | ok a => cases y with
    | error e' => exact False.elim h
    | ok b => exact ⟨h, rfl, rfl⟩

theorem exists_ok_iff (h : Agree R x y) : (∃ a, x = .ok a) ↔ ∃ b, y = .ok b := by
  cases x with
  | error e => cases y with
    | error e' => simp
    | ok b => exact False.elim h
  | ok a => cases y with
    | error e' => exact False.elim h
    | ok b => simp

end Agree

/-! ### Numbers behind other ones -/

/-- The action of a rule that stands behind `n` others. -/
def Action.shift (n : Nat) (a : Action) : Action := { a with rule := n + a.rule }

/-- The rule with its actions behind `n` others, and without its place. -/
def CompiledRule.shift (n : Nat) (rule : CompiledRule) : CompiledRule :=
  { rule with
    source := {}
    require := rule.require.map (n + ·)
    extract := rule.extract.map (n + ·) }

namespace CompiledLibrary

/-- The actions and rules of a library are those of two others, one behind the other. -/
structure Joined (l₁ l₂ l : CompiledLibrary) : Prop where
  registry : l.registry = l₂.registry
  actions : l.actions.toList = l₁.actions.toList ++
    l₂.actions.toList.map (Action.shift l₁.rules.size)
  rules : l.rules.toList.map (CompiledRule.shift 0) = l₁.rules.toList.map (CompiledRule.shift 0) ++
    l₂.rules.toList.map (CompiledRule.shift l₁.actions.size)

namespace Joined
variable {l₁ l₂ l : CompiledLibrary}

theorem size_actions (h : Joined l₁ l₂ l) : l.actions.size = l₁.actions.size + l₂.actions.size := by
  have hlength := congrArg List.length h.actions
  simpa using hlength

theorem size_rules (h : Joined l₁ l₂ l) : l.rules.size = l₁.rules.size + l₂.rules.size := by
  have hlength := congrArg List.length h.rules
  simpa using hlength

theorem getElem?_left (h : Joined l₁ l₂ l) {id : Nat} (hid : id < l₁.actions.size) :
    l.actions[id]? = l₁.actions[id]? := by
  rw [← Array.getElem?_toList, ← Array.getElem?_toList, h.actions, List.getElem?_append_left]
  rwa [Array.length_toList]

theorem getElem?_right (h : Joined l₁ l₂ l) (id : Nat) : l.actions[l₁.actions.size + id]? =
    l₂.actions[id]?.map (Action.shift l₁.rules.size) := by
  rw [← Array.getElem?_toList, ← Array.getElem?_toList, h.actions,
    List.getElem?_append_right (by rw [Array.length_toList]; exact Nat.le_add_right _ _),
    Array.length_toList, Nat.add_sub_cancel_left, List.getElem?_map]

theorem addAction (h : Joined l₁ l₂ l) (a : Action) :
    Joined l₁ (l₂.addAction a) (l.addAction (a.shift l₁.rules.size)) := by
  obtain ⟨hrules, -, hregistry⟩ := addAction_frame l (a.shift l₁.rules.size)
  obtain ⟨hrules₂, -, hregistry₂⟩ := addAction_frame l₂ a
  have hactions (l : CompiledLibrary) (a : Action) :
      (l.addAction a).actions = l.actions.push a := by
    rw [addAction_eq]
  refine ⟨?_, ?_, ?_⟩
  · rw [hregistry, hregistry₂, h.registry]
  · rw [hactions, hactions, Array.toList_push, Array.toList_push, h.actions, List.map_append,
      List.append_assoc]
    rfl
  · rw [hrules, hrules₂, h.rules]

theorem close {s s' : CompiledLibrary × CompiledRule} (h : Joined l₁ s.1 s'.1)
    (hrule : s'.2.shift 0 = s.2.shift l₁.actions.size) :
    Joined l₁ (CompiledLibrary.close s) (CompiledLibrary.close s') := by
  refine ⟨h.registry, h.actions, ?_⟩
  show (s'.1.rules.push s'.2).toList.map _ = _ ++ (s.1.rules.push s.2).toList.map _
  rw [Array.toList_push, Array.toList_push, List.map_append, List.map_append, h.rules,
    List.append_assoc, List.map_singleton, List.map_singleton, hrule]

end Joined

/-! ### Adding rules behind a library -/

section Adding
variable {l₁ : CompiledLibrary}

/-- A library and its next rule, by themselves and behind another library. -/
def JoinedState (l₁ : CompiledLibrary) (s s' : CompiledLibrary × CompiledRule) : Prop :=
  Joined l₁ s.1 s'.1 ∧ s'.2.shift 0 = s.2.shift l₁.actions.size

variable {s s' : CompiledLibrary × CompiledRule}

section Rules
variable {rule rule' : CompiledRule} {n id : Nat} (h : rule'.shift 0 = rule.shift n)
include h

theorem shift_require : CompiledRule.shift 0 { rule' with require := rule'.require ++ [n + id] } =
    CompiledRule.shift n { rule with require := rule.require ++ [id] } := by
  simp only [CompiledRule.shift, CompiledRule.mk.injEq] at h ⊢
  refine ⟨True.intro, ?_, h.2.2⟩
  rw [List.map_append, List.map_append, h.2.1, List.map_singleton, List.map_singleton, Nat.zero_add]

theorem shift_extract : CompiledRule.shift 0 { rule' with extract := rule'.extract ++ [n + id] } =
    CompiledRule.shift n { rule with extract := rule.extract ++ [id] } := by
  simp only [CompiledRule.shift, CompiledRule.mk.injEq] at h ⊢
  refine ⟨True.intro, h.2.1, ?_, h.2.2.2⟩
  rw [List.map_append, List.map_append, h.2.2.1, List.map_singleton, List.map_singleton,
    Nat.zero_add]

theorem shift_fixed (f : FixedExtract) :
    CompiledRule.shift 0 { rule' with fixed := rule'.fixed ++ [f] } =
      CompiledRule.shift n { rule with fixed := rule.fixed ++ [f] } := by
  simp only [CompiledRule.shift, CompiledRule.mk.injEq] at h ⊢
  exact ⟨True.intro, h.2.1, h.2.2.1, by rw [h.2.2.2]⟩

end Rules

theorem agree_addRequire (h : JoinedState l₁ s s') (e : String) :
    Agree (JoinedState l₁) (addRequire s e) (addRequire s' e) := by
  obtain ⟨l₂, rule⟩ := s
  obtain ⟨l, rule'⟩ := s'
  obtain ⟨hl, hrule⟩ : Joined l₁ l₂ l ∧ rule'.shift 0 = rule.shift l₁.actions.size := h
  unfold addRequire
  dsimp only
  rw [hl.registry]
  cases CompiledPath.compileRequire l₂.registry e with
  | error e => exact True.intro
  | ok path =>
    have hadd := hl.addAction ⟨l₂.rules.size, .require path.usesIsNull, path⟩
    rw [Action.shift, ← hl.size_rules] at hadd
    refine ⟨hadd, ?_⟩
    dsimp only
    rw [hl.size_actions]
    exact shift_require hrule

theorem agree_addExtract (h : JoinedState l₁ s s') (line : String) :
    Agree (JoinedState l₁) (addExtract s line) (addExtract s' line) := by
  obtain ⟨l₂, rule⟩ := s
  obtain ⟨l, rule'⟩ := s'
  obtain ⟨hl, hrule⟩ : Joined l₁ l₂ l ∧ rule'.shift 0 = rule.shift l₁.actions.size := h
  unfold addExtract
  dsimp only
  rw [hl.registry]
  cases ExtractLine.parse line with
  | error e => exact True.intro
  | ok e =>
    dsimp only [bind, Except.bind]
    cases CompiledPath.compileExtract l₂.registry e.expression with
    | error e => exact True.intro
    | ok path =>
      dsimp only
      cases path.fixedValue with
      | some value => exact ⟨hl, shift_fixed hrule _⟩
      | none =>
        have hadd := hl.addAction ⟨l₂.rules.size, .extract e.field e.confidence, path⟩
        rw [Action.shift, ← hl.size_rules] at hadd
        refine ⟨hadd, ?_⟩
        dsimp only
        rw [hl.size_actions]
        exact shift_extract hrule

/-- **A rule is compiled behind a library as it is by itself.** -/
theorem agree_addRule {l₂ l : CompiledLibrary} (h : Joined l₁ l₂ l) (i j : Nat) (rule : Rule) :
    Agree (Joined l₁) (l₂.addRule i rule) (l.addRule j rule) := by
  unfold addRule
  refine Agree.mapError ?_
  cases rule.extract.isEmpty with
  | true => exact True.intro
  | false =>
    have hstart : JoinedState l₁ (l₂, { source := sourceOf i rule })
        (l, { source := sourceOf j rule }) := ⟨h, rfl⟩
    refine Agree.bind (Agree.foldlM (fun _ _ e h => agree_addRequire h e) rule.require hstart)
      fun s s' h => Agree.bind (Agree.foldlM (fun _ _ e h => agree_addExtract h e) rule.extract h)
        fun s s' h => ?_
    exact h.1.close h.2

/-- **Rules are compiled behind a library as they are by themselves.** -/
theorem agree_addRules {l₂ l : CompiledLibrary} (h : Joined l₁ l₂ l) (i j : Nat)
    (rules : List Rule) :
    Agree (Joined l₁) ((rules.zipIdx i).foldlM (fun l (rule, index) => l.addRule index rule) l₂)
      ((rules.zipIdx j).foldlM (fun l (rule, index) => l.addRule index rule) l) := by
  induction rules generalizing l₂ l i j with
  | nil => exact h
  | cons rule rules ih =>
    rw [List.zipIdx_cons, List.zipIdx_cons, List.foldlM_cons, List.foldlM_cons]
    exact (agree_addRule h i j rule).bind fun _ _ h => ih h (i + 1) (j + 1)

end Adding

/-! ### Two lists of rules -/

/-- Behind a library without rules and actions, a library stands by itself. -/
theorem Joined.of_empty {r : Registry} {n : Nat} {l₁ l : CompiledLibrary}
    (h : Joined (empty r n) l₁ l) : l.registry = l₁.registry ∧ l.actions = l₁.actions ∧
      l.rules.toList.map (CompiledRule.shift 0) = l₁.rules.toList.map (CompiledRule.shift 0) := by
  refine ⟨h.registry, Array.toList_inj.1 ?_, h.rules⟩
  have hshift : Action.shift 0 = id := funext fun a => by
    rw [Action.shift, Nat.zero_add]
    rfl
  have hactions : l.actions.toList = l₁.actions.toList.map (Action.shift 0) := h.actions
  rw [hactions, hshift, List.map_id]

/-- **A list of rules behind another one is compiled as both are by themselves.** -/
theorem agree_compile (lookups : List TableDefinition) (sets : List SetDefinition)
    (rules₁ rules₂ : List Rule) (threshold₁ threshold₂ threshold : Nat) :
    Agree (fun p l => Joined p.1 p.2 l)
      (do
        let l₁ ← compile ⟨lookups, sets, rules₁⟩ threshold₁
        let l₂ ← compile ⟨lookups, sets, rules₂⟩ threshold₂
        return (l₁, l₂))
      (compile ⟨lookups, sets, rules₁ ++ rules₂⟩ threshold) := by
  unfold compile
  cases Registry.ofDefinitions lookups sets with
  | error e => exact True.intro
  | ok r =>
    have hempty (n m : Nat) : Joined (empty r m) (empty r n) (empty r m) := ⟨rfl, rfl, rfl⟩
    have hfirst := agree_addRules (hempty threshold₁ threshold) 0 0 rules₁
    have hsecond {l₁ l₁' : CompiledLibrary} (h : Joined (empty r threshold) l₁ l₁')
        (hl₁ : rules₁.zipIdx.foldlM (fun l (rule, index) => l.addRule index rule)
          (empty r threshold₁) = .ok l₁) :
        Agree (fun l₂ l => Joined l₁ l₂ l) ((empty r threshold₂).addRules rules₂)
          ((rules₂.zipIdx (0 + rules₁.length)).foldlM (fun l (rule, index) => l.addRule index rule)
            l₁') := by
      obtain ⟨hregistry, hactions, hrules⟩ := h.of_empty
      have hr : l₁.registry = r := Fold.foldlM_invariant (fun l => l.registry = r)
        (fun _ _ _ hb _ h => (registry_addRule h).trans hb) rfl hl₁
      have hstart : Joined l₁ (empty r threshold₂) l₁' := by
        refine ⟨hregistry.trans hr, ?_, ?_⟩
        · rw [hactions]
          exact (List.append_nil _).symm
        · rw [hrules]
          exact (List.append_nil _).symm
      exact agree_addRules hstart 0 _ rules₂
    show Agree _ ((empty r threshold₁).addRules rules₁ >>= _)
      ((empty r threshold).addRules (rules₁ ++ rules₂))
    rw [addRules, addRules, List.zipIdx_append, List.foldlM_append]
    refine hfirst.and_ok.bind fun l₁ l₁' ⟨h, hl₁, _⟩ => ?_
    rw [← bind_pure (List.foldlM _ l₁' _)]
    exact (hsecond h hl₁).bind fun l₂ l h => h

end CompiledLibrary

end AgentRules
