import AgentRules.Proofs.Index.Registered

/-! # The rules of a compiled library

The actions of a rule are its own: what it requires is there to require and what it extracts is
there to extract, and no action belongs to a rule that is not there. The rules that can hold
untouched are listed. Every rule that is compiled keeps this (`linked_of_compile`). The compiled
rules stand in the order of the rules that they come from (`sources_of_compile`). -/

namespace AgentRules.CompiledLibrary

open Outcome

/-- The action is one of the rule and is there to require something. -/
def Requires (l : CompiledLibrary) (rule id : Nat) : Prop :=
  ∃ a isNull, l.actions[id]? = some a ∧ a.rule = rule ∧ a.role = .require isNull

/-- The action is one of the rule and is there to extract something. -/
def Extracts (l : CompiledLibrary) (rule id : Nat) : Prop :=
  ∃ a field confidence, l.actions[id]? = some a ∧ a.rule = rule ∧
    a.role = .extract field confidence

/-- Rules and actions refer to each other. -/
structure Linked (l : CompiledLibrary) : Prop where
  rule_lt : ∀ (id : Nat) a, l.actions[id]? = some a → a.rule < l.rules.size
  requires : ∀ (i : Nat) rule, l.rules[i]? = some rule → ∀ id ∈ rule.require, l.Requires i id
  extracts : ∀ (i : Nat) rule, l.rules[i]? = some rule → ∀ id ∈ rule.extract, l.Extracts i id
  mem_zeroInput : ∀ i, i ∈ l.zeroInput.toList ↔
    ∃ rule, l.rules[i]? = some rule ∧ rule.isZeroInput l.actions = true

/-! ### A rule that is being added -/

/-- All old actions are still there. -/
def Keeps (l l' : CompiledLibrary) : Prop :=
  ∀ (id : Nat) a, l.actions[id]? = some a → l'.actions[id]? = some a

theorem Requires.keep {l l' : CompiledLibrary} (hk : Keeps l l') {rule id : Nat}
    (h : l.Requires rule id) : l'.Requires rule id := by
  obtain ⟨a, isNull, ha, h⟩ := h
  exact ⟨a, isNull, hk id a ha, h⟩

theorem Extracts.keep {l l' : CompiledLibrary} (hk : Keeps l l') {rule id : Nat}
    (h : l.Extracts rule id) : l'.Extracts rule id := by
  obtain ⟨a, field, confidence, ha, h⟩ := h
  exact ⟨a, field, confidence, hk id a ha, h⟩

/-- What has been added to a library for its next rule so far. -/
structure Pending (l : CompiledLibrary) (source : RuleSource) (s : CompiledLibrary × CompiledRule) :
    Prop where
  source : s.2.source = source
  registry : s.1.registry = l.registry
  rules : s.1.rules = l.rules
  zeroInput : s.1.zeroInput = l.zeroInput
  keeps : Keeps l s.1
  new : ∀ (id : Nat) a, s.1.actions[id]? = some a →
    l.actions[id]? = some a ∨ a.rule = l.rules.size
  requires : ∀ id ∈ s.2.require, s.1.Requires l.rules.size id
  extracts : ∀ id ∈ s.2.extract, s.1.Extracts l.rules.size id

theorem pending_start (l : CompiledLibrary) (source : RuleSource) :
    Pending l source (l, { source }) :=
  ⟨rfl, rfl, rfl, rfl, fun _ _ h => h, fun _ _ h => .inl h, by simp, by simp⟩

section Pending
variable {l : CompiledLibrary} {source : RuleSource} {s s' : CompiledLibrary × CompiledRule}

theorem keeps_addAction (l : CompiledLibrary) (a : Action) : Keeps l (l.addAction a) := by
  intro id b hb
  have hid : id ≠ l.actions.size := Nat.ne_of_lt (Array.getElem?_eq_some_iff.1 hb).1
  rw [getElem?_addAction, if_neg hid, hb]

theorem Pending.addAction (h : Pending l source s) {a : Action} (ha : a.rule = l.rules.size) :
    Pending l source (s.1.addAction a, s.2) := by
  obtain ⟨hrules, hzero, hregistry⟩ := addAction_frame s.1 a
  have hkeeps := keeps_addAction s.1 a
  refine ⟨h.source, hregistry.trans h.registry, hrules.trans h.rules, hzero.trans h.zeroInput,
    fun id b hb => hkeeps id b (h.keeps id b hb), fun id b hb => ?_,
    fun id hid => (h.requires id hid).keep hkeeps, fun id hid => (h.extracts id hid).keep hkeeps⟩
  rcases addAction_cases hb with ⟨-, rfl⟩ | hb
  · exact .inr ha
  · exact h.new id b hb

theorem getElem?_addAction_size (l : CompiledLibrary) (a : Action) :
    (l.addAction a).actions[l.actions.size]? = some a := by
  rw [getElem?_addAction, if_pos rfl]

theorem pending_addRequire {e : String} (hs : Pending l source s) (h : addRequire s e = .ok s') :
    Pending l source s' := by
  obtain ⟨l₁, rule⟩ := s
  obtain ⟨path, -, rfl⟩ := addRequire_eq_ok.1 h
  have hrule : l₁.rules.size = l.rules.size := congrArg Array.size hs.rules
  obtain ⟨hsource, hregistry, hrules, hzero, hkeeps, hnew, hrequires, hextracts⟩ :=
    hs.addAction (a := ⟨l₁.rules.size, .require path.usesIsNull, path⟩) hrule
  refine ⟨hsource, hregistry, hrules, hzero, hkeeps, hnew, fun id hid => ?_, hextracts⟩
  rcases List.mem_append.1 hid with hid | hid
  · exact hrequires id hid
  · rw [List.mem_singleton.1 hid]
    exact ⟨_, _, getElem?_addAction_size _ _, hrule, rfl⟩

theorem pending_addExtract {line : String} (hs : Pending l source s)
    (h : addExtract s line = .ok s') : Pending l source s' := by
  obtain ⟨l₁, rule⟩ := s
  obtain ⟨e, path, -, -, ⟨value, -, rfl⟩ | ⟨-, rfl⟩⟩ := addExtract_eq_ok.1 h
  · exact ⟨hs.source, hs.registry, hs.rules, hs.zeroInput, hs.keeps, hs.new, hs.requires,
      hs.extracts⟩
  · have hrule : l₁.rules.size = l.rules.size := congrArg Array.size hs.rules
    obtain ⟨hsource, hregistry, hrules, hzero, hkeeps, hnew, hrequires, hextracts⟩ :=
      hs.addAction (a := ⟨l₁.rules.size, .extract e.field e.confidence, path⟩) hrule
    refine ⟨hsource, hregistry, hrules, hzero, hkeeps, hnew, hrequires, fun id hid => ?_⟩
    rcases List.mem_append.1 hid with hid | hid
    · exact hextracts id hid
    · rw [List.mem_singleton.1 hid]
      exact ⟨_, _, _, getElem?_addAction_size _ _, hrule, rfl⟩

/-- **What adding a rule does** before the rule itself stands in the library. -/
theorem exists_pending {l' : CompiledLibrary} {index : Nat} {rule : Rule}
    (h : l.addRule index rule = .ok l') :
    ∃ s, Pending l (sourceOf index rule) s ∧ CompiledLibrary.close s = l' := by
  obtain ⟨-, s, s', hs, hs', hclose⟩ := addRule_eq_ok.1 h
  have hpending := Fold.foldlM_invariant (Pending l (sourceOf index rule))
    (fun _ _ _ hb _ h => pending_addRequire hb h) (pending_start l _) hs
  exact ⟨s', Fold.foldlM_invariant (Pending l (sourceOf index rule))
    (fun _ _ _ hb _ h => pending_addExtract hb h) hpending hs', hclose⟩

end Pending

theorem registry_addRule {l l' : CompiledLibrary} {index : Nat} {rule : Rule}
    (h : l.addRule index rule = .ok l') : l'.registry = l.registry := by
  obtain ⟨s, hs, rfl⟩ := exists_pending h
  exact hs.registry

theorem sources_addRule {l l' : CompiledLibrary} {index : Nat} {rule : Rule}
    (h : l.addRule index rule = .ok l') : l'.rules.toList.map CompiledRule.source =
      l.rules.toList.map CompiledRule.source ++ [sourceOf index rule] := by
  obtain ⟨s, hs, rfl⟩ := exists_pending h
  show (s.1.rules.push s.2).toList.map _ = _
  rw [Array.toList_push, List.map_append, List.map_singleton, hs.rules, hs.source]

/-! ### All rules -/

theorem sources_addRules {rules : List (Rule × Nat)} {l l' : CompiledLibrary}
    (h : rules.foldlM (fun l (rule, index) => l.addRule index rule) l = .ok l') :
    l'.rules.toList.map CompiledRule.source = l.rules.toList.map CompiledRule.source ++
      rules.map fun (rule, index) => sourceOf index rule := by
  induction rules generalizing l with
  | nil =>
    cases h
    exact (List.append_nil _).symm
  | cons x rules ih =>
    rw [List.foldlM_cons] at h
    obtain ⟨l₁, hl₁, h⟩ := bind_eq_ok_iff.1 h
    rw [ih h, sources_addRule hl₁, List.append_assoc]
    rfl

/-- **Rules are compiled in their order.** -/
theorem sources_of_compile {library : RuleLibrary} {threshold : Nat} {l : CompiledLibrary}
    (h : compile library threshold = .ok l) : l.rules.toList.map CompiledRule.source =
      library.rules.zipIdx.map fun (rule, index) => sourceOf index rule := by
  obtain ⟨r, -, h⟩ := bind_eq_ok_iff.1 h
  exact sources_addRules h

/-- Whether a rule can hold untouched depends on its own actions alone. -/
theorem isZeroInput_keep {l l' : CompiledLibrary} (hk : Keeps l l') {i : Nat} {rule : CompiledRule}
    (h : ∀ id ∈ rule.require, l.Requires i id) :
    rule.isZeroInput l'.actions = rule.isZeroInput l.actions := by
  unfold CompiledRule.isZeroInput
  congr 1
  rw [Bool.eq_iff_iff, List.all_eq_true, List.all_eq_true]
  refine forall₂_congr fun id hid => ?_
  obtain ⟨a, -, ha, -⟩ := h id hid
  rw [ha, hk id a ha]

section Close
variable {l : CompiledLibrary} {source : RuleSource} {s : CompiledLibrary × CompiledRule}
  (hs : Pending l source s)
include hs

theorem Pending.getElem?_close (i : Nat) : (CompiledLibrary.close s).rules[i]? =
    if i = l.rules.size then some s.2 else l.rules[i]? := by
  show (s.1.rules.push s.2)[i]? = _
  rw [hs.rules, Array.getElem?_push]

theorem Pending.close_cases {i : Nat} {rule : CompiledRule}
    (hrule : (CompiledLibrary.close s).rules[i]? = some rule) :
    i = l.rules.size ∧ s.2 = rule ∨ l.rules[i]? = some rule := by
  rw [hs.getElem?_close] at hrule
  split at hrule
  · next hi => exact .inl ⟨hi, Option.some.inj hrule⟩
  · exact .inr hrule

theorem Pending.mem_zeroInput_close (i : Nat) : i ∈ (CompiledLibrary.close s).zeroInput.toList ↔
    i ∈ l.zeroInput.toList ∨ i = l.rules.size ∧ s.2.isZeroInput s.1.actions = true := by
  show i ∈ (if s.2.isZeroInput s.1.actions then s.1.zeroInput.push s.1.rules.size
    else s.1.zeroInput).toList ↔ _
  rw [hs.zeroInput, hs.rules]
  split
  · next hzero => simp [hzero]
  · next hzero => simp [hzero]

theorem Linked.close (hl : Linked l) : Linked (close s) := by
  refine ⟨fun id a ha => ?_, fun i rule hrule => ?_, fun i rule hrule => ?_, fun i => ?_⟩
  · have hlt : a.rule < l.rules.size + 1 := by
      rcases hs.new id a ha with ha | ha
      · exact Nat.lt_succ_of_lt (hl.rule_lt id a ha)
      · exact ha ▸ Nat.lt_succ_self _
    show a.rule < (s.1.rules.push s.2).size
    rwa [Array.size_push, hs.rules]
  · rcases hs.close_cases hrule with ⟨rfl, rfl⟩ | hrule
    · exact hs.requires
    · exact fun id hid => (hl.requires i rule hrule id hid).keep hs.keeps
  · rcases hs.close_cases hrule with ⟨rfl, rfl⟩ | hrule
    · exact hs.extracts
    · exact fun id hid => (hl.extracts i rule hrule id hid).keep hs.keeps
  · have hold : i ∈ l.zeroInput.toList ↔ ∃ rule, l.rules[i]? = some rule ∧
        rule.isZeroInput s.1.actions = true := by
      rw [hl.mem_zeroInput]
      refine exists_congr fun rule => and_congr_right fun hrule => ?_
      rw [isZeroInput_keep hs.keeps (hl.requires i rule hrule)]
    rw [hs.mem_zeroInput_close, hold]
    simp only [hs.getElem?_close]
    by_cases hi : i = l.rules.size
    · subst hi
      simp [CompiledLibrary.close]
    · simp [hi, CompiledLibrary.close]

end Close

theorem linked_addRule {l l' : CompiledLibrary} {index : Nat} {rule : Rule} (hl : Linked l)
    (h : l.addRule index rule = .ok l') : Linked l' := by
  obtain ⟨s, hs, rfl⟩ := exists_pending h
  exact Linked.close hs hl

theorem linked_empty (r : Registry) (threshold : Nat) : Linked (empty r threshold) :=
  ⟨fun id a h => (by cases h), fun i rule h => (by cases h), fun i rule h => (by cases h),
    by simp [empty]⟩

/-- The rules that can hold untouched stay in order, as the new one is the last. -/
theorem pairwise_zeroInput_addRule {l l' : CompiledLibrary} {index : Nat} {rule : Rule}
    (hl : Linked l) (hasc : l.zeroInput.toList.Pairwise (· < ·))
    (h : l.addRule index rule = .ok l') : l'.zeroInput.toList.Pairwise (· < ·) := by
  obtain ⟨s, hs, rfl⟩ := exists_pending h
  show (if s.2.isZeroInput s.1.actions then s.1.zeroInput.push s.1.rules.size
    else s.1.zeroInput).toList.Pairwise (· < ·)
  rw [hs.zeroInput, hs.rules]
  split
  · rw [Array.toList_push]
    refine List.pairwise_append.2 ⟨hasc, List.pairwise_singleton _ _, fun i hi j hj => ?_⟩
    obtain ⟨rule, hrule, -⟩ := (hl.mem_zeroInput i).1 hi
    rw [List.mem_singleton.1 hj]
    exact (Array.getElem?_eq_some_iff.1 hrule).1
  · exact hasc

/-- **Rules and actions of a compiled library refer to each other.** -/
theorem linked_of_compile {library : RuleLibrary} {threshold : Nat} {l : CompiledLibrary}
    (h : compile library threshold = .ok l) : Linked l := by
  obtain ⟨r, -, h⟩ := bind_eq_ok_iff.1 h
  exact Fold.foldlM_invariant Linked (fun _ _ _ hb _ h => linked_addRule hb h)
    (linked_empty r threshold) h

end AgentRules.CompiledLibrary
