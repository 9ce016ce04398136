import AgentRules.Proofs.Analysis.Candidates
import AgentRules.Proofs.Index.Tables

/-! # Lines, numbers and tables

Every line of a rule that looks at the tree becomes one action, in the order of the lines: the
numbers of the actions of all rules, one rule behind the other, count through (`lined_of_compile`).
With what stands in the tables this says all of what a compiled library holds
(`tabled_of_compile`). -/

namespace AgentRules.CompiledLibrary

open Text Outcome

/-- The action of the rule is what the expression, which it requires, compiles to. -/
def RequiresLine (l : CompiledLibrary) (rule : Nat) (expression : String) (id : Nat) : Prop :=
  ∃ a, l.actions[id]? = some a ∧ a.rule = rule ∧ a.role = .require a.path.usesIsNull ∧
    CompiledPath.compileRequire l.registry expression = .ok a.path

/-- The action of the rule is what the line, by which it extracts, compiles to. -/
def ExtractsLine (l : CompiledLibrary) (rule : Nat) (line : String) (id : Nat) : Prop :=
  ∃ e a, ExtractLine.parse line = .ok e ∧ l.actions[id]? = some a ∧ a.rule = rule ∧
    a.role = .extract e.field e.confidence ∧
    CompiledPath.compileExtract l.registry e.expression = .ok a.path

/-- Whether a line extracts something that has to be looked for, and no fixed value. -/
def looks (r : Registry) (line : String) : Bool :=
  match ExtractLine.parse line with
  | .ok e =>
    match CompiledPath.compileExtract r e.expression with
    | .ok path => path.fixedValue.isNone
    | .error _ => false
  | .error _ => false

/-- The fixed value is the one that the line gives. -/
def FixesLine (r : Registry) (line : String) (f : FixedExtract) : Prop :=
  ∃ e path, ExtractLine.parse line = .ok e ∧
    CompiledPath.compileExtract r e.expression = .ok path ∧
    path.fixedValue = some f.value ∧ f.field = e.field ∧ f.confidence = e.confidence

/-- The actions and the fixed values of a rule stand in the order of its lines. -/
structure LinesOf (l : CompiledLibrary) (i : Nat) (expressions lines : List String)
    (rule : CompiledRule) : Prop where
  requires : List.Forall₂ (l.RequiresLine i) expressions rule.require
  extracts : List.Forall₂ (l.ExtractsLine i) (lines.filter (looks l.registry)) rule.extract
  fixed : List.Forall₂ (FixesLine l.registry) (lines.filter (!looks l.registry ·)) rule.fixed

/-- The actions of the rules stand one behind the other, in the order of the lines. -/
structure Lined (l : CompiledLibrary) (rules : List Rule) : Prop where
  numbers : (l.rules.toList.flatMap fun rule => rule.require ++ rule.extract) =
    List.range l.actions.size
  size : l.rules.size = rules.length
  lines : ∀ (i : Nat) source rule, rules[i]? = some source → l.rules[i]? = some rule →
    l.LinesOf i source.require source.extract rule

/-! ### A rule that is being added -/

section Pending
variable {l l' : CompiledLibrary} {i : Nat}

theorem LinesOf.keep (hk : Keeps l l') (hr : l'.registry = l.registry)
    {requires extracts : List String} {rule : CompiledRule} (h : l.LinesOf i requires extracts rule) :
    l'.LinesOf i requires extracts rule := by
  refine ⟨h.requires.imp ?_, ?_, hr ▸ h.fixed⟩
  · rintro expression id ⟨a, ha, hrule, hrole, hpath⟩
    exact ⟨a, hk id a ha, hrule, hrole, hr ▸ hpath⟩
  · rw [hr]
    refine h.extracts.imp ?_
    rintro line id ⟨e, a, he, ha, hrule, hrole, hpath⟩
    exact ⟨e, a, he, hk id a ha, hrule, hrole, hr ▸ hpath⟩

/-- The actions that a rule has so far have the numbers behind those of the library. -/
structure Numbered (l : CompiledLibrary) (requires extracts : List String)
    (s : CompiledLibrary × CompiledRule) : Prop where
  numbers : List.range l.actions.size ++ (s.2.require ++ s.2.extract) =
    List.range s.1.actions.size
  lines : s.1.LinesOf l.rules.size requires extracts s.2

variable {source : RuleSource} {s s' : CompiledLibrary × CompiledRule}
  {requires extracts : List String}

theorem numbered_start (l : CompiledLibrary) (source : RuleSource) :
    Numbered l [] [] (l, { source }) := ⟨List.append_nil _, .nil, .nil, .nil⟩

theorem size_addAction (l : CompiledLibrary) (a : Action) :
    (l.addAction a).actions.size = l.actions.size + 1 := by
  rw [addAction_eq]
  exact Array.size_push _

/-- **An expression more that is required** is one action more, as long as nothing is extracted. -/
theorem numbered_addRequire {expression : String} (hs : Pending l source s)
    (hn : Numbered l requires [] s) (h : addRequire s expression = .ok s') :
    Numbered l (requires ++ [expression]) [] s' := by
  obtain ⟨l₁, rule⟩ := s
  obtain ⟨path, hpath, rfl⟩ := addRequire_eq_ok.1 h
  have hnone : rule.extract = [] := List.forall₂_nil_left_iff.1 hn.lines.extracts
  have hreg := (addAction_frame l₁ ⟨l₁.rules.size, .require path.usesIsNull, path⟩).2.2
  obtain ⟨hrequires, hextracts, hfixed⟩ := hn.lines.keep (keeps_addAction l₁ _) hreg
  have hnew : (l₁.addAction ⟨l₁.rules.size, .require path.usesIsNull, path⟩).RequiresLine
      l.rules.size expression l₁.actions.size :=
    ⟨_, getElem?_addAction_size _ _, congrArg Array.size hs.rules, rfl, hreg.symm ▸ hpath⟩
  refine ⟨?_, List.rel_append hrequires (.cons hnew .nil), hextracts, hfixed⟩
  have hnumbers := hn.numbers
  simp only [hnone, List.append_nil] at hnumbers ⊢
  rw [size_addAction, List.range_succ, ← List.append_assoc, hnumbers]

/-- **A line more** is one action more, if it is one that looks at the tree. -/
theorem numbered_addExtract {line : String} (hs : Pending l source s)
    (hn : Numbered l requires extracts s) (h : addExtract s line = .ok s') :
    Numbered l requires (extracts ++ [line]) s' := by
  obtain ⟨l₁, rule⟩ := s
  obtain ⟨e, path, he, hpath, hs'⟩ := addExtract_eq_ok.1 h
  have hlooks : looks l₁.registry line = path.fixedValue.isNone := by
    unfold looks
    rw [he]
    dsimp only
    rw [hpath]
  rcases hs' with ⟨value, hf, rfl⟩ | ⟨hf, rfl⟩
  · refine ⟨hn.numbers, hn.lines.requires, ?_, ?_⟩
    · rw [List.filter_append, List.filter_singleton, hlooks, hf]
      simpa using hn.lines.extracts
    · rw [List.filter_append, List.filter_singleton, hlooks, hf]
      exact List.rel_append hn.lines.fixed (.cons ⟨e, path, he, hpath, hf, rfl, rfl⟩ .nil)
  · have hreg := (addAction_frame l₁ ⟨l₁.rules.size, .extract e.field e.confidence, path⟩).2.2
    obtain ⟨hrequires, hextracts, hfixed⟩ := hn.lines.keep (keeps_addAction l₁ _) hreg
    have hnew : (l₁.addAction ⟨l₁.rules.size, .extract e.field e.confidence, path⟩).ExtractsLine
        l.rules.size line l₁.actions.size :=
      ⟨e, _, he, getElem?_addAction_size _ _, congrArg Array.size hs.rules, rfl, hreg.symm ▸ hpath⟩
    refine ⟨?_, hrequires, ?_, ?_⟩
    · have hnumbers := hn.numbers
      simp only at hnumbers ⊢
      rw [size_addAction, List.range_succ, ← hnumbers, List.append_assoc, List.append_assoc]
    · rw [List.filter_append, List.filter_singleton, hreg, hlooks, hf]
      exact List.rel_append (hreg ▸ hextracts) (.cons hnew .nil)
    · rw [List.filter_append, List.filter_singleton, hreg, hlooks, hf]
      simpa using hreg ▸ hfixed

/-- **What adding a rule does with its lines** before the rule itself stands in the library. -/
theorem exists_numbered {index : Nat} {rule : Rule} (h : l.addRule index rule = .ok l') :
    ∃ s, Pending l (sourceOf index rule) s ∧ Numbered l rule.require rule.extract s ∧
      CompiledLibrary.close s = l' := by
  obtain ⟨-, s, s', hs, hs', hclose⟩ := addRule_eq_ok.1 h
  obtain ⟨hp, hn⟩ := Fold.foldlM_prefix
    (fun done s => Pending l (sourceOf index rule) s ∧ Numbered l done [] s)
    (fun _ _ _ _ hb h => ⟨pending_addRequire hb.1 h, numbered_addRequire hb.1 hb.2 h⟩)
    ⟨pending_start l _, numbered_start l _⟩ hs
  obtain ⟨hp, hn⟩ := Fold.foldlM_prefix
    (fun done s => Pending l (sourceOf index rule) s ∧ Numbered l rule.require done s)
    (fun _ _ _ _ hb h => ⟨pending_addExtract hb.1 h, numbered_addExtract hb.1 hb.2 h⟩)
    ⟨hp, hn⟩ hs'
  exact ⟨s', hp, hn, hclose⟩

/-! ### All rules -/

theorem Lined.addRule {index : Nat} {rule : Rule} {rules : List Rule} (hl : Lined l rules)
    (h : l.addRule index rule = .ok l') : Lined l' (rules ++ [rule]) := by
  obtain ⟨s, hp, hn, rfl⟩ := exists_numbered h
  have hclose : Keeps s.1 (CompiledLibrary.close s) := fun _ _ h => h
  refine ⟨?_, ?_, fun i source compiled hsource hcompiled => ?_⟩
  · show (s.1.rules.push s.2).toList.flatMap _ = List.range s.1.actions.size
    rw [Array.toList_push, hp.rules, List.flatMap_append, hl.numbers, List.flatMap_singleton,
      hn.numbers]
  · show (s.1.rules.push s.2).size = _
    rw [Array.size_push, hp.rules, hl.size, List.length_append, List.length_singleton]
  · rcases hp.close_cases hcompiled with ⟨rfl, rfl⟩ | hold
    · rw [hl.size, List.getElem?_concat_length] at hsource
      cases hsource
      exact hn.lines.keep hclose rfl
    · have hlt : i < rules.length := hl.size ▸ (Array.getElem?_eq_some_iff.1 hold).1
      rw [List.getElem?_append_left hlt] at hsource
      exact ((hl.lines i source compiled hsource hold).keep hp.keeps hp.registry).keep hclose rfl

end Pending

section Compiled
variable {library : RuleLibrary} {threshold : Nat} {l : CompiledLibrary}
  (h : compile library threshold = .ok l)
include h

/-- **The actions of a library are numbered in the order of its lines.** -/
theorem lined_of_compile : Lined l library.rules := by
  obtain ⟨r, -, h⟩ := bind_eq_ok_iff.1 h
  have hstart : Lined (empty r threshold) [] := ⟨rfl, rfl, fun _ _ _ h => (by cases h)⟩
  have hlined : Lined l (([] ++ library.rules.zipIdx).map Prod.fst) :=
    Fold.foldlM_prefix (fun done l => Lined l (done.map Prod.fst))
      (fun done l x l' hl h => by
        rw [List.map_append]
        exact hl.addRule h)
      hstart h
  rwa [List.nil_append, List.zipIdx_map_fst] at hlined

/-- **An action is listed once, by the rule that it names**, and by no other one. -/
theorem count_of_compile {id : Nat} {a : Action} (ha : l.actions[id]? = some a) :
    a.rule < l.rules.size ∧ ∀ (i : Nat) rule, l.rules[i]? = some rule →
      (rule.require ++ rule.extract).count id = if i = a.rule then 1 else 0 := by
  have hlinked := linked_of_compile h
  have hnumbers := (lined_of_compile h).numbers
  have hname {i : Nat} {rule : CompiledRule} (hrule : l.rules[i]? = some rule)
      (hid : id ∈ rule.require ++ rule.extract) : i = a.rule := by
    rcases List.mem_append.1 hid with hid | hid
    · obtain ⟨b, -, hb, hi, -⟩ := hlinked.requires i rule hrule id hid
      rw [Option.some.inj (ha.symm.trans hb), hi]
    · obtain ⟨b, -, -, hb, hi, -⟩ := hlinked.extracts i rule hrule id hid
      rw [Option.some.inj (ha.symm.trans hb), hi]
  refine ⟨hlinked.rule_lt id a ha, fun i rule hrule => ?_⟩
  split
  · next hi =>
    have hmem : id ∈ l.rules.toList.flatMap fun rule => rule.require ++ rule.extract := by
      rw [hnumbers]
      exact List.mem_range.2 (Array.getElem?_eq_some_iff.1 ha).1
    have hnodup : (l.rules.toList.flatMap fun rule => rule.require ++ rule.extract).Nodup := by
      rw [hnumbers]
      exact List.nodup_range
    obtain ⟨rule', hrule', hid⟩ := List.mem_flatMap.1 hmem
    obtain ⟨j, hj⟩ := List.mem_iff_getElem?.1 hrule'
    rw [Array.getElem?_toList] at hj
    have hj' := hname hj hid
    rw [hj', ← hi, hrule] at hj
    cases hj
    exact List.count_eq_one_of_mem ((List.nodup_flatMap.1 hnodup).1 _ hrule') hid
  · next hi => exact List.count_eq_zero.2 fun hid => hi (hname hrule hid)

/-- **The rules that can hold untouched** are listed in order, and are those that ask for nothing
but that nothing is found. -/
theorem zeroInput_of_compile : l.zeroInput.toList.Pairwise (· < ·) ∧ ∀ i, i ∈ l.zeroInput.toList ↔
    ∃ rule, l.rules[i]? = some rule ∧ rule.extract = [] ∧
      ∀ id ∈ rule.require, ∃ a, l.actions[id]? = some a ∧ a.role = .require true := by
  refine ⟨?_, fun i => ?_⟩
  · obtain ⟨r, -, h⟩ := bind_eq_ok_iff.1 h
    have hboth := Fold.foldlM_invariant
      (fun l => Linked l ∧ l.zeroInput.toList.Pairwise (· < ·))
      (fun l x l' hl _ h => ⟨linked_addRule hl.1 h, pairwise_zeroInput_addRule hl.1 hl.2 h⟩)
      ⟨linked_empty r threshold, List.Pairwise.nil⟩ h
    exact hboth.2
  · rw [(linked_of_compile h).mem_zeroInput]
    refine exists_congr fun rule => and_congr_right fun _ => ?_
    simp [CompiledRule.isZeroInput, Action.isNullRequirement, Option.any_eq_true]

end Compiled

/-! ### The whole library -/

/-- What a library is compiled into: how the tables, the capacity and the lists of the rules go
together with the actions, and the actions with the lines of the rules. -/
structure Tabled (library : RuleLibrary) (l : CompiledLibrary) : Prop where
  ascending : ∀ k, (l.actionsFor k).Pairwise (· < ·)
  mem_actionsFor : ∀ id k, id ∈ l.actionsFor k ↔
    ∃ a, l.actions[id]? = some a ∧ ∃ key ∈ a.path.keys, key.folded = k
  mem_index : ∀ k, k ∈ l.index ↔ l.actionsFor k ≠ []
  mem_valuePaths : ∀ p, p ∈ l.valuePaths ↔ l.HasKeyAt .value p
  mem_headPaths : ∀ p, p ∈ l.headPaths ↔ l.HasKeyAt .head p
  nodup_rangesAt : ∀ p, (l.rangesAt p).Nodup
  mem_rangesAt : ∀ p r, r ∈ l.rangesAt p ↔ l.HasRangeAt p r
  ranged : ∀ (id : Nat) a, l.actions[id]? = some a → ∀ key ∈ a.path.keys, ∀ q r,
    key.path = q ++ WordRange.pathForm r → r ∈ l.rangesAt (lower q)
  capacity : (l.keys.map fun k => (l.actionsFor k).length).sum = l.capacity
  listed : ∀ (id : Nat) a, l.actions[id]? = some a → a.rule < l.rules.size ∧
    ∀ (i : Nat) rule, l.rules[i]? = some rule →
      (rule.require ++ rule.extract).count id = if i = a.rule then 1 else 0
  lined : Lined l library.rules
  ordered : l.zeroInput.toList.Pairwise (· < ·)
  mem_zeroInput : ∀ i, i ∈ l.zeroInput.toList ↔
    ∃ rule, l.rules[i]? = some rule ∧ rule.extract = [] ∧
      ∀ id ∈ rule.require, ∃ a, l.actions[id]? = some a ∧ a.role = .require true

/-- **A compiled library holds what its rules say and nothing else.** Under a key stand, in order,
the actions with that key; the paths with a value or a head are those of keys that ask for one; the
ranges at a path are those that expressions take there, each once, and with them any range that a
key ends in; the capacity is the sum of all the actions under keys. An action is listed once, by the
rule that it names; the actions count through the lines in their order. The rules that can hold
untouched are those that ask for nothing but that nothing is found. -/
theorem tabled_of_compile {library : RuleLibrary} {threshold : Nat} {l : CompiledLibrary}
    (h : compile library threshold = .ok l) : Tabled library l := by
  have hreg := registered_of_compile h
  obtain ⟨hordered, hzero⟩ := zeroInput_of_compile h
  exact {
    ascending := hreg.ascending
    mem_actionsFor := hreg.mem_actionsFor
    mem_index := mem_index_iff h
    mem_valuePaths := mem_paths_iff h .value
    mem_headPaths := mem_paths_iff h .head
    nodup_rangesAt := hreg.nodup_rangesAt
    mem_rangesAt := mem_rangesAt_iff h
    ranged := fun _ _ ha _ hkey _ _ hq => mem_rangesAt_of_ranged h ha hkey hq
    capacity := sum_actionsFor h
    listed := fun _ _ ha => count_of_compile h ha
    lined := lined_of_compile h
    ordered := hordered
    mem_zeroInput := hzero }

/-- So does the library of rules with and without requirements. -/
theorem tabled_of_compile_mixed : ∃ l, compile mixedRules 0 = .ok l ∧ Tabled mixedRules l := by
  obtain ⟨l, h⟩ := exists_compile_mixed
  exact ⟨l, h, tabled_of_compile h⟩

end AgentRules.CompiledLibrary
