import AgentRules.Index.CompiledLibrary
import AgentRules.Proofs.Fold
import Mathlib.Data.List.Nodup

/-! # What a compiled library keeps

The tables of a compiled library are made action by action. `Registered` says how they agree with
the actions: an action stands under the keys of its expression and no other ones, once under each,
the paths of its keys are known, the capacity is enough for any choice of distinct keys, and the
ranges of an expression are announced, none of them twice at a path. Every step of compiling keeps
this (`registered_of_compile`). -/

namespace AgentRules.CompiledLibrary

/-- Whether the table says that there is a key of this kind at the path. -/
def Knows (l : CompiledLibrary) (key : IndexKey) : Prop :=
  match key.selector with
  | .path => True
  | .value _ => Text.lower key.path ∈ l.valuePaths
  | .head _ => Text.lower key.path ∈ l.headPaths

/-- The capacity is enough for distinct keys. -/
def Enough (l : CompiledLibrary) : Prop :=
  ∀ ks : List String, ks.Nodup → (ks.flatMap l.actionsFor).length ≤ l.capacity

/-- An action is what its expression compiles to. -/
def IsCompiled (r : Registry) (a : Action) : Prop :=
  match a.role with
  | .require isNull => CompiledPath.compileRequire r a.path.expression = .ok a.path ∧
      isNull = a.path.usesIsNull
  | .extract _ _ => CompiledPath.compileExtract r a.path.expression = .ok a.path ∧
      a.path.fixedValue = none

/-- The tables of a library agree with its actions. -/
structure Registered (l : CompiledLibrary) : Prop where
  enough : l.Enough
  nodup_rangesAt : ∀ path, (l.rangesAt path).Nodup
  mem_rangesAt : ∀ (id : Nat) a, l.actions[id]? = some a → ∀ r ∈ a.path.ranges,
    r.2 ∈ l.rangesAt (Text.lower r.1)
  ascending : ∀ k, (l.actionsFor k).Pairwise (· < ·)
  mem_actionsFor : ∀ id k, id ∈ l.actionsFor k ↔
    ∃ a, l.actions[id]? = some a ∧ ∃ key ∈ a.path.keys, key.folded = k
  knows : ∀ (id : Nat) a, l.actions[id]? = some a → ∀ key ∈ a.path.keys,
    ∃ known ∈ a.path.keys, known.folded = key.folded ∧ l.Knows known
  compiled : ∀ (id : Nat) a, l.actions[id]? = some a → IsCompiled l.registry a

/-! ### Adding a key -/

section AddKey
variable {l : CompiledLibrary} {id : Nat} {key : IndexKey}

/-- The action has the key already, if it is the last one there. -/
def HasKey (l : CompiledLibrary) (id : Nat) (key : IndexKey) : Prop :=
  (l.index.getD key.folded #[]).back? = some id

theorem addKey_of_hasKey (h : l.HasKey id key) : l.addKey id key = l := if_pos h

theorem addKey_eq (h : ¬ l.HasKey id key) : l.addKey id key =
    { l with
      index := l.index.insert key.folded ((l.index.getD key.folded #[]).push id)
      capacity := l.capacity + 1
      valuePaths := match key.selector with
        | .value _ => l.valuePaths.insert (Text.lower key.path)
        | _ => l.valuePaths
      headPaths := match key.selector with
        | .head _ => l.headPaths.insert (Text.lower key.path)
        | _ => l.headPaths } := by
  unfold addKey
  refine (if_neg h).trans ?_
  cases key.selector <;> rfl

theorem mem_actionsFor_of_hasKey (h : l.HasKey id key) : id ∈ l.actionsFor key.folded :=
  Array.mem_toList_iff.2 (Array.mem_of_back? h)

theorem actionsFor_addKey (h : ¬ l.HasKey id key) (k : String) :
    (l.addKey id key).actionsFor k =
      l.actionsFor k ++ if k = key.folded then [id] else [] := by
  unfold actionsFor
  rw [addKey_eq h, Std.HashMap.getD_insert]
  by_cases hk : k = key.folded
  · rw [if_pos hk, hk, if_pos BEq.rfl, Array.toList_push]
  · rw [if_neg hk, List.append_nil, if_neg (by simpa using fun h => hk h.symm)]

theorem mem_actionsFor_addKey (i : Nat) (k : String) : i ∈ (l.addKey id key).actionsFor k ↔
    i ∈ l.actionsFor k ∨ i = id ∧ key.folded = k := by
  by_cases h : l.HasKey id key
  · rw [addKey_of_hasKey h, or_iff_left_of_imp]
    rintro ⟨rfl, rfl⟩
    exact mem_actionsFor_of_hasKey h
  · rw [actionsFor_addKey h, List.mem_append]
    by_cases hk : k = key.folded
    · rw [if_pos hk, List.mem_singleton, and_iff_left hk.symm]
    · have hk' : key.folded ≠ k := fun h => hk h.symm
      simp [hk, hk']

theorem getLast?_of_le {xs : List Nat} {n : Nat} (hxs : xs.Pairwise (· < ·)) (hn : n ∈ xs)
    (hle : ∀ i ∈ xs, i ≤ n) : xs.getLast? = some n := by
  rcases List.eq_nil_or_concat xs with rfl | ⟨ys, m, rfl⟩
  · cases hn
  · rw [List.concat_eq_append] at hxs hn hle ⊢
    have hm := hle m (List.mem_append_right ys List.mem_cons_self)
    rcases List.mem_append.1 hn with hn | hn
    · have := (List.pairwise_append.1 hxs).2.2 n hn m List.mem_cons_self
      omega
    · rw [List.mem_singleton.1 hn, List.getLast?_concat]

/-- The actions of a key stay in order when the last action gets a key. -/
theorem ascending_addKey (h : ∀ k, (l.actionsFor k).Pairwise (· < ·))
    (hid : ∀ k, ∀ i ∈ l.actionsFor k, i ≤ id) (k : String) :
    ((l.addKey id key).actionsFor k).Pairwise (· < ·) := by
  by_cases hk : l.HasKey id key
  · rw [addKey_of_hasKey hk]
    exact h k
  · rw [actionsFor_addKey hk]
    split
    · next heq =>
      refine List.pairwise_append.2 ⟨h k, List.pairwise_singleton _ _, fun i hi j hj => ?_⟩
      rw [List.mem_singleton.1 hj]
      refine Nat.lt_of_le_of_ne (hid k i hi) fun hii => hk ?_
      rw [hii, heq] at hi
      rw [HasKey, ← Array.getLast?_toList]
      exact getLast?_of_le (h _) hi (hid _)
    · rw [List.append_nil]
      exact h k

theorem length_flatMap_append (f : String → List Nat) (a : String) (id : Nat) (ks : List String) :
    (ks.flatMap fun k => f k ++ if k = a then [id] else []).length =
      (ks.flatMap f).length + ks.count a := by
  induction ks with
  | nil => rfl
  | cons k ks ih =>
    rw [List.flatMap_cons, List.flatMap_cons, List.length_append, List.length_append,
      List.length_append, ih, List.count_cons]
    by_cases hk : k = a
    · simp only [hk, if_true, BEq.rfl, List.length_singleton]
      omega
    · simp only [hk, if_false, beq_iff_eq, List.length_nil]
      omega

theorem enough_addKey (hl : l.Enough) : (l.addKey id key).Enough := by
  by_cases h : l.HasKey id key
  · rw [addKey_of_hasKey h]
    exact hl
  · intro ks hks
    have hcap : (l.addKey id key).capacity = l.capacity + 1 := by rw [addKey_eq h]
    have hactions : (l.addKey id key).actionsFor = fun k =>
        l.actionsFor k ++ if k = key.folded then [id] else [] := funext (actionsFor_addKey h)
    rw [hcap, hactions, length_flatMap_append]
    exact Nat.add_le_add (hl ks hks) (List.nodup_iff_count_le_one.1 hks _)

theorem Knows.addKey {known : IndexKey} (h : l.Knows known) : (l.addKey id key).Knows known := by
  by_cases hk : l.HasKey id key
  · rwa [addKey_of_hasKey hk]
  · unfold Knows at h ⊢
    rw [addKey_eq hk]
    cases hs : known.selector <;> rw [hs] at h
    · exact True.intro
    · cases key.selector
      · exact h
      · exact Std.HashSet.mem_insert.2 (.inr h)
      · exact h
    · cases key.selector
      · exact h
      · exact h
      · exact Std.HashSet.mem_insert.2 (.inr h)

theorem knows_addKey (h : ¬ l.HasKey id key) : (l.addKey id key).Knows key := by
  unfold Knows
  rw [addKey_eq h]
  cases key.selector
  · exact True.intro
  · exact Std.HashSet.mem_insert_self
  · exact Std.HashSet.mem_insert_self

/-- The libraries differ in their tables of keys alone. -/
structure Framed (l l' : CompiledLibrary) : Prop where
  rules : l'.rules = l.rules
  actions : l'.actions = l.actions
  ranges : l'.ranges = l.ranges
  zeroInput : l'.zeroInput = l.zeroInput
  registry : l'.registry = l.registry

theorem Framed.trans {l₁ l₂ l₃ : CompiledLibrary} (h : Framed l₁ l₂) (h' : Framed l₂ l₃) :
    Framed l₁ l₃ :=
  ⟨h'.rules.trans h.rules, h'.actions.trans h.actions, h'.ranges.trans h.ranges,
    h'.zeroInput.trans h.zeroInput, h'.registry.trans h.registry⟩

theorem addKey_frame : Framed l (l.addKey id key) := by
  by_cases h : l.HasKey id key
  · rw [addKey_of_hasKey h]
    exact ⟨rfl, rfl, rfl, rfl, rfl⟩
  · rw [addKey_eq h]
    exact ⟨rfl, rfl, rfl, rfl, rfl⟩

end AddKey

/-! ### Adding an action -/

/-- Every key of the action `id` so far is one of `keys` and known. -/
def Covers (l : CompiledLibrary) (id : Nat) (keys : List IndexKey) : Prop :=
  ∀ k, id ∈ l.actionsFor k → ∃ known ∈ keys, known.folded = k ∧ l.Knows known

/-- The keys of an action added. -/
structure KeysAdded (l l' : CompiledLibrary) (id : Nat) (keys : List IndexKey) : Prop where
  frame : Framed l l'
  enough : l.Enough → l'.Enough
  ascending : (∀ k, (l.actionsFor k).Pairwise (· < ·)) → (∀ k, ∀ i ∈ l.actionsFor k, i ≤ id) →
    ∀ k, (l'.actionsFor k).Pairwise (· < ·)
  mem_actionsFor : ∀ i k, i ∈ l'.actionsFor k ↔
    i ∈ l.actionsFor k ∨ i = id ∧ ∃ key ∈ keys, key.folded = k
  knows : ∀ known, l.Knows known → l'.Knows known
  covers : ∀ all, (∀ key ∈ keys, key ∈ all) → l.Covers id all → l'.Covers id all

theorem keysAdded_foldl (l : CompiledLibrary) (id : Nat) (keys : List IndexKey) :
    KeysAdded l (keys.foldl (addKey id) l) id keys := by
  induction keys generalizing l with
  | nil =>
    exact ⟨⟨rfl, rfl, rfl, rfl, rfl⟩, fun h => h, fun h _ => h, by simp, fun _ h => h,
      fun _ _ h => h⟩
  | cons key keys ih =>
    obtain ⟨hframe, henough, hasc, hmem, hknows, hcovers⟩ := ih (l.addKey id key)
    refine ⟨addKey_frame.trans hframe, fun h => henough (enough_addKey h),
      fun h hid => hasc (ascending_addKey h hid) ?_, fun i k => ?_,
      fun known h => hknows known h.addKey,
      fun all hall h => hcovers all (fun k hk => hall k (List.mem_cons_of_mem _ hk)) ?_⟩
    · intro k i hi
      rcases (mem_actionsFor_addKey i k).1 hi with hi | ⟨rfl, -⟩
      · exact hid k i hi
      · exact Nat.le_refl i
    · rw [List.foldl_cons, hmem, mem_actionsFor_addKey]
      simp only [List.mem_cons, exists_eq_or_imp]
      rw [or_assoc, ← and_or_left]
    · intro k hk
      by_cases hhas : l.HasKey id key
      · rw [addKey_of_hasKey hhas] at hk ⊢
        exact h k hk
      · rcases (mem_actionsFor_addKey id k).1 hk with hk | ⟨-, rfl⟩
        · obtain ⟨known, hmem, hfold, hk⟩ := h k hk
          exact ⟨known, hmem, hfold, hk.addKey⟩
        · exact ⟨key, hall key List.mem_cons_self, rfl, knows_addKey hhas⟩

theorem addRange_frame (l : CompiledLibrary) (range : String × WordRange) :
    l.addRange range = { l with ranges := (l.addRange range).ranges } := by
  unfold addRange
  dsimp only
  split <;> rfl

theorem nodup_rangesAt_addRange {l : CompiledLibrary} (h : ∀ path, (l.rangesAt path).Nodup)
    (range : String × WordRange) (path : String) : ((l.addRange range).rangesAt path).Nodup := by
  unfold addRange
  dsimp only
  split
  · exact h path
  · next hnew =>
    unfold rangesAt
    rw [Std.HashMap.getD_insert]
    split
    · exact (h _).append (List.nodup_singleton _) (List.disjoint_singleton.2 hnew)
    · exact h path

/-- A range is among those of its path once it is added, and no other one goes. -/
theorem mem_rangesAt_addRange {l : CompiledLibrary} (range : String × WordRange) :
    range.2 ∈ (l.addRange range).rangesAt (Text.lower range.1) ∧
      ∀ path, ∀ r ∈ l.rangesAt path, r ∈ (l.addRange range).rangesAt path := by
  unfold addRange
  dsimp only
  split
  · next hknown => exact ⟨hknown, fun _ _ h => h⟩
  · unfold rangesAt
    refine ⟨?_, fun path r hr => ?_⟩
    · rw [Std.HashMap.getD_insert_self]
      exact List.mem_append_right _ List.mem_cons_self
    · rw [Std.HashMap.getD_insert]
      split
      · next heq =>
        rw [← beq_iff_eq.1 heq] at hr
        exact List.mem_append_left _ hr
      · exact hr

theorem addRanges_frame (ranges : List (String × WordRange)) (l : CompiledLibrary) :
    ranges.foldl addRange l = { l with ranges := (ranges.foldl addRange l).ranges } := by
  induction ranges generalizing l with
  | nil => rfl
  | cons r rs ih =>
    rw [List.foldl_cons, ih]
    conv => rhs; rw [ih]
    rw [addRange_frame l r]

theorem nodup_rangesAt_addRanges {ranges : List (String × WordRange)} {l : CompiledLibrary}
    (h : ∀ path, (l.rangesAt path).Nodup) (path : String) :
    ((ranges.foldl addRange l).rangesAt path).Nodup := by
  induction ranges generalizing l with
  | nil => exact h path
  | cons r rs ih => exact ih (nodup_rangesAt_addRange h r)

theorem mem_rangesAt_addRanges {ranges : List (String × WordRange)} {l : CompiledLibrary} :
    (∀ r ∈ ranges, r.2 ∈ (ranges.foldl addRange l).rangesAt (Text.lower r.1)) ∧
      ∀ path, ∀ r ∈ l.rangesAt path, r ∈ (ranges.foldl addRange l).rangesAt path := by
  induction ranges generalizing l with
  | nil => exact ⟨by simp, fun _ _ h => h⟩
  | cons range ranges ih =>
    obtain ⟨hnew, hold⟩ := @mem_rangesAt_addRange l range
    obtain ⟨hrest, hkeep⟩ := @ih (l.addRange range)
    refine ⟨fun r hr => ?_, fun path r hr => hkeep path r (hold path r hr)⟩
    rcases List.mem_cons.1 hr with rfl | hr
    · exact hkeep _ _ hnew
    · exact hrest r hr

theorem addAction_eq (l : CompiledLibrary) (a : Action) :
    l.addAction a =
      { a.path.keys.foldl (addKey l.actions.size) l with
        ranges := (l.addAction a).ranges
        actions := l.actions.push a } := by
  have hactions := (keysAdded_foldl l l.actions.size a.path.keys).frame.actions
  unfold CompiledLibrary.addAction
  dsimp only
  rw [addRanges_frame, hactions]

theorem getElem?_addAction (l : CompiledLibrary) (a : Action) (i : Nat) :
    (l.addAction a).actions[i]? = if i = l.actions.size then some a else l.actions[i]? := by
  rw [addAction_eq, Array.getElem?_push]

theorem addAction_frame (l : CompiledLibrary) (a : Action) :
    (l.addAction a).rules = l.rules ∧ (l.addAction a).zeroInput = l.zeroInput ∧
      (l.addAction a).registry = l.registry := by
  have hframe := (keysAdded_foldl l l.actions.size a.path.keys).frame
  rw [addAction_eq]
  exact ⟨hframe.rules, hframe.zeroInput, hframe.registry⟩

theorem addAction_cases {l : CompiledLibrary} {a b : Action} {i : Nat}
    (hb : (l.addAction a).actions[i]? = some b) :
    i = l.actions.size ∧ a = b ∨ l.actions[i]? = some b := by
  rw [getElem?_addAction] at hb
  split at hb
  · next hi => exact .inl ⟨hi, Option.some.inj hb⟩
  · exact .inr hb

theorem actionsFor_addAction (l : CompiledLibrary) (a : Action) (k : String) :
    (l.addAction a).actionsFor k =
      (a.path.keys.foldl (addKey l.actions.size) l).actionsFor k := by
  rw [addAction_eq]
  rfl

theorem rangesAt_addKeys (l : CompiledLibrary) (id : Nat) (keys : List IndexKey) (path : String) :
    (keys.foldl (addKey id) l).rangesAt path = l.rangesAt path := by
  unfold rangesAt
  rw [(keysAdded_foldl l id keys).frame.ranges]

theorem nodup_rangesAt_addAction {l : CompiledLibrary} (h : ∀ path, (l.rangesAt path).Nodup)
    (a : Action) (path : String) : ((l.addAction a).rangesAt path).Nodup := by
  refine nodup_rangesAt_addRanges (fun p => ?_) path
  rw [rangesAt_addKeys]
  exact h p

theorem mem_rangesAt_addAction (l : CompiledLibrary) (a : Action) :
    (∀ r ∈ a.path.ranges, r.2 ∈ (l.addAction a).rangesAt (Text.lower r.1)) ∧
      ∀ path, ∀ r ∈ l.rangesAt path, r ∈ (l.addAction a).rangesAt path := by
  obtain ⟨hnew, hold⟩ := @mem_rangesAt_addRanges a.path.ranges
    (a.path.keys.foldl (addKey l.actions.size) l)
  refine ⟨hnew, fun path r hr => hold path r ?_⟩
  rwa [rangesAt_addKeys]

/-- **Adding an action keeps the tables in agreement.** -/
theorem Registered.addAction {l : CompiledLibrary} {a : Action} (hl : Registered l)
    (ha : IsCompiled l.registry a) :
    Registered (l.addAction a) ∧ (l.addAction a).registry = l.registry := by
  obtain ⟨-, henough, hasc, hmem, hknows, hcovers⟩ :=
    keysAdded_foldl l l.actions.size a.path.keys
  obtain ⟨hnewRange, holdRange⟩ := mem_rangesAt_addAction l a
  have heq := addAction_eq l a
  have hreg := (addAction_frame l a).2.2
  have hnew {k : String} : l.actions.size ∉ l.actionsFor k := fun h => by
    obtain ⟨b, hb, -⟩ := (hl.mem_actionsFor _ k).1 h
    exact Nat.lt_irrefl _ (Array.getElem?_eq_some_iff.1 hb).1
  refine ⟨⟨?_, nodup_rangesAt_addAction hl.nodup_rangesAt a, fun i b hb r hr => ?_, fun k => ?_,
    fun i k => ?_, fun i b hb key hkey => ?_, fun i b hb => ?_⟩, hreg⟩
  · rw [heq]
    exact henough hl.enough
  · rcases addAction_cases hb with ⟨-, rfl⟩ | hb
    · exact hnewRange r hr
    · exact holdRange _ _ (hl.mem_rangesAt i b hb r hr)
  · rw [actionsFor_addAction]
    refine hasc hl.ascending (fun k i hi => ?_) k
    obtain ⟨b, hb, -⟩ := (hl.mem_actionsFor i k).1 hi
    exact Nat.le_of_lt (Array.getElem?_eq_some_iff.1 hb).1
  · rw [getElem?_addAction, actionsFor_addAction, hmem, hl.mem_actionsFor]
    by_cases hi : i = l.actions.size
    · rw [if_pos hi, hi, Array.getElem?_eq_none (Nat.le_refl _)]
      simp
    · rw [if_neg hi]
      simp [hi]
  · rw [heq]
    rcases addAction_cases hb with ⟨-, rfl⟩ | hb
    · exact hcovers a.path.keys (fun _ h => h) (fun k h => absurd h hnew) key.folded
        ((hmem _ _).2 (.inr ⟨rfl, key, hkey, rfl⟩))
    · obtain ⟨known, hmem, hfold, hk⟩ := hl.knows i b hb key hkey
      exact ⟨known, hmem, hfold, hknows known hk⟩
  · rw [hreg]
    rcases addAction_cases hb with ⟨-, rfl⟩ | hb
    · exact ha
    · exact hl.compiled i b hb

/-! ### Compiling a library -/

theorem registered_empty (r : Registry) (threshold : Nat) : Registered (empty r threshold) := by
  have hnone (k : String) : (empty r threshold).actionsFor k = [] := by
    simp [actionsFor, empty]
  refine ⟨fun ks _ => ?_, fun path => ?_, fun id a h => (by cases h), fun k => ?_, fun id k => ?_,
    fun id a h => (by cases h), fun id a h => (by cases h)⟩
  · simp [hnone]
  · simp [rangesAt, empty]
  · simp [hnone]
  · rw [hnone]
    simp [empty]

theorem expression_of_compile {r : Registry} {e : String} {c : CompiledPath}
    (h : CompiledPath.compile r e = .ok c) : c.expression = e := by
  unfold CompiledPath.compile at h
  obtain ⟨x, -, h⟩ := Outcome.bind_eq_ok_iff.1 h
  split at h
  · cases h
    rfl
  · obtain ⟨d, -, h⟩ := Outcome.bind_eq_ok_iff.1 h
    cases h
    rfl

theorem compileRequire_eq_ok {r : Registry} {e : String} {c : CompiledPath}
    (h : CompiledPath.compileRequire r e = .ok c) : ∃ d, CompiledPath.compile r e = .ok d ∧
      d.fixedValue = none ∧ c = { d with chain := d.chain.prune } := by
  unfold CompiledPath.compileRequire at h
  obtain ⟨d, hd, h⟩ := Outcome.bind_eq_ok_iff.1 h
  refine ⟨d, hd, ?_⟩
  cases hf : d.fixedValue with
  | some text =>
    rw [hf] at h
    cases h
  | none =>
    rw [hf] at h
    cases h
    exact ⟨rfl, rfl⟩

theorem compileExtract_eq_ok {r : Registry} {e : String} {c : CompiledPath}
    (h : CompiledPath.compileExtract r e = .ok c) :
    CompiledPath.compile r e = .ok c ∧ c.usesIsNull = false := by
  unfold CompiledPath.compileExtract at h
  obtain ⟨d, hd, h⟩ := Outcome.bind_eq_ok_iff.1 h
  cases hu : d.usesIsNull with
  | true =>
    rw [hu] at h
    cases h
  | false =>
    rw [hu] at h
    cases h
    exact ⟨hd, hu⟩

theorem exists_compiled {r : Registry} {a : Action} (h : IsCompiled r a) :
    ∃ c, CompiledPath.compile r a.path.expression = .ok c ∧ c.fixedValue = none ∧
      a.path.keys = c.keys ∧ a.path.ranges = c.ranges ∧
      (a.path.chain = c.chain ∨ a.path.chain = c.chain.prune) := by
  unfold IsCompiled at h
  split at h
  · obtain ⟨c, hc, hfixed, hpath⟩ := compileRequire_eq_ok h.1
    refine ⟨c, hc, hfixed, ?_⟩
    rw [hpath]
    exact ⟨rfl, rfl, .inr rfl⟩
  · exact ⟨a.path, (compileExtract_eq_ok h.1).1, h.2, rfl, rfl, .inl rfl⟩

section Lines
variable {l : CompiledLibrary} {rule : CompiledRule} {s : CompiledLibrary × CompiledRule}

/-- **What a rule requires is added as one action**, and the rule refers to it. -/
theorem addRequire_eq_ok {expression : String} : addRequire (l, rule) expression = .ok s ↔
    ∃ path, CompiledPath.compileRequire l.registry expression = .ok path ∧
      (l.addAction ⟨l.rules.size, .require path.usesIsNull, path⟩,
        { rule with require := rule.require ++ [l.actions.size] }) = s := by
  constructor
  · intro h
    obtain ⟨path, hpath, h⟩ := Outcome.bind_eq_ok_iff.1 h
    exact ⟨path, hpath, Except.ok.inj h⟩
  · rintro ⟨path, hpath, rfl⟩
    exact Outcome.bind_eq_ok_iff.2 ⟨path, hpath, rfl⟩

/-- **What a rule extracts is added as one action**, unless the rule writes a fixed value. -/
theorem addExtract_eq_ok {line : String} : addExtract (l, rule) line = .ok s ↔
    ∃ e path, ExtractLine.parse line = .ok e ∧
      CompiledPath.compileExtract l.registry e.expression = .ok path ∧
      ((∃ value, path.fixedValue = some value ∧
          (l, { rule with fixed := rule.fixed ++ [⟨e.field, e.confidence, value⟩] }) = s) ∨
        path.fixedValue = none ∧
          (l.addAction ⟨l.rules.size, .extract e.field e.confidence, path⟩,
            { rule with extract := rule.extract ++ [l.actions.size] }) = s) := by
  constructor
  · intro h
    obtain ⟨e, he, h⟩ := Outcome.bind_eq_ok_iff.1 h
    obtain ⟨path, hpath, h⟩ := Outcome.bind_eq_ok_iff.1 h
    refine ⟨e, path, he, hpath, ?_⟩
    cases hf : path.fixedValue with
    | some value =>
      rw [hf] at h
      exact .inl ⟨value, rfl, Except.ok.inj h⟩
    | none =>
      rw [hf] at h
      exact .inr ⟨rfl, Except.ok.inj h⟩
  · rintro ⟨e, path, he, hpath, hs⟩
    refine Outcome.bind_eq_ok_iff.2 ⟨e, he, Outcome.bind_eq_ok_iff.2 ⟨path, hpath, ?_⟩⟩
    rcases hs with ⟨value, hf, rfl⟩ | ⟨hf, rfl⟩ <;> rw [hf] <;> rfl

theorem isCompiled_require {r : Registry} {id : Nat} {expression : String} {path : CompiledPath}
    (h : CompiledPath.compileRequire r expression = .ok path) :
    IsCompiled r ⟨id, .require path.usesIsNull, path⟩ := by
  obtain ⟨d, hd, -, hpath⟩ := compileRequire_eq_ok h
  have he : path.expression = expression := by
    have hd := expression_of_compile hd
    rw [hpath]
    exact hd
  refine ⟨?_, rfl⟩
  show CompiledPath.compileRequire r path.expression = .ok path
  rw [he]
  exact h

theorem isCompiled_extract {r : Registry} {id : Nat} {e : ExtractLine} {path : CompiledPath}
    (h : CompiledPath.compileExtract r e.expression = .ok path) (hf : path.fixedValue = none) :
    IsCompiled r ⟨id, .extract e.field e.confidence, path⟩ := by
  refine ⟨?_, hf⟩
  show CompiledPath.compileExtract r path.expression = .ok path
  rw [expression_of_compile (compileExtract_eq_ok h).1]
  exact h

end Lines

def close (s : CompiledLibrary × CompiledRule) : CompiledLibrary :=
  { s.1 with
    rules := s.1.rules.push s.2
    zeroInput := if s.2.isZeroInput s.1.actions then s.1.zeroInput.push s.1.rules.size
      else s.1.zeroInput }

/-- **A rule is added by adding what it requires, then what it extracts, and then the rule.** -/
theorem addRule_eq_ok {l l' : CompiledLibrary} {index : Nat} {rule : Rule} :
    l.addRule index rule = .ok l' ↔ rule.extract.isEmpty = false ∧ ∃ s s',
      rule.require.foldlM addRequire (l, { source := sourceOf index rule }) = .ok s ∧
      rule.extract.foldlM addExtract s = .ok s' ∧ close s' = l' := by
  unfold addRule
  rw [Outcome.mapError_eq_ok_iff]
  cases rule.extract.isEmpty with
  | true => exact ⟨fun h => (by cases h), fun h => (by cases h.1)⟩
  | false =>
    constructor
    · intro h
      obtain ⟨s, hs, h⟩ := Outcome.bind_eq_ok_iff.1 h
      obtain ⟨s', hs', h⟩ := Outcome.bind_eq_ok_iff.1 h
      exact ⟨rfl, s, s', hs, hs', Except.ok.inj h⟩
    · rintro ⟨-, s, s', hs, hs', rfl⟩
      exact Outcome.bind_eq_ok_iff.2 ⟨s, hs, Outcome.bind_eq_ok_iff.2 ⟨s', hs', rfl⟩⟩

/-- **What adding an action keeps holds of every compiled library**, if it does not depend on the
rules that the actions are for. -/
theorem invariant_of_compile {P : CompiledLibrary → Prop}
    (hempty : ∀ r threshold, P (empty r threshold))
    (haction : ∀ l a, P l → IsCompiled l.registry a → P (l.addAction a))
    (hclose : ∀ s : CompiledLibrary × CompiledRule, P s.1 → P (close s))
    {library : RuleLibrary} {threshold : Nat} {l : CompiledLibrary}
    (h : compile library threshold = .ok l) : P l := by
  have hrequire : ∀ (s : CompiledLibrary × CompiledRule) (e : String) s', P s.1 →
      addRequire s e = .ok s' → P s'.1 := by
    rintro ⟨l, rule⟩ e s' hl h
    obtain ⟨path, hpath, rfl⟩ := addRequire_eq_ok.1 h
    exact haction l _ hl (isCompiled_require hpath)
  have hextract : ∀ (s : CompiledLibrary × CompiledRule) (line : String) s', P s.1 →
      addExtract s line = .ok s' → P s'.1 := by
    rintro ⟨l, rule⟩ line s' hl h
    obtain ⟨e, path, -, hpath, ⟨value, -, rfl⟩ | ⟨hf, rfl⟩⟩ := addExtract_eq_ok.1 h
    · exact hl
    · exact haction l _ hl (isCompiled_extract hpath hf)
  obtain ⟨r, -, h⟩ := Outcome.bind_eq_ok_iff.1 h
  refine Fold.foldlM_invariant P (fun l x l' hl _ h => ?_) (hempty r threshold) h
  obtain ⟨-, s, s', hs, hs', rfl⟩ := addRule_eq_ok.1 h
  exact hclose s' (Fold.foldlM_invariant (fun s => P s.1) (fun s e s' hl _ h => hextract s e s' hl h)
    (Fold.foldlM_invariant (fun s => P s.1) (fun s e s' hl _ h => hrequire s e s' hl h) hl hs) hs')

/-- **The tables of a compiled library agree with its actions.** -/
theorem registered_of_compile {library : RuleLibrary} {threshold : Nat} {l : CompiledLibrary}
    (h : compile library threshold = .ok l) : Registered l :=
  invariant_of_compile registered_empty (fun _ _ hl ha => (hl.addAction ha).1)
    (fun _ hs => ⟨hs.enough, hs.nodup_rangesAt, hs.mem_rangesAt, hs.ascending,
      hs.mem_actionsFor, hs.knows, hs.compiled⟩) h

end AgentRules.CompiledLibrary
