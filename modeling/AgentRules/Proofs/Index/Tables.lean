import AgentRules.Proofs.Index.Acceptance
import Mathlib.Algebra.GroupWithZero.Nat

/-! # What stands in the tables

Whatever stands in a table of a compiled library comes from one of its actions: a path with a value
or a head is that of a key that asks for it (`mem_paths_iff`), a range at a path is one that an
expression takes there (`mem_rangesAt_iff`), and every number of an action under a key takes one
place (`sum_actionsFor`). The other direction is in the agreement of tables
and actions that registering keeps (`Registered`). -/

namespace AgentRules

open Text

/-- What a key can ask for besides its path. -/
inductive Demand
  /-- A whole value. -/
  | value
  /-- The first characters of a value. -/
  | head

/-- What a selector asks for. -/
def Selector.demand? : Selector → Option Demand
  | .path => none
  | .value _ => some .value
  | .head _ => some .head

namespace CompiledLibrary

/-- The paths at which there are keys that ask for it. -/
def paths (l : CompiledLibrary) : Demand → Std.HashSet String
  | .value => l.valuePaths
  | .head => l.headPaths

/-- An action has a key at the path, in lower case, that asks for it. -/
def HasKeyAt (l : CompiledLibrary) (demand : Demand) (path : String) : Prop :=
  ∃ (id : Nat) (a : Action), l.actions[id]? = some a ∧
    ∃ key ∈ a.path.keys, key.selector.demand? = some demand ∧ lower key.path = path

/-- The expression of an action takes the range of the segments at the path, in lower case. -/
def HasRangeAt (l : CompiledLibrary) (path : String) (range : WordRange) : Prop :=
  ∃ (id : Nat) (a : Action), l.actions[id]? = some a ∧
    ∃ p, (p, range) ∈ a.path.ranges ∧ lower p = path

/-- The capacity counts the numbers under any keys that leave no number out. -/
def Exact (l : CompiledLibrary) : Prop :=
  ∀ ks : List String, ks.Nodup → (∀ k, l.actionsFor k ≠ [] → k ∈ ks) →
    (ks.flatMap l.actionsFor).length = l.capacity

/-- Everything in the tables comes from an action. -/
structure Sourced (l : CompiledLibrary) : Prop where
  index : ∀ k ∈ l.index, l.actionsFor k ≠ []
  exact : l.Exact
  paths : ∀ demand, ∀ p ∈ l.paths demand, l.HasKeyAt demand p
  rangesAt : ∀ path, ∀ r ∈ l.rangesAt path, l.HasRangeAt path r

/-! ### Adding a key -/

section AddKey
variable {l : CompiledLibrary} {id : Nat} {key : IndexKey}

theorem index_addKey (h : ∀ k ∈ l.index, l.actionsFor k ≠ []) :
    ∀ k ∈ (l.addKey id key).index, (l.addKey id key).actionsFor k ≠ [] := by
  by_cases hhas : l.HasKey id key
  · rwa [addKey_of_hasKey hhas]
  · intro k hk
    rw [actionsFor_addKey hhas]
    by_cases heq : k = key.folded
    · rw [if_pos heq]
      exact List.append_ne_nil_of_right_ne_nil _ (List.cons_ne_nil _ _)
    · rw [addKey_eq hhas] at hk
      rcases Std.HashMap.mem_insert.1 hk with hk | hk
      · exact absurd (beq_iff_eq.1 hk).symm heq
      · exact List.append_ne_nil_of_left_ne_nil (h k hk) _

/-- **One key more takes exactly one place more**: keys that leave no number out have the new key
among them, once. -/
theorem exact_addKey (hl : l.Exact) : (l.addKey id key).Exact := by
  by_cases h : l.HasKey id key
  · rwa [addKey_of_hasKey h]
  · intro ks hks hall
    have hcap : (l.addKey id key).capacity = l.capacity + 1 := by rw [addKey_eq h]
    have hactions : (l.addKey id key).actionsFor = fun k =>
        l.actionsFor k ++ if k = key.folded then [id] else [] := funext (actionsFor_addKey h)
    rw [hactions] at hall
    have hnew : key.folded ∈ ks := by
      refine hall _ (List.append_ne_nil_of_right_ne_nil _ ?_)
      rw [if_pos rfl]
      exact List.cons_ne_nil _ _
    have hold : ∀ k, l.actionsFor k ≠ [] → k ∈ ks := fun k hk =>
      hall k (List.append_ne_nil_of_left_ne_nil hk _)
    rw [hcap, hactions, length_flatMap_append, hl ks hks hold, List.count_eq_one_of_mem hks hnew]

theorem mem_paths_addKey {demand : Demand} {p : String}
    (hp : p ∈ (l.addKey id key).paths demand) :
    p ∈ l.paths demand ∨ key.selector.demand? = some demand ∧ lower key.path = p := by
  by_cases h : l.HasKey id key
  · rw [addKey_of_hasKey h] at hp
    exact .inl hp
  · have hinsert {ps : Std.HashSet String} (hp : p ∈ ps.insert (lower key.path)) :
        p ∈ ps ∨ lower key.path = p :=
      (Std.HashSet.mem_insert.1 hp).symm.imp_right beq_iff_eq.1
    rw [addKey_eq h] at hp
    cases hs : key.selector <;> rw [hs] at hp <;> cases demand
    case value.value => exact (hinsert hp).imp_right fun h => ⟨rfl, h⟩
    case head.head => exact (hinsert hp).imp_right fun h => ⟨rfl, h⟩
    all_goals exact .inl hp

end AddKey

/-! ### Adding an action -/

/-- What keys add to the tables is theirs. -/
structure KeysSourced (l l' : CompiledLibrary) (keys : List IndexKey) : Prop where
  index : (∀ k ∈ l.index, l.actionsFor k ≠ []) → ∀ k ∈ l'.index, l'.actionsFor k ≠ []
  exact : l.Exact → l'.Exact
  paths : ∀ demand, ∀ p ∈ l'.paths demand, p ∈ l.paths demand ∨
    ∃ key ∈ keys, key.selector.demand? = some demand ∧ lower key.path = p

theorem keysSourced_foldl (l : CompiledLibrary) (id : Nat) (keys : List IndexKey) :
    KeysSourced l (keys.foldl (addKey id) l) keys := by
  induction keys generalizing l with
  | nil => exact ⟨fun h => h, fun h => h, fun _ _ h => .inl h⟩
  | cons key keys ih =>
    obtain ⟨hindex, hexact, hpaths⟩ := ih (l.addKey id key)
    refine ⟨fun h => hindex (index_addKey h), fun h => hexact (exact_addKey h),
      fun demand p hp => ?_⟩
    rcases hpaths demand p hp with hp | ⟨k, hk, hkind⟩
    · exact (mem_paths_addKey hp).imp_right fun h => ⟨key, List.mem_cons_self, h⟩
    · exact .inr ⟨k, List.mem_cons_of_mem _ hk, hkind⟩

theorem rangesAt_addRange {l : CompiledLibrary} {range : String × WordRange} {path : String}
    {r : WordRange} (hr : r ∈ (l.addRange range).rangesAt path) :
    r ∈ l.rangesAt path ∨ range.2 = r ∧ lower range.1 = path := by
  unfold addRange at hr
  dsimp only at hr
  split at hr
  · exact .inl hr
  · unfold rangesAt at hr ⊢
    rw [Std.HashMap.getD_insert] at hr
    split at hr
    · next heq =>
      rw [← beq_iff_eq.1 heq]
      rcases List.mem_append.1 hr with hr | hr
      · exact .inl hr
      · exact .inr ⟨(List.mem_singleton.1 hr).symm, rfl⟩
    · exact .inl hr

theorem rangesAt_addRanges {ranges : List (String × WordRange)} {l : CompiledLibrary}
    {path : String} {r : WordRange} (hr : r ∈ (ranges.foldl addRange l).rangesAt path) :
    r ∈ l.rangesAt path ∨ ∃ p, (p, r) ∈ ranges ∧ lower p = path := by
  induction ranges generalizing l with
  | nil => exact .inl hr
  | cons range ranges ih =>
    rcases ih hr with hr | ⟨p, hp, hpath⟩
    · refine (rangesAt_addRange hr).imp_right ?_
      rintro ⟨rfl, hpath⟩
      exact ⟨range.1, List.mem_cons_self, hpath⟩
    · exact .inr ⟨p, List.mem_cons_of_mem _ hp, hpath⟩

/-- **Adding an action adds nothing that is not its own.** -/
theorem Sourced.addAction {l : CompiledLibrary} (hl : Sourced l) (a : Action) :
    Sourced (l.addAction a) := by
  obtain ⟨hindex, hexact, hpaths⟩ := keysSourced_foldl l l.actions.size a.path.keys
  have heq := addAction_eq l a
  have hnew : (l.addAction a).actions[l.actions.size]? = some a := by
    rw [getElem?_addAction, if_pos rfl]
  have hold (id : Nat) (b : Action) (hb : l.actions[id]? = some b) :
      (l.addAction a).actions[id]? = some b := by
    rw [getElem?_addAction, if_neg (Nat.ne_of_lt (Array.getElem?_eq_some_iff.1 hb).1), hb]
  refine ⟨?_, ?_, fun demand p hp => ?_, fun path r hr => ?_⟩
  · rw [heq]
    exact hindex hl.index
  · rw [heq]
    exact hexact hl.exact
  · have hsame : (l.addAction a).paths demand =
        (a.path.keys.foldl (addKey l.actions.size) l).paths demand := by
      rw [heq]
      cases demand <;> rfl
    rw [hsame] at hp
    rcases hpaths demand p hp with hp | h
    · obtain ⟨id, b, hb, h⟩ := hl.paths demand p hp
      exact ⟨id, b, hold id b hb, h⟩
    · exact ⟨_, a, hnew, h⟩
  · rcases rangesAt_addRanges hr with hr | h
    · rw [rangesAt_addKeys] at hr
      obtain ⟨id, b, hb, h⟩ := hl.rangesAt path r hr
      exact ⟨id, b, hold id b hb, h⟩
    · exact ⟨_, a, hnew, h⟩

/-! ### Compiled libraries -/

theorem sourced_empty (r : Registry) (threshold : Nat) : Sourced (empty r threshold) := by
  refine ⟨by simp [empty], fun ks _ _ => ?_, fun demand p hp => ?_, ?_⟩
  · simp [actionsFor, empty]
  · cases demand <;> exact absurd hp Std.HashSet.not_mem_empty
  · simp [rangesAt, empty]

theorem isPathText_of_isCompiled {r : Registry} {a : Action} (ha : IsCompiled r a) {key : IndexKey}
    (hkey : key ∈ a.path.keys) : IsPathText key.path := by
  obtain ⟨c, hc, hfixed, hkeys, -⟩ := exists_compiled ha
  obtain ⟨e, he, ⟨-, hsome, -⟩ | ⟨⟨d, hd, hpaths, -⟩, -⟩⟩ := CompiledPath.compile_cases hc
  · rw [hfixed] at hsome
    cases hsome
  · rw [hkeys, hpaths] at hkey
    obtain ⟨p, hp, rfl⟩ := List.mem_map.1 hkey
    exact (Draft.Regular.visit (Expr.readable_of_parse he).wellFormed hd).isPathText p hp

section Compiled
variable {library : RuleLibrary} {threshold : Nat} {l : CompiledLibrary}
  (h : compile library threshold = .ok l)
include h

/-- **Everything in the tables of a compiled library comes from an action.** -/
theorem sourced_of_compile : Sourced l :=
  invariant_of_compile sourced_empty (fun _ a hl _ => hl.addAction a)
    (fun _ hs => ⟨hs.index, hs.exact,
      fun demand p hp => hs.paths demand p (by cases demand <;> exact hp), hs.rangesAt⟩) h

theorem mem_index_iff (k : String) : k ∈ l.index ↔ l.actionsFor k ≠ [] := by
  refine ⟨(sourced_of_compile h).index k, fun hk => ?_⟩
  by_contra hnot
  refine hk ?_
  rw [actionsFor, Std.HashMap.getD_eq_fallback hnot]

/-- The keys of an action are all different, so each of them is known itself. -/
theorem knows_of_compile {id : Nat} {a : Action} (ha : l.actions[id]? = some a) {key : IndexKey}
    (hkey : key ∈ a.path.keys) : l.Knows key := by
  have hreg := registered_of_compile h
  obtain ⟨c, hc, hfixed, hkeys, -⟩ := exists_compiled (hreg.compiled id a ha)
  have hnodup := (CompiledPath.ready_of_compile hc hfixed).nodup
  rw [← hkeys] at hnodup
  obtain ⟨known, hknown, hfold, hknows⟩ := hreg.knows id a ha key hkey
  rwa [List.inj_on_of_nodup_map hnodup hknown hkey hfold] at hknows

/-- **The paths with a value or a head** are those of the keys that ask for it. -/
theorem mem_paths_iff (demand : Demand) (p : String) :
    p ∈ l.paths demand ↔ l.HasKeyAt demand p := by
  refine ⟨(sourced_of_compile h).paths demand p, ?_⟩
  rintro ⟨id, a, ha, key, hkey, hdemand, rfl⟩
  have hknows := knows_of_compile h ha hkey
  unfold Knows at hknows
  cases hs : key.selector <;> rw [hs] at hdemand hknows <;> cases hdemand <;> exact hknows

/-- **The ranges at a path** are those that expressions take there. -/
theorem mem_rangesAt_iff (path : String) (r : WordRange) :
    r ∈ l.rangesAt path ↔ l.HasRangeAt path r := by
  refine ⟨(sourced_of_compile h).rangesAt path r, ?_⟩
  rintro ⟨id, a, ha, p, hp, rfl⟩
  exact (registered_of_compile h).mem_rangesAt id a ha (p, r) hp

/-- **A key that ends in a range has it announced**, at the path in front of the range. -/
theorem mem_rangesAt_of_ranged {id : Nat} {a : Action} (ha : l.actions[id]? = some a)
    {key : IndexKey} (hkey : key ∈ a.path.keys) {q : String} {r : WordRange}
    (hq : key.path = q ++ r.pathForm) : r ∈ l.rangesAt (lower q) := by
  have hreg := registered_of_compile h
  have htext : IsPathText (q ++ r.pathForm) := by
    rw [← hq]
    exact isPathText_of_isCompiled (hreg.compiled id a ha) hkey
  have hlower : lower key.path = lower q ++ r.pathForm := by
    rw [hq, htext.of_append_left.lower_append (isPathText_of_plain (plain_pathForm r)),
      lower_plain (plain_pathForm r)]
  obtain ⟨r', hranged⟩ := (regular_of_isCompiled (hreg.compiled id a ha)).ranged
  obtain ⟨rfl, p, hp, hmem⟩ := hranged key hkey _ _ hlower
  rw [← hp]
  exact hreg.mem_rangesAt id a ha (p, r) hmem

/-- **The capacity is the sum of the numbers of actions under the keys.** -/
theorem sum_actionsFor : (l.keys.map fun k => (l.actionsFor k).length).sum = l.capacity := by
  have hperm : l.keys.Perm l.index.keys := List.mergeSort_perm _ _
  rw [← List.length_flatMap]
  refine (sourced_of_compile h).exact l.keys (hperm.nodup_iff.2 Std.HashMap.nodup_keys) ?_
  intro k hk
  exact hperm.mem_iff.2 (Std.HashMap.mem_keys.2 ((mem_index_iff h k).2 hk))

end Compiled

end CompiledLibrary

end AgentRules
