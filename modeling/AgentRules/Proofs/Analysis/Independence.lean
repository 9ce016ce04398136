import AgentRules.Proofs.Analysis.Touched
import AgentRules.Proofs.Index.Endings

/-! # What an action finds by itself

Other rules of a library bring other keys, other ranges and an order of ranges with them. None of
this shows in what one action finds: a key of an action comes up whenever an announcement has it
(`flatMap_keysOf`), and of the runs of segments of a node at most one concerns the action. So
what is found depends on the tree and on the expression alone (`found_eq_of_path_eq`). -/

namespace AgentRules

open Text CompiledLibrary SyntaxTree Session

/-- All keys that an announcement can have. -/
def allKeys (path value : String) : List String :=
  lower path :: valueKey (lower path) value :: (heads value).map (headKey (lower path))

/-- What an expression finds at a notice, once for each of its keys. -/
def CompiledPath.sees (c : CompiledPath) (t : SyntaxTree) (x : Notice) : List String :=
  (allKeys x.path x.value).flatMap fun key =>
    if ∃ k ∈ c.keys, k.folded = key then
      ((c.chain.walk t x.node (some x.value)).map (·.2)).toList else []

/-! ### Keys that come up -/

section Keys
variable {l : CompiledLibrary} {id : Nat} {a : Action} {path value : String}
  (hl : Registered l) (ha : l.actions[id]? = some a) (hp : Plain (lower path))
include hl ha hp

theorem exists_known {s : Selector}
    (h : ∃ k ∈ a.path.keys, k.folded = IndexKey.folded ⟨lower path, s⟩) :
    ∃ s', s'.spelled = s.spelled ∧ l.Knows ⟨lower path, s'⟩ := by
  obtain ⟨k, hk, hkey⟩ := h
  obtain ⟨known, hmem, hfold, hknows⟩ := hl.knows id a ha k hk
  have hplain := (regular_of_isCompiled (hl.compiled id a ha)).plain known hmem
  obtain ⟨hpath, hspelled⟩ := folded_inj_lower hplain (by rwa [lower_plain hp]) (hfold.trans hkey)
  refine ⟨known.selector, hspelled, ?_⟩
  unfold Knows at hknows ⊢
  rwa [hpath] at hknows

theorem contains_valuePaths
    (h : ∃ k ∈ a.path.keys, k.folded = valueKey (lower path) value) :
    l.valuePaths.contains (lower path) = true := by
  obtain ⟨s, hs, hknows⟩ := exists_known hl ha hp h
  cases s with
  | path => cases hs
  | value text =>
    have hmem : lower (lower path) ∈ l.valuePaths := hknows
    rwa [lower_plain hp] at hmem
  | head text => exact absurd (List.cons.inj hs).1 (by decide)

theorem contains_headPaths {head : String}
    (h : ∃ k ∈ a.path.keys, k.folded = headKey (lower path) head) :
    l.headPaths.contains (lower path) = true := by
  obtain ⟨s, hs, hknows⟩ := exists_known hl ha hp h
  cases s with
  | path => cases hs
  | value text => exact absurd (List.cons.inj hs).1 (by decide)
  | head text =>
    have hmem : lower (lower path) ∈ l.headPaths := hknows
    rwa [lower_plain hp] at hmem

/-- **No key of an action is left out.** -/
theorem flatMap_keysOf {α : Type} (f : List α) :
    (keysOf l path value).flatMap (fun key => if ∃ k ∈ a.path.keys, k.folded = key then f else []) =
      (allKeys path value).flatMap fun key =>
        if ∃ k ∈ a.path.keys, k.folded = key then f else [] := by
  have skipped {b : Bool} {keys : List String}
      (h : b = false → ∀ key ∈ keys, ¬ ∃ k ∈ a.path.keys, k.folded = key) :
      (if b then keys else []).flatMap
          (fun key => if ∃ k ∈ a.path.keys, k.folded = key then f else []) =
        keys.flatMap fun key => if ∃ k ∈ a.path.keys, k.folded = key then f else [] := by
    cases b with
    | true => rfl
    | false =>
      refine (List.flatMap_eq_nil_iff.2 fun key hkey => ?_).symm
      exact if_neg (h rfl key hkey)
  have hvalue : l.valuePaths.contains (lower path) = false →
      ∀ key ∈ [valueKey (lower path) value], ¬ ∃ k ∈ a.path.keys, k.folded = key := by
    intro hnot key hkey h
    rw [List.mem_singleton.1 hkey] at h
    exact Bool.false_ne_true (hnot.symm.trans (contains_valuePaths hl ha hp h))
  have hhead : l.headPaths.contains (lower path) = false →
      ∀ key ∈ (heads value).map (headKey (lower path)), ¬ ∃ k ∈ a.path.keys, k.folded = key := by
    intro hnot key hkey h
    obtain ⟨head, -, rfl⟩ := List.mem_map.1 hkey
    exact Bool.false_ne_true (hnot.symm.trans (contains_headPaths hl ha hp h))
  unfold keysOf allKeys
  rw [List.flatMap_cons, List.flatMap_cons, List.flatMap_append, skipped hvalue, skipped hhead,
    ← List.flatMap_append, List.singleton_append]

end Keys

/-! ### Notices -/

section Notices
variable {l : CompiledLibrary} {t : SyntaxTree} {id : Nat} {a : Action}

theorem filterMap_foundIn (hl : Registered l) (ha : l.actions[id]? = some a) (x : Notice)
    (key : String) :
    ((l.actionsFor key).map fun i => (⟨key, x.value, x.node, i⟩ : Trial)).filterMap
        (foundIn l t id) =
      if ∃ k ∈ a.path.keys, k.folded = key then
        ((a.path.chain.walk t x.node (some x.value)).map (·.2)).toList else [] := by
  have hmem : (∃ k ∈ a.path.keys, k.folded = key) ↔ id ∈ l.actionsFor key := by
    rw [hl.mem_actionsFor, ha]
    simp
  have hfound (i : Nat) : foundIn l t id ⟨key, x.value, x.node, i⟩ =
      if i = id then (a.path.chain.walk t x.node (some x.value)).map (·.2) else none := by
    unfold foundIn
    by_cases hi : i = id
    · rw [if_pos hi, if_pos hi, finds, hi, ha, Option.bind_some, Option.map_map]
      rfl
    · rw [if_neg hi, if_neg hi]
  have hnodup : (l.actionsFor key).Nodup := (hl.ascending key).imp Nat.ne_of_lt
  rw [List.filterMap_map, List.filterMap_eq_flatMap_toList, if_congr hmem rfl rfl,
    Fold.flatMap_eq_single hnodup fun i _ hi => by rw [Function.comp_apply, hfound, if_neg hi]; rfl,
    Function.comp_apply, hfound, if_pos rfl]

/-- **What an action finds is what its expression sees at the notices.** -/
theorem found_eq_flatMap (hl : Registered l) (ht : WellFormed t) (ha : l.actions[id]? = some a) :
    l.found t id = (t.notices l.rangesAt).flatMap (a.path.sees t) := by
  unfold CompiledLibrary.found trials trialsOf
  rw [List.filterMap_flatMap]
  refine List.flatMap_congr fun x hx => ?_
  rw [List.filterMap_flatMap]
  simp only [filterMap_foundIn hl ha]
  exact flatMap_keysOf hl ha (plain_lower_path ht hx) _

/-- **An expression sees something only at its own paths.** -/
theorem path_of_sees {c : CompiledPath} (hc : c.Regular) {x : Notice} (hx : Plain (lower x.path))
    (h : c.sees t x ≠ []) : ∃ k ∈ c.keys, lower k.path = lower x.path := by
  obtain ⟨value, hvalue⟩ := List.exists_mem_of_ne_nil _ h
  obtain ⟨key, hkey, hvalue⟩ := List.mem_flatMap.1 hvalue
  -- each key that can come up is that of the path with a selector
  have hselector : ∃ s, key = IndexKey.folded ⟨lower x.path, s⟩ := by
    rcases List.mem_cons.1 hkey with rfl | hkey
    · exact ⟨.path, (lower_plain hx).symm⟩
    rcases List.mem_cons.1 hkey with rfl | hkey
    · exact ⟨.value x.value, rfl⟩
    · obtain ⟨head, -, rfl⟩ := List.mem_map.1 hkey
      exact ⟨.head head, rfl⟩
  obtain ⟨s, rfl⟩ := hselector
  split at hvalue
  · next hk =>
    obtain ⟨k, hk, hfold⟩ := hk
    obtain ⟨hpath, -⟩ := folded_inj_lower (hc.plain k hk) (by rwa [lower_plain hx]) hfold
    exact ⟨k, hk, hpath.trans (lower_plain hx)⟩
  · cases hvalue

theorem rangeNotices_eq (ranges : String → List WordRange) (path : String) (n : Nat) :
    t.rangeNotices ranges path n =
      (ranges path).flatMap fun r => t.rangeNotices (fun _ => [r]) path n := by
  unfold rangeNotices
  cases (t.kind n).splitting with
  | none => exact (List.flatMap_eq_nil_iff.2 fun _ _ => rfl).symm
  | some s =>
    dsimp only
    rw [List.filterMap_eq_flatMap_toList]
    refine List.flatMap_congr fun r _ => ?_
    cases h : s.range (t.text n) r.first r.last <;> simp [h]

/-- Of the runs of segments of a node, an expression sees the one that its paths end in. -/
theorem flatMap_rangeNotices (hl : Registered l) (ha : l.actions[id]? = some a)
    (hc : a.path.Regular) {r : WordRange}
    (hr : ∀ key ∈ a.path.keys, ∀ q s, lower key.path = q ++ WordRange.pathForm s →
      s = r ∧ ∃ p, lower p = q ∧ (p, r) ∈ a.path.ranges)
    {path : String} (hp : Plain path) (n : Nat) :
    (t.rangeNotices l.rangesAt path n).flatMap (a.path.sees t) =
      (t.rangeNotices (fun _ => [r]) path n).flatMap (a.path.sees t) := by
  have seen {s : WordRange} (h : (t.rangeNotices (fun _ => [s]) path n).flatMap (a.path.sees t) ≠
      []) : s = r ∧ r ∈ l.rangesAt path := by
    obtain ⟨value, hvalue⟩ := List.exists_mem_of_ne_nil _ h
    obtain ⟨x, hx, hvalue⟩ := List.mem_flatMap.1 hvalue
    obtain ⟨-, s', hs', hpath⟩ := mem_rangeNotices hx
    rw [List.mem_singleton.1 hs'] at hpath
    have hplain := plain_ranged hp s
    obtain ⟨k, hk, hkey⟩ := path_of_sees hc (by rwa [hpath, lower_plain hplain])
      (List.ne_nil_of_mem hvalue)
    rw [hpath, lower_plain hplain] at hkey
    obtain ⟨hs, p, hp, hmem⟩ := hr k hk path s hkey
    have hasked := hl.mem_rangesAt id a ha (p, r) hmem
    dsimp only at hasked
    rw [hp] at hasked
    exact ⟨hs, hasked⟩
  have hsingle := Fold.flatMap_eq_single (a := r) (hl.nodup_rangesAt path)
    (f := fun s => (t.rangeNotices (fun _ => [s]) path n).flatMap (a.path.sees t))
    fun s _ hs => by_contra fun h => hs (seen h).1
  rw [rangeNotices_eq, List.flatMap_assoc, hsingle]
  split
  · rfl
  · next hnot => exact by_contra fun h => hnot (seen (Ne.symm h)).2

/-- **The tree and the expression decide what is found.** Whatever else is in a library, an action
finds what its expression sees when one run of segments is announced wherever there is one. -/
theorem exists_found_eq {c : CompiledPath} (hc : c.Regular) (ht : WellFormed t) :
    ∃ r, ∀ (l : CompiledLibrary) (id : Nat) (a : Action), Registered l →
      l.actions[id]? = some a → a.path = c →
        l.found t id = (t.notices fun _ => [r]).flatMap (c.sees t) := by
  obtain ⟨r, hr⟩ := hc.ranged
  refine ⟨r, fun l id a hl ha hpath => ?_⟩
  subst hpath
  rw [found_eq_flatMap hl ht ha, notices, notices, List.flatMap_cons, List.flatMap_cons,
    List.flatMap_cons, List.flatMap_cons, List.flatMap_assoc, List.flatMap_assoc]
  congr 2
  refine List.flatMap_congr fun n _ => ?_
  unfold nodeNotices
  cases hpath : t.pathOf n with
  | none => rfl
  | some path =>
    have hplain := plain_of_named ht (ht.pathOf_eq_some.1 hpath)
    dsimp only
    rw [List.flatMap_cons, List.flatMap_cons, flatMap_rangeNotices hl ha hc hr hplain]

/-- **Actions of one expression find the same in any two libraries.** -/
theorem found_eq_of_path_eq {l' : CompiledLibrary} {id' : Nat} {a' : Action} (hl : Registered l)
    (hl' : Registered l') (ht : WellFormed t) (ha : l.actions[id]? = some a)
    (ha' : l'.actions[id']? = some a') (hpath : a'.path = a.path) :
    l'.found t id' = l.found t id := by
  obtain ⟨r, hr⟩ := exists_found_eq (regular_of_isCompiled (hl.compiled id a ha)) ht
  rw [hr l id a hl ha rfl, hr l' id' a' hl' ha' hpath]

end Notices

end AgentRules
