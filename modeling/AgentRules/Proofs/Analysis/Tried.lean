import AgentRules.Proofs.Analysis.Findings
import AgentRules.Proofs.Index.Folding
import AgentRules.Proofs.Text.Boundaries

/-! # When an action is tried

An action whose expression folds has a key for each of its paths, all with one selector. It is tried
at a notice when the path of the notice is one of these and the value passes the selector
(`isTried_iff`). A key with a value or a head is made of an announcement only where the library
knows of such keys, and it is compared in lower case; for ASCII texts that is the comparison up to
ASCII case which the selector stands for. -/

namespace AgentRules

open Text CompiledLibrary SyntaxTree

/-! ### ASCII texts -/

theorem isAscii_text {t : SyntaxTree} (h : IsAscii t.source.toList) (n : Nat) :
    IsAscii (t.text n).toList := by
  unfold SyntaxTree.text
  cases t.nodes[n]? with
  | none =>
    intro c hc
    cases hc
  | some node =>
    dsimp only
    cases hs : slice? t.source node.start node.stop with
    | none =>
      intro c hc
      cases hc
    | some s =>
      obtain ⟨before, behind, hsource, -⟩ := exists_of_slice hs
      intro c hc
      rw [hsource] at h
      exact h c (List.mem_append_right _ (List.mem_append_left _ hc))

theorem lowerFrom_eq_fold {s : String} (h : IsAscii s.toList) :
    lowerFrom false s.toList = fold s := lowerFrom_ascii h false

theorem isAscii_headOf {s : String} (h : IsAscii s.toList) (k : Nat) :
    IsAscii (headOf s k).toList := by
  intro c hc
  rw [headOf, String.toList_ofList] at hc
  exact h c (List.mem_of_mem_take hc)

/-! ### The paths of an expression -/

theorem plain_spread {downs : List (IndexRange × String)} (hd : ∀ x ∈ downs, IsPlainName x.2)
    {p : String} (hp : p ∈ spread [NodePath.root] downs) : Plain p := by
  induction downs using List.reverseRec generalizing p with
  | nil =>
    rw [List.mem_singleton.1 hp]
    exact plain_root
  | append_singleton downs d ih =>
    obtain ⟨range, name⟩ := d
    rw [spread_append, List.mem_flatMap] at hp
    obtain ⟨q, hq, hp⟩ := hp
    obtain ⟨i, -, rfl⟩ := List.mem_map.1 hp
    refine plain_child (ih (fun x hx => hd x (List.mem_append_left _ hx)) hq) (fun c hc => ?_) i
    rcases hd (range, name) (by simp) c hc with h | rfl
    · exact isPlain_of_isLowerAlnum h
    · rfl

theorem spread_cases {downs : List (IndexRange × String)} {p : String}
    (hp : p ∈ spread [NodePath.root] downs) :
    p = NodePath.root ∨ ∃ q i, ∃ x ∈ downs, p = NodePath.child q i x.2 := by
  induction downs using List.reverseRec with
  | nil => exact .inl (List.mem_singleton.1 hp)
  | append_singleton downs d ih =>
    obtain ⟨range, name⟩ := d
    rw [spread_append, List.mem_flatMap] at hp
    obtain ⟨q, -, hp⟩ := hp
    obtain ⟨i, -, rfl⟩ := List.mem_map.1 hp
    exact .inr ⟨q, i, (range, name), by simp, rfl⟩

theorem not_mem_of_isPlainName {name : String} (h : IsPlainName name) {c : Char}
    (hc : isLowerAlnum c = false) (hu : c ≠ '_') : c ∉ name.toList := fun hm => by
  rcases h c hm with h | h
  · rw [h] at hc
    cases hc
  · exact hu h

/-! ### Keys and selectors -/

namespace Session

section Tried
variable {l : CompiledLibrary} {id : Nat} {a : Action} {d : Draft} {x : Notice}
variable (hl : Registered l) (ha : l.actions[id]? = some a)
  (hkeys : a.path.keys = d.paths.map fun p => ⟨p, d.selector⟩) (hplain : ∀ p ∈ d.paths, Plain p)
  (hx : Plain (lower x.path))
include hl ha hkeys hplain hx

theorem isTried_iff_mem : isTried l id x = true ↔ lower x.path ∈ d.paths ∧
    IndexKey.folded ⟨lower x.path, d.selector⟩ ∈ keysOf l x.path x.value := by
  unfold isTried
  simp only [List.any_eq_true, decide_eq_true_eq, hl.mem_actionsFor, ha, Option.some.injEq,
    exists_eq_left', hkeys, List.mem_map]
  constructor
  · rintro ⟨key, hkey, -, ⟨p, hp, rfl⟩, rfl⟩
    have hpath := pathPart_of_mem_keysOf hx hkey
    rw [pathPart_eq (hplain p hp) (toList_folded (hplain p hp) d.selector)
      (isBreak_of_mem_spelled _), String.toList_inj] at hpath
    rw [← hpath]
    rw [hpath]
    exact ⟨hpath ▸ hp, hpath ▸ hkey⟩
  · rintro ⟨hp, hkey⟩
    exact ⟨_, hkey, _, ⟨_, hp, rfl⟩, rfl⟩

theorem knows_path (hp : lower x.path ∈ d.paths) : l.Knows ⟨lower x.path, d.selector⟩ := by
  have hmem : (⟨lower x.path, d.selector⟩ : IndexKey) ∈ a.path.keys := by
    rw [hkeys]
    exact List.mem_map.2 ⟨_, hp, rfl⟩
  obtain ⟨known, hknown, hfold, hknows⟩ := hl.knows id a ha _ hmem
  rw [hkeys] at hknown
  obtain ⟨p, hpp, rfl⟩ := List.mem_map.1 hknown
  rwa [(folded_inj (hplain p hpp) hx hfold).1] at hknows

end Tried

/-- A text is a head of a value up to ASCII case if it is the head of its length. -/
theorem startsFold_iff {value text : String} : startsFold value text = true ↔
    text.length ≤ value.length ∧ fold (headOf value text.length) = fold text := by
  have hlen : (fold text).length = text.length := by
    rw [fold, List.length_map, String.length_toList]
  unfold startsFold
  rw [List.isPrefixOf_iff_prefix, fold_headOf, List.prefix_iff_eq_take, hlen]
  constructor
  · intro h
    have := congrArg List.length h
    rw [List.length_take, hlen, fold, List.length_map, String.length_toList] at this
    exact ⟨by omega, h.symm⟩
  · rintro ⟨-, h⟩
    exact h.symm

section Accepts
variable {l : CompiledLibrary} {path value : String} {s : Selector} (hp : Plain (lower path))
  (hs : s.IsFolded) (hv : IsAscii value.toList)
include hp hs hv

/-- An announcement has the key with a selector if its value passes it. -/
theorem folded_mem_keysOf_iff (hk : l.Knows ⟨lower path, s⟩) :
    IndexKey.folded ⟨lower path, s⟩ ∈ keysOf l path value ↔ s.accepts value = true := by
  have hlower : lower (lower path) = lower path := lower_plain hp
  rw [folded_mem_keysOf hp]
  cases s with
  | path => exact ⟨fun _ => rfl, fun _ => .inl rfl⟩
  | value text =>
    have hknown : l.valuePaths.contains (lower path) = true := by
      have hk : lower (lower path) ∈ l.valuePaths := hk
      rwa [hlower] at hk
    simp only [Selector.spelled, List.cons.injEq, hknown, List.append_cancel_right_eq,
      lowerFrom_eq_fold hs, lowerFrom_eq_fold hv, Selector.accepts, equalFold, beq_iff_eq]
    constructor
    · rintro (h | ⟨-, -, -, h⟩ | ⟨-, -, -, h, -⟩)
      · cases h
      · exact h.symm
      · exact absurd h (by decide)
    · intro h
      exact .inr (.inl ⟨True.intro, True.intro, True.intro, h.symm⟩)
  | head text =>
    obtain ⟨hascii, hne, hlen⟩ := hs
    have hknown : l.headPaths.contains (lower path) = true := by
      have hk : lower (lower path) ∈ l.headPaths := hk
      rwa [hlower] at hk
    have hpos : 0 < text.length := by
      rw [Nat.pos_iff_ne_zero, Ne, String.length_eq_zero_iff]
      exact hne
    simp only [Selector.spelled, List.cons.injEq, hknown, List.append_cancel_right_eq,
      Selector.accepts, startsFold_iff, heads, List.mem_map, List.mem_range,
      exists_exists_and_eq_and, lowerFrom_eq_fold (isAscii_headOf hv _), lowerFrom_eq_fold hascii]
    constructor
    · rintro (h | ⟨-, h, -⟩ | ⟨-, n, hn, -, -, h⟩)
      · cases h
      · exact absurd h (by decide)
      · -- texts with one fold are of one length
        have hsize := congrArg List.length h
        rw [fold_headOf, List.length_take, fold, fold, List.length_map, List.length_map,
          String.length_toList, String.length_toList] at hsize
        have hn1 : text.length = n + 1 := by omega
        rw [hn1]
        exact ⟨by omega, h.symm⟩
    · rintro ⟨hle, h⟩
      refine .inr (.inr ⟨True.intro, text.length - 1, by omega, True.intro, True.intro, ?_⟩)
      rw [Nat.sub_add_cancel hpos, h]

end Accepts

/-- **An action is tried where the path is one of its own and the value passes its selector.** -/
theorem isTried_iff {l : CompiledLibrary} {id : Nat} {a : Action} {d : Draft} {x : Notice}
    (hl : Registered l) (ha : l.actions[id]? = some a)
    (hkeys : a.path.keys = d.paths.map fun p => ⟨p, d.selector⟩)
    (hplain : ∀ p ∈ d.paths, Plain p) (hs : d.selector.IsFolded) (hx : Plain (lower x.path))
    (hv : IsAscii x.value.toList) :
    isTried l id x = true ↔ lower x.path ∈ d.paths ∧ d.selector.accepts x.value = true := by
  rw [isTried_iff_mem hl ha hkeys hplain hx]
  refine and_congr_right fun hp => ?_
  exact folded_mem_keysOf_iff hx hs hv (knows_path hl ha hkeys hplain hx hp)

end Session

end AgentRules
