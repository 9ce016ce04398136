import AgentRules.Proofs.Analysis.Independence
import AgentRules.Proofs.Analysis.Ranged
import AgentRules.Proofs.Index.Comparisons

/-! # No comparison is lost

Keys are compared in lower case, where a sigma looks at its neighbours and a letter can become two;
the tests of a chain compare up to ASCII case. The one is coarser than the other: texts that agree
up to ASCII case have one lower-case form, so a value that a comparison accepts has the key that the
comparison was compiled into (`valueKey_eq_folded`, `count_headKeys`). An action with a comparison is
therefore dispatched once wherever the comparison holds, and what is left of the comparison in its
chain holds too (`comparison_dispatched`). -/

namespace AgentRules

open Text CompiledLibrary Session

/-! ### Keys of a value that is accepted -/

theorem length_headOf (text : String) (k : Nat) : (headOf text k).length = min k text.length := by
  rw [headOf, String.length_ofList, List.length_take, String.length_toList]

theorem length_heads_le (value : String) : (heads value).length ≤ headLength := by
  rw [heads, List.length_map, List.length_range]
  exact Nat.min_le_right _ _

/-- A value that starts with a text has the head of the text among its own. -/
theorem exists_mem_heads {value text : String} (hne : text ≠ "")
    (h : startsFold value text = true) :
    ∃ head ∈ heads value, fold head = fold (headOf text headLength) := by
  obtain ⟨hle, hfold⟩ := startsFold_iff.1 (startsFold_headOf headLength h)
  have hpos : text.length ≠ 0 := fun h => hne (String.length_eq_zero_iff.1 h)
  have hlimit : headLength ≠ 0 := by decide
  have hlen := length_headOf text headLength
  obtain ⟨n, hn⟩ := Nat.exists_eq_add_one_of_ne_zero
    (show (headOf text headLength).length ≠ 0 by omega)
  rw [hn] at hle hfold hlen
  exact ⟨headOf value (n + 1), List.mem_map.2 ⟨n, List.mem_range.2 (by omega), rfl⟩, hfold⟩

section Keys
variable {p q value text : String} (hp : Plain (lower p)) (hpath : lower p = lower q)
include hp hpath

/-- **A value that equals a text has the key of the text.** -/
theorem valueKey_eq_folded (h : equalFold value text = true) :
    valueKey (lower p) value = IndexKey.folded ⟨q, .value text⟩ := by
  have hfold : fold value = fold text := by simpa [equalFold] using h
  rw [← String.toList_inj, toList_valueKey hp, toList_folded_lower, hpath, Selector.spelled,
    lowerFrom_eq_of_fold_eq hfold]

/-- **A value that starts with a text has its head's key**, and has it once. -/
theorem count_headKeys (hne : text ≠ "") (h : startsFold value text = true) :
    ((heads value).map (headKey (lower p))).count
      (IndexKey.folded ⟨q, .head (headOf text headLength)⟩) = 1 := by
  obtain ⟨head, hmem, hfold⟩ := exists_mem_heads hne h
  refine List.count_eq_one_of_mem (nodup_headKeys hp value) (List.mem_map.2 ⟨head, hmem, ?_⟩)
  rw [← String.toList_inj, toList_headKey hp, toList_folded_lower, hpath, Selector.spelled,
    lowerFrom_eq_of_fold_eq hfold]

end Keys

/-! ### Dispatching -/

theorem exists_selector {r : Registry} {a : Action} (h : IsCompiled r a) :
    ∃ s, ∀ key ∈ a.path.keys, key.selector = s := by
  obtain ⟨c, hc, hfixed, hsame, -⟩ := exists_compiled h
  obtain ⟨-, -, ⟨-, hsome, -⟩ | ⟨⟨d, -, hkeys, -⟩, -⟩⟩ := CompiledPath.compile_cases hc
  · rw [hfixed] at hsome
    cases hsome
  · refine ⟨d.selector, fun key hkey => ?_⟩
    rw [hsame, hkeys] at hkey
    obtain ⟨path, -, rfl⟩ := List.mem_map.1 hkey
    rfl

section Dispatch
variable {l : CompiledLibrary} {path value : String}

/-- **No announcement tries an action twice.** -/
theorem nodup_tried (hl : Registered l) (hp : Plain (lower path)) :
    ((keysOf l path value).flatMap l.actionsFor).Nodup := by
  refine List.nodup_flatMap.2 ⟨fun key _ => (hl.ascending key).imp Nat.ne_of_lt, ?_⟩
  refine (nodup_keysOf hp).imp_of_mem fun hk hk' hne id hid hid' => hne ?_
  obtain ⟨a, ha, x, hx, rfl⟩ := (hl.mem_actionsFor _ _).1 hid
  obtain ⟨b, hb, y, hy, rfl⟩ := (hl.mem_actionsFor _ _).1 hid'
  rw [ha] at hb
  cases hb
  -- two keys of the action at the path of the announcement are spelled alike
  have hcompiled := hl.compiled id a ha
  have hplain := (regular_of_isCompiled hcompiled).plain
  obtain ⟨s, hs⟩ := exists_selector hcompiled
  have hxp := pathPart_of_mem_keysOf hp hk
  have hyp := pathPart_of_mem_keysOf hp hk'
  rw [pathPart_folded (hplain x hx)] at hxp
  rw [pathPart_folded (hplain y hy)] at hyp
  rw [← String.toList_inj, toList_folded_lower, toList_folded_lower, hxp, hyp, hs x hx, hs y hy]

theorem count_tried (hl : Registered l) (hp : Plain (lower path)) {key : String} {id : Nat}
    (hkey : key ∈ keysOf l path value) (hid : id ∈ l.actionsFor key) :
    ((keysOf l path value).flatMap l.actionsFor).count id = 1 :=
  List.count_eq_one_of_mem (nodup_tried hl hp) (List.mem_flatMap.2 ⟨key, hkey, hid⟩)

end Dispatch

/-! ### Comparisons -/

section Comparison
variable {l : CompiledLibrary} {id : Nat} {a : Action} {c : Test} {key : IndexKey}
  {path value : String}
variable (hl : Registered l) (ha : l.actions[id]? = some a) (hkey : key ∈ a.path.keys)
  (hsel : key.selector = c.selector) (hpath : lower path = lower key.path)
  (haccepts : c.accepts value = true)
include hl ha hkey hsel hpath haccepts

theorem folded_mem_keysOf_of_accepts (hc : c.IsKeyed) : key.folded ∈ keysOf l path value := by
  have hp : Plain (lower path) := by
    rw [hpath]
    exact (regular_of_isCompiled (hl.compiled id a ha)).plain key hkey
  obtain ⟨q, s⟩ := key
  dsimp only at hsel hpath
  subst hsel
  rw [mem_keysOf]
  cases c with
  | equals text =>
    have hfolded := valueKey_eq_folded hp hpath haccepts
    exact .inr (.inl ⟨contains_valuePaths hl ha hp ⟨_, hkey, hfolded.symm⟩, hfolded.symm⟩)
  | startsWith text =>
    have hcount := count_headKeys hp hpath hc haccepts
    obtain ⟨head, hhead, hfolded⟩ :=
      List.mem_map.1 (List.count_pos_iff.1 (hcount ▸ Nat.one_pos))
    exact .inr (.inr ⟨contains_headPaths hl ha hp ⟨_, hkey, hfolded.symm⟩, head, hhead,
      hfolded.symm⟩)
  | differs | endsWith | contains | inSet | inTableByHead => exact False.elim hc

end Comparison

/-- **Every comparison that holds is dispatched.** Let an action first go down to some paths and then
compare the value with a text, and let an announcement come at one of these paths, whatever capitals
the two are written in. If the value equals the text up to ASCII case, its key is the one that the
action is registered for; if it starts with the text, exactly one of the keys of its few heads is.
Then that key is made of the announcement once, the action is dispatched once, and its walk passes
the test that a longer text leaves in the chain. -/
theorem comparison_dispatched {library : RuleLibrary} {threshold : Nat} {l : CompiledLibrary}
    {id : Nat} {a : Action} {e : Expr} {c : Test} {key : IndexKey} {path value : String}
    (hl : compile library threshold = .ok l) (ha : l.actions[id]? = some a)
    (he : Expr.parse a.path.expression = .ok e) (hc : comparison? e.stages = some c)
    (hkey : key ∈ a.path.keys) (hpath : lower path = lower key.path)
    (haccepts : c.accepts value = true) :
    key.selector = c.selector ∧
    (∀ text, c = .equals text → valueKey (lower path) value = key.folded) ∧
    (∀ text, c = .startsWith text → (heads value).length ≤ headLength ∧
      ((heads value).map (headKey (lower path))).count key.folded = 1) ∧
    (keysOf l path value).count key.folded = 1 ∧ id ∈ l.actionsFor key.folded ∧
    ((keysOf l path value).flatMap l.actionsFor).count id = 1 ∧
    ∃ marks rest, a.path.chain = marks ++ (c.left ++ rest) ∧ (∀ s ∈ marks, s = .isNull) ∧
      ∀ t node, a.path.chain.walk t node (some value) = Chain.walk t rest node (some value) := by
  have hreg := registered_of_compile hl
  have hcompiled := hreg.compiled id a ha
  have hkeyed := isKeyed_of_comparison? hc
  have hcompares := compares_of_isCompiled hcompiled he hc
  have hsel := hcompares.selector key hkey
  have hp : Plain (lower path) := by
    rw [hpath]
    exact (regular_of_isCompiled hcompiled).plain key hkey
  have hfolded : key.folded = IndexKey.folded ⟨key.path, c.selector⟩ := by rw [← hsel]
  have hmem := folded_mem_keysOf_of_accepts hreg ha hkey hsel hpath haccepts hkeyed
  have hid : id ∈ l.actionsFor key.folded := (hreg.mem_actionsFor _ _).2 ⟨a, ha, key, hkey, rfl⟩
  refine ⟨hsel, ?equals, ?starts, List.count_eq_one_of_mem (nodup_keysOf hp) hmem, hid,
    count_tried hreg hp hmem hid, ?chain⟩
  case equals =>
    rintro text rfl
    rw [hfolded]
    exact valueKey_eq_folded hp hpath haccepts
  case starts =>
    rintro text rfl
    rw [hfolded]
    exact ⟨length_heads_le value, count_headKeys hp hpath hkeyed haccepts⟩
  case chain =>
    obtain ⟨marks, rest, hchain, hmarks⟩ := hcompares.chain
    refine ⟨marks, rest, hchain, hmarks, fun t node => ?_⟩
    rw [hchain, Chain.walk_marks_append hmarks, Test.walk_left haccepts]

/-- A name that starts with a text. The first characters of the text end in a sigma that stands
inside of the whole text, and the letter before it becomes two in lower case. -/
def sigmaPath : String := "agent.(1)product.(1)name^=\"AİΣTANBUL\""

theorem parse_sigmaPath : Expr.parse sigmaPath = .ok (.path "agent"
    [.down (.single 1) "product", .down (.single 1) "name", .startsWith "AİΣTANBUL"]) := by
  decide +kernel

/-- The name is found: registered and announced heads end in the same small sigma. -/
theorem comparison_dispatched_sigma : ∃ l a rest, compile (extractRule sigmaPath) 0 = .ok l ∧
    l.actions[0]? = some a ∧ (⟨"agent.(1)product.(1)name", .head "AİΣ"⟩ : IndexKey) ∈ a.path.keys ∧
    startsFold "aİΣtanbul 5" "AİΣTANBUL" = true ∧
    ((heads "aİΣtanbul 5").map (headKey "agent.(1)product.(1)name")).count
      "agent.(1)product.(1)name\x7b\"ai\u0307ς\"" = 1 ∧
    ((keysOf l "agent.(1)product.(1)name" "aİΣtanbul 5").flatMap l.actionsFor).count 0 = 1 ∧
    ∀ t node, a.path.chain.walk t node (some "aİΣtanbul 5") =
      Chain.walk t rest node (some "aİΣtanbul 5") := by
  have hok : (compile (extractRule sigmaPath) 0).isOk = true := by decide +kernel
  obtain ⟨l, hl⟩ := Outcome.exists_eq_ok hok
  obtain ⟨a, ha, hexpression, -⟩ :=
    action_extractRule (by decide +kernel) parse_sigmaPath (by nofun) hl
  have hkey : (⟨"agent.(1)product.(1)name", .head "AİΣ"⟩ : IndexKey) ∈ a.path.keys := by
    obtain ⟨p, hp, -, hkeys, -⟩ := exists_compiled ((registered_of_compile hl).compiled 0 a ha)
    rw [hexpression] at hp
    unfold CompiledPath.compile at hp
    rw [parse_sigmaPath] at hp
    cases hp
    rw [hkeys]
    decide +kernel
  have he : Expr.parse a.path.expression = _ := hexpression ▸ parse_sigmaPath
  have haccepts : Test.accepts "aİΣtanbul 5" (.startsWith "AİΣTANBUL") = true := by decide +kernel
  have hpath : lower "agent.(1)product.(1)name" = "agent.(1)product.(1)name" := by decide +kernel
  have hfolded : IndexKey.folded ⟨"agent.(1)product.(1)name", .head "AİΣ"⟩ =
      "agent.(1)product.(1)name\x7b\"ai\u0307ς\"" := by decide +kernel
  obtain ⟨-, -, hstarts, -, -, hcount, marks, rest, -, -, hwalk⟩ :=
    comparison_dispatched hl ha he rfl hkey (Eq.refl (lower "agent.(1)product.(1)name")) haccepts
  obtain ⟨-, hone⟩ := hstarts _ rfl
  rw [hpath, hfolded] at hone
  exact ⟨l, a, rest, hl, ha, hkey, haccepts, hone, hcount, hwalk⟩

end AgentRules
