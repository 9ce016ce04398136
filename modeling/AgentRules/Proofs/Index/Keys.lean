import AgentRules.Analysis.Session
import AgentRules.Proofs.Text.LowerCase
import Mathlib.Data.List.Nodup

/-! # The keys of an announcement

An announcement is turned into the key of its path, the key of its value and the keys of the heads
of its value. Plain paths contain no mark, so the path can be read off any of these keys
(`pathPart_of_mem_keysOf`), and behind it the mark says which of the three kinds the key is of. The
heads of a value have lower-case forms of different lengths, so the keys of one announcement are
distinct (`nodup_keysOf`). -/

namespace AgentRules

open Text

/-! ### How keys are spelled -/

/-- What stands behind the path in a key. -/
def Selector.spelled : Selector → List Char
  | path => []
  | value text => '=' :: '"' :: (lowerFrom false text.toList ++ ['"'])
  | head text => '\x7b' :: '"' :: (lowerFrom false text.toList ++ ['"'])

/-- **A key is spelled as its path and what is asked of the value, in lower case.** -/
theorem toList_folded_lower (path : String) (selector : Selector) :
    (IndexKey.folded ⟨path, selector⟩).toList = (lower path).toList ++ selector.spelled := by
  have marked {mark : Char} (hmark : isBreak mark = true) (text : String) :
      lowerFrom false (path.toList ++ mark :: '"' :: (text.toList ++ ['"'])) =
        lowerFrom false path.toList ++ mark :: '"' :: (lowerFrom false text.toList ++ ['"']) := by
    rw [lowerFrom_append_break hmark, lowerFrom_break_cons rfl, lowerFrom_append_break rfl]
    rfl
  unfold IndexKey.folded lower
  rw [String.toList_ofList, String.toList_ofList]
  cases selector with
  | path => exact (List.append_nil _).symm
  | value text =>
    have h : (IndexKey.describe ⟨path, .value text⟩).toList =
        path.toList ++ '=' :: '"' :: (text.toList ++ ['"']) := by
      have h : IndexKey.describe ⟨path, .value text⟩ = path ++ "=\"" ++ text ++ "\"" := rfl
      simp [h]
    rw [h]
    exact marked rfl text
  | head text =>
    have h : (IndexKey.describe ⟨path, .head text⟩).toList =
        path.toList ++ '\x7b' :: '"' :: (text.toList ++ ['"']) := by
      simp [IndexKey.describe]
    rw [h]
    exact marked rfl text

section Spelling
variable {path : String} (hp : Plain path)
include hp

theorem toList_folded (selector : Selector) :
    (IndexKey.folded ⟨path, selector⟩).toList = path.toList ++ selector.spelled := by
  rw [toList_folded_lower, lower_plain hp]

theorem toList_valueKey (value : String) : (valueKey path value).toList =
    path.toList ++ '=' :: '"' :: (lowerFrom false value.toList ++ ['"']) :=
  toList_folded hp (.value value)

theorem toList_headKey (head : String) : (headKey path head).toList =
    path.toList ++ '\x7b' :: '"' :: (lowerFrom false head.toList ++ ['"']) :=
  toList_folded hp (.head head)

end Spelling

/-! ### Reading keys back -/

theorem not_isBreak_of_isPlain {c : Char} (h : isPlain c = true) : isBreak c = false := by
  cases hb : isBreak c with
  | false => rfl
  | true =>
    unfold isBreak at hb
    rw [decide_eq_true_eq] at hb
    simp only [List.mem_cons, List.not_mem_nil, or_false] at hb
    rcases hb with rfl | rfl | rfl <;> cases h

/-- The part of a key in front of the first mark. -/
def pathPart (key : String) : List Char := key.toList.takeWhile fun c => !isBreak c

theorem pathPart_eq {path key : String} (hp : Plain path) {r : List Char}
    (hkey : key.toList = path.toList ++ r) (hr : ∀ c ∈ r.head?, isBreak c = true) :
    pathPart key = path.toList := by
  have hall : ∀ c ∈ path.toList, (!isBreak c) = true := fun c hc => by
    rw [not_isBreak_of_isPlain (hp c hc)]
    rfl
  unfold pathPart
  rw [hkey, List.takeWhile_append_of_pos hall]
  cases r with
  | nil => simp
  | cons c r => rw [List.takeWhile_cons_of_neg (by simp [hr c rfl]), List.append_nil]

theorem isBreak_of_mem_spelled (s : Selector) : ∀ c ∈ s.spelled.head?, isBreak c = true := by
  intro c hc
  cases s with
  | path => cases hc
  | value text | head text =>
    cases hc
    rfl

theorem pathPart_folded {path : String} (hp : Plain (lower path)) (s : Selector) :
    pathPart (IndexKey.folded ⟨path, s⟩) = (lower path).toList :=
  pathPart_eq hp (toList_folded_lower path s) (isBreak_of_mem_spelled s)

/-- The path and what is asked of the value can be read off a key. -/
theorem folded_inj_lower {p q : String} {s s' : Selector} (hp : Plain (lower p))
    (hq : Plain (lower q)) (h : IndexKey.folded ⟨p, s⟩ = IndexKey.folded ⟨q, s'⟩) :
    lower p = lower q ∧ s.spelled = s'.spelled := by
  have hpath := congrArg pathPart h
  rw [pathPart_folded hp, pathPart_folded hq] at hpath
  have hl := congrArg String.toList h
  rw [toList_folded_lower, toList_folded_lower, hpath] at hl
  exact ⟨String.toList_inj.1 hpath, List.append_cancel_left hl⟩

theorem folded_inj {p q : String} {s s' : Selector} (hp : Plain p) (hq : Plain q)
    (h : IndexKey.folded ⟨p, s⟩ = IndexKey.folded ⟨q, s'⟩) : p = q ∧ s.spelled = s'.spelled := by
  have hinj := folded_inj_lower (by rwa [lower_plain hp]) (by rwa [lower_plain hq]) h
  rwa [lower_plain hp, lower_plain hq] at hinj

/-! ### The keys of one announcement -/

namespace Session
variable {l : CompiledLibrary} {path value : String}

theorem mem_keysOf {key : String} : key ∈ keysOf l path value ↔ key = lower path ∨
    (l.valuePaths.contains (lower path) = true ∧ key = valueKey (lower path) value) ∨
    (l.headPaths.contains (lower path) = true ∧
      ∃ h ∈ heads value, key = headKey (lower path) h) := by
  simp only [keysOf, List.mem_cons, List.mem_append]
  refine or_congr Iff.rfl (or_congr ?_ ?_)
  · by_cases hv : l.valuePaths.contains (lower path) = true <;> simp [hv]
  · by_cases hh : l.headPaths.contains (lower path) = true <;> simp [hh, eq_comm]

theorem folded_mem_keysOf (hp : Plain (lower path)) {s : Selector} :
    IndexKey.folded ⟨lower path, s⟩ ∈ keysOf l path value ↔ s.spelled = [] ∨
      (l.valuePaths.contains (lower path) = true ∧
        s.spelled = (Selector.value value).spelled) ∨
      (l.headPaths.contains (lower path) = true ∧
        ∃ h ∈ heads value, s.spelled = (Selector.head h).spelled) := by
  have spelled_eq {key : String} {r : List Char} (hkey : key.toList = (lower path).toList ++ r) :
      IndexKey.folded ⟨lower path, s⟩ = key ↔ s.spelled = r := by
    rw [← String.toList_inj, toList_folded hp, hkey, List.append_cancel_left_eq]
  rw [mem_keysOf, spelled_eq (List.append_nil _).symm, spelled_eq (toList_valueKey hp value)]
  simp only [spelled_eq (toList_headKey hp _)]
  rfl

/-- **Every key of an announcement starts with its path.** -/
theorem pathPart_of_mem_keysOf (hp : Plain (lower path)) {key : String}
    (h : key ∈ keysOf l path value) : pathPart key = (lower path).toList := by
  rcases mem_keysOf.1 h with rfl | ⟨-, rfl⟩ | ⟨-, head, -, rfl⟩
  · exact pathPart_eq hp (List.append_nil _).symm (by simp)
  · exact pathPart_eq hp (toList_valueKey hp value) (isBreak_of_mem_spelled (.value value))
  · exact pathPart_eq hp (toList_headKey hp head) (isBreak_of_mem_spelled (.head head))

theorem nodup_headKeys (hp : Plain path) (value : String) :
    ((heads value).map (headKey path)).Nodup := by
  unfold heads
  rw [List.map_map]
  refine List.Nodup.map_on ?_ List.nodup_range
  intro m hm n hn heq
  rw [List.mem_range] at hm hn
  -- the heads are told apart by the lengths of their lower-case forms
  have hkeys := congrArg String.toList heq
  simp only [Function.comp_apply, toList_headKey hp] at hkeys
  have hlen := congrArg List.length (List.append_cancel_left hkeys)
  simp only [List.length_cons, List.length_append, headOf, String.toList_ofList] at hlen
  have hvalue : value.toList.length = value.length := String.length_toList
  rcases Nat.lt_trichotomy m n with h | h | h
  · have := length_lowerFrom_lt value.toList (show m + 1 < n + 1 by omega) (by omega) false
    omega
  · exact h
  · have := length_lowerFrom_lt value.toList (show n + 1 < m + 1 by omega) (by omega) false
    omega

/-- **The keys of an announcement are distinct.** -/
theorem nodup_keysOf (hp : Plain (lower path)) : (keysOf l path value).Nodup := by
  have hpath : ∀ (c : Char) (r : List Char), (lower path).toList ≠ (lower path).toList ++ c :: r :=
    fun c r h => by simp at h
  have hmarks : ∀ h, valueKey (lower path) value ≠ headKey (lower path) h := fun h heq => by
    have heq := congrArg String.toList heq
    rw [toList_valueKey hp, toList_headKey hp] at heq
    exact absurd (List.cons.inj (List.append_cancel_left heq)).1 (by decide)
  unfold keysOf
  refine List.nodup_cons.2 ⟨?_, List.nodup_append'.2 ⟨?_, ?_, ?_⟩⟩
  · rw [List.mem_append, not_or]
    refine ⟨fun h => ?_, fun h => ?_⟩
    · split at h
      · have heq := congrArg String.toList (List.mem_singleton.1 h)
        rw [toList_valueKey hp] at heq
        exact hpath _ _ heq
      · cases h
    · split at h
      · obtain ⟨head, -, heq⟩ := List.mem_map.1 h
        have heq := congrArg String.toList heq
        rw [toList_headKey hp] at heq
        exact hpath _ _ heq.symm
      · cases h
  · split
    · exact List.nodup_singleton _
    · exact List.nodup_nil
  · split
    · exact nodup_headKeys hp value
    · exact List.nodup_nil
  · intro key hv hh
    split at hv
    · split at hh
      · obtain ⟨head, -, heq⟩ := List.mem_map.1 hh
        exact hmarks head ((List.mem_singleton.1 hv).symm.trans heq.symm)
      · cases hh
    · cases hv

end Session

end AgentRules
