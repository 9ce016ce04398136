import AgentRules.Fault
import AgentRules.Proofs.Fold
import Mathlib.Data.List.Dedup
import Std.Data.HashMap

/-! # Entering definitions under their names

Definitions are entered into a map one after the other (`enter`), each under its name, and a name
that is taken is refused. What comes of a list of them is known in both cases: a map that holds each
definition under its name and nothing else (`entered_of_foldlM`), or the fault of a definition, or a
name that is there twice (`fault_of_foldlM`). So all of them are entered just if the names are
distinct and nothing is wrong with the definitions (`exists_foldlM_enter_iff`). -/

namespace AgentRules

/-! ### Maps -/

section Maps
variable {α : Type} {m : Std.HashMap String α}

theorem getElem?_insert_of_new {key : String} (hnew : key ∉ m) {value : α} {k : String} {x : α} :
    (m.insert key value)[k]? = some x ↔ m[k]? = some x ∨ k = key ∧ x = value := by
  rw [Std.HashMap.getElem?_insert]
  by_cases hk : key = k
  · rw [if_pos (beq_iff_eq.2 hk), ← hk, Std.HashMap.getElem?_eq_none hnew, Option.some.injEq]
    simp [eq_comm]
  · rw [if_neg (by simpa using hk), or_iff_left]
    rintro ⟨rfl, -⟩
    exact hk rfl

theorem exists_getElem?_iff {key : String} : (∃ x, m[key]? = some x) ↔ key ∈ m := by
  rw [Std.HashMap.mem_iff_isSome_getElem?, Option.isSome_iff_exists]

/-- A map has as many entries as there are different keys in a list of all its keys. -/
theorem size_eq_of_mem_iff {keys : List String} (h : ∀ key, key ∈ m ↔ key ∈ keys) :
    m.size = keys.dedup.length := by
  rw [← Std.HashMap.length_keys]
  refine List.Perm.length_eq ((List.perm_ext_iff_of_nodup Std.HashMap.nodup_keys
    (List.nodup_dedup keys)).2 fun key => ?_)
  rw [Std.HashMap.mem_keys, h, List.mem_dedup]

end Maps

/-! ### Entering -/

section Enter
variable {δ α : Type} {name : δ → String} {make : δ → Except Fault α} {taken : String → Fault}
  {m : Std.HashMap String α} {ds : List δ}

/-- The map with what is made of a definition under its name, if that is new. -/
def enter (name : δ → String) (make : δ → Except Fault α) (taken : String → Fault)
    (m : Std.HashMap String α) (d : δ) : Except Fault (Std.HashMap String α) := do
  let x ← make d
  if m.contains (name d) then .error (taken (name d)) else .ok (m.insert (name d) x)

theorem enter_of_make {d : δ} {x : α} (h : make d = .ok x) :
    enter name make taken m d =
      if name d ∈ m then .error (taken (name d)) else .ok (m.insert (name d) x) := by
  rw [enter, h]
  rfl

theorem enter_eq_ok_iff {d : δ} {m' : Std.HashMap String α} :
    enter name make taken m d = .ok m' ↔
      ∃ x, make d = .ok x ∧ name d ∉ m ∧ m' = m.insert (name d) x := by
  constructor
  · intro h
    obtain ⟨x, hx, -⟩ := Outcome.bind_eq_ok_iff.1 h
    rw [enter_of_make hx] at h
    split at h
    · cases h
    · next hnew => exact ⟨x, hx, hnew, (Except.ok.inj h).symm⟩
  · rintro ⟨x, hx, hnew, rfl⟩
    rw [enter_of_make hx, if_neg hnew]

/-- A definition is refused for what is wrong with it, or for its name. -/
theorem fault_of_enter {d : δ} {f : Fault} (h : enter name make taken m d = .error f) :
    make d = .error f ∨ name d ∈ m ∧ f = taken (name d) := by
  cases hd : make d with
  | error g =>
    rw [enter, hd] at h
    exact .inl (congrArg Except.error (Except.error.inj h))
  | ok x =>
    rw [enter_of_make hd] at h
    split at h
    · next htaken => exact .inr ⟨htaken, (Except.error.inj h).symm⟩
    · cases h

/-- The map holds what is made of each definition under its name, and nothing else. -/
structure Entered (name : δ → String) (make : δ → Except Fault α) (ds : List δ)
    (m : Std.HashMap String α) : Prop where
  nodup : (ds.map name).Nodup
  made : ∀ d ∈ ds, ∃ x, make d = .ok x
  get? : ∀ n x, m[n]? = some x ↔ ∃ d ∈ ds, name d = n ∧ make d = .ok x

theorem entered_empty : Entered name make [] ∅ :=
  ⟨List.nodup_nil, by simp, by simp⟩

theorem Entered.mem_iff (h : Entered name make ds m) {n : String} : n ∈ m ↔ n ∈ ds.map name := by
  rw [← exists_getElem?_iff, List.mem_map]
  constructor
  · rintro ⟨x, hx⟩
    obtain ⟨d, hd, hn, -⟩ := (h.get? n x).1 hx
    exact ⟨d, hd, hn⟩
  · rintro ⟨d, hd, hn⟩
    obtain ⟨x, hx⟩ := h.made d hd
    exact ⟨x, (h.get? n x).2 ⟨d, hd, hn, hx⟩⟩

theorem Entered.enter {m' : Std.HashMap String α} {d : δ} (h : Entered name make ds m)
    (hd : AgentRules.enter name make taken m d = .ok m') : Entered name make (ds ++ [d]) m' := by
  obtain ⟨x, hx, hnew, rfl⟩ := enter_eq_ok_iff.1 hd
  have hmem {e : δ} : e ∈ ds ++ [d] ↔ e ∈ ds ∨ e = d := by simp
  refine ⟨?_, fun e he => ?_, fun n y => ?_⟩
  · rw [List.map_append]
    refine h.nodup.append (List.nodup_singleton _) (List.disjoint_singleton.2 ?_)
    rwa [← h.mem_iff]
  · rcases hmem.1 he with he | rfl
    · exact h.made e he
    · exact ⟨x, hx⟩
  · rw [getElem?_insert_of_new hnew, h.get?]
    constructor
    · rintro (⟨e, he, hn, hy⟩ | ⟨rfl, rfl⟩)
      · exact ⟨e, hmem.2 (.inl he), hn, hy⟩
      · exact ⟨d, hmem.2 (.inr rfl), rfl, hx⟩
    · rintro ⟨e, he, hn, hy⟩
      rcases hmem.1 he with he | rfl
      · exact .inl ⟨e, he, hn, hy⟩
      · rw [hx] at hy
        exact .inr ⟨hn.symm, (Except.ok.inj hy).symm⟩

/-- **Definitions that are entered stand under their names.** -/
theorem entered_of_foldlM (h : ds.foldlM (enter name make taken) ∅ = .ok m) :
    Entered name make ds m := by
  have hall := Fold.foldlM_prefix (Entered name make) (fun _ _ _ _ hdone hd => hdone.enter hd)
    entered_empty h
  rwa [List.nil_append] at hall

/-- **Definitions are refused** for what is wrong with one of them, or for a name that is there
twice. -/
theorem fault_of_foldlM {f : Fault} (h : ds.foldlM (enter name make taken) ∅ = .error f) :
    (∃ d ∈ ds, make d = .error f) ∨ ¬ (ds.map name).Nodup ∧ ∃ n, f = taken n := by
  obtain ⟨done, d, rest, m, rfl, hdone, hd⟩ := Fold.exists_of_foldlM_error h
  rcases fault_of_enter hd with hmake | ⟨htaken, rfl⟩
  · exact .inl ⟨d, List.mem_append_right _ List.mem_cons_self, hmake⟩
  · refine .inr ⟨fun hnodup => ?_, _, rfl⟩
    rw [(entered_of_foldlM hdone).mem_iff] at htaken
    rw [List.map_append, List.map_cons, List.nodup_middle, List.nodup_cons] at hnodup
    exact hnodup.1 (List.mem_append_left _ htaken)

/-- **All definitions are entered** just if their names are distinct and each of them is sound. -/
theorem exists_foldlM_enter_iff :
    (∃ m, ds.foldlM (enter name make taken) ∅ = .ok m) ↔
      (ds.map name).Nodup ∧ ∀ d ∈ ds, ∃ x, make d = .ok x := by
  constructor
  · rintro ⟨m, hm⟩
    exact ⟨(entered_of_foldlM hm).nodup, (entered_of_foldlM hm).made⟩
  · rintro ⟨hnodup, hmade⟩
    cases hfold : ds.foldlM (enter name make taken) ∅ with
    | ok m => exact ⟨m, rfl⟩
    | error f =>
      rcases fault_of_foldlM hfold with ⟨d, hd, hfault⟩ | ⟨hnot, -⟩
      · obtain ⟨x, hx⟩ := hmade d hd
        rw [hx] at hfault
        cases hfault
      · exact absurd hnodup hnot

end Enter

end AgentRules
