import AgentRules.Proofs.Analysis.Capacity
import AgentRules.Proofs.Chain.Walks

/-! # What an action finds

An action that requires counts the trials in which its chain can be walked; one that extracts keeps
the value of the first of them. Both can be read off the list of trials (`run_hits`, `run_valueOf`),
and from there off the notices: an action is tried at a notice if one of the keys of the notice is
one of its own (`findSome?_trials`). -/

namespace AgentRules

open CompiledLibrary Chain

namespace Session
variable {l : CompiledLibrary} {t : SyntaxTree} {s s' : Session} {id : Nat} {a : Action}

/-- What an action finds in a trial, if it is the one that is tried. -/
def foundIn (l : CompiledLibrary) (t : SyntaxTree) (id : Nat) (x : Trial) : Option String :=
  if x.id = id then (finds l t x).map (·.2.2) else none

/-! ### One trial -/

theorem attempt_eq_ok {x : Trial} (h : attempt l t s x = .ok s') :
    (finds l t x = none ∧ s' = s) ∨ ∃ action node value m, finds l t x = some (action, node, value) ∧
      s' = { s.record x.id action value with matched := m } := by
  rw [attempt_eq] at h
  cases hf : finds l t x with
  | none =>
    rw [hf] at h
    cases h
    exact .inl ⟨rfl, rfl⟩
  | some found =>
    obtain ⟨action, node, value⟩ := found
    rw [hf] at h
    obtain ⟨m, -, h⟩ := Outcome.map_eq_ok_iff.1 h
    exact .inr ⟨action, node, value, m, rfl, h.symm⟩

theorem action_of_finds {x : Trial} {action : Action} {found : Nat × String}
    (h : finds l t x = some (action, found)) : l.actions[x.id]? = some action := by
  obtain ⟨b, hb, h⟩ := Option.bind_eq_some_iff.1 h
  obtain ⟨found', -, h⟩ := Option.map_eq_some_iff.1 h
  cases h
  exact hb

theorem hits_record (s : Session) (id : Nat) (a : Action) (value : String) :
    (s.record id a value).hits = match a.role with
      | .require _ => s.hits.modify id (· + 1)
      | .extract _ _ => s.hits := by
  unfold record touch note
  cases a.role <;> dsimp only <;> split <;> rfl

theorem extracted_record (s : Session) (id : Nat) (a : Action) (value : String) :
    (s.record id a value).extracted = match a.role with
      | .require _ => s.extracted
      | .extract _ _ => s.extracted.modify id fun v => v.or (some value) := by
  unfold record touch note
  cases a.role <;> dsimp only <;> split <;> rfl

theorem hits_attempt {x : Trial} {isNull : Bool} (ha : l.actions[id]? = some a)
    (hrole : a.role = .require isNull) (hsize : id < s.hits.size)
    (h : attempt l t s x = .ok s') : id < s'.hits.size ∧
      (0 < s'.hits[id]?.getD 0 ↔ 0 < s.hits[id]?.getD 0 ∨ (foundIn l t id x).isSome = true) := by
  unfold foundIn
  rcases attempt_eq_ok h with ⟨hf, rfl⟩ | ⟨action, node, value, m, hf, rfl⟩
  · rw [hf, Option.map_none, ite_self]
    simp [hsize]
  · have hx := action_of_finds hf
    rw [hf, Option.map_some]
    show id < (s.record x.id action value).hits.size ∧
      (0 < (s.record x.id action value).hits[id]?.getD 0 ↔ _)
    rw [hits_record]
    by_cases hid : x.id = id
    · rw [hid, ha] at hx
      cases hx
      rw [hrole, hid, if_pos rfl]
      dsimp only
      rw [Array.size_modify, Array.getElem?_modify, if_pos rfl]
      simp [hsize]
    · rw [if_neg hid]
      cases action.role with
      | require b =>
        dsimp only
        rw [Array.size_modify, Array.getElem?_modify, if_neg hid]
        simp [hsize]
      | extract f c => simp [hsize]

theorem valueOf_attempt {x : Trial} {field : String} {confidence : Int}
    (ha : l.actions[id]? = some a) (hrole : a.role = .extract field confidence)
    (hsize : id < s.extracted.size) (h : attempt l t s x = .ok s') : id < s'.extracted.size ∧
      s'.valueOf id = (s.valueOf id).or (foundIn l t id x) := by
  unfold foundIn valueOf
  rcases attempt_eq_ok h with ⟨hf, rfl⟩ | ⟨action, node, value, m, hf, rfl⟩
  · rw [hf, Option.map_none, ite_self, Option.or_none]
    exact ⟨hsize, rfl⟩
  · have hx := action_of_finds hf
    rw [hf, Option.map_some]
    show id < (s.record x.id action value).extracted.size ∧
      (s.record x.id action value).extracted[id]?.join = _
    rw [extracted_record]
    by_cases hid : x.id = id
    · rw [hid, ha] at hx
      cases hx
      rw [hrole, hid, if_pos rfl]
      dsimp only
      rw [Array.size_modify, Array.getElem?_modify, if_pos rfl]
      simp [hsize]
    · rw [if_neg hid, Option.or_none]
      cases action.role with
      | require b => exact ⟨hsize, rfl⟩
      | extract f c =>
        dsimp only
        rw [Array.size_modify, Array.getElem?_modify, if_neg hid]
        exact ⟨hsize, rfl⟩

/-! ### All trials -/

/-- **An action that requires has a hit if some trial finds something.** -/
theorem run_hits {xs : List Trial} {isNull : Bool} (ha : l.actions[id]? = some a)
    (hrole : a.role = .require isNull) (hsize : id < s.hits.size)
    (h : xs.foldlM (attempt l t) s = .ok s') :
    0 < s'.hits[id]?.getD 0 ↔
      0 < s.hits[id]?.getD 0 ∨ (xs.findSome? (foundIn l t id)).isSome = true := by
  induction xs generalizing s with
  | nil =>
    cases h
    simp
  | cons x xs ih =>
    rw [List.foldlM_cons] at h
    obtain ⟨s₁, h₁, h⟩ := Outcome.bind_eq_ok_iff.1 h
    obtain ⟨hsize₁, hhits⟩ := hits_attempt ha hrole hsize h₁
    rw [ih hsize₁ h, hhits, List.findSome?_cons, or_assoc]
    cases foundIn l t id x <;> simp

/-- **An action that extracts holds what the first trial finds that finds something.** -/
theorem run_valueOf {xs : List Trial} {field : String} {confidence : Int}
    (ha : l.actions[id]? = some a) (hrole : a.role = .extract field confidence)
    (hsize : id < s.extracted.size) (h : xs.foldlM (attempt l t) s = .ok s') :
    s'.valueOf id = (s.valueOf id).or (xs.findSome? (foundIn l t id)) := by
  induction xs generalizing s with
  | nil =>
    cases h
    rw [List.findSome?_nil, Option.or_none]
  | cons x xs ih =>
    rw [List.foldlM_cons] at h
    obtain ⟨s₁, h₁, h⟩ := Outcome.bind_eq_ok_iff.1 h
    obtain ⟨hsize₁, hvalue⟩ := valueOf_attempt ha hrole hsize h₁
    rw [ih hsize₁ h, hvalue, List.findSome?_cons, Option.or_assoc]
    cases foundIn l t id x <;> rfl

/-! ### From trials to notices -/

/-- Whether a notice has a key of an action. -/
def isTried (l : CompiledLibrary) (id : Nat) (x : Notice) : Bool :=
  (keysOf l x.path x.value).any fun key => id ∈ l.actionsFor key

theorem findSome?_ite {α β : Type} (p : α → Bool) (r : Option β) (xs : List α) :
    xs.findSome? (fun a => if p a then r else none) = if xs.any p then r else none := by
  induction xs with
  | nil => rfl
  | cons a xs ih =>
    rw [List.findSome?_cons, ih, List.any_cons]
    cases p a <;> cases r <;> simp

/-- **An action is tried at the notices that have one of its keys.** -/
theorem findSome?_trials (ha : l.actions[id]? = some a) :
    (l.trials t).findSome? (foundIn l t id) = (t.notices l.rangesAt).findSome? fun x =>
      if isTried l id x then (a.path.chain.walk t x.node (some x.value)).map (·.2) else none := by
  unfold trials trialsOf
  rw [findSome?_flatMap]
  refine findSome?_congr fun x _ => ?_
  have hkey (key : String) : ((l.actionsFor key).map fun i =>
        (⟨key, x.value, x.node, i⟩ : Trial)).findSome? (foundIn l t id) =
      if decide (id ∈ l.actionsFor key) then
        (a.path.chain.walk t x.node (some x.value)).map (·.2) else none := by
    rw [List.findSome?_map]
    have hi (i : Nat) : (foundIn l t id ∘ fun i => (⟨key, x.value, x.node, i⟩ : Trial)) i =
        if decide (i = id) then
          (a.path.chain.walk t x.node (some x.value)).map (·.2) else none := by
      simp only [Function.comp_apply, foundIn, decide_eq_true_eq]
      by_cases h : i = id
      · rw [if_pos h, if_pos h, h, finds, ha, Option.bind_some, Option.map_map]
        rfl
      · rw [if_neg h, if_neg h]
    rw [findSome?_congr fun i _ => hi i, findSome?_ite]
    congr 1
    simp [List.any_eq_true]
  rw [findSome?_flatMap]
  simp only [hkey]
  exact findSome?_ite _ _ _

end Session

end AgentRules
