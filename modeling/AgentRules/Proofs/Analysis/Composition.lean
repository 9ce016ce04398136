import AgentRules.Proofs.Analysis.Candidates
import AgentRules.Proofs.Analysis.Independence
import AgentRules.Proofs.Analysis.Merging
import AgentRules.Proofs.Index.Joined

/-! # Lists of rules do not interfere

What a report says follows from what the actions find (`exists_report`). In two libraries one behind
the other every action finds what it finds by itself, so the rules of each are touched, hold and
offer their values as they do by themselves. What is counted is added up, and what is written is
merged (`analyze_append`). -/

namespace AgentRules

open CompiledLibrary

/-! ### Reports by what is found -/

namespace CompiledLibrary

def holding (l : CompiledLibrary) (t : SyntaxTree) : List CompiledRule :=
  l.rules.toList.filter fun rule => l.HoldsOf t rule

def offered (l : CompiledLibrary) (t : SyntaxTree) : List Offer :=
  (l.holding t).flatMap (l.offersOf t)

def touchedRules (l : CompiledLibrary) (t : SyntaxTree) : List Nat :=
  (List.range l.rules.size).filter (l.touches t)

end CompiledLibrary

/-- **The report of an analysis**, by what is found. -/
theorem exists_report {l : CompiledLibrary} {t : SyntaxTree} (hl : Registered l)
    (hlinked : Linked l) (ht : SyntaxTree.WellFormed t) (keep : Bool) :
    ∃ r, l.analyze t keep = .ok r ∧
      r.touched = (l.touchedRules t).length ∧ r.fired = (l.holding t).length ∧
      r.matched.count = ∑ id ∈ Finset.range l.actions.size, (l.found t id).length ∧
      r.writes = (Collector.collect (l.offered t)).flush := by
  obtain ⟨s, hs⟩ := exists_run hl ht keep
  have hfired : s.fired l = l.holding t := Session.fired_eq hlinked hs
  have hoffered : (s.fired l).flatMap (s.offers l) = l.offered t := by
    rw [hfired, offered]
    refine List.flatMap_congr fun rule hrule => ?_
    obtain ⟨i, hi⟩ := Session.exists_getElem?_rules (List.mem_of_mem_filter hrule)
    exact Session.offers_eq hs (hlinked.extracts i rule hi)
  obtain ⟨hnodup, htouched⟩ := Session.touched_analysis hs hlinked.rule_lt
  refine ⟨s.finish l, ?_, ?_, congrArg List.length hfired, Session.count_analysis hs, ?_⟩
  · rw [analyze_eq l t ht, hs]
    rfl
  · refine List.Perm.length_eq ((List.perm_ext_iff_of_nodup hnodup ?_).2 fun i => ?_)
    · exact List.nodup_range.filter _
    · rw [htouched, touchedRules, List.mem_filter, List.mem_range, iff_and_self, touches_iff]
      rintro ⟨id, a, ha, rfl, -⟩
      exact hlinked.rule_lt id a ha
  · rw [← hoffered]
    rfl

/-! ### A library within another one -/

/-- The actions of a library are in another one, behind `n` others and for rules behind `m`
others. -/
def CompiledLibrary.Within (n m : Nat) (l' l : CompiledLibrary) : Prop :=
  ∀ (id : Nat) a, l'.actions[id]? = some a → l.actions[n + id]? = some (a.shift m)

section Within
variable {n m : Nat} {l' l : CompiledLibrary} {t : SyntaxTree} (h : Within n m l' l)
include h

theorem isNull_within {id : Nat} {a : Action} (ha : l'.actions[id]? = some a) :
    l.isNull (n + id) = l'.isNull id := by
  rw [isNull, isNull, h id a ha, ha]
  rfl

theorem roleOf_within {id : Nat} {a : Action} (ha : l'.actions[id]? = some a) :
    l.roleOf (n + id) = l'.roleOf id := by
  rw [roleOf, roleOf, h id a ha, ha]
  rfl

variable (hl' : Registered l') (hl : Registered l) (ht : SyntaxTree.WellFormed t)
include hl' hl ht

/-- **An action within another library finds what it finds by itself.** -/
theorem found_within {id : Nat} {a : Action} (ha : l'.actions[id]? = some a) :
    l.found t (n + id) = l'.found t id :=
  found_eq_of_path_eq hl' hl ht ha (h id a ha) rfl

variable (hlinked : Linked l')
include hlinked

theorem holdsOf_within {i : Nat} {rule : CompiledRule} (hrule : l'.rules[i]? = some rule) :
    l.HoldsOf t (rule.shift n) ↔ l'.HoldsOf t rule := by
  unfold HoldsOf CompiledRule.shift
  rw [List.forall_mem_map, List.forall_mem_map]
  refine and_congr (forall₂_congr fun id hid => ?_) (forall₂_congr fun id hid => ?_)
  · obtain ⟨a, -, ha, -⟩ := hlinked.requires i rule hrule id hid
    rw [found_within h hl' hl ht ha, isNull_within h ha]
  · obtain ⟨a, -, -, ha, -⟩ := hlinked.extracts i rule hrule id hid
    rw [found_within h hl' hl ht ha]

theorem offersOf_within {i : Nat} {rule : CompiledRule} (hrule : l'.rules[i]? = some rule) :
    l.offersOf t (rule.shift n) = l'.offersOf t rule := by
  unfold offersOf CompiledRule.shift
  rw [List.filterMap_map]
  congr 1
  refine List.filterMap_congr fun id hid => ?_
  obtain ⟨a, -, -, ha, -⟩ := hlinked.extracts i rule hrule id hid
  rw [Function.comp_apply, found_within h hl' hl ht ha, roleOf_within h ha]

/-- **The rules within another library that hold** are those that hold by themselves. -/
theorem holding_within :
    (l'.rules.toList.map (CompiledRule.shift n)).filter (fun rule => l.HoldsOf t rule) =
      (l'.holding t).map (CompiledRule.shift n) := by
  rw [List.filter_map, holding]
  congr 1
  refine List.filter_congr fun rule hrule => ?_
  obtain ⟨i, hi⟩ := Session.exists_getElem?_rules hrule
  rw [Function.comp_apply, Bool.eq_iff_iff, decide_eq_true_eq, decide_eq_true_eq]
  exact holdsOf_within h hl' hl ht hlinked hi

/-- **Rules within another library offer** what they offer by themselves. -/
theorem offered_within :
    ((l'.holding t).map (CompiledRule.shift n)).flatMap (l.offersOf t) = l'.offered t := by
  rw [List.flatMap_map, offered]
  refine List.flatMap_congr fun rule hrule => ?_
  obtain ⟨i, hi⟩ := Session.exists_getElem?_rules (List.mem_of_mem_filter hrule)
  exact offersOf_within h hl' hl ht hlinked hi

end Within

/-! ### Two libraries -/

theorem within_self (l : CompiledLibrary) : Within 0 0 l l := by
  intro id a ha
  rw [Nat.zero_add, ha, Action.shift, Nat.zero_add]

namespace CompiledLibrary.Joined
variable {l₁ l₂ l : CompiledLibrary} {t : SyntaxTree} (h : Joined l₁ l₂ l)
include h

theorem within_left : Within 0 0 l₁ l := by
  intro id a ha
  rw [Nat.zero_add, h.getElem?_left (Array.getElem?_eq_some_iff.1 ha).1]
  rw [ha, Action.shift, Nat.zero_add]

theorem within_right : Within l₁.actions.size l₁.rules.size l₂ l := by
  intro id a ha
  rw [h.getElem?_right, ha]
  rfl

theorem action_cases {id : Nat} {a : Action} (ha : l.actions[id]? = some a) :
    l₁.actions[id]? = some a ∨
      ∃ i b, id = l₁.actions.size + i ∧ l₂.actions[i]? = some b ∧ a = b.shift l₁.rules.size := by
  rcases Nat.lt_or_ge id l₁.actions.size with hid | hid
  · exact .inl (by rw [← h.getElem?_left hid, ha])
  · obtain ⟨i, rfl⟩ := Nat.exists_eq_add_of_le hid
    rw [h.getElem?_right, Option.map_eq_some_iff] at ha
    obtain ⟨b, hb, rfl⟩ := ha
    exact .inr ⟨i, b, rfl, hb, rfl⟩

section Found
variable (hl : Registered l) (ht : SyntaxTree.WellFormed t)
include hl ht

theorem found_left (hl₁ : Registered l₁) {id : Nat} {a : Action} (ha : l₁.actions[id]? = some a) :
    l.found t id = l₁.found t id := by
  have hfound := found_within h.within_left hl₁ hl ht ha
  rwa [Nat.zero_add] at hfound

theorem touches_left (hl₁ : Registered l₁) {i : Nat} (hi : i < l₁.rules.size) :
    l.touches t i = l₁.touches t i := by
  rw [Bool.eq_iff_iff, touches_iff, touches_iff]
  constructor
  · rintro ⟨id, a, ha, rfl, hfound⟩
    rcases h.action_cases ha with ha₁ | ⟨i, b, -, -, rfl⟩
    · rw [h.found_left hl ht hl₁ ha₁] at hfound
      exact ⟨id, a, ha₁, rfl, hfound⟩
    · exact absurd hi (Nat.not_lt.2 (Nat.le_add_right _ _))
  · rintro ⟨id, a, ha, rfl, hfound⟩
    rw [← h.found_left hl ht hl₁ ha] at hfound
    refine ⟨id, a, ?_, rfl, hfound⟩
    rw [h.getElem?_left (Array.getElem?_eq_some_iff.1 ha).1, ha]

theorem touches_right (hlinked : Linked l₁) (hl₂ : Registered l₂) (i : Nat) :
    l.touches t (l₁.rules.size + i) = l₂.touches t i := by
  rw [Bool.eq_iff_iff, touches_iff, touches_iff]
  constructor
  · rintro ⟨id, a, ha, hrule, hfound⟩
    rcases h.action_cases ha with ha₁ | ⟨j, b, rfl, hb, rfl⟩
    · have hlt := hlinked.rule_lt id a ha₁
      omega
    · rw [found_within h.within_right hl₂ hl ht hb] at hfound
      exact ⟨j, b, hb, Nat.add_left_cancel hrule, hfound⟩
  · rintro ⟨id, a, ha, rfl, hfound⟩
    rw [← found_within h.within_right hl₂ hl ht ha] at hfound
    exact ⟨_, _, h.within_right id a ha, rfl, hfound⟩

end Found

section Whole
variable (hl₁ : Registered l₁) (hl₂ : Registered l₂) (hl : Registered l)
  (ht : SyntaxTree.WellFormed t)
include hl₁ hl₂ hl ht

/-- **The rules that are touched** are those of either library. -/
theorem touchedRules_eq (hlinked : Linked l₁) : l.touchedRules t =
    l₁.touchedRules t ++ (l₂.touchedRules t).map (l₁.rules.size + ·) := by
  rw [touchedRules, h.size_rules, List.range_add, List.filter_append, List.filter_map]
  congr 1
  · exact List.filter_congr fun i hi => h.touches_left hl ht hl₁ (List.mem_range.1 hi)
  · exact congrArg _ (List.filter_congr fun i _ => h.touches_right hl ht hlinked hl₂ i)

/-- **The rules that hold** are those of either library. -/
theorem holding_eq (hlinked₁ : Linked l₁) (hlinked₂ : Linked l₂) (hlinked : Linked l) :
    (l.holding t).map (CompiledRule.shift 0) = (l₁.holding t).map (CompiledRule.shift 0) ++
      (l₂.holding t).map (CompiledRule.shift l₁.actions.size) := by
  rw [← holding_within (within_self l) hl hl ht hlinked,
    ← holding_within h.within_left hl₁ hl ht hlinked₁,
    ← holding_within h.within_right hl₂ hl ht hlinked₂, h.rules, List.filter_append]

/-- **What is offered** is what either library offers. -/
theorem offered_eq (hlinked₁ : Linked l₁) (hlinked₂ : Linked l₂) (hlinked : Linked l) :
    l.offered t = l₁.offered t ++ l₂.offered t := by
  rw [← offered_within (within_self l) hl hl ht hlinked,
    ← offered_within h.within_left hl₁ hl ht hlinked₁,
    ← offered_within h.within_right hl₂ hl ht hlinked₂,
    h.holding_eq hl₁ hl₂ hl ht hlinked₁ hlinked₂ hlinked, List.flatMap_append]

/-- **What is found** is what the actions of either library find. -/
theorem count_found : ∑ id ∈ Finset.range l.actions.size, (l.found t id).length =
    (∑ id ∈ Finset.range l₁.actions.size, (l₁.found t id).length) +
      ∑ id ∈ Finset.range l₂.actions.size, (l₂.found t id).length := by
  rw [h.size_actions, Finset.sum_range_add]
  congr 1
  · refine Finset.sum_congr rfl fun id hid => ?_
    rw [h.found_left hl ht hl₁ (Array.getElem?_eq_getElem (Finset.mem_range.1 hid))]
  · refine Finset.sum_congr rfl fun id hid => ?_
    rw [found_within h.within_right hl₂ hl ht (Array.getElem?_eq_getElem (Finset.mem_range.1 hid))]

end Whole

end CompiledLibrary.Joined

/-- **Lists of rules do not interfere.** With the same tables and sets, a list of rules followed by
another one is compiled if both are. Then all three libraries analyse every tree; the rules touched,
the rules fired and the matches of the whole are those of both parts together, and of each field the
surer value is written, which is that of the first part if both are as sure. -/
theorem analyze_append (lookups : List TableDefinition) (sets : List SetDefinition)
    (rules₁ rules₂ : List Rule) (threshold₁ threshold₂ threshold : Nat) :
    ((∃ l, compile ⟨lookups, sets, rules₁ ++ rules₂⟩ threshold = .ok l) ↔
      (∃ l₁, compile ⟨lookups, sets, rules₁⟩ threshold₁ = .ok l₁) ∧
        ∃ l₂, compile ⟨lookups, sets, rules₂⟩ threshold₂ = .ok l₂) ∧
    ∀ l₁ l₂ l, compile ⟨lookups, sets, rules₁⟩ threshold₁ = .ok l₁ →
      compile ⟨lookups, sets, rules₂⟩ threshold₂ = .ok l₂ →
      compile ⟨lookups, sets, rules₁ ++ rules₂⟩ threshold = .ok l →
      ∀ t, SyntaxTree.Built t → ∀ keep, ∃ r₁ r₂ r,
        l₁.analyze t keep = .ok r₁ ∧ l₂.analyze t keep = .ok r₂ ∧ l.analyze t keep = .ok r ∧
        r.touched = r₁.touched + r₂.touched ∧ r.fired = r₁.fired + r₂.fired ∧
        r.matched.count = r₁.matched.count + r₂.matched.count ∧
        r.writes = Collector.mergeWrites r₁.writes r₂.writes := by
  have hagree := agree_compile lookups sets rules₁ rules₂ threshold₁ threshold₂ threshold
  refine ⟨?_, fun l₁ l₂ l h₁ h₂ h t hbuilt keep => ?_⟩
  · rw [← hagree.exists_ok_iff]
    constructor
    · rintro ⟨p, hp⟩
      obtain ⟨l₁, h₁, hp⟩ := Outcome.bind_eq_ok_iff.1 hp
      obtain ⟨l₂, h₂, -⟩ := Outcome.bind_eq_ok_iff.1 hp
      exact ⟨⟨l₁, h₁⟩, l₂, h₂⟩
    · rintro ⟨⟨l₁, h₁⟩, l₂, h₂⟩
      exact ⟨(l₁, l₂), by rw [h₁, h₂]; rfl⟩
  · rw [h₁, h₂, h] at hagree
    have hjoined : Joined l₁ l₂ l := hagree
    have hl₁ := registered_of_compile h₁
    have hl₂ := registered_of_compile h₂
    have hl := registered_of_compile h
    have hlinked₁ := linked_of_compile h₁
    have hlinked₂ := linked_of_compile h₂
    have hlinked := linked_of_compile h
    have ht := hbuilt.wellFormed
    obtain ⟨r₁, hr₁, htouched₁, hfired₁, hcount₁, hwrites₁⟩ := exists_report hl₁ hlinked₁ ht keep
    obtain ⟨r₂, hr₂, htouched₂, hfired₂, hcount₂, hwrites₂⟩ := exists_report hl₂ hlinked₂ ht keep
    obtain ⟨r, hr, htouched, hfired, hcount, hwrites⟩ := exists_report hl hlinked ht keep
    have hholding := congrArg List.length
      (hjoined.holding_eq hl₁ hl₂ hl ht hlinked₁ hlinked₂ hlinked)
    rw [List.length_append, List.length_map, List.length_map, List.length_map] at hholding
    refine ⟨r₁, r₂, r, hr₁, hr₂, hr, ?_, ?_, ?_, ?_⟩
    · rw [htouched, htouched₁, htouched₂, hjoined.touchedRules_eq hl₁ hl₂ hl ht hlinked₁,
        List.length_append, List.length_map]
    · rw [hfired, hfired₁, hfired₂, hholding]
    · rw [hcount, hcount₁, hcount₂, hjoined.count_found hl₁ hl₂ hl ht]
    · rw [hwrites, hwrites₁, hwrites₂, hjoined.offered_eq hl₁ hl₂ hl ht hlinked₁ hlinked₂ hlinked,
        Collector.flush_append]

/-- Rules that say more of a kind, as sure and surer than rules before them, and of the name. -/
def laterRules : List Rule :=
  [⟨{}, ["IsNull[agent.product.comments]"], ["Kind:1:\"later\""]⟩,
    ⟨{}, ["agent.product.name"], ["Kind:4:\"sure\"", "Name:3:agent.product.version"]⟩]

/-- Mixed rules followed by later ones are compiled, and the nested tree is analysed with all of
them as with both lists by themselves. -/
theorem analyze_append_mixed : ∃ l₁ l₂ l,
    compile ⟨[], [], mixedRules.rules⟩ 0 = .ok l₁ ∧ compile ⟨[], [], laterRules⟩ 0 = .ok l₂ ∧
    compile ⟨[], [], mixedRules.rules ++ laterRules⟩ 0 = .ok l ∧
    SyntaxTree.Built SyntaxTree.nested ∧ ∃ r₁ r₂ r,
      l₁.analyze SyntaxTree.nested true = .ok r₁ ∧ l₂.analyze SyntaxTree.nested true = .ok r₂ ∧
      l.analyze SyntaxTree.nested true = .ok r ∧
      r.touched = r₁.touched + r₂.touched ∧ r.fired = r₁.fired + r₂.fired ∧
      r.matched.count = r₁.matched.count + r₂.matched.count ∧
      r.writes = Collector.mergeWrites r₁.writes r₂.writes := by
  have hok : (compile ⟨[], [], laterRules⟩ 0).isOk = true := by decide +kernel
  obtain ⟨l₁, h₁⟩ := exists_compile_mixed
  obtain ⟨l₂, h₂⟩ := Outcome.exists_eq_ok hok
  obtain ⟨hiff, happend⟩ := analyze_append [] [] mixedRules.rules laterRules 0 0 0
  obtain ⟨l, h⟩ := hiff.2 ⟨⟨l₁, h₁⟩, l₂, h₂⟩
  exact ⟨l₁, l₂, l, h₁, h₂, h, SyntaxTree.built_nested,
    happend l₁ l₂ l h₁ h₂ h _ SyntaxTree.built_nested true⟩

end AgentRules
