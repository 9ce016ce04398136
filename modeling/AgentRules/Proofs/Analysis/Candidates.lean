import AgentRules.Proofs.Analysis.Capacity
import AgentRules.Proofs.Analysis.Touched
import AgentRules.Proofs.Index.Rules
import Mathlib.Data.List.Sort

/-! # Evaluating candidates is evaluating all rules

An analysis evaluates the rules that were touched and those that can hold untouched. A rule that
holds is one of these (`mem_candidates_of_holds`): if none of its actions has found anything, it
extracts nothing and asks of everything that it is not there. So leaving out the other rules changes
nothing (`analyze_eq_evaluate`), and which rules hold and what they offer can be said by what their
actions have found. -/

namespace AgentRules

open CompiledLibrary

/-! ### Rules by what is found -/

namespace CompiledLibrary

/-- Whether an action only asks that nothing is found. -/
def isNull (l : CompiledLibrary) (id : Nat) : Bool := l.actions[id]?.any (·.isNullRequirement)

/-- For each requirement of the rule something is found, unless it asks for nothing, when nothing is
found; and for each value to extract something is found. -/
def HoldsOf (l : CompiledLibrary) (t : SyntaxTree) (rule : CompiledRule) : Prop :=
  (∀ id ∈ rule.require, l.found t id = [] ↔ l.isNull id = true) ∧
    ∀ id ∈ rule.extract, l.found t id ≠ []

instance (l : CompiledLibrary) (t : SyntaxTree) (rule : CompiledRule) :
    Decidable (l.HoldsOf t rule) := by
  unfold HoldsOf
  infer_instance

/-- What a rule offers: the first value that each of its extracts has found, then its fixed ones. -/
def offersOf (l : CompiledLibrary) (t : SyntaxTree) (rule : CompiledRule) : List Offer :=
  rule.extract.filterMap (fun id =>
    match l.roleOf id, (l.found t id).head? with
    | some (.extract field confidence), some value => some ⟨field, value, confidence⟩
    | _, _ => none) ++
  rule.fixed.map fun f => ⟨f.field, f.value, f.confidence⟩

end CompiledLibrary

namespace Session

/-- The outcome of a session if these rules are evaluated, in order. -/
def evaluate (l : CompiledLibrary) (s : Session) (rules : List CompiledRule) : Report :=
  let fired := rules.filter (s.holds l)
  let c := (fired.flatMap (s.offers l)).foldl Collector.offer {}
  ⟨c.flush, s.touched.length, fired.length, c.collisions.reverse, s.matched⟩

theorem finish_eq_evaluate (l : CompiledLibrary) (s : Session) :
    s.finish l = s.evaluate l ((s.candidates l).filterMap (l.rules[·]?)) := rfl

/-! ### The list of candidates -/

theorem mem_dedupSorted {xs : List Nat} {n : Nat} : n ∈ candidates.dedupSorted xs ↔ n ∈ xs := by
  fun_induction candidates.dedupSorted xs with
  | case1 a rest ih => simp [ih]
  | case2 a b rest h ih => simp [ih]
  | case3 => rfl

theorem pairwise_dedupSorted {xs : List Nat} (h : xs.Pairwise (· ≤ ·)) :
    (candidates.dedupSorted xs).Pairwise (· < ·) := by
  fun_induction candidates.dedupSorted xs with
  | case1 a rest ih => exact ih h.of_cons
  | case2 a b rest hne ih =>
    refine List.pairwise_cons.2 ⟨fun n hn => ?_, ih h.of_cons⟩
    have hab := List.rel_of_pairwise_cons h List.mem_cons_self
    rcases List.mem_cons.1 (mem_dedupSorted.1 hn) with rfl | hn
    · omega
    · have := List.rel_of_pairwise_cons h.of_cons hn
      omega
  | case3 xs hxs =>
    match xs, hxs with
    | [], _ => exact List.Pairwise.nil
    | [a], _ => exact List.pairwise_singleton _ _
    | a :: b :: rest, hxs => exact absurd rfl (hxs a b rest)

theorem filterMap_range {α : Type} (xs : List α) :
    (List.range xs.length).filterMap (xs[·]?) = xs := by
  induction xs with
  | nil => rfl
  | cons x xs ih =>
    rw [List.length_cons, List.range_succ_eq_map, List.filterMap_cons, List.filterMap_map]
    exact congrArg (x :: ·) ih

/-- What is left out in front of a test that it would not pass is not missed. -/
theorem filter_filterMap_filter {α β : Type} {xs : List α} {p : α → Bool} {f : α → Option β}
    {q : β → Bool} (h : ∀ x ∈ xs, ∀ y, f x = some y → q y = true → p x = true) :
    ((xs.filter p).filterMap f).filter q = (xs.filterMap f).filter q := by
  induction xs with
  | nil => rfl
  | cons x xs ih =>
    have ih := ih fun y hy => h y (List.mem_cons_of_mem x hy)
    by_cases hp : p x = true
    · rw [List.filter_cons_of_pos hp, List.filterMap_cons, List.filterMap_cons]
      cases f x with
      | none => exact ih
      | some y => rw [List.filter_cons, List.filter_cons, ih]
    · rw [List.filter_cons_of_neg hp, List.filterMap_cons, ih]
      cases hf : f x with
      | none => rfl
      | some y =>
        have hq : ¬ q y = true := fun hq => hp (h x List.mem_cons_self y hf hq)
        rw [List.filter_cons_of_neg hq]

theorem exists_getElem?_rules {l : CompiledLibrary} {rule : CompiledRule}
    (h : rule ∈ l.rules.toList) : ∃ i : Nat, l.rules[i]? = some rule := by
  obtain ⟨i, hi⟩ := List.getElem?_of_mem h
  exact ⟨i, by rwa [Array.getElem?_toList] at hi⟩

section Analysis
variable {l : CompiledLibrary} {t : SyntaxTree} {s : Session} {keep : Bool}
  (hl : Linked l) (h : (l.trials t).foldlM (attempt l t) (start l keep) = .ok s)
include hl h

/-- **The candidates** are the rules for which something is found or nothing has to be, each once
and in the order of the rules. -/
theorem candidates_eq : s.candidates l =
    (List.range l.rules.size).filter fun i => l.touches t i || l.zeroInput.contains i := by
  obtain ⟨-, htouched⟩ := touched_analysis h hl.rule_lt
  have hleft : (s.candidates l).Pairwise (· < ·) :=
    pairwise_dedupSorted (List.pairwise_mergeSort' (· ≤ ·) _)
  have hright : ((List.range l.rules.size).filter fun i =>
      l.touches t i || l.zeroInput.contains i).Pairwise (· < ·) := List.pairwise_lt_range.filter _
  refine List.Perm.eq_of_pairwise' hleft hright ?_
  refine (List.perm_ext_iff_of_nodup (hleft.imp Nat.ne_of_lt) (hright.imp Nat.ne_of_lt)).2
    fun i => ?_
  have hlt : l.touches t i = true ∨ i ∈ l.zeroInput.toList → i < l.rules.size := by
    rintro (hi | hi)
    · obtain ⟨id, a, ha, rfl, -⟩ := touches_iff.1 hi
      exact hl.rule_lt id a ha
    · obtain ⟨rule, hrule, -⟩ := (hl.mem_zeroInput i).1 hi
      exact (Array.getElem?_eq_some_iff.1 hrule).1
  rw [candidates, mem_dedupSorted, List.mem_mergeSort, List.mem_append, htouched, List.mem_filter,
    List.mem_range, Bool.or_eq_true, Array.contains_iff_mem, ← Array.mem_toList_iff]
  exact ⟨fun hi => ⟨hlt hi, hi⟩, And.right⟩

/-! ### Rules that hold -/

omit hl

theorem isMet_iff {i id : Nat} (hid : l.Requires i id) :
    s.isMet l id = true ↔ (l.found t id = [] ↔ l.isNull id = true) := by
  obtain ⟨a, isNull, ha, -, hrole⟩ := hid
  have hhits := hits_analysis h ha hrole
  have hrequires : l.roleOf id = some (.require isNull) := by
    rw [roleOf, ha, Option.map_some, hrole]
  have hnull : l.isNull id = isNull := by
    rw [CompiledLibrary.isNull, ha, Option.any_some, Action.isNullRequirement, hrole]
    cases isNull <;> rfl
  rw [hnull, isMet, hrequires]
  cases isNull with
  | true =>
    have hzero := not_congr hhits
    rw [Nat.not_lt, Nat.le_zero, not_ne_iff] at hzero
    simpa using hzero
  | false =>
    simpa using hhits

theorem isSome_valueOf_iff {i id : Nat} (hid : l.Extracts i id) :
    (s.valueOf id).isSome = true ↔ l.found t id ≠ [] := by
  obtain ⟨a, field, confidence, ha, -, hrole⟩ := hid
  rw [valueOf_analysis h ha hrole]
  exact List.isSome_head?

/-- **A rule holds** if what its actions have found says so. -/
theorem holds_iff {i : Nat} {rule : CompiledRule} (hrequire : ∀ id ∈ rule.require, l.Requires i id)
    (hextract : ∀ id ∈ rule.extract, l.Extracts i id) :
    s.holds l rule = true ↔ l.HoldsOf t rule := by
  rw [holds, Bool.and_eq_true, List.all_eq_true, List.all_eq_true]
  exact and_congr (forall₂_congr fun id hid => isMet_iff h (hrequire id hid))
    (forall₂_congr fun id hid => isSome_valueOf_iff h (hextract id hid))

/-- **A rule offers** what its actions have found first. -/
theorem offers_eq {i : Nat} {rule : CompiledRule}
    (hextract : ∀ id ∈ rule.extract, l.Extracts i id) : s.offers l rule = l.offersOf t rule := by
  unfold offers offersOf
  congr 1
  refine List.filterMap_congr fun id hid => ?_
  obtain ⟨a, field, confidence, ha, -, hrole⟩ := hextract id hid
  exact valueOf_analysis h ha hrole ▸ rfl

include hl

/-- **A rule that holds is a candidate.** If nothing is found for it, it can hold untouched. -/
theorem mem_candidates_of_holds {i : Nat} {rule : CompiledRule} (hrule : l.rules[i]? = some rule)
    (hholds : l.HoldsOf t rule) : i ∈ s.candidates l := by
  rw [candidates_eq hl h, List.mem_filter, List.mem_range, Bool.or_eq_true, Array.contains_iff_mem,
    ← Array.mem_toList_iff]
  refine ⟨(Array.getElem?_eq_some_iff.1 hrule).1, ?_⟩
  by_cases htouches : l.touches t i = true
  · exact .inl htouches
  · have hnone {id : Nat} {a : Action} (ha : l.actions[id]? = some a) (hi : a.rule = i) :
        l.found t id = [] := by
      by_contra hfound
      exact htouches (touches_iff.2 ⟨id, a, ha, hi, hfound⟩)
    refine .inr ((hl.mem_zeroInput i).2 ⟨rule, hrule, ?_⟩)
    rw [CompiledRule.isZeroInput, Bool.and_eq_true, List.isEmpty_iff, List.all_eq_true]
    refine ⟨List.eq_nil_iff_forall_not_mem.2 fun id hid => ?_, fun id hid => ?_⟩
    · obtain ⟨a, -, -, ha, hi, -⟩ := hl.extracts i rule hrule id hid
      exact hholds.2 id hid (hnone ha hi)
    · obtain ⟨a, -, ha, hi, -⟩ := hl.requires i rule hrule id hid
      exact (hholds.1 id hid).1 (hnone ha hi)

theorem filter_candidates :
    ((s.candidates l).filterMap (l.rules[·]?)).filter (s.holds l) =
      l.rules.toList.filter (s.holds l) := by
  have hall : (List.range l.rules.size).filterMap (l.rules[·]?) = l.rules.toList := by
    rw [← Array.length_toList]
    simpa only [Array.getElem?_toList] using filterMap_range l.rules.toList
  rw [← hall, candidates_eq hl h]
  refine filter_filterMap_filter fun i _ rule hrule hholds => ?_
  have hcandidate := mem_candidates_of_holds hl h hrule
    ((holds_iff h (hl.requires i rule hrule) (hl.extracts i rule hrule)).1 hholds)
  rw [candidates_eq hl h, List.mem_filter] at hcandidate
  exact hcandidate.2

/-- **The rules that hold**, by what is found. -/
theorem fired_eq : s.fired l = l.rules.toList.filter (fun rule => l.HoldsOf t rule) := by
  rw [fired, filter_candidates hl h]
  refine List.filter_congr fun rule hrule => ?_
  obtain ⟨i, hi⟩ := exists_getElem?_rules hrule
  rw [Bool.eq_iff_iff, decide_eq_true_eq,
    holds_iff h (hl.requires i rule hi) (hl.extracts i rule hi)]

end Analysis

end Session

/-- **Choosing candidates loses no rule.** The compiled rules stand in the order in which they are
declared, and analysing a tree gives what evaluating all of them in order gives. The rules that are
evaluated are in order and none comes twice; those that hold are all rules that hold by what has
been found, and each offers the first values found by its extracts in order, and then its fixed
ones. -/
theorem analyze_eq_evaluate {library : RuleLibrary} {threshold : Nat} {l : CompiledLibrary}
    {t : SyntaxTree} (keep : Bool) (hl : compile library threshold = .ok l)
    (ht : SyntaxTree.Built t) :
    l.rules.toList.map CompiledRule.source =
      library.rules.zipIdx.map (fun (rule, index) => sourceOf index rule) ∧
    ∃ s, (t.announce l.threshold l.rangesAt (l.listen t)).run (Session.start l keep) =
        .ok ((), s) ∧
      l.analyze t keep = .ok (s.evaluate l ((s.candidates l).filterMap (l.rules[·]?))) ∧
      l.analyze t keep = .ok (s.evaluate l l.rules.toList) ∧
      s.candidates l = ((List.range l.rules.size).filter fun i =>
        l.touches t i || l.zeroInput.contains i) ∧
      s.fired l = l.rules.toList.filter (fun rule => l.HoldsOf t rule) ∧
      ∀ rule ∈ l.rules.toList, s.offers l rule = l.offersOf t rule := by
  have hreg := registered_of_compile hl
  have hlinked := linked_of_compile hl
  have hwf := ht.wellFormed
  obtain ⟨s, hs⟩ := exists_run hreg hwf keep
  have hrun : (t.announce l.threshold l.rangesAt (l.listen t)).run (Session.start l keep) =
      .ok ((), s) := by
    rw [SyntaxTree.announce_eq t _ _ _ hwf, run_listen]
    exact congrArg (Except.map ((), ·)) hs
  have hanalyze : l.analyze t keep = .ok (s.finish l) := by
    rw [analyze_eq l t hwf, hs]
    rfl
  refine ⟨sources_of_compile hl, s, hrun, hanalyze, ?_, Session.candidates_eq hlinked hs,
    Session.fired_eq hlinked hs, fun rule hrule => ?_⟩
  · rw [hanalyze, Session.finish_eq_evaluate]
    unfold Session.evaluate
    rw [Session.filter_candidates hlinked hs]
  · obtain ⟨i, hi⟩ := Session.exists_getElem?_rules hrule
    exact Session.offers_eq hs (hlinked.extracts i rule hi)

/-- Rules with and without something to find: the first asks that there is no name, the second that
there is no comment, the third offers a value it finds and a fixed one, and the last has a value
that need not be there. -/
def mixedRules : RuleLibrary := ⟨[], [],
  [⟨{}, ["IsNull[agent.product.name]"], ["Hidden:9:\"x\""]⟩,
    ⟨{}, ["IsNull[agent.product.comments]"], ["Kind:1:\"plain\""]⟩,
    ⟨{}, ["agent.product.name=\"AB\""],
      ["Version:2:agent.product.version", "Kind:1:\"known\""]⟩,
    ⟨{}, [], ["Name:3:agent.product.name", "Mail:3:agent.product.comments.entry.email"]⟩]⟩

theorem exists_compile_mixed : ∃ l, compile mixedRules 0 = .ok l := by
  have hok : (compile mixedRules 0).isOk = true := by decide +kernel
  exact Outcome.exists_eq_ok hok

/-- The four rules are compiled, and evaluating the candidates of a tree is evaluating all four. -/
theorem analyze_eq_evaluate_mixed : ∃ (l : CompiledLibrary) (s : Session),
    compile mixedRules 0 = .ok l ∧ SyntaxTree.Built SyntaxTree.nested ∧
    l.analyze SyntaxTree.nested true =
      .ok (s.evaluate l ((s.candidates l).filterMap (l.rules[·]?))) ∧
    l.analyze SyntaxTree.nested true = .ok (s.evaluate l l.rules.toList) ∧
    s.fired l = l.rules.toList.filter (fun rule => l.HoldsOf SyntaxTree.nested rule) := by
  obtain ⟨l, hl⟩ := exists_compile_mixed
  obtain ⟨-, s, -, hcandidates, hall, -, hfired, -⟩ :=
    analyze_eq_evaluate true hl SyntaxTree.built_nested
  exact ⟨l, s, hl, SyntaxTree.built_nested, hcandidates, hall, hfired⟩

end AgentRules
