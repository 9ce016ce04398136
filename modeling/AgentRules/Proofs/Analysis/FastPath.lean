import AgentRules.Proofs.Analysis.Tried

/-! # The keys of an expression stand for its path

An action is tried where its keys say, from the nodes that have one of its paths. These are the
nodes that walking down reaches, in the order in which a walk tries them (`findSome?_notices`), so
looking actions up by keys finds what walking everything from the root finds
(`findSome?_trials_eq_reach`). -/

namespace AgentRules

open Text CompiledLibrary Chain SyntaxTree Session

/-! ### From notices to nodes -/

theorem findSome?_filter {α β : Type} (p : α → Bool) (f : α → Option β) (xs : List α) :
    (xs.filter p).findSome? f = xs.findSome? fun a => if p a then f a else none := by
  induction xs with
  | nil => rfl
  | cons a xs ih =>
    rw [List.filter_cons, List.findSome?_cons]
    by_cases h : p a = true
    · rw [if_pos h, if_pos h, List.findSome?_cons, ih]
    · rw [if_neg h, if_neg h]
      exact ih

section Spread
variable {downs : List (IndexRange × String)} (hnames : ∀ x ∈ downs, IsPlainName x.2)

theorem syntaxError_not_mem_spread : "__syntaxerror__" ∉ spread [NodePath.root] downs := fun h => by
  rcases spread_cases h with h | ⟨q, i, d, -, h⟩
  · exact absurd h (by decide)
  · have hparen := NodePath.paren_mem_child q i d.2
    rw [← h] at hparen
    exact absurd hparen (by decide)

include hnames

theorem ranged_not_mem_spread {path : String} (hp : Plain path) (r : WordRange) :
    lower (path ++ r.pathForm) ∉ spread [NodePath.root] downs := fun h => by
  rw [lower_plain (plain_ranged hp r)] at h
  rcases spread_cases h with h | ⟨q, i, d, hd, h⟩
  · have hbracket : ']' ∈ (path ++ r.pathForm).toList := by
      rw [String.toList_append, WordRange.toList_pathForm]
      simp
    rw [h] at hbracket
    exact absurd hbracket (by decide)
  · exact NodePath.ranged_ne (not_mem_of_isPlainName (hnames d hd) (by decide) (by decide)) h

end Spread

section Nodes
variable {t : SyntaxTree} (ht : WellFormed t) {downs : List (IndexRange × String)}
  (hnames : ∀ x ∈ downs, IsPlainName x.2)
include ht hnames

theorem value_of_mem_spread {ranges : String → List WordRange} {x : Notice}
    (hx : x ∈ t.notices ranges) (hp : lower x.path ∈ spread [NodePath.root] downs) :
    x.value = t.text x.node := by
  rw [notices, List.mem_cons, List.mem_cons, List.mem_flatMap] at hx
  rcases hx with rfl | rfl | ⟨n, -, hx⟩
  · rw [lower_syntaxError] at hp
    exact absurd hp syntaxError_not_mem_spread
  · rfl
  · obtain ⟨-, path, hpath, rfl | ⟨r, -, hr⟩⟩ := mem_nodeNotices hx
    · rfl
    · rw [hr] at hp
      exact absurd hp (ranged_not_mem_spread hnames
        (plain_of_named ht (ht.pathOf_eq_some.1 hpath)) r)

variable {β : Type} (g : Nat → Option β)

/-- Of what is said of a node, only its text stands under a path that is written out. -/
theorem findSome?_nodeNotices (ranges : String → List WordRange) (n : Nat) :
    (t.nodeNotices ranges n).findSome? (fun x =>
        if lower x.path ∈ spread [NodePath.root] downs then g x.node else none) =
      if (t.pathOf n).any (· ∈ spread [NodePath.root] downs) then g n else none := by
  unfold nodeNotices
  cases hpath : t.pathOf n with
  | none => rfl
  | some path =>
    have hplain : Plain path := plain_of_named ht (ht.pathOf_eq_some.1 hpath)
    have hranges : (t.rangeNotices ranges path n).findSome? (fun x =>
        if lower x.path ∈ spread [NodePath.root] downs then g x.node else none) =
          none := by
      rw [List.findSome?_eq_none_iff]
      intro x hx
      obtain ⟨-, r, -, hr⟩ := mem_rangeNotices hx
      rw [hr]
      exact if_neg (ranged_not_mem_spread hnames hplain r)
    dsimp only
    rw [List.findSome?_cons, lower_plain hplain, hranges]
    by_cases h : path ∈ spread [NodePath.root] downs
    · rw [if_pos h, if_pos (by simpa using h)]
      cases g n <;> rfl
    · rw [if_neg h, if_neg (by simpa using h)]

/-- **What is looked up by paths is found at the nodes that walking down reaches.** -/
theorem findSome?_notices (ranges : String → List WordRange) :
    (t.notices ranges).findSome? (fun x =>
        if lower x.path ∈ spread [NodePath.root] downs then g x.node else none) =
      (reach t downs 0).findSome? g := by
  have hparens : ∀ x ∈ downs, ')' ∉ x.2.toList := fun x hx =>
    not_mem_of_isPlainName (hnames x hx) (by decide) (by decide)
  have hroot : t.pathOf 0 = some NodePath.root := ht.pathOf_eq_some.2 .root
  rw [← filter_spread ht hparens, findSome?_filter, notices, List.findSome?_cons,
    lower_syntaxError, if_neg syntaxError_not_mem_spread, List.findSome?_cons,
    lower_plain plain_root, List.findSome?_cons, hroot, Option.any_some, findSome?_flatMap]
  simp only [findSome?_nodeNotices ht hnames, decide_eq_true_eq]

end Nodes

/-! ### From nodes to the walk -/

section Walk
variable {l : CompiledLibrary} {t : SyntaxTree} {id : Nat} {a : Action} {d : Draft} {D : Chain}
  {downs : List (IndexRange × String)}

/-- **An action finds first what is found first among the nodes that walking down reaches.** -/
theorem findSome?_trials_eq_reach (hl : Registered l) (ht : WellFormed t)
    (hascii : IsAscii t.source.toList) (ha : l.actions[id]? = some a)
    (hkeys : a.path.keys = d.paths.map fun p => ⟨p, d.selector⟩) (hd : Folds d D downs) :
    (l.trials t).findSome? (foundIn l t id) = (reach t downs 0).findSome? fun n =>
      if d.selector.accepts (t.text n) then (a.path.chain.walk t n none).map (·.2) else none := by
  have hplain : ∀ p ∈ d.paths, Plain p := fun p hp => by
    rw [hd.paths] at hp
    exact plain_spread hd.plain hp
  have htried : ∀ x ∈ t.notices l.rangesAt,
      (if isTried l id x then (a.path.chain.walk t x.node (some x.value)).map (·.2) else none) =
        if lower x.path ∈ spread [NodePath.root] downs then
          (if d.selector.accepts (t.text x.node) then
            (a.path.chain.walk t x.node none).map (·.2) else none) else none := by
    intro x hx
    have hlower := plain_lower_path ht hx
    by_cases hp : lower x.path ∈ spread [NodePath.root] downs
    · have hvalue := value_of_mem_spread ht hd.plain hx hp
      have hiff := isTried_iff hl ha hkeys hplain hd.selector hlower
        (by rw [hvalue]; exact isAscii_text hascii x.node)
      rw [hd.paths, hvalue, and_iff_right hp] at hiff
      rw [if_pos hp, hvalue, walk_text]
      exact if_congr hiff rfl rfl
    · rw [if_neg hp, if_neg]
      intro h
      refine hp ?_
      rw [← hd.paths]
      exact ((isTried_iff_mem hl ha hkeys hplain hlower).1 h).1
  rw [findSome?_trials ha, findSome?_congr htried]
  exact findSome?_notices ht hd.plain (fun n => if d.selector.accepts (t.text n) then
    (a.path.chain.walk t n none).map (·.2) else none) l.rangesAt

/-- **The chain of an action and the chain that does everything end in the same values.** -/
theorem map_walk_eq_reach (hd : Folds d D downs) (t : SyntaxTree) :
    (D.walk t 0 none).map (·.2) = (reach t downs 0).findSome? fun n =>
      if d.selector.accepts (t.text n) then (walk t d.steps n none).map (·.2) else none := by
  have hwalk := hd.walk_append t []
  rw [List.append_nil, List.append_nil] at hwalk
  rw [hwalk, List.map_findSome?]
  refine findSome?_congr fun n _ => ?_
  rw [Function.comp_apply, apply_ite (Option.map _)]
  rfl

/-- Steps that cannot fail do not decide whether something is found. -/
theorem isSome_findSome?_prune (c : Chain) (p : Nat → Bool) (ns : List Nat) :
    (ns.findSome? fun n => if p n then (c.prune.walk t n none).map (·.2) else none).isSome =
      (ns.findSome? fun n => if p n then (c.walk t n none).map (·.2) else none).isSome := by
  rw [Bool.eq_iff_iff, List.findSome?_isSome_iff, List.findSome?_isSome_iff]
  refine exists_congr fun n => and_congr_right fun _ => ?_
  by_cases h : p n = true
  · rw [if_pos h, if_pos h, Option.isSome_map, Option.isSome_map, isSome_walk_prune]
  · rw [if_neg h, if_neg h]

theorem exists_folds {r : Registry} {expression : String} {e : Expr} {c : CompiledPath}
    (he : Expr.parse expression = .ok e) (hroot : e.root = some NodePath.root)
    (hfold : IsFoldable e.stages) (hc : CompiledPath.compile r expression = .ok c) :
    ∃ d D downs, e.runtimeChain r = .ok D ∧ Folds d D downs ∧
      c.keys = d.paths.map (fun p => ⟨p, d.selector⟩) ∧ c.chain = d.steps := by
  unfold CompiledPath.compile at hc
  obtain ⟨e', he', hc⟩ := Outcome.bind_eq_ok_iff.1 hc
  rw [he] at he'
  cases he'
  have hvisit : ∃ d, Draft.visit r true {} e = .ok d ∧
      c.keys = d.paths.map (fun p => ⟨p, d.selector⟩) ∧ c.chain = d.steps := by
    cases e with
    | fixed text => cases hroot
    | path root steps | wrapped w inner steps =>
      obtain ⟨d, hd, hc⟩ := Outcome.bind_eq_ok_iff.1 hc
      cases hc
      exact ⟨d, hd, rfl, rfl⟩
  obtain ⟨d, hd, hkeys, hchain⟩ := hvisit
  have hfold : IsFoldable (e.stages ++ []) := by rwa [List.append_nil]
  obtain ⟨D, hD, ⟨downs, hfolds⟩, -⟩ :=
    holds_visit hroot (Expr.isNamed_of_parse he) hfold rfl rfl (by simp) hd
  exact ⟨d, D, downs, hD, hfolds, hkeys, hchain⟩

end Walk

/-- **Looking an expression up by its keys is walking it.** Whatever the library that has an action
for an expression in lower case, and whatever the tree over an ASCII text: after the tree has been
announced, the action has found what the chain finds from the root that does everything the
expression does. -/
theorem found_eq_walk {library : RuleLibrary} {threshold : Nat} {l : CompiledLibrary}
    {t : SyntaxTree} {expression : String} {e : Expr} {id : Nat} {a : Action} (keep : Bool)
    (hl : compile library threshold = .ok l) (ht : Built t) (hascii : IsAscii t.source.toList)
    (he : Expr.parse expression = .ok e) (hroot : e.root = some NodePath.root)
    (hfold : IsFoldable e.stages) (ha : l.actions[id]? = some a)
    (hexpression : a.path.expression = expression) :
    ∃ D s, e.runtimeChain l.registry = .ok D ∧
      (t.announce l.threshold l.rangesAt (l.listen t)).run (Session.start l keep) = .ok ((), s) ∧
      (∀ isNull, a.role = .require isNull →
        (0 < s.hits[id]?.getD 0 ↔ (D.walk t 0 none).isSome = true)) ∧
      ∀ field confidence, a.role = .extract field confidence →
        s.valueOf id = (D.walk t 0 none).map (·.2) := by
  have hreg := registered_of_compile hl
  have hwf := ht.wellFormed
  have hcompiled := hreg.compiled id a ha
  have hid : id < l.actions.size := (Array.getElem?_eq_some_iff.1 ha).1
  obtain ⟨s, hs⟩ := exists_run hreg hwf keep
  have hrun : (t.announce l.threshold l.rangesAt (l.listen t)).run (Session.start l keep) =
      .ok ((), s) := by
    unfold trials at hs
    rw [announce_eq t _ _ _ hwf, run_listen, hs]
    rfl
  unfold IsCompiled at hcompiled
  rw [hexpression] at hcompiled
  cases hrole : a.role with
  | require isNull =>
    rw [hrole] at hcompiled
    obtain ⟨c, hc, -, hpath⟩ := compileRequire_eq_ok hcompiled.1
    obtain ⟨d, D, downs, hD, hfolds, hkeys, hchain⟩ := exists_folds he hroot hfold hc
    have hkeys : a.path.keys = d.paths.map fun p => ⟨p, d.selector⟩ := by
      rw [hpath]
      exact hkeys
    have hprune : a.path.chain = Chain.prune d.steps := by
      rw [hpath, ← hchain]
    refine ⟨D, s, hD, hrun, fun b _ => ?_, fun f c h => (by cases h)⟩
    have hzero : ¬ 0 < (Session.start l keep).hits[id]?.getD 0 := by
      simp [Session.start, hid]
    rw [run_hits ha hrole (by simpa [Session.start] using hid) hs, or_iff_right hzero,
      findSome?_trials_eq_reach hreg hwf hascii ha hkeys hfolds, hprune, isSome_findSome?_prune,
      ← map_walk_eq_reach hfolds, Option.isSome_map]
  | extract field confidence =>
    rw [hrole] at hcompiled
    obtain ⟨hc, -⟩ := compileExtract_eq_ok hcompiled.1
    obtain ⟨d, D, downs, hD, hfolds, hkeys, hchain⟩ := exists_folds he hroot hfold hc
    refine ⟨D, s, hD, hrun, fun b h => (by cases h), fun f c _ => ?_⟩
    have hnone : (Session.start l keep).valueOf id = none := by
      simp [Session.start, valueOf, hid]
    rw [run_valueOf ha hrole (by simpa [Session.start] using hid) hs, hnone, Option.none_or,
      findSome?_trials_eq_reach hreg hwf hascii ha hkeys hfolds, hchain, map_walk_eq_reach hfolds]

/-- The version behind a name, as the only rule of a library looks for it. -/
def versionPath : String := "agent.product.(1)name=\"AB\"^.version"

/-- A rule that writes the version. -/
def versionRules : RuleLibrary := ⟨[], [], [⟨{}, [], ["AgentVersion:1:" ++ versionPath]⟩]⟩

/-- The expression of the version. -/
def versionExpr : Expr := .path "agent"
  [.down .all "product", .down (.single 1) "name", .equals "AB", .up, .down .all "version"]

theorem parse_versionPath : Expr.parse versionPath = .ok versionExpr := by decide +kernel

theorem action_versionRules {l : CompiledLibrary} (hl : compile versionRules 0 = .ok l) :
    ∃ a, l.actions[0]? = some a ∧ a.path.expression = versionPath ∧
      a.role = .extract "AgentVersion" 1 := by
  have hline : ExtractLine.parse ("AgentVersion:1:" ++ versionPath) =
      .ok ⟨"AgentVersion", 1, versionPath⟩ := by decide +kernel
  have hfixed {r : Registry} {c : CompiledPath}
      (h : CompiledPath.compileExtract r versionPath = .ok c) : c.fixedValue = none := by
    have h := (compileExtract_eq_ok h).1
    unfold CompiledPath.compile at h
    rw [parse_versionPath] at h
    cases h
    rfl
  obtain ⟨r, -, hl⟩ := Outcome.bind_eq_ok_iff.1 hl
  obtain ⟨l₁, hl₁, hl⟩ := Outcome.bind_eq_ok_iff.1 hl
  cases hl
  unfold addRule at hl₁
  rw [Outcome.mapError_eq_ok_iff] at hl₁
  obtain ⟨s, hs, hl₁⟩ := Outcome.bind_eq_ok_iff.1 hl₁
  cases hs
  obtain ⟨s, hs, hl₁⟩ := Outcome.bind_eq_ok_iff.1 hl₁
  obtain ⟨s', hs', hs⟩ := Outcome.bind_eq_ok_iff.1 hs
  cases hs
  cases hl₁
  obtain ⟨e, he, hs'⟩ := Outcome.bind_eq_ok_iff.1 hs'
  rw [hline] at he
  cases he
  obtain ⟨path, hpath, hs'⟩ := Outcome.bind_eq_ok_iff.1 hs'
  rw [hfixed hpath] at hs'
  cases hs'
  dsimp only
  rw [addAction_eq]
  exact ⟨_, rfl, expression_of_compile (compileExtract_eq_ok hpath).1, rfl⟩

/-- The version is found through the keys, and by walking: both hold `1`. -/
theorem found_eq_walk_version : ∃ l s, compile versionRules 0 = .ok l ∧
    Built nested ∧ IsAscii nested.source.toList ∧ IsFoldable versionExpr.stages ∧
    (nested.announce l.threshold l.rangesAt (l.listen nested)).run (Session.start l true) =
      .ok ((), s) ∧ s.valueOf 0 = some "1" := by
  have hok : (compile versionRules 0).isOk = true := by decide +kernel
  cases hl : compile versionRules 0 with
  | error e =>
    rw [hl] at hok
    cases hok
  | ok l =>
    have hascii : IsAscii nested.source.toList := by decide
    have hfold : IsFoldable versionExpr.stages := by
      have hproduct : IsLowerCase "product" := by decide
      have hname : IsLowerCase "name" := by decide
      have htext : IsAscii "AB".toList := by decide
      exact ⟨hproduct, hname, htext⟩
    obtain ⟨a, ha, hexpression, hrole⟩ := action_versionRules hl
    obtain ⟨D, s, hD, hrun, -, hvalue⟩ := found_eq_walk true hl built_nested hascii
      parse_versionPath rfl hfold ha hexpression
    refine ⟨l, s, rfl, built_nested, hascii, hfold, hrun, ?_⟩
    have hchain : versionExpr.runtimeChain l.registry = .ok [.down ⟨1, 10⟩ "product",
      .down ⟨1, 1⟩ "name", .test (.equals "AB"), .move .up, .down ⟨1, 5⟩ "version"] := rfl
    rw [hchain] at hD
    cases hD
    rw [hvalue _ _ hrole]
    decide +kernel

end AgentRules
