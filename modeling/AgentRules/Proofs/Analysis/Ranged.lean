import AgentRules.Proofs.Agent.Planted
import AgentRules.Proofs.Analysis.FastPath
import AgentRules.Proofs.Index.Acceptance
import AgentRules.Proofs.Index.Ranged

/-! # Where segments are found

A run of segments is told of a node if the kind of the node says how its text is divided
(`SyntaxTree.cut`), and it is told behind the path of the node. So an expression that goes down and
takes one run finds it at the first node that walking down by the lower-case names reaches and that
has such a run (`valueOf_single`). A chain takes the segments of words of whatever it has come to;
the two agree where the nodes are divided at words (`cut_eq_walk`). What takes a run of a run is
never found (`valueOf_many`). -/

namespace AgentRules

open Text CompiledLibrary Chain SyntaxTree Session

/-- The run of segments that is told of a node, if its kind says how its text is divided. -/
def SyntaxTree.cut (t : SyntaxTree) (run : WordRange) (n : Nat) : Option String :=
  (t.kind n).splitting.bind fun s => s.range (t.text n) run.first run.last

theorem findSome?_filterMap {α β γ : Type} (f : α → Option β) (g : β → Option γ) (xs : List α) :
    (xs.filterMap f).findSome? g = xs.findSome? fun a => (f a).bind g := by
  rw [List.filterMap_eq_flatMap_toList, findSome?_flatMap]
  refine findSome?_congr fun a _ => ?_
  cases f a with
  | none => rfl
  | some b =>
    rw [Option.toList_some, List.findSome?_cons, Option.bind_some]
    cases g b <;> rfl

/-! ### From trials to paths -/

section Paths
variable {l : CompiledLibrary} {t : SyntaxTree} {id : Nat} {a : Action} {paths : List String}
  (hl : Registered l) (ha : l.actions[id]? = some a)
  (hkeys : a.path.keys = paths.map (⟨·, .path⟩)) (hplain : ∀ p ∈ paths, Plain (lower p))
include hl ha hkeys hplain

theorem isTried_iff_lower {x : Notice} (hx : Plain (lower x.path)) :
    isTried l id x = true ↔ lower x.path ∈ paths.map lower := by
  unfold isTried
  simp only [List.any_eq_true, decide_eq_true_eq, hl.mem_actionsFor, ha, Option.some.injEq,
    exists_eq_left', hkeys, List.mem_map]
  constructor
  · rintro ⟨key, hkey, -, ⟨p, hp, rfl⟩, rfl⟩
    have hpath := pathPart_of_mem_keysOf hx hkey
    rw [pathPart_folded (hplain p hp)] at hpath
    exact ⟨p, hp, String.toList_inj.1 hpath⟩
  · rintro ⟨p, hp, hpath⟩
    refine ⟨lower x.path, mem_keysOf.2 (.inl rfl), _, ⟨p, hp, rfl⟩, ?_⟩
    exact hpath

/-- **An action with nothing but paths finds what is told first under one of them.** -/
theorem findSome?_trials_path (hchain : a.path.chain = []) (ht : WellFormed t) :
    (l.trials t).findSome? (foundIn l t id) = (t.notices l.rangesAt).findSome? fun x =>
      if lower x.path ∈ paths.map lower then some x.value else none := by
  rw [findSome?_trials ha, hchain]
  refine findSome?_congr fun x hx => ?_
  have hwalk : (walk t [] x.node (some x.value)).map (·.2) = some x.value := rfl
  rw [hwalk]
  exact if_congr (isTried_iff_lower hl ha hkeys hplain (plain_lower_path ht hx)) rfl rfl

end Paths

/-! ### From paths to nodes -/

section Nodes
variable {t : SyntaxTree} (ht : WellFormed t) {ranges : String → List WordRange}
  {downs : List (IndexRange × String)} {run : WordRange}
include ht

theorem ne_ranged {x : Notice} (hx : x = ⟨NodePath.syntaxError, t.flag, 0⟩ ∨
      ∃ n path, Named t n path ∧ x = ⟨path, t.text n, n⟩) (p : String) :
    lower x.path ≠ p ++ run.pathForm := by
  have hroot {q : String} (hq : ']' ∉ q.toList) : q ≠ p ++ run.pathForm := fun h => by
    refine hq ?_
    rw [h, String.toList_append, WordRange.toList_pathForm]
    simp
  rcases hx with rfl | ⟨n, path, hn, rfl⟩
  · rw [lower_syntaxError]
    exact hroot (by decide)
  · dsimp only
    rw [lower_plain (plain_of_named ht hn)]
    cases hn with
    | root => exact hroot (by decide)
    | child _ hc => exact (NodePath.ranged_ne (ht.not_mem_name hc (by decide))).symm

/-- Of the runs of a node, the one that is asked for is found if it is told. -/
theorem findSome?_rangeNotices {n : Nat} {path : String} (hn : Named t n path) {ps : List String}
    (hps : path ∈ ps → run ∈ ranges path) :
    (t.rangeNotices ranges path n).findSome? (fun x =>
        if lower x.path ∈ ps.map (· ++ run.pathForm) then some x.value else none) =
      if path ∈ ps then t.cut run n else none := by
  have hplain := plain_of_named ht hn
  have hmem (r : WordRange) : lower (path ++ r.pathForm) ∈ ps.map (· ++ run.pathForm) ↔
      r = run ∧ path ∈ ps := by
    rw [lower_plain (plain_ranged hplain r), List.mem_map]
    constructor
    · rintro ⟨p, hp, heq⟩
      obtain ⟨rfl, rfl⟩ := WordRange.ranged_inj heq
      exact ⟨rfl, hp⟩
    · rintro ⟨rfl, hp⟩
      exact ⟨path, hp, rfl⟩
  unfold rangeNotices cut
  cases (t.kind n).splitting with
  | none => exact (ite_self _).symm
  | some s =>
    rw [Option.bind_some, findSome?_filterMap]
    have hrun : ∀ r ∈ ranges path, ((s.range (t.text n) r.first r.last).map
          fun cut => (⟨path ++ r.pathForm, cut, n⟩ : Notice)).bind (fun x =>
            if lower x.path ∈ ps.map (· ++ run.pathForm) then some x.value else none) =
        if decide (r = run) then
          (if path ∈ ps then s.range (t.text n) run.first run.last else none) else none := by
      intro r _
      simp only [Option.bind_map, Function.comp_def, hmem, decide_eq_true_eq]
      by_cases hr : r = run
      · subst hr
        by_cases hp : path ∈ ps <;> simp [hp]
      · simp [hr]
    rw [findSome?_congr hrun, findSome?_ite]
    by_cases hp : path ∈ ps
    · rw [if_pos (by simpa using hps hp)]
    · rw [if_neg hp, ite_self]

/-- **A run that is asked for is found at the first node on the way down that has it.** -/
theorem findSome?_notices_ranged (hnames : ∀ x ∈ downs, IsPlainName x.2)
    (hasked : ∀ p ∈ spread [NodePath.root] downs, run ∈ ranges p) :
    (t.notices ranges).findSome? (fun x =>
        if lower x.path ∈ (spread [NodePath.root] downs).map (· ++ run.pathForm) then some x.value
        else none) = (reach t downs 0).findSome? (t.cut run) := by
  have hparens : ∀ x ∈ downs, ')' ∉ x.2.toList := fun x hx =>
    not_mem_of_isPlainName (hnames x hx) (by decide) (by decide)
  have hskip {x : Notice} (hx : x = ⟨NodePath.syntaxError, t.flag, 0⟩ ∨
      ∃ n path, Named t n path ∧ x = ⟨path, t.text n, n⟩) :
      lower x.path ∉ (spread [NodePath.root] downs).map (· ++ run.pathForm) := fun h => by
    obtain ⟨p, -, hp⟩ := List.mem_map.1 h
    exact ne_ranged ht hx p hp.symm
  have hnode (n : Nat) : (t.nodeNotices ranges n).findSome? (fun x =>
        if lower x.path ∈ (spread [NodePath.root] downs).map (· ++ run.pathForm) then some x.value
        else none) =
      if (t.pathOf n).any (· ∈ spread [NodePath.root] downs) then t.cut run n else none := by
    unfold nodeNotices
    cases hpath : t.pathOf n with
    | none => rfl
    | some path =>
      have hn := ht.pathOf_eq_some.1 hpath
      dsimp only
      rw [List.findSome?_cons, if_neg (hskip (.inr ⟨n, path, hn, rfl⟩)),
        findSome?_rangeNotices ht hn (hasked path)]
      simp only [Option.any_some, decide_eq_true_eq]
  have hroot : t.cut run 0 = none := by
    rw [cut, ht.kind_root]
    rfl
  rw [← filter_spread ht hparens, findSome?_filter, notices, List.findSome?_cons,
    if_neg (hskip (.inl rfl)), List.findSome?_cons, if_neg (hskip (.inr ⟨0, _, .root, rfl⟩)),
    List.findSome?_cons, hroot, ite_self, findSome?_flatMap]
  exact findSome?_congr fun n _ => hnode n

theorem not_ranged_twice {x : Notice} (hx : x ∈ t.notices ranges) (q : String)
    (first last : WordRange) : lower x.path ≠ q ++ first.pathForm ++ last.pathForm := fun h => by
  rw [notices, List.mem_cons, List.mem_cons, List.mem_flatMap] at hx
  rcases hx with rfl | rfl | ⟨n, -, hx⟩
  · exact ne_ranged ht (.inl rfl) _ h
  · exact ne_ranged ht (.inr ⟨0, _, .root, rfl⟩) _ h
  · obtain ⟨-, path, hpath, rfl | ⟨r, -, hr⟩⟩ := mem_nodeNotices hx
    · exact ne_ranged ht (.inr ⟨n, path, ht.pathOf_eq_some.1 hpath, rfl⟩) _ h
    · -- without its own run, the path is one of a node
      have hn := ht.pathOf_eq_some.1 hpath
      have hplain := plain_of_named ht hn
      rw [hr, lower_plain (plain_ranged hplain r)] at h
      have hpath := (WordRange.ranged_inj h).1
      refine ne_ranged ht (.inr ⟨n, path, hn, rfl⟩) q (?_ : lower path = q ++ first.pathForm)
      rw [lower_plain hplain, hpath]

end Nodes

/-! ### From nodes to the walk -/

theorem walk_stepsDown {t : SyntaxTree} (downs : List (IndexRange × String)) (rest : Chain)
    (n : Nat) : walk t (stepsDown downs ++ rest) n none =
      (reach t downs n).findSome? (walk t rest · none) := by
  induction downs generalizing n with
  | nil =>
    rw [reach, List.findSome?_singleton]
    rfl
  | cons d downs ih =>
    obtain ⟨range, name⟩ := d
    have hcons : stepsDown ((range, name) :: downs) ++ rest =
        .down range name :: (stepsDown downs ++ rest) := rfl
    rw [hcons, walk, reach, findSome?_flatMap]
    exact findSome?_congr fun m _ => ih m

/-- **Where the nodes are divided at words, a chain takes the same run.** -/
theorem cut_eq_walk {t : SyntaxTree} {downs : List (IndexRange × String)} {run : WordRange}
    (hword : ∀ n ∈ reach t downs 0, (t.kind n).splitting = some .word) :
    (reach t downs 0).findSome? (t.cut run) =
      (walk t (stepsDown downs ++ stepsWords [run]) 0 none).map (·.2) := by
  rw [walk_stepsDown, List.map_findSome?]
  refine findSome?_congr fun n hn => ?_
  have hwalk : walk t (stepsWords [run]) n none =
      (Splitting.word.range (t.text n) run.first run.last).map (n, ·) := by
    rw [stepsWords, List.map_singleton, walk, Option.getD_none, Change.apply]
    cases Splitting.word.range (t.text n) run.first run.last <;> rfl
  rw [Function.comp_apply, hwalk, Option.map_map, cut, hword n hn, Option.bind_some]
  exact Option.map_id'.symm

/-! ### Kinds that are divided at words -/

/-- The names of nodes whose text is divided at words. -/
def wordNames : List String := ["name", "text", "entry", "key"]

theorem splitting_of_pathName {k : NodeKind} {name : String} {count : CountKind}
    (h : k.pathName = some (name, count)) (hname : name ∈ wordNames) :
    k.splitting = some .word := by
  cases k <;> simp only [NodeKind.pathName, Option.some.injEq, Prod.mk.injEq, reduceCtorEq] at h <;>
    obtain ⟨rfl, -⟩ := h <;> first | rfl | exact absurd hname (by decide)

theorem splitting_of_mem_reach {t : SyntaxTree} (ht : WellFormed t)
    {downs : List (IndexRange × String)} (hname : ∃ d ∈ downs.getLast?, d.2 ∈ wordNames) :
    ∀ n ∈ reach t downs 0, (t.kind n).splitting = some .word := by
  obtain ⟨⟨range, name⟩, hlast, hname⟩ := hname
  obtain ⟨init, rfl⟩ := List.getLast?_eq_some_iff.1 hlast
  intro n hn
  rw [reach_append, List.mem_flatMap] at hn
  obtain ⟨m, -, hn⟩ := hn
  obtain ⟨c, hc, rfl, rfl, -⟩ := (mem_candidates ht).1 hn
  obtain ⟨d, hd, hdname, -⟩ := ht.describe_of_mem_pathChildren hc
  have hkind := (describe_eq_some.1 hd).2.1
  rw [hdname] at hkind
  exact splitting_of_pathName hkind hname

/-! ### Through an analysis -/

/-- After the announcement, an action that extracts holds what the first of its trials finds. -/
theorem exists_valueOf {l : CompiledLibrary} {t : SyntaxTree} {id : Nat} {a : Action}
    {field : String} {confidence : Int} (hl : Registered l) (ht : WellFormed t) (keep : Bool)
    (ha : l.actions[id]? = some a) (hrole : a.role = .extract field confidence) :
    ∃ s, (t.announce l.threshold l.rangesAt (l.listen t)).run (Session.start l keep) =
      .ok ((), s) ∧ s.valueOf id = (l.trials t).findSome? (foundIn l t id) := by
  have hid : id < l.actions.size := (Array.getElem?_eq_some_iff.1 ha).1
  have hnone : (Session.start l keep).valueOf id = none := by simp [Session.start, valueOf, hid]
  obtain ⟨s, hs⟩ := exists_run hl ht keep
  refine ⟨s, ?_, ?_⟩
  · unfold trials at hs
    rw [announce_eq t _ _ _ ht, run_listen, hs]
    rfl
  · rw [run_valueOf ha hrole (by simpa [Session.start] using hid) hs, hnone, Option.none_or]

section Analysis
variable {l : CompiledLibrary} {t : SyntaxTree} {expression : String}
  {specs : List (IndexSpec × String)} {runs : List WordRange} {id : Nat} {a : Action}
  {field : String} {confidence : Int}

/-- **What an expression that takes segments finds by its keys.** One run is found at the first node
on the way down whose kind has it, more than one nowhere. -/
theorem valueOf_ranged (hl : Registered l) (ht : WellFormed t) (keep : Bool)
    (he : Expr.parse expression = .ok (.ranged specs runs)) (ha : l.actions[id]? = some a)
    (hexpression : a.path.expression = expression) (hrole : a.role = .extract field confidence) :
    ∃ downs s, resolveDowns specs = .ok downs ∧ (∀ d ∈ downs, IsName d.2) ∧
      (t.announce l.threshold l.rangesAt (l.listen t)).run (Session.start l keep) = .ok ((), s) ∧
      (∀ run, runs = [run] →
        s.valueOf id = (reach t (lowered downs) 0).findSome? (t.cut run)) ∧
      (2 ≤ runs.length → s.valueOf id = none) := by
  have hcompiled := hl.compiled id a ha
  unfold IsCompiled at hcompiled
  rw [hrole, hexpression] at hcompiled
  obtain ⟨downs, hdowns, hnames, hchain, hkeys, hranges⟩ :=
    compile_ranged he (compileExtract_eq_ok hcompiled.1).1
  obtain ⟨s, hs, hvalue⟩ := exists_valueOf hl ht keep ha hrole
  have hplain : ∀ p ∈ (Draft.ofRanged downs runs).paths, Plain (lower p) := by
    intro p hp
    refine (regular_of_isCompiled (hl.compiled id a ha)).plain ⟨p, .path⟩ ?_
    rw [hkeys]
    exact List.mem_map.2 ⟨p, hp, rfl⟩
  rw [findSome?_trials_path hl ha hkeys hplain hchain ht] at hvalue
  refine ⟨downs, s, hdowns, hnames, hs, fun run hrun => ?_, fun hlen => ?_⟩
  · subst hrun
    rw [hvalue, lower_ofRanged_single hnames]
    refine findSome?_notices_ranged ht (isPlainName_lowered hnames) fun p hp => ?_
    obtain ⟨q, rfl, hq⟩ := exists_asked hnames run hp
    rw [← hranges] at hq
    exact hl.mem_rangesAt id a ha (q, run) hq
  · rw [hvalue, List.findSome?_eq_none_iff]
    intro x hx
    refine if_neg fun h => ?_
    obtain ⟨p, hp, hpx⟩ := List.mem_map.1 h
    obtain ⟨q, first, last, hq⟩ := lower_ofRanged_many hnames hlen hp
    exact not_ranged_twice ht hx q first last (hpx.symm.trans hq)

end Analysis

/-- **A run of segments is found as the kind of the node divides its text.** For an expression that
goes down from the root and takes runs of segments, and the tree of a text: what it finds by its
keys is one run of the first node that walking down by the lower-case names reaches and that has
this run, as its kind is divided. For nodes that are divided at words this is what the chain finds
from the root that does the same steps. More than one run is never found. -/
theorem ranged_found_by_kind {library : RuleLibrary} {threshold : Nat} {l : CompiledLibrary}
    {text : String} {t : SyntaxTree} {expression : String} {specs : List (IndexSpec × String)}
    {runs : List WordRange} {id : Nat} {a : Action} {field : String} {confidence : Int}
    (keep : Bool) (hl : compile library threshold = .ok l) (ht : Grammar.parse text = .ok t)
    (he : Expr.parse expression = .ok (.ranged specs runs)) (ha : l.actions[id]? = some a)
    (hexpression : a.path.expression = expression) (hrole : a.role = .extract field confidence) :
    ∃ downs s, resolveDowns specs = .ok downs ∧
      (Expr.ranged specs runs).runtimeChain l.registry = .ok (stepsDown downs ++ stepsWords runs) ∧
      ((∀ d ∈ downs, IsLowerCase d.2) → lowered downs = downs) ∧
      (t.announce l.threshold l.rangesAt (l.listen t)).run (Session.start l keep) = .ok ((), s) ∧
      (∀ run, runs = [run] → s.valueOf id = (reach t (lowered downs) 0).findSome? fun n =>
        (t.kind n).splitting.bind fun cut => cut.range (t.text n) run.first run.last) ∧
      (∀ run, runs = [run] → (∃ d ∈ (lowered downs).getLast?, d.2 ∈ wordNames) →
        s.valueOf id =
          (walk t (stepsDown (lowered downs) ++ stepsWords runs) 0 none).map (·.2)) ∧
      (2 ≤ runs.length → s.valueOf id = none) := by
  have hwf := (Grammar.built_of_parse ht).wellFormed
  obtain ⟨downs, s, hdowns, hnames, hs, hone, hmany⟩ :=
    valueOf_ranged (registered_of_compile hl) hwf keep he ha hexpression hrole
  refine ⟨downs, s, hdowns, runtimeChain_ranged hdowns runs, lowered_eq_self hnames, hs, hone, ?_,
    hmany⟩
  rintro run rfl hlast
  rw [hone run rfl]
  exact cut_eq_walk (splitting_of_mem_reach hwf hlast)

/-! ### A product with a version -/

/-- A library of one rule, which writes what an expression extracts. -/
def extractRule (expression : String) : RuleLibrary :=
  ⟨[], [], [⟨{}, [], ["Value:1:" ++ expression]⟩]⟩

theorem action_extractRule {expression : String} {e : Expr} {l : CompiledLibrary}
    (hline : ExtractLine.parse ("Value:1:" ++ expression) = .ok ⟨"Value", 1, expression⟩)
    (he : Expr.parse expression = .ok e) (htext : ∀ text, e ≠ .fixed text)
    (hl : compile (extractRule expression) 0 = .ok l) :
    ∃ a, l.actions[0]? = some a ∧ a.path.expression = expression ∧ a.role = .extract "Value" 1 := by
  have hfixed {r : Registry} {c : CompiledPath}
      (h : CompiledPath.compileExtract r expression = .ok c) : c.fixedValue = none := by
    obtain ⟨e', he', ⟨⟨text, rfl⟩, -⟩ | ⟨-, hnone⟩⟩ :=
      CompiledPath.compile_cases (compileExtract_eq_ok h).1
    · rw [he] at he'
      cases he'
      exact absurd rfl (htext text)
    · exact hnone
  obtain ⟨r, -, hl⟩ := Outcome.bind_eq_ok_iff.1 hl
  obtain ⟨l₁, hl₁, hl⟩ := Outcome.bind_eq_ok_iff.1 hl
  cases hl
  obtain ⟨-, s, s', hs, hs', rfl⟩ := addRule_eq_ok.1 hl₁
  cases hs
  obtain ⟨s, hs, hs'⟩ := Outcome.bind_eq_ok_iff.1 hs'
  cases hs'
  obtain ⟨line, hparsed, hs⟩ := Outcome.bind_eq_ok_iff.1 hs
  rw [hline] at hparsed
  cases hparsed
  obtain ⟨path, hpath, hs⟩ := Outcome.bind_eq_ok_iff.1 hs
  rw [hfixed hpath] at hs
  cases hs
  refine ⟨⟨0, .extract "Value" 1, path⟩, ?_, expression_of_compile (compileExtract_eq_ok hpath).1,
    rfl⟩
  dsimp only [close]
  rw [getElem?_addAction]
  exact if_pos rfl

/-- The tree of a name of two words with a version. -/
def named : SyntaxTree :=
  ⟨"Foo Bar/5+0", #[⟨.agent, none, #[1], 0, 11⟩, ⟨.product, some 0, #[2, 4, 5], 0, 11⟩,
    ⟨.productName, some 1, #[3], 0, 7⟩, ⟨.name, some 2, #[], 0, 7⟩, ⟨.separator, some 1, #[], 7, 8⟩,
    ⟨.productVersion, some 1, #[6], 8, 11⟩, ⟨.version, some 5, #[], 8, 11⟩], false⟩

theorem parse_named : Grammar.parse "Foo Bar/5+0" = .ok named := by
  have hscan : Token.scan "Foo Bar/5+0" = [⟨.word, 0, ['F', 'o', 'o']⟩, ⟨.space, 3, [' ']⟩,
      ⟨.word, 4, ['B', 'a', 'r']⟩, ⟨.slash, 7, ['/']⟩, ⟨.word, 8, ['5', '+', '0']⟩] := by
    decide +kernel
  have hversions : Grammar.behindVersions ⟨.word, 0, ['F', 'o', 'o']⟩ [⟨.space, 3, [' ']⟩,
      ⟨.word, 4, ['B', 'a', 'r']⟩, ⟨.slash, 7, ['/']⟩, ⟨.word, 8, ['5', '+', '0']⟩] = [] := by
    decide
  have hnone : Grammar.blocks 0 [] = ([], false) := Grammar.blocks_none rfl
  have hbehind : Grammar.behindBlocks 0 [] = [] := Grammar.behindBlocks_none rfl
  rw [Grammar.parse, hscan, Grammar.items_product rfl (by decide), Grammar.productBranch, hversions,
    hnone, hbehind, Grammar.items_nil]
  rfl

/-- The version of the product is not divided at the plus sign: its first segment is all of it. -/
theorem version_found_by_kind : ∃ l s,
    compile (extractRule "agent.(1)product.(1)version[1]") 0 = .ok l ∧
    Grammar.parse "Foo Bar/5+0" = .ok named ∧
    Expr.parse "agent.(1)product.(1)version[1]" =
      .ok (.ranged [(.single 1, "product"), (.single 1, "version")] [⟨1, 1⟩]) ∧
    (named.announce l.threshold l.rangesAt (l.listen named)).run (Session.start l true) =
      .ok ((), s) ∧ s.valueOf 0 = some "5+0" := by
  have hok : (compile (extractRule "agent.(1)product.(1)version[1]") 0).isOk = true := by
    decide +kernel
  have he : Expr.parse "agent.(1)product.(1)version[1]" =
      .ok (.ranged [(.single 1, "product"), (.single 1, "version")] [⟨1, 1⟩]) := by decide +kernel
  obtain ⟨l, hl⟩ := Outcome.exists_eq_ok hok
  obtain ⟨a, ha, hexpression, hrole⟩ := action_extractRule (by decide +kernel) he (by nofun) hl
  obtain ⟨downs, s, hdowns, -, -, hs, hone, -, -⟩ :=
    ranged_found_by_kind true hl parse_named he ha hexpression hrole
  cases hdowns
  refine ⟨l, s, hl, parse_named, he, hs, ?_⟩
  rw [hone _ rfl]
  decide +kernel

/-- What an expression finds in the tree by its keys, and what the chain that does the same finds. -/
def Finds (expression : String) (byKeys byWalking : Option String) : Prop :=
  ∃ l s specs runs chain, compile (extractRule expression) 0 = .ok l ∧
    Expr.parse expression = .ok (.ranged specs runs) ∧
    (Expr.ranged specs runs).runtimeChain l.registry = .ok chain ∧
    (named.announce l.threshold l.rangesAt (l.listen named)).run (Session.start l true) =
      .ok ((), s) ∧
    s.valueOf 0 = byKeys ∧ (walk named chain 0 none).map (·.2) = byWalking

theorem finds_of_reach {expression : String} (specs : List (IndexSpec × String))
    (runs : List WordRange) {downs : List (IndexRange × String)} {byKeys byWalking : Option String}
    (hline : ExtractLine.parse ("Value:1:" ++ expression) = .ok ⟨"Value", 1, expression⟩)
    (he : Expr.parse expression = .ok (.ranged specs runs))
    (hok : (compile (extractRule expression) 0).isOk = true)
    (hdowns : resolveDowns specs = .ok downs)
    (hkeys : (∃ run, runs = [run] ∧
        (reach named (lowered downs) 0).findSome? (named.cut run) = byKeys) ∨
      2 ≤ runs.length ∧ byKeys = none)
    (hwalk : (walk named (stepsDown downs ++ stepsWords runs) 0 none).map (·.2) = byWalking) :
    Finds expression byKeys byWalking := by
  obtain ⟨l, hl⟩ := Outcome.exists_eq_ok hok
  obtain ⟨a, ha, hexpression, hrole⟩ := action_extractRule hline he (by nofun) hl
  have hwf := (Grammar.built_of_parse parse_named).wellFormed
  obtain ⟨downs', s, hdowns', -, hs, hone, hmany⟩ :=
    valueOf_ranged (registered_of_compile hl) hwf true he ha hexpression hrole
  rw [hdowns] at hdowns'
  cases hdowns'
  refine ⟨l, s, specs, runs, _, hl, he, runtimeChain_ranged hdowns runs, hs, ?_, hwalk⟩
  rcases hkeys with ⟨run, rfl, hrun⟩ | ⟨hlen, rfl⟩
  · rw [hone run rfl, hrun]
  · exact hmany hlen

/-- **Keys and chains take segments differently.** A version is not divided at the same marks, a
product and the root are not divided at all, a run of a run is not told, and names are compared in
lower case. -/
theorem ranged_ne_walk :
    Finds "agent.(1)product.(1)version[1]" (some "5+0") (some "5") ∧
    Finds "agent.(1)product[1]" none (some "Foo") ∧
    Finds "agent[1]" none (some "Foo") ∧
    Finds "agent.(1)product.(1)name[1-2][1]" none (some "Foo") ∧
    Finds "agent.(1)Product.(1)name[1]" (some "Foo") none := by
  refine ⟨?_, ?_, ?_, ?_, ?_⟩
  · exact finds_of_reach [(.single 1, "product"), (.single 1, "version")] [⟨1, 1⟩]
      (by decide +kernel) (by decide +kernel) (by decide +kernel) rfl
      (.inl ⟨_, rfl, by decide +kernel⟩) (by decide +kernel)
  · exact finds_of_reach [(.single 1, "product")] [⟨1, 1⟩]
      (by decide +kernel) (by decide +kernel) (by decide +kernel) rfl
      (.inl ⟨_, rfl, by decide +kernel⟩) (by decide +kernel)
  · exact finds_of_reach [] [⟨1, 1⟩]
      (by decide +kernel) (by decide +kernel) (by decide +kernel) rfl
      (.inl ⟨_, rfl, by decide +kernel⟩) (by decide +kernel)
  · exact finds_of_reach [(.single 1, "product"), (.single 1, "name")] [⟨1, 2⟩, ⟨1, 1⟩]
      (by decide +kernel) (by decide +kernel) (by decide +kernel) rfl
      (.inr ⟨by decide, rfl⟩) (by decide +kernel)
  · exact finds_of_reach [(.single 1, "Product"), (.single 1, "name")] [⟨1, 1⟩]
      (by decide +kernel) (by decide +kernel) (by decide +kernel) rfl
      (.inl ⟨_, rfl, by decide +kernel⟩) (by decide +kernel)

end AgentRules
