import AgentRules.Proofs.Index.Choices
import AgentRules.Proofs.Index.Folding

/-! # Expressions that take segments

An expression that goes down from the root and then takes runs of segments (`Expr.ranged`) is written
out into paths as a whole: its chain is empty, and each of its keys is the path of a node with the
runs behind it. The first run is asked for at the paths of nodes, and every further one at a path
with a run, where nothing is ever told (`Draft.ofRanged_many`). The steps that a walk would take
instead compare names as they are written, the keys in lower case; `lowered` makes up for this
(`lower_spread`). -/

namespace AgentRules

open Text Outcome

/-- Goes down from the root and then takes runs of segments. -/
def Expr.ranged (specs : List (IndexSpec × String)) (runs : List WordRange) : Expr :=
  .path NodePath.root (specs.map (fun d => .down d.1 d.2) ++ runs.map .words)

/-- The children that steps down try at each level. -/
def resolveDowns (specs : List (IndexSpec × String)) : Except Fault (List (IndexRange × String)) :=
  specs.mapM fun s => (resolveIndices s.1 s.2).map (·, s.2)

def stepsDown (downs : List (IndexRange × String)) : Chain := downs.map fun d => .down d.1 d.2

def stepsWords (runs : List WordRange) : Chain := runs.map fun r => .change (.words r)

def lowered (downs : List (IndexRange × String)) : List (IndexRange × String) :=
  downs.map fun d => (d.1, lower d.2)

/-- The draft of steps down and runs of segments. -/
def Draft.ofRanged (downs : List (IndexRange × String)) (runs : List WordRange) : Draft :=
  runs.foldl Draft.takeWords { paths := spread [NodePath.root] downs }

variable {r : Registry}

/-! ### Steps down -/

section Downs
variable {specs : List (IndexSpec × String)} {downs : List (IndexRange × String)}

theorem resolveDowns_cons {indices : IndexSpec} {name : String} {range : IndexRange}
    (hrange : resolveIndices indices name = .ok range) (h : resolveDowns specs = .ok downs) :
    resolveDowns ((indices, name) :: specs) = .ok ((range, name) :: downs) := by
  rw [resolveDowns, List.mapM_cons, bind_eq_ok_iff]
  refine ⟨(range, name), map_eq_ok_iff.2 ⟨range, hrange, rfl⟩, ?_⟩
  exact bind_eq_ok_iff.2 ⟨downs, h, rfl⟩

theorem exists_of_resolveDowns_cons {s : IndexSpec × String}
    (h : resolveDowns (s :: specs) = .ok downs) :
    ∃ range rest, resolveIndices s.1 s.2 = .ok range ∧ resolveDowns specs = .ok rest ∧
      downs = (range, s.2) :: rest := by
  rw [resolveDowns, List.mapM_cons, bind_eq_ok_iff] at h
  obtain ⟨d, hd, h⟩ := h
  obtain ⟨range, hrange, rfl⟩ := map_eq_ok_iff.1 hd
  obtain ⟨rest, hrest, h⟩ := bind_eq_ok_iff.1 h
  cases h
  exact ⟨range, rest, hrange, hrest, rfl⟩

theorem names_of_resolveDowns (h : resolveDowns specs = .ok downs) :
    downs.map (·.2) = specs.map (·.2) := by
  induction specs generalizing downs with
  | nil =>
    cases h
    rfl
  | cons s specs ih =>
    obtain ⟨range, rest, -, hrest, rfl⟩ := exists_of_resolveDowns_cons h
    rw [List.map_cons, List.map_cons, ih hrest]

theorem runtimeChain_ranged (h : resolveDowns specs = .ok downs) (runs : List WordRange) :
    (Expr.ranged specs runs).runtimeChain r = .ok (stepsDown downs ++ stepsWords runs) := by
  have hwords : (runs.map fun run => Stage.step (.words run)).mapM (Stage.compile r) =
      .ok (stepsWords runs) := by
    induction runs with
    | nil => rfl
    | cons run runs ih => exact mapM_cons_ok rfl ih
  have hdowns : (specs.map fun s => Stage.step (.down s.1 s.2)).mapM (Stage.compile r) =
      .ok (stepsDown downs) := by
    induction specs generalizing downs with
    | nil =>
      cases h
      rfl
    | cons s specs ih =>
      obtain ⟨range, rest, hrange, hrest, rfl⟩ := exists_of_resolveDowns_cons h
      exact mapM_cons_ok (map_eq_ok_iff.2 ⟨range, hrange, rfl⟩) (ih hrest)
  rw [Expr.runtimeChain, Expr.ranged, Expr.stages, List.map_append, List.map_map, List.map_map]
  exact mapM_append_ok hdowns hwords

end Downs

/-! ### Compiling -/

namespace Draft
variable {d d' : Draft} {downs : List (IndexRange × String)} {runs : List WordRange}

theorem steps_downs {specs : List (IndexSpec × String)} (hd : d.isDynamic = false)
    (h : (specs.map fun s => PathStep.down s.1 s.2).foldlM (Draft.step r) d = .ok d') :
    ∃ downs, resolveDowns specs = .ok downs ∧ d' = { d with paths := spread d.paths downs } := by
  induction specs generalizing d with
  | nil =>
    cases h
    exact ⟨[], rfl, rfl⟩
  | cons s specs ih =>
    obtain ⟨indices, name⟩ := s
    rw [List.map_cons, List.foldlM_cons] at h
    obtain ⟨d₁, hd₁, h⟩ := bind_eq_ok_iff.1 h
    unfold Draft.step at hd₁
    rw [if_neg (by simp [hd])] at hd₁
    obtain ⟨range, hrange, rfl⟩ := map_eq_ok_iff.1 hd₁
    obtain ⟨downs, hdowns, rfl⟩ := ih (d := d.descend range name) hd h
    exact ⟨(range, name) :: downs, resolveDowns_cons hrange hdowns, rfl⟩

theorem steps_words (hd : d.isDynamic = false) :
    (runs.map PathStep.words).foldlM (Draft.step r) d = .ok (runs.foldl Draft.takeWords d) := by
  induction runs generalizing d with
  | nil => rfl
  | cons run runs ih =>
    have hstep : d.step r (.words run) = .ok (d.takeWords run) := by
      unfold Draft.step
      rw [if_neg (by simp [hd])]
    rw [List.map_cons, List.foldlM_cons, hstep]
    exact ih (d := d.takeWords run) hd

theorem frame_takeWords (d : Draft) (runs : List WordRange) :
    (runs.foldl Draft.takeWords d).selector = d.selector ∧
      (runs.foldl Draft.takeWords d).steps = d.steps := by
  induction runs generalizing d with
  | nil => exact ⟨rfl, rfl⟩
  | cons run runs ih => exact ih (d.takeWords run)

theorem ofRanged_single (downs : List (IndexRange × String)) (run : WordRange) :
    (ofRanged downs [run]).paths = (spread [NodePath.root] downs).map (· ++ run.pathForm) ∧
      ∀ p ∈ spread [NodePath.root] downs, (p, run) ∈ (ofRanged downs [run]).ranges :=
  ⟨rfl, fun p hp => List.mem_append_right _ (List.mem_map.2 ⟨p, hp, rfl⟩)⟩

/-- Behind more than one run, every path ends in two of them. -/
theorem ofRanged_many (h : 2 ≤ runs.length) {p : String} (hp : p ∈ (ofRanged downs runs).paths) :
    ∃ q first last, p = q ++ WordRange.pathForm first ++ WordRange.pathForm last := by
  obtain ⟨init, last, rfl⟩ := List.eq_nil_or_concat runs |>.resolve_left (by rintro rfl; simp at h)
  obtain ⟨init, first, rfl⟩ := List.eq_nil_or_concat init |>.resolve_left (by rintro rfl; simp at h)
  simp only [ofRanged, List.concat_eq_append, List.foldl_append, List.foldl_cons,
    List.foldl_nil] at hp
  obtain ⟨p', hp', rfl⟩ := List.mem_map.1 hp
  obtain ⟨q, -, rfl⟩ := List.mem_map.1 hp'
  exact ⟨q, first, last, rfl⟩

end Draft

/-- **An expression that takes segments compiles to paths alone.** -/
theorem compile_ranged {expression : String} {specs : List (IndexSpec × String)}
    {runs : List WordRange} {c : CompiledPath}
    (he : Expr.parse expression = .ok (.ranged specs runs))
    (hc : CompiledPath.compile r expression = .ok c) :
    ∃ downs, resolveDowns specs = .ok downs ∧ (∀ d ∈ downs, IsName d.2) ∧ c.chain = [] ∧
      c.keys = (Draft.ofRanged downs runs).paths.map (⟨·, .path⟩) ∧
      c.ranges = (Draft.ofRanged downs runs).ranges := by
  have hwf : ∀ s ∈ specs, IsName s.2 := fun s hs => by
    have hsteps := (Expr.readable_of_parse he).wellFormed.2
    exact (hsteps (.down s.1 s.2) (List.mem_append_left _ (List.mem_map.2 ⟨s, hs, rfl⟩))).2
  unfold CompiledPath.compile at hc
  obtain ⟨e, he', hc⟩ := bind_eq_ok_iff.1 hc
  rw [he] at he'
  cases he'
  obtain ⟨d, hd, hc⟩ := bind_eq_ok_iff.1 hc
  cases hc
  have hd : (List.map (fun s : IndexSpec × String => PathStep.down s.1 s.2) specs ++
      runs.map PathStep.words).foldlM (Draft.step r) { paths := [NodePath.root] } = .ok d := hd
  rw [List.foldlM_append] at hd
  obtain ⟨d₁, hd₁, hd⟩ := bind_eq_ok_iff.1 hd
  obtain ⟨downs, hdowns, rfl⟩ := Draft.steps_downs rfl hd₁
  rw [Draft.steps_words rfl] at hd
  cases hd
  obtain ⟨hselector, hsteps⟩ :=
    Draft.frame_takeWords { paths := spread [NodePath.root] downs } runs
  refine ⟨downs, hdowns, fun d hd => ?_, hsteps, ?_, rfl⟩
  · have hmem : d.2 ∈ specs.map (·.2) := by
      rw [← names_of_resolveDowns hdowns]
      exact List.mem_map.2 ⟨d, hd, rfl⟩
    obtain ⟨s, hs, hname⟩ := List.mem_map.1 hmem
    rw [← hname]
    exact hwf s hs
  · dsimp only
    rw [hselector]
    rfl

/-! ### Lower case -/

section Lower
variable {downs : List (IndexRange × String)} (hnames : ∀ d ∈ downs, IsName d.2)
include hnames

theorem isPathText_spread : ∀ p ∈ spread [NodePath.root] downs, IsPathText p := by
  induction downs using List.reverseRec with
  | nil =>
    intro p hp
    rw [List.mem_singleton.1 hp]
    exact isPathText_of_plain plain_root
  | append_singleton downs d ih =>
    obtain ⟨range, name⟩ := d
    intro p hp
    rw [spread_append, List.mem_flatMap] at hp
    obtain ⟨q, hq, hp⟩ := hp
    obtain ⟨i, -, rfl⟩ := List.mem_map.1 hp
    have hq := ih (fun d hd => hnames d (List.mem_append_left _ hd)) q hq
    exact isPathText_child hq (isPathText_of_isName (hnames (range, name) (by simp)))

/-- **What is written out of names is their lower-case forms written out, in lower case.** -/
theorem lower_spread : (spread [NodePath.root] downs).map lower =
    spread [NodePath.root] (lowered downs) := by
  induction downs using List.reverseRec with
  | nil => exact congrArg (fun p => [p]) (lower_plain plain_root)
  | append_singleton downs d ih =>
    obtain ⟨range, name⟩ := d
    have hinit : ∀ d ∈ downs, IsName d.2 := fun d hd => hnames d (List.mem_append_left _ hd)
    have hname : IsPathText name := isPathText_of_isName (hnames (range, name) (by simp))
    have hlast : lowered (downs ++ [(range, name)]) = lowered downs ++ [(range, lower name)] :=
      List.map_append
    rw [hlast, spread_append, spread_append, ← ih hinit, List.map_flatMap, List.flatMap_map]
    refine List.flatMap_congr fun p hp => ?_
    rw [List.map_map]
    refine List.map_congr_left fun i _ => ?_
    exact lower_child (isPathText_spread hinit p hp) hname

theorem lower_ofRanged_single (run : WordRange) : (Draft.ofRanged downs [run]).paths.map lower =
    (spread [NodePath.root] (lowered downs)).map (· ++ run.pathForm) := by
  have hrun := plain_pathForm run
  rw [(Draft.ofRanged_single downs run).1, ← lower_spread hnames, List.map_map, List.map_map]
  refine List.map_congr_left fun p hp => ?_
  exact ((isPathText_spread hnames p hp).lower_append (isPathText_of_plain hrun)).trans
    (congrArg (lower p ++ ·) (lower_plain hrun))

theorem exists_asked (run : WordRange) {p : String}
    (hp : p ∈ spread [NodePath.root] (lowered downs)) :
    ∃ q, lower q = p ∧ (q, run) ∈ (Draft.ofRanged downs [run]).ranges := by
  rw [← lower_spread hnames] at hp
  obtain ⟨q, hq, rfl⟩ := List.mem_map.1 hp
  exact ⟨q, rfl, (Draft.ofRanged_single downs run).2 q hq⟩

theorem lower_ofRanged_many {runs : List WordRange} (h : 2 ≤ runs.length) {p : String}
    (hp : p ∈ (Draft.ofRanged downs runs).paths) :
    ∃ q first last, lower p = q ++ WordRange.pathForm first ++ WordRange.pathForm last := by
  have htext : ∀ p ∈ (Draft.ofRanged downs runs).paths, IsPathText p := by
    have hstep (d : Draft) (hd : ∀ p ∈ d.paths, IsPathText p) (runs : List WordRange) :
        ∀ p ∈ (runs.foldl Draft.takeWords d).paths, IsPathText p := by
      induction runs generalizing d with
      | nil => exact hd
      | cons run runs ih =>
        refine ih (d.takeWords run) fun p hp => ?_
        obtain ⟨q, hq, rfl⟩ := List.mem_map.1 hp
        exact (hd q hq).append (isPathText_of_plain (plain_pathForm run))
    exact hstep _ (isPathText_spread hnames) runs
  obtain ⟨q, first, last, hpq⟩ := Draft.ofRanged_many h hp
  have hp := htext p hp
  rw [hpq] at hp ⊢
  refine ⟨lower q, first, last, ?_⟩
  rw [hp.of_append_left.lower_append (isPathText_of_plain (plain_pathForm last)),
    hp.of_append_left.of_append_left.lower_append (isPathText_of_plain (plain_pathForm first)),
    lower_plain (plain_pathForm first), lower_plain (plain_pathForm last)]

end Lower

theorem isPlainName_lowered {downs : List (IndexRange × String)}
    (hnames : ∀ d ∈ downs, IsName d.2) : ∀ d ∈ lowered downs, IsPlainName d.2 := by
  intro d hd
  obtain ⟨x, hx, rfl⟩ := List.mem_map.1 hd
  refine isPlainName_of_named (isNameChar_of_mem_lower (hnames x hx)) fun c hc => ?_
  have hplain := (isPathText_of_isName (hnames x hx)).plain_lower c hc
  have hcapital : ¬ ('A' ≤ c ∧ c ≤ 'Z') := (plain_bounds hplain).2
  exact Bool.eq_false_iff.2 fun hupper => hcapital (of_decide_eq_true hupper)

theorem lowered_eq_self {downs : List (IndexRange × String)} (hnames : ∀ d ∈ downs, IsName d.2)
    (hlower : ∀ d ∈ downs, IsLowerCase d.2) : lowered downs = downs := by
  refine (List.map_congr_left fun d hd => ?_).trans (List.map_id' downs)
  have hname : lower d.2 = d.2 := by
    rw [← String.toList_inj, (isPathText_of_isName (hnames d hd)).toList_lower]
    refine (List.map_congr_left fun c hc => ?_).trans (List.map_id' _)
    have hcapital := hlower d hd c hc
    exact toLower_eq_self (of_decide_eq_false hcapital)
  rw [hname]

end AgentRules
