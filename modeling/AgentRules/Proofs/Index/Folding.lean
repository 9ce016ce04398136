import AgentRules.Proofs.Chain.Reach
import AgentRules.Proofs.Expr.Readable

/-! # Folding a path into keys

An expression does one thing after another: its stages are the steps of the innermost path, then
what the function around it does, then the steps behind that, and so on. `runtimeChain` leaves all
of them to a chain. Compiling folds the first ones into paths and a selector instead; a draft
`Folds` the stages so far if walking them is a search through the nodes that have one of its paths,
for the first whose text passes the selector and from which its own chain can be walked.

Every step of compiling keeps this (`holds_step`), so a compiled expression folds all of its stages
(`holds_visit`). The paths have to be in lower case and must not take segments, and what is compared
with the value has to be in ASCII: `IsFoldable`. -/

namespace AgentRules

open Chain Text Outcome

/-! ### Stages -/

/-- One thing that an expression does. -/
inductive Stage
  | step (s : PathStep)
  | wrapper (w : Wrapper)

def Stage.compile (r : Registry) : Stage → Except Fault Step
  | step s => s.compile r
  | wrapper w => w.compile r

namespace Expr

def root : Expr → Option String
  | .fixed _ => none
  | .path root _ => some root
  | .wrapped _ inner _ => inner.root

/-- What an expression does, in order. -/
def stages : Expr → List Stage
  | .fixed _ => []
  | .path _ steps => steps.map .step
  | .wrapped w inner steps => inner.stages ++ .wrapper w :: steps.map .step

/-- The chain that does everything the expression does. -/
def runtimeChain (r : Registry) (e : Expr) : Except Fault Chain := e.stages.mapM (Stage.compile r)

end Expr

/-- A name without capital letters. -/
def IsLowerCase (name : String) : Prop := ∀ c ∈ name.toList, c.isUpper = false

instance (name : String) : Decidable (IsLowerCase name) :=
  decidable_of_iff (name.toList.all fun c => !c.isUpper) (by simp [IsLowerCase])

/-- Whether the stages up to the first one that is left to the chain go down by names in lower case
or end in a comparison with an ASCII text; segments must not be taken. -/
def IsFoldable : List Stage → Prop
  | [] => True
  | .step (.down _ name) :: rest => IsLowerCase name ∧ IsFoldable rest
  | .step (.words _) :: _ => False
  | .step (.equals text) :: _ => IsAscii text.toList
  | .step (.startsWith text) :: rest =>
    if text = "" then IsFoldable rest else IsAscii text.toList
  | .wrapper .isNull :: rest => IsFoldable rest
  | _ :: _ => True

theorem mapM_append_ok {r : Registry} {a b : List Stage} {ca cb : Chain}
    (ha : a.mapM (Stage.compile r) = .ok ca) (hb : b.mapM (Stage.compile r) = .ok cb) :
    (a ++ b).mapM (Stage.compile r) = .ok (ca ++ cb) := by
  rw [List.mapM_append, ha, bind_eq_ok_iff]
  exact ⟨ca, rfl, by rw [hb]; rfl⟩

theorem mapM_cons_ok {r : Registry} {s : Stage} {a : List Stage} {c : Step} {ca : Chain}
    (hs : s.compile r = .ok c) (ha : a.mapM (Stage.compile r) = .ok ca) :
    (s :: a).mapM (Stage.compile r) = .ok (c :: ca) := by
  rw [List.mapM_cons, hs, bind_eq_ok_iff]
  exact ⟨c, rfl, by rw [ha]; rfl⟩

/-! ### Selectors -/

def Selector.accepts (v : String) : Selector → Bool
  | path => true
  | value text => equalFold v text
  | head text => startsFold v text

/-- The selectors that expressions fold into: ASCII texts, and heads of a few characters. -/
def Selector.IsFolded : Selector → Prop
  | path => True
  | value text => IsAscii text.toList
  | head text => IsAscii text.toList ∧ text ≠ "" ∧ text.length ≤ headLength

/-- A name in characters of which paths are made, brackets apart. -/
def IsPlainName (name : String) : Prop := ∀ c ∈ name.toList, isLowerAlnum c = true ∨ c = '_'

theorem isPlainName_of_named {name : String} (hn : ∀ c ∈ name.toList, Expr.isNameChar c = true)
    (hl : IsLowerCase name) : IsPlainName name := by
  intro c hc
  have hname : ((c.isUpper || c.isLower || c.isDigit) || c = '_') = true := hn c hc
  rw [hl c hc, Bool.false_or, Bool.or_eq_true, Bool.or_eq_true, decide_eq_true_eq] at hname
  rcases hname with (hlower | hdigit) | hmark
  · have hrange : (c.val ≥ 'a'.val && c.val ≤ 'z'.val) = true := hlower
    rw [Bool.and_eq_true, decide_eq_true_eq, decide_eq_true_eq] at hrange
    exact .inl (isLowerAlnum_iff.2 (.inl hrange))
  · exact .inl (by simp [isLowerAlnum, hdigit])
  · exact .inr hmark

/-! ### Drafts -/

/-- Walking `done` is searching through the nodes of the paths of the draft. -/
structure Folds (d : Draft) (done : Chain) (downs : List (IndexRange × String)) : Prop where
  paths : d.paths = spread [NodePath.root] downs
  plain : ∀ x ∈ downs, IsPlainName x.2
  selector : d.selector.IsFolded
  walk_append : ∀ (t : SyntaxTree) (rest : Chain), walk t (done ++ rest) 0 none =
    (reach t downs 0).findSome? fun n =>
      if d.selector.accepts (t.text n) then walk t (d.steps ++ rest) n none else none
  static : d.isDynamic = false → d.selector = .path ∧ ∀ s ∈ d.steps, s = .isNull

namespace Folds
variable {d : Draft} {done : Chain} {downs : List (IndexRange × String)}

theorem push (h : Folds d done downs) (s : Step) : Folds (d.push s) (done ++ [s]) downs := by
  refine ⟨h.paths, h.plain, h.selector, fun t rest => ?_, fun hd => by cases hd⟩
  rw [List.append_assoc, h.walk_append t ([s] ++ rest)]
  simp only [Draft.push, List.append_assoc]

/-- Walking a draft that is static is walking from each node that is reached. -/
theorem walk_static (h : Folds d done downs) (hd : d.isDynamic = false) (t : SyntaxTree)
    (rest : Chain) :
    walk t (done ++ rest) 0 none = (reach t downs 0).findSome? (walk t rest · none) := by
  obtain ⟨hs, hmarks⟩ := h.static hd
  rw [h.walk_append t rest]
  refine findSome?_congr fun n _ => ?_
  rw [hs, Selector.accepts, if_pos rfl, walk_marks_append hmarks]

theorem descend (h : Folds d done downs) (hd : d.isDynamic = false) {range : IndexRange}
    {name : String} (hname : IsPlainName name) :
    Folds (d.descend range name) (done ++ [.down range name]) (downs ++ [(range, name)]) := by
  obtain ⟨hs, hmarks⟩ := h.static hd
  refine ⟨?_, ?_, h.selector, fun t rest => ?_, fun _ => ⟨hs, hmarks⟩⟩
  · rw [spread_append, ← h.paths]
    rfl
  · intro x hx
    rcases List.mem_append.1 hx with hx | hx
    · exact h.plain x hx
    · rw [List.mem_singleton.1 hx]
      exact hname
  · have hsel : (d.descend range name).selector = .path := hs
    have hsteps : (d.descend range name).steps = d.steps := rfl
    rw [List.append_assoc, h.walk_static hd t, reach_append, findSome?_flatMap]
    simp only [hsel, hsteps, Selector.accepts, ↓reduceIte, walk_marks_append hmarks]
    refine findSome?_congr fun n _ => ?_
    show walk t (.down range name :: rest) n none = _
    rw [walk]

theorem select (h : Folds d done downs) (hd : d.isDynamic = false) {c : Test} {s : Selector}
    {steps : Chain} (hs : s.IsFolded) (hsteps : ∀ (t : SyntaxTree) (n : Nat) (rest : Chain),
      walk t (.test c :: rest) n none =
        if s.accepts (t.text n) then walk t (steps ++ rest) n none else none) :
    Folds { d with selector := s, isDynamic := true, steps := d.steps ++ steps }
      (done ++ [.test c]) downs := by
  obtain ⟨-, hmarks⟩ := h.static hd
  refine ⟨h.paths, h.plain, hs, fun t rest => ?_, fun hd => by cases hd⟩
  rw [List.append_assoc, h.walk_static hd t]
  refine findSome?_congr fun n _ => ?_
  dsimp only
  rw [List.append_assoc, walk_marks_append hmarks]
  exact hsteps t n rest

/-- The mark at the start can as well stand where the function around the path ends. -/
theorem mark (h : Folds d done downs) : Folds d (done ++ [.isNull]) downs := by
  refine ⟨h.paths, h.plain, h.selector, fun t rest => ?_, h.static⟩
  rw [List.append_assoc]
  exact (walk_append_isNull done rest 0 none).trans (h.walk_append t rest)

end Folds

/-! ### Comparisons as selectors -/

theorem walk_equals (text : String) (t : SyntaxTree) (n : Nat) (rest : Chain) :
    walk t (.test (.equals text) :: rest) n none =
      if (Selector.value text).accepts (t.text n) then walk t ([] ++ rest) n none else none := by
  rw [walk_test]
  rfl

theorem fold_headOf (text : String) (k : Nat) : fold (headOf text k) = (fold text).take k := by
  rw [fold, headOf, String.toList_ofList, List.map_take]
  rfl

theorem startsFold_headOf {value text : String} (k : Nat) (h : startsFold value text = true) :
    startsFold value (headOf text k) = true := by
  unfold startsFold at h ⊢
  rw [List.isPrefixOf_iff_prefix] at h ⊢
  rw [fold_headOf]
  exact (List.take_prefix k _).trans h

theorem headOf_eq_self {text : String} {k : Nat} (h : text.length ≤ k) : headOf text k = text := by
  rw [headOf, List.take_of_length_le (by rwa [String.length_toList]), String.ofList_toList]

theorem walk_startsWith (text : String) (t : SyntaxTree) (n : Nat) (rest : Chain) :
    walk t (.test (.startsWith text) :: rest) n none =
      if (Selector.head (headOf text headLength)).accepts (t.text n) then
        walk t ((if text.length ≤ headLength then [] else [.test (.startsWith text)]) ++ rest) n none
      else none := by
  by_cases hlen : text.length ≤ headLength
  · rw [if_pos hlen, headOf_eq_self hlen, walk_test]
    rfl
  · rw [if_neg hlen, List.singleton_append, walk_test]
    show (if startsFold (t.text n) text then _ else none) =
      if startsFold (t.text n) (headOf text headLength) then _ else none
    by_cases h : startsFold (t.text n) text = true
    · rw [if_pos h, if_pos (startsFold_headOf _ h)]
      exact (if_pos h).symm
    · rw [if_neg h]
      split
      · exact (if_neg h).symm
      · rfl

theorem isFolded_headOf {text : String} (hne : text ≠ "") (hascii : IsAscii text.toList) :
    (Selector.head (headOf text headLength)).IsFolded := by
  have hlist : (headOf text headLength).toList = text.toList.take headLength :=
    String.toList_ofList
  refine ⟨fun c hc => hascii c ?_, fun h => hne ?_, ?_⟩
  · rw [hlist] at hc
    exact List.mem_of_mem_take hc
  · have h := congrArg String.toList h
    rw [hlist] at h
    rw [← String.toList_inj]
    simpa [headLength] using h
  · rw [← String.length_toList, hlist, List.length_take]
    exact Nat.min_le_left _ _

/-! ### Compiling folds -/

section Compile
variable {r : Registry} {d d' : Draft} {done : Chain} {downs : List (IndexRange × String)}

/-- A draft that folds what has been done, in front of stages that can be folded further. -/
def Holds (d : Draft) (done : Chain) (rest : List Stage) : Prop :=
  (∃ downs, Folds d done downs) ∧ (d.isDynamic = false → IsFoldable rest)

theorem holds_push {s : PathStep} {rest : List Stage} (h : Folds d done downs)
    (hd : (s.compile r).map d.push = .ok d') :
    ∃ c, s.compile r = .ok c ∧ Holds d' (done ++ [c]) rest := by
  obtain ⟨c, hc, rfl⟩ := map_eq_ok_iff.1 hd
  exact ⟨c, hc, ⟨downs, h.push c⟩, fun h => by cases h⟩

/-- A comparison of the start becomes the head that the draft selects, with a test behind it if the
text is longer than a head. -/
theorem holds_startWith {text : String} {rest : List Stage}
    (h : Folds d done downs) (hdyn : d.isDynamic = false)
    (hfold : IsFoldable (.step (.startsWith text) :: rest)) :
    Holds (d.startWith text) (done ++ [.test (.startsWith text)]) rest := by
  unfold IsFoldable at hfold
  by_cases hne : text = ""
  · rw [if_pos hne] at hfold
    rw [Draft.startWith, if_pos hne]
    refine ⟨⟨downs, h.paths, h.plain, h.selector, fun t rest => ?_, h.static⟩, fun _ => hfold⟩
    rw [List.append_assoc, h.walk_static hdyn, ← h.walk_append t rest, h.walk_static hdyn]
    refine findSome?_congr fun n _ => ?_
    rw [List.singleton_append, walk_test, hne, if_pos]
    show (fold "").isPrefixOf (fold (t.text n)) = true
    rfl
  · rw [if_neg hne] at hfold
    have hsel := h.select hdyn (isFolded_headOf hne hfold) (walk_startsWith text)
    have heq : d.startWith text = { d with
        selector := .head (headOf text headLength)
        isDynamic := true
        steps := d.steps ++ if text.length ≤ headLength then []
          else [.test (.startsWith text)] } := by
      rw [Draft.startWith, if_neg hne]
      by_cases hlen : text.length ≤ headLength
      · simp only [if_pos hlen, List.append_nil]
      · simp only [if_neg hlen]
    rw [heq]
    exact ⟨⟨downs, hsel⟩, fun h => by cases h⟩

/-- **A step of compiling folds one stage more.** -/
theorem holds_step {s : PathStep} {rest : List Stage} (hs : s.IsNamed)
    (h : Holds d done (.step s :: rest)) (hd : d.step r s = .ok d') :
    ∃ c, s.compile r = .ok c ∧ Holds d' (done ++ [c]) rest := by
  obtain ⟨⟨downs, h⟩, hfold⟩ := h
  unfold Draft.step at hd
  by_cases hdyn : d.isDynamic = true
  · rw [if_pos hdyn] at hd
    exact holds_push h hd
  · rw [if_neg hdyn] at hd
    rw [Bool.not_eq_true] at hdyn
    have hfold := hfold hdyn
    cases s with
    | down indices name =>
      obtain ⟨hlower, hrest⟩ := hfold
      obtain ⟨range, hrange, rfl⟩ := map_eq_ok_iff.1 hd
      have hc : (PathStep.down indices name).compile r = .ok (.down range name) :=
        map_eq_ok_iff.2 ⟨range, hrange, rfl⟩
      exact ⟨_, hc, ⟨_, h.descend hdyn (isPlainName_of_named hs hlower)⟩, fun _ => hrest⟩
    | words range => exact absurd hfold id
    | equals text =>
      cases hd
      have hsel := h.select hdyn (show Selector.IsFolded (.value text) from hfold)
        (walk_equals text)
      rw [List.append_nil] at hsel
      exact ⟨_, rfl, ⟨downs, hsel⟩, fun h => by cases h⟩
    | startsWith text =>
      cases hd
      exact ⟨_, rfl, holds_startWith h hdyn hfold⟩
    | up | next | prev | backToFull | differs | endsWith | contains | inSet | lookup =>
      exact holds_push h hd

theorem holds_steps {steps : List PathStep} {rest : List Stage} (hs : ∀ s ∈ steps, s.IsNamed)
    (h : Holds d done (steps.map .step ++ rest)) (hd : steps.foldlM (Draft.step r) d = .ok d') :
    ∃ cs, (steps.map Stage.step).mapM (Stage.compile r) = .ok cs ∧
      Holds d' (done ++ cs) rest := by
  induction steps generalizing d done with
  | nil =>
    cases hd
    exact ⟨[], rfl, by rwa [List.append_nil]⟩
  | cons s steps ih =>
    rw [List.foldlM_cons] at hd
    obtain ⟨d₁, hd₁, hd⟩ := bind_eq_ok_iff.1 hd
    obtain ⟨c, hc, h₁⟩ := holds_step (hs s List.mem_cons_self) h hd₁
    obtain ⟨cs, hcs, h'⟩ := ih (fun s hs' => hs s (List.mem_cons_of_mem _ hs')) h₁ hd
    refine ⟨c :: cs, mapM_cons_ok hc hcs, ?_⟩
    rw [List.append_assoc] at h'
    exact h'

/-- **Compiling an expression folds all of its stages.** -/
theorem holds_visit {e : Expr} {outermost : Bool} {rest : List Stage}
    (hroot : e.root = some NodePath.root) (hnamed : e.IsNamed)
    (hfold : IsFoldable (e.stages ++ rest)) (hsel : d.selector = .path)
    (hdyn : d.isDynamic = false) (hmarks : ∀ s ∈ d.steps, s = .isNull)
    (hd : d.visit r outermost e = .ok d') :
    ∃ cs, e.runtimeChain r = .ok cs ∧ Holds d' cs rest := by
  induction e generalizing d d' outermost rest with
  | fixed text => cases hroot
  | path root steps =>
    cases hroot
    have hstart : Folds { d with paths := [NodePath.root] } [] [] := by
      refine ⟨rfl, by simp, by rw [hsel]; exact True.intro, fun t rest => ?_,
        fun _ => ⟨hsel, hmarks⟩⟩
      simp only [reach, hsel, Selector.accepts, ↓reduceIte, walk_marks_append hmarks]
      show walk t rest 0 none = [0].findSome? (walk t rest · none)
      cases h : walk t rest 0 none <;> simp [h]
    exact holds_steps hnamed ⟨⟨[], hstart⟩, fun _ => hfold⟩ hd
  | wrapped w inner steps ih =>
    have hstages : (Expr.wrapped w inner steps).stages ++ rest =
        inner.stages ++ (.wrapper w :: (steps.map .step ++ rest)) := by
      rw [Expr.stages, List.append_assoc, List.cons_append]
    rw [hstages] at hfold
    -- the chain of the whole is that of the inner expression, the function and the steps behind
    have assemble {cs : Chain} {c : Step} {cs' : Chain}
        (hcs : inner.runtimeChain r = .ok cs) (hc : w.compile r = .ok c)
        (hcs' : (steps.map Stage.step).mapM (Stage.compile r) = .ok cs') :
        (Expr.wrapped w inner steps).runtimeChain r = .ok (cs ++ c :: cs') :=
      mapM_append_ok hcs (mapM_cons_ok hc hcs')
    by_cases hw : w = .isNull
    · subst hw
      unfold Draft.visit at hd
      cases outermost with
      | false => cases hd
      | true =>
        obtain ⟨d₁, hd₁, hd⟩ := bind_eq_ok_iff.1 hd
        have hmarks' : ∀ s ∈ d.steps ++ [Step.isNull], s = .isNull := by
          intro s hs
          rcases List.mem_append.1 hs with hs | hs
          · exact hmarks s hs
          · exact List.mem_singleton.1 hs
        obtain ⟨cs, hcs, ⟨downs, h₁⟩, hfold₁⟩ :=
          ih (d := { d with usesIsNull := true, steps := d.steps ++ [.isNull] }) hroot hnamed.1
            hfold hsel hdyn hmarks' hd₁
        obtain ⟨cs', hcs', h'⟩ := holds_steps hnamed.2 ⟨⟨downs, h₁.mark⟩, hfold₁⟩ hd
        refine ⟨_, assemble hcs rfl hcs', ?_⟩
        rw [List.append_assoc] at h'
        exact h'
    · have hvisit : d.visit r outermost (.wrapped w inner steps) =
          (d.visit r false inner >>= fun d₁ => w.compile r >>= fun c =>
            steps.foldlM (Draft.step r) (d₁.push c)) := by
        cases w with
        | isNull => exact absurd rfl hw
        | cleanVersion | normalizeBrand | concat | lookup | lookupByHead | inTableByHead => rfl
      rw [hvisit] at hd
      obtain ⟨d₁, hd₁, hd⟩ := bind_eq_ok_iff.1 hd
      obtain ⟨c, hc, hd⟩ := bind_eq_ok_iff.1 hd
      obtain ⟨cs, hcs, ⟨downs, h₁⟩, -⟩ := ih hroot hnamed.1 hfold hsel hdyn hmarks hd₁
      obtain ⟨cs', hcs', h'⟩ :=
        holds_steps hnamed.2 ⟨⟨downs, h₁.push c⟩, fun h => by cases h⟩ hd
      refine ⟨_, assemble hcs hc hcs', ?_⟩
      rw [List.append_assoc] at h'
      exact h'

end Compile

end AgentRules
