import AgentRules.Proofs.Index.Acceptance

/-! # Comparisons that go into the keys

An expression that goes down and takes segments before it compares the value with a text is compiled
into keys that ask for the comparison: for the whole text, or for the first characters of a text to
start with. The steps behind it are left to the chain, and in front of them a test stays if the text
to start with is longer than what a key holds (`compares_of_isCompiled`). -/

namespace AgentRules

open Text Outcome

/-- The first thing an expression does that is not a way down to a node or to segments, if it is a
comparison that a key can ask for. To start with the empty text asks for nothing. -/
def comparison? : List Stage → Option Test
  | .step (.down _ _) :: rest | .step (.words _) :: rest | .wrapper .isNull :: rest =>
    comparison? rest
  | .step (.equals text) :: _ => some (.equals text)
  | .step (.startsWith text) :: rest =>
    if text = "" then comparison? rest else some (.startsWith text)
  | _ => none

namespace Test

/-- The comparisons that keys can ask for. -/
def IsKeyed : Test → Prop
  | equals _ => True
  | startsWith text => text ≠ ""
  | _ => False

/-- What a key asks of the value for the sake of a test. -/
def selector : Test → Selector
  | equals text => .value text
  | startsWith text => .head (headOf text headLength)
  | _ => .path

/-- What remains to be tested where the key has been found. -/
def left : Test → Chain
  | startsWith text => if text.length ≤ headLength then [] else [.test (.startsWith text)]
  | _ => []

theorem canFail_of_mem_left {c : Test} {s : Step} (hs : s ∈ c.left) : s.canFail = true := by
  cases c with
  | startsWith text =>
    rw [left] at hs
    split at hs
    · cases hs
    · rw [List.mem_singleton.1 hs]
      rfl
  | equals | differs | endsWith | contains | inSet | inTableByHead => cases hs

theorem walk_left {c : Test} {t : SyntaxTree} {n : Nat} {value : String}
    (h : c.accepts value = true) (rest : Chain) :
    (c.left ++ rest).walk t n (some value) = rest.walk t n (some value) := by
  cases c with
  | startsWith text =>
    rw [left]
    split
    · rfl
    · exact if_pos h
  | equals | differs | endsWith | contains | inSet | inTableByHead => rfl

end Test

theorem isKeyed_of_comparison? {stages : List Stage} {c : Test}
    (h : comparison? stages = some c) : c.IsKeyed := by
  fun_induction comparison? stages with
  | case1 indices name rest ih => exact ih h
  | case2 range rest ih => exact ih h
  | case3 rest ih => exact ih h
  | case4 text rest =>
    cases h
    exact True.intro
  | case5 rest ih => exact ih h
  | case6 text rest hne =>
    cases h
    exact hne
  | case7 => cases h

/-! ### Compiling up to a comparison -/

/-- A draft on the way to a comparison, or behind it. -/
inductive Draft.Seeks (c : Test) (d : Draft) (rest : List Stage) : Prop
  /-- Only the mark at the start has been made, and the comparison is still to come. -/
  | ahead (isStatic : d.isDynamic = false) (marks : ∀ s ∈ d.steps, s = .isNull)
    (next : comparison? rest = some c)
  /-- The comparison has become the selector. -/
  | behind (isDynamic : d.isDynamic = true) (selector : d.selector = c.selector)
    (steps : ∃ marks more, d.steps = marks ++ (c.left ++ more) ∧ ∀ s ∈ marks, s = .isNull)

/-- The keys of an expression ask for a comparison, and the chain goes on behind it. -/
structure CompiledPath.Compares (p : CompiledPath) (c : Test) : Prop where
  selector : ∀ key ∈ p.keys, key.selector = c.selector
  chain : ∃ marks rest, p.chain = marks ++ (c.left ++ rest) ∧ ∀ s ∈ marks, s = Step.isNull

namespace Draft.Seeks
variable {r : Registry} {c : Test} {d d' : Draft} {rest : List Stage}

theorem push_behind {s : Step} (hdyn : d.isDynamic = true) (h : d.Seeks c rest)
    (rest' : List Stage) : (d.push s).Seeks c rest' := by
  cases h with
  | ahead hstatic =>
    rw [hstatic] at hdyn
    cases hdyn
  | behind _ hsel hsteps =>
    obtain ⟨marks, more, hsteps, hmarks⟩ := hsteps
    refine .behind rfl hsel ⟨marks, more ++ [s], ?_, hmarks⟩
    rw [Draft.push, hsteps, List.append_assoc, List.append_assoc]

theorem mark (h : d.Seeks c (.wrapper .isNull :: rest)) : d.Seeks c rest := by
  cases h with
  | ahead hstatic hmarks hnext => exact .ahead hstatic hmarks hnext
  | behind hdyn hsel hsteps => exact .behind hdyn hsel hsteps

theorem isDynamic_of_wrapper {w : Wrapper} (hw : w ≠ .isNull)
    (h : d.Seeks c (.wrapper w :: rest)) : d.isDynamic = true := by
  cases h with
  | behind hdyn => exact hdyn
  | ahead hstatic hmarks hnext =>
    cases w with
    | isNull => exact absurd rfl hw
    | cleanVersion | normalizeBrand | concat | lookup | lookupByHead | inTableByHead => cases hnext

theorem startWith {text : String} (hstatic : d.isDynamic = false)
    (hmarks : ∀ s ∈ d.steps, s = .isNull)
    (hnext : comparison? (.step (.startsWith text) :: rest) = some c) :
    (d.startWith text).Seeks c rest := by
  unfold comparison? at hnext
  unfold Draft.startWith
  by_cases hne : text = ""
  · rw [if_pos hne] at hnext ⊢
    exact .ahead hstatic hmarks hnext
  · rw [if_neg hne] at hnext ⊢
    cases hnext
    by_cases hlen : text.length ≤ headLength
    · simp only [if_pos hlen]
      refine .behind rfl rfl ⟨d.steps, [], ?_, hmarks⟩
      simp [Test.left, hlen]
    · simp only [if_neg hlen]
      refine .behind rfl rfl ⟨d.steps, [], ?_, hmarks⟩
      simp [Test.left, hlen]

/-- **A step of compiling comes to the comparison or passes by.** -/
theorem step {s : PathStep} (h : d.Seeks c (.step s :: rest)) (hd : d.step r s = .ok d') :
    d'.Seeks c rest := by
  unfold Draft.step at hd
  cases h with
  | behind hdyn hsel hsteps =>
    rw [if_pos hdyn] at hd
    obtain ⟨st, -, rfl⟩ := map_eq_ok_iff.1 hd
    exact push_behind hdyn (.behind hdyn hsel hsteps : d.Seeks c rest) rest
  | ahead hstatic hmarks hnext =>
    rw [if_neg (by simp [hstatic])] at hd
    cases s with
    | down indices name =>
      obtain ⟨range, -, rfl⟩ := map_eq_ok_iff.1 hd
      exact .ahead hstatic hmarks hnext
    | words range =>
      cases hd
      exact .ahead hstatic hmarks hnext
    | equals text =>
      cases hd
      cases hnext
      exact .behind rfl rfl ⟨d.steps, [], by simp [Test.left], hmarks⟩
    | startsWith text =>
      cases hd
      exact startWith hstatic hmarks hnext
    | up | next | prev | backToFull | differs | endsWith | contains | inSet | lookup => cases hnext

theorem steps {steps : List PathStep} (h : d.Seeks c (steps.map .step ++ rest))
    (hd : steps.foldlM (Draft.step r) d = .ok d') : d'.Seeks c rest := by
  induction steps generalizing d with
  | nil =>
    cases hd
    exact h
  | cons s steps ih =>
    rw [List.foldlM_cons] at hd
    obtain ⟨d₁, hd₁, hd⟩ := bind_eq_ok_iff.1 hd
    exact ih (h.step hd₁) hd

/-- **The draft of an expression is behind its comparison.** -/
theorem visit {e : Expr} {outermost : Bool} (hstatic : d.isDynamic = false)
    (hmarks : ∀ s ∈ d.steps, s = .isNull) (hnext : comparison? (e.stages ++ rest) = some c)
    (hd : d.visit r outermost e = .ok d') : d'.Seeks c rest := by
  induction e generalizing d d' outermost rest with
  | fixed text => cases hd
  | path root ss =>
    exact steps (d := { d with paths := [root] }) (.ahead hstatic hmarks hnext) hd
  | wrapped w inner ss ih =>
    rw [Expr.stages, List.append_assoc, List.cons_append] at hnext
    by_cases hw : w = .isNull
    · subst hw
      unfold Draft.visit at hd
      cases outermost with
      | false => cases hd
      | true =>
        obtain ⟨d₁, hd₁, hd⟩ := bind_eq_ok_iff.1 hd
        refine (mark (ih ?_ ?_ hnext hd₁)).steps hd
        · exact hstatic
        · intro s hs
          rcases List.mem_append.1 hs with hs | hs
          · exact hmarks s hs
          · exact List.mem_singleton.1 hs
    · rw [visit_wrapped hw] at hd
      obtain ⟨d₁, hd₁, hd⟩ := bind_eq_ok_iff.1 hd
      obtain ⟨st, -, hd⟩ := bind_eq_ok_iff.1 hd
      have h₁ := ih hstatic hmarks hnext hd₁
      exact (push_behind (h₁.isDynamic_of_wrapper hw) h₁ _).steps hd

end Draft.Seeks

/-! ### Compiled expressions -/

namespace CompiledPath
variable {r : Registry} {expression : String} {e : Expr} {c : Test} {p : CompiledPath}

theorem compares_of_compile (he : Expr.parse expression = .ok e)
    (hc : comparison? e.stages = some c) (hp : compile r expression = .ok p) : p.Compares c := by
  obtain ⟨e', he', ⟨⟨text, rfl⟩, -⟩ | ⟨⟨d, hd, hkeys, hchain, -⟩, -⟩⟩ := compile_cases hp
  · rw [he] at he'
    cases he'
    cases hc
  · rw [he] at he'
    cases he'
    have hseeks : d.Seeks c [] :=
      Draft.Seeks.visit rfl (by simp) (by rwa [List.append_nil]) hd
    cases hseeks with
    | ahead _ _ hnext => cases hnext
    | behind _ hsel hsteps =>
      refine ⟨fun key hkey => ?_, by rwa [hchain]⟩
      rw [hkeys] at hkey
      obtain ⟨path, -, rfl⟩ := List.mem_map.1 hkey
      exact hsel

end CompiledPath

/-- **The keys of an action ask for the comparison of its expression.** -/
theorem compares_of_isCompiled {r : Registry} {a : Action} {e : Expr} {c : Test}
    (h : CompiledLibrary.IsCompiled r a) (he : Expr.parse a.path.expression = .ok e)
    (hc : comparison? e.stages = some c) : a.path.Compares c := by
  obtain ⟨p, hp, -, hkeys, -, hchains⟩ := CompiledLibrary.exists_compiled h
  obtain ⟨hsel, marks, rest, hchain, hmarks⟩ := CompiledPath.compares_of_compile he hc hp
  rw [← hkeys] at hsel
  rcases hchains with hkept | hpruned
  · exact ⟨hsel, marks, rest, hkept.trans hchain, hmarks⟩
  · -- pruning leaves what remains of the comparison
    refine ⟨hsel, marks, Chain.prune rest, ?_, hmarks⟩
    rw [hpruned, hchain, Chain.prune_append fun s hs => by rw [hmarks s hs]; rfl,
      Chain.prune_append fun s hs => Test.canFail_of_mem_left hs]

end AgentRules
