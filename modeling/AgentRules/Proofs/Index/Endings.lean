import AgentRules.Proofs.Expr.Readable
import AgentRules.Proofs.Index.Keys
import AgentRules.Proofs.Index.Registered
import AgentRules.Proofs.Path.Spelling
import AgentRules.Proofs.Text.Ascii

/-! # How the paths of an expression end

The paths that an expression is written out into end alike: all in a name, or all in one and the
same run of segments. The expression then asks for this run at the paths in front of it. So there is
at most one run that an expression looks at, whatever the node is (`regular_of_isCompiled`). Whether
in capitals or not, its paths are made of the characters of paths. -/

namespace AgentRules

open Text Outcome

/-! ### Lower-casing paths -/

/-- A text of the characters of paths, in capitals or not. -/
def IsPathText (p : String) : Prop := ∀ c ∈ p.toList, c.toNat < 128 ∧ isPlain c.toLower = true

namespace IsPathText
variable {p q : String}

theorem toList_lower (h : IsPathText p) : (lower p).toList = p.toList.map Char.toLower := by
  rw [lower, String.toList_ofList, lowerFrom_ascii fun c hc => (h c hc).1]

theorem plain_lower (h : IsPathText p) : Plain (lower p) := by
  intro c hc
  rw [h.toList_lower] at hc
  obtain ⟨d, hd, rfl⟩ := List.mem_map.1 hc
  exact (h d hd).2

theorem append (hp : IsPathText p) (hq : IsPathText q) : IsPathText (p ++ q) := by
  intro c hc
  rw [String.toList_append] at hc
  rcases List.mem_append.1 hc with hc | hc
  · exact hp c hc
  · exact hq c hc

theorem lower_append (hp : IsPathText p) (hq : IsPathText q) :
    lower (p ++ q) = lower p ++ lower q := by
  rw [← String.toList_inj, (hp.append hq).toList_lower, String.toList_append, String.toList_append,
    List.map_append, hp.toList_lower, hq.toList_lower]

theorem of_append_left (h : IsPathText (p ++ q)) : IsPathText p := fun c hc =>
  h c (by rw [String.toList_append]; exact List.mem_append_left _ hc)

end IsPathText

theorem isPathText_of_plain {p : String} (h : Plain p) : IsPathText p := fun c hc => by
  obtain ⟨hascii, hcapital⟩ := plain_bounds (h c hc)
  rw [toLower_eq_self hcapital]
  exact ⟨hascii, h c hc⟩

theorem plain_pathForm (r : WordRange) : Plain r.pathForm := by
  have h := @plain_ranged "" (by decide) r
  rwa [String.empty_append] at h

theorem isNameChar_facts {c : Char} (h : Expr.isNameChar c = true) :
    c.toNat < 128 ∧ isPlain c.toLower = true ∧ Expr.isNameChar c.toLower = true := by
  have hascii : c.toNat < 128 := by
    rcases Bool.or_eq_true_iff.1 h with hname | hname
    · exact lt_of_isAlphanum hname
    · rw [of_decide_eq_true hname]
      decide
  have hall : ∀ n < 128, Expr.isNameChar (Char.ofNat n) = true →
      isPlain (Char.ofNat n).toLower = true ∧ Expr.isNameChar (Char.ofNat n).toLower = true := by
    decide
  have hfacts := hall c.toNat hascii
  rw [Char.ofNat_toNat] at hfacts
  exact ⟨hascii, hfacts h⟩

section Names
variable {name : String} (h : IsName name)
include h

theorem isPathText_of_isName : IsPathText name := fun c hc =>
  ⟨(isNameChar_facts (h.2 c hc)).1, (isNameChar_facts (h.2 c hc)).2.1⟩

theorem isNameChar_of_mem_lower : ∀ c ∈ (lower name).toList, Expr.isNameChar c = true := by
  intro c hc
  rw [(isPathText_of_isName h).toList_lower] at hc
  obtain ⟨d, hd, rfl⟩ := List.mem_map.1 hc
  exact (isNameChar_facts (h.2 d hd)).2.2

theorem not_mem_lower_name {c : Char} (hc : Expr.isNameChar c = false) :
    c ∉ (lower name).toList := fun hm => by
  rw [isNameChar_of_mem_lower h c hm] at hc
  cases hc

end Names

section Children
variable {path name : String} {index : Nat}

theorem isPathText_child (hp : IsPathText path) (hn : IsPathText name) :
    IsPathText (NodePath.child path index name) := by
  have hparts : NodePath.child path index name =
      path ++ ".(" ++ index.repr ++ ")" ++ name := rfl
  have hindex : IsPathText index.repr :=
    isPathText_of_plain fun c hc => isPlain_of_isDigit (isDigit_of_mem_repr hc)
  rw [hparts]
  exact (((hp.append (isPathText_of_plain (by decide))).append hindex).append
    (isPathText_of_plain (by decide))).append hn

theorem lower_child (hp : IsPathText path) (hn : IsPathText name) :
    lower (NodePath.child path index name) = NodePath.child (lower path) index (lower name) := by
  rw [← String.toList_inj, (isPathText_child hp hn).toList_lower, NodePath.toList_child,
    NodePath.toList_child, hp.toList_lower, hn.toList_lower]
  have hdigits : index.repr.toList.map Char.toLower = index.repr.toList := by
    rw [List.map_congr_left fun c hc => toLower_eq_self
      (plain_bounds (isPlain_of_isDigit (isDigit_of_mem_repr hc))).2, List.map_id']
  rw [List.map_append, List.map_cons, List.map_cons, List.map_append, List.map_cons, hdigits]
  rfl

end Children

/-! ### Drafts -/

/-- The paths of a draft are made of the characters of paths and end alike. -/
structure Draft.Regular (d : Draft) : Prop where
  isPathText : ∀ p ∈ d.paths, IsPathText p
  ends : (∀ p ∈ d.paths, ∀ q r, lower p ≠ q ++ WordRange.pathForm r) ∨
    ∃ r, ∀ p ∈ d.paths, ∃ q, p = q ++ WordRange.pathForm r ∧ (q, r) ∈ d.ranges

namespace Draft.Regular
variable {d d' : Draft}

theorem of_paths (h : d.Regular) (hpaths : d'.paths = d.paths) (hranges : d'.ranges = d.ranges) :
    d'.Regular := by
  refine ⟨?_, ?_⟩
  · rw [hpaths]
    exact h.isPathText
  · rw [hpaths, hranges]
    exact h.ends

theorem push (h : d.Regular) (s : Step) : (d.push s).Regular := h.of_paths rfl rfl

theorem start (d : Draft) {root : String} (h : IsName root) :
    Regular { d with paths := [root] } := by
  refine ⟨fun p hp => ?_, .inl fun p hp q r heq => ?_⟩
  · rw [List.mem_singleton.1 hp]
    exact isPathText_of_isName h
  · rw [List.mem_singleton.1 hp] at heq
    refine not_mem_lower_name h (c := '[') (by decide) ?_
    rw [heq, String.toList_append, WordRange.toList_pathForm]
    simp

theorem descend (h : d.Regular) (range : IndexRange) {name : String} (hname : IsName name) :
    (d.descend range name).Regular := by
  have hchild : ∀ p ∈ (d.descend range name).paths,
      ∃ q ∈ d.paths, ∃ i, p = NodePath.child q i name := by
    intro p hp
    obtain ⟨q, hq, hp⟩ := List.mem_flatMap.1 hp
    obtain ⟨i, -, rfl⟩ := List.mem_map.1 hp
    exact ⟨q, hq, i, rfl⟩
  refine ⟨fun p hp => ?_, .inl fun p hp q' r heq => ?_⟩
  · obtain ⟨q, hq, i, rfl⟩ := hchild p hp
    exact isPathText_child (h.isPathText q hq) (isPathText_of_isName hname)
  · obtain ⟨q, hq, i, rfl⟩ := hchild p hp
    rw [lower_child (h.isPathText q hq) (isPathText_of_isName hname)] at heq
    exact NodePath.ranged_ne (not_mem_lower_name hname (by decide)) heq.symm

theorem takeWords (h : d.Regular) (range : WordRange) : (d.takeWords range).Regular := by
  refine ⟨fun p hp => ?_, .inr ⟨range, fun p hp => ?_⟩⟩
  · obtain ⟨q, hq, rfl⟩ := List.mem_map.1 hp
    exact (h.isPathText q hq).append (isPathText_of_plain (plain_pathForm range))
  · obtain ⟨q, hq, rfl⟩ := List.mem_map.1 hp
    exact ⟨q, rfl, List.mem_append_right _ (List.mem_map.2 ⟨q, hq, rfl⟩)⟩

theorem startWith (h : d.Regular) (text : String) : (d.startWith text).Regular := by
  unfold Draft.startWith
  split
  · exact h
  · dsimp only
    split <;> exact h.of_paths rfl rfl

variable {r : Registry}

/-- **A step keeps the paths alike.** -/
theorem step {s : PathStep} (hs : s.WellFormed) (h : d.Regular) (hd : d.step r s = .ok d') :
    d'.Regular := by
  have hpush {s : PathStep} (hd : (s.compile r).map d.push = .ok d') : d'.Regular := by
    obtain ⟨c, -, rfl⟩ := map_eq_ok_iff.1 hd
    exact h.push c
  unfold Draft.step at hd
  split at hd
  · exact hpush hd
  · cases s with
    | down indices name =>
      obtain ⟨range, -, rfl⟩ := map_eq_ok_iff.1 hd
      exact h.descend range hs.2
    | words range =>
      cases hd
      exact h.takeWords range
    | equals text =>
      cases hd
      exact h.of_paths rfl rfl
    | startsWith text =>
      cases hd
      exact h.startWith text
    | up | next | prev | backToFull | differs | endsWith | contains | inSet | lookup =>
      exact hpush hd

theorem steps {steps : List PathStep} (hs : ∀ s ∈ steps, s.WellFormed) (h : d.Regular)
    (hd : steps.foldlM (Draft.step r) d = .ok d') : d'.Regular :=
  Fold.foldlM_invariant Draft.Regular (fun _ s _ h hmem hd => step (hs s hmem) h hd) h hd

/-- **The paths of an expression are alike.** -/
theorem visit {e : Expr} (he : e.WellFormed) {outermost : Bool}
    (hd : d.visit r outermost e = .ok d') : d'.Regular := by
  induction e generalizing d d' outermost with
  | fixed text => cases hd
  | path root ss => exact steps he.2 (start d he.1) hd
  | wrapped w inner ss ih =>
    obtain ⟨-, hinner, hsteps⟩ := he
    cases w with
    | isNull =>
      unfold Draft.visit at hd
      cases outermost with
      | false => cases hd
      | true =>
        obtain ⟨d₁, hd₁, hd⟩ := bind_eq_ok_iff.1 hd
        exact steps hsteps (ih hinner hd₁) hd
    | cleanVersion | normalizeBrand | concat | lookup | lookupByHead | inTableByHead =>
      obtain ⟨d₁, hd₁, hd⟩ := bind_eq_ok_iff.1 hd
      obtain ⟨c, -, hd⟩ := bind_eq_ok_iff.1 hd
      exact steps hsteps ((ih hinner hd₁).push c) hd

end Draft.Regular

/-! ### Compiled expressions -/

/-- The paths of the keys of a compiled expression are plain in lower case, and a run of segments at
the end of any of them is one and the same, and is asked for. -/
structure CompiledPath.Regular (c : CompiledPath) : Prop where
  plain : ∀ key ∈ c.keys, Plain (lower key.path)
  ranged : ∃ r, ∀ key ∈ c.keys, ∀ q s, lower key.path = q ++ WordRange.pathForm s →
    s = r ∧ ∃ p, lower p = q ∧ (p, r) ∈ c.ranges

theorem Draft.Regular.compiled {d : Draft} (h : d.Regular) {c : CompiledPath}
    (hkeys : c.keys = d.paths.map fun p => ⟨p, d.selector⟩) (hranges : c.ranges = d.ranges) :
    c.Regular := by
  have hpath : ∀ key ∈ c.keys, key.path ∈ d.paths := by
    intro key hkey
    rw [hkeys] at hkey
    obtain ⟨p, hp, rfl⟩ := List.mem_map.1 hkey
    exact hp
  refine ⟨fun key hkey => (h.isPathText _ (hpath key hkey)).plain_lower, ?_⟩
  rcases h.ends with hnone | ⟨r, hall⟩
  · exact ⟨⟨1, 1⟩, fun key hkey q s heq => absurd heq (hnone _ (hpath key hkey) q s)⟩
  · refine ⟨r, fun key hkey q s heq => ?_⟩
    obtain ⟨p, hp, hmem⟩ := hall _ (hpath key hkey)
    have htext := h.isPathText _ (hpath key hkey)
    rw [hp] at htext heq
    rw [htext.of_append_left.lower_append (isPathText_of_plain (plain_pathForm r)),
      lower_plain (plain_pathForm r)] at heq
    obtain ⟨hq, hs⟩ := WordRange.ranged_inj heq
    refine ⟨hs.symm, p, hq, ?_⟩
    rw [hranges]
    exact hmem

theorem regular_of_compile {r : Registry} {expression : String} {c : CompiledPath}
    (h : CompiledPath.compile r expression = .ok c) : c.Regular := by
  unfold CompiledPath.compile at h
  obtain ⟨e, he, h⟩ := bind_eq_ok_iff.1 h
  have hwf := (Expr.readable_of_parse he).wellFormed
  cases e with
  | fixed text =>
    cases h
    exact ⟨by simp, ⟨1, 1⟩, by simp⟩
  | path root steps | wrapped w inner steps =>
    obtain ⟨d, hd, h⟩ := bind_eq_ok_iff.1 h
    cases h
    exact (Draft.Regular.visit hwf hd).compiled rfl rfl

/-- **The expression of an action is regular.** -/
theorem regular_of_isCompiled {r : Registry} {a : Action} (h : CompiledLibrary.IsCompiled r a) :
    a.path.Regular := by
  obtain ⟨c, hc, -, hkeys, hranges, -⟩ := CompiledLibrary.exists_compiled h
  obtain ⟨hplain, hranged⟩ := regular_of_compile hc
  rw [← hkeys] at hplain hranged
  rw [← hranges] at hranged
  exact ⟨hplain, hranged⟩

end AgentRules
