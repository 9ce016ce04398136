import AgentRules.NodePath
import AgentRules.Proofs.Text.LowerCase
import AgentRules.Range
import Std.Data.String.ToInt

/-! # How paths are spelled

A path is the text of its parent's path, an index in parentheses and a name; a range of segments
stands behind a path in brackets. The marks around the parts do not occur in them, so the parts can
be read back: `child_inj`, `ranged_inj`. When the names are plain, so is the path (`plain_child`,
`plain_ranged`), and lower-casing leaves it as it is. -/

namespace AgentRules

/-! ### Reading back around a mark -/

namespace Text

theorem append_cons_inj_first {x : Char} {a a' b b' : List Char} (ha : x ∉ a) (ha' : x ∉ a')
    (h : a ++ x :: b = a' ++ x :: b') : a = a' ∧ b = b' := by
  induction a generalizing a' with
  | nil =>
    cases a' with
    | nil => exact ⟨rfl, (List.cons.inj h).2⟩
    | cons c a' => exact absurd ((List.cons.inj h).1 ▸ List.mem_cons_self) ha'
  | cons c a ih =>
    cases a' with
    | nil => exact absurd ((List.cons.inj h).1 ▸ List.mem_cons_self) ha
    | cons d a' =>
      obtain ⟨hcd, htail⟩ := List.cons.inj h
      obtain ⟨haa, hbb⟩ := ih (fun hx => ha (List.mem_cons_of_mem _ hx))
        (fun hx => ha' (List.mem_cons_of_mem _ hx)) htail
      exact ⟨by rw [hcd, haa], hbb⟩

theorem append_cons_inj_last {x : Char} {a a' b b' : List Char} (hb : x ∉ b) (hb' : x ∉ b')
    (h : a ++ x :: b = a' ++ x :: b') : a = a' ∧ b = b' := by
  have hr := congrArg List.reverse h
  simp only [List.reverse_append, List.reverse_cons, List.append_assoc, List.singleton_append] at hr
  obtain ⟨hb, ha⟩ := append_cons_inj_first (by simpa using hb) (by simpa using hb') hr
  exact ⟨List.reverse_inj.1 ha, List.reverse_inj.1 hb⟩

theorem ne_of_isDigit {c d : Char} (hc : c.isDigit = true) (hd : d.isDigit = false) : c ≠ d := by
  rintro rfl
  rw [hc] at hd
  cases hd

theorem isDigit_of_mem_repr {n : Nat} {c : Char} (h : c ∈ n.repr.toList) : c.isDigit = true := by
  rw [Nat.toList_repr] at h
  exact Nat.isDigit_of_mem_toDigits (by decide) (by decide) h

theorem not_mem_repr {n : Nat} {c : Char} (hc : c.isDigit = false) : c ∉ n.repr.toList := fun h =>
  ne_of_isDigit (isDigit_of_mem_repr h) hc rfl

theorem repr_ne_nil (n : Nat) : n.repr.toList ≠ [] := by
  rw [Nat.toList_repr]
  exact Nat.toDigits_ne_nil

end Text

open Text

/-! ### Children -/

namespace NodePath

theorem toList_child (path : String) (index : Nat) (name : String) :
    (child path index name).toList =
      path.toList ++ '.' :: '(' :: (index.repr.toList ++ ')' :: name.toList) := by
  have h : child path index name = path ++ ".(" ++ index.repr ++ ")" ++ name := rfl
  simp [h]

/-- **A path gives back the parent, the index and the name.** -/
theorem child_inj {p q m n : String} {i j : Nat} (hm : ')' ∉ m.toList) (hn : ')' ∉ n.toList)
    (h : child p i m = child q j n) : p = q ∧ i = j ∧ m = n := by
  have hl := congrArg String.toList h
  rw [toList_child, toList_child] at hl
  have hcut (a : List Char) (k : Nat) (b : List Char) :
      a ++ '.' :: '(' :: (k.repr.toList ++ ')' :: b) =
        ((a ++ ['.']) ++ '(' :: k.repr.toList) ++ ')' :: b := by simp
  rw [hcut, hcut] at hl
  obtain ⟨hl, hmn⟩ := append_cons_inj_last hm hn hl
  obtain ⟨hpq, hij⟩ := append_cons_inj_last (not_mem_repr (by decide)) (not_mem_repr (by decide)) hl
  exact ⟨String.toList_inj.1 (List.append_cancel_right hpq),
    Nat.repr_injective (String.toList_inj.1 hij), String.toList_inj.1 hmn⟩

theorem paren_mem_child (path : String) (index : Nat) (name : String) :
    ')' ∈ (child path index name).toList := by
  simp [toList_child]

theorem child_ne_root (path : String) (index : Nat) (name : String) :
    child path index name ≠ root := fun h => by
  have := paren_mem_child path index name
  rw [h] at this
  exact absurd this (by decide)

end NodePath

/-! ### Ranges of segments -/

namespace WordRange

/-- What stands between the brackets behind the number of the first segment. -/
def lastForm (r : WordRange) : List Char := if r.last = toEnd then [] else r.last.repr.toList

theorem toList_pathForm (r : WordRange) :
    r.pathForm.toList = '[' :: (r.first.repr.toList ++ '-' :: (r.lastForm ++ [']'])) := by
  have hopen : s!"[{r.first}-]" = "[" ++ r.first.repr ++ "-]" := rfl
  have hclosed : s!"[{r.first}-{r.last}]" = "[" ++ r.first.repr ++ "-" ++ r.last.repr ++ "]" := rfl
  unfold pathForm lastForm
  rw [hopen, hclosed]
  split <;> simp

theorem toList_intRepr (n : Int) :
    ∃ k : Nat, n.repr.toList = k.repr.toList ∨ n.repr.toList = '-' :: k.repr.toList := by
  cases n with
  | ofNat k => exact ⟨k, .inl rfl⟩
  | negSucc k => exact ⟨k + 1, .inr (by simp [Int.repr])⟩

theorem mem_intRepr {n : Int} {c : Char} (h : c ∈ n.repr.toList) : c = '-' ∨ c.isDigit = true := by
  obtain ⟨k, hk | hk⟩ := toList_intRepr n
  · rw [hk] at h
    exact .inr (isDigit_of_mem_repr h)
  · rw [hk] at h
    rcases List.mem_cons.1 h with h | h
    · exact .inl h
    · exact .inr (isDigit_of_mem_repr h)

theorem intRepr_ne_nil (n : Int) : n.repr.toList ≠ [] := by
  obtain ⟨k, hk | hk⟩ := toList_intRepr n
  · rw [hk]; exact repr_ne_nil k
  · rw [hk]; exact List.cons_ne_nil _ _

theorem mem_pathForm {r : WordRange} {c : Char} (h : c ∈ r.pathForm.toList) :
    c = '[' ∨ c = ']' ∨ c = '-' ∨ c.isDigit = true := by
  have hlast : c ∈ r.lastForm → c = '-' ∨ c.isDigit = true := by
    unfold lastForm
    split
    · simp
    · exact mem_intRepr
  simp only [toList_pathForm, List.mem_cons, List.mem_append, List.not_mem_nil, or_false] at h
  rcases h with h | h | h | h | h
  · exact .inl h
  · exact .inr (.inr (mem_intRepr h))
  · exact .inr (.inr (.inl h))
  · exact .inr (.inr (hlast h))
  · exact .inr (.inl h)

/-- The number of the first segment ends at the first dash that is not in front of it. -/
theorem first_dash_inj {m n : Int} {a b : List Char}
    (h : m.repr.toList ++ '-' :: a = n.repr.toList ++ '-' :: b) : m = n ∧ a = b := by
  have dash {k : Nat} : '-' ∉ k.repr.toList := not_mem_repr (by decide)
  -- digits do not start with a dash, so the two signs agree
  have mixed {k l : Nat} {a b : List Char} :
      k.repr.toList ++ '-' :: a ≠ ('-' :: l.repr.toList) ++ '-' :: b := fun h => by
    obtain ⟨d, ds, hd⟩ := List.exists_cons_of_ne_nil (repr_ne_nil k)
    rw [hd] at h
    refine dash (k := k) ?_
    rw [hd, (List.cons.inj h).1]
    exact List.mem_cons_self
  obtain ⟨k, hk⟩ := toList_intRepr m
  obtain ⟨l, hl⟩ := toList_intRepr n
  have key : m.repr.toList = n.repr.toList ∧ a = b := by
    rcases hk with hk | hk <;> rcases hl with hl | hl <;> rw [hk, hl] at h ⊢
    · exact append_cons_inj_first dash dash h
    · exact absurd h mixed
    · exact absurd h.symm mixed
    · obtain ⟨he, hab⟩ := append_cons_inj_first dash dash (List.cons.inj h).2
      exact ⟨by rw [he], hab⟩
  exact ⟨Int.repr_injective (String.toList_inj.1 key.1), key.2⟩

theorem pathForm_inj {r s : WordRange} (h : r.pathForm = s.pathForm) : r = s := by
  have hl := congrArg String.toList h
  rw [toList_pathForm, toList_pathForm] at hl
  obtain ⟨hf, hl⟩ := first_dash_inj (List.cons.inj hl).2
  have hl : r.lastForm = s.lastForm := List.append_cancel_right hl
  obtain ⟨first, last⟩ := r
  obtain ⟨first', last'⟩ := s
  have hlast : last = last' := by
    unfold lastForm at hl
    dsimp only at hl
    split at hl <;> split at hl
    · next h1 h2 => rw [h1, h2]
    · exact absurd hl.symm (intRepr_ne_nil _)
    · exact absurd hl (intRepr_ne_nil _)
    · exact Int.repr_injective (String.toList_inj.1 hl)
  cases hf
  cases hlast
  rfl

/-- **A path with a range gives back the path and the range.** -/
theorem ranged_inj {p q : String} {r s : WordRange} (h : p ++ r.pathForm = q ++ s.pathForm) :
    p = q ∧ r = s := by
  have bracket (r : WordRange) : '[' ∉ r.first.repr.toList ++ '-' :: (r.lastForm ++ [']']) := by
    intro hm
    have hlast : '[' ∉ r.lastForm := by
      unfold lastForm
      split
      · simp
      · intro h; rcases mem_intRepr h with h | h <;> revert h <;> decide
    rcases List.mem_append.1 hm with hm | hm
    · rcases mem_intRepr hm with h | h <;> revert h <;> decide
    · simp only [List.mem_cons, List.mem_append, List.not_mem_nil, or_false] at hm
      rcases hm with hm | hm | hm
      · revert hm; decide
      · exact hlast hm
      · revert hm; decide
  have hl := congrArg String.toList h
  rw [String.toList_append, String.toList_append, toList_pathForm, toList_pathForm] at hl
  obtain ⟨hpq, hrs⟩ := append_cons_inj_last (bracket r) (bracket s) hl
  refine ⟨String.toList_inj.1 hpq, pathForm_inj (String.toList_inj.1 ?_)⟩
  rw [toList_pathForm, toList_pathForm, hrs]

end WordRange

/-! ### Plain paths -/

theorem isPlain_of_isDigit {c : Char} (h : c.isDigit = true) : isPlain c = true := by
  simp [isPlain, isLowerAlnum, h]

theorem isPlain_of_isLowerAlnum {c : Char} (h : isLowerAlnum c = true) : isPlain c = true := by
  simp [isPlain, h]

theorem plain_root : Plain NodePath.root := by
  decide

theorem lower_syntaxError : lower NodePath.syntaxError = "__syntaxerror__" := by
  decide

theorem plain_child {path name : String} (hp : Plain path)
    (hn : Plain name) (index : Nat) : Plain (NodePath.child path index name) := by
  intro c hc
  simp only [NodePath.toList_child, List.mem_cons, List.mem_append] at hc
  rcases hc with hc | rfl | rfl | hc | rfl | hc
  · exact hp c hc
  · rfl
  · rfl
  · exact isPlain_of_isDigit (isDigit_of_mem_repr hc)
  · rfl
  · exact hn c hc

theorem plain_ranged {path : String} (hp : Plain path) (r : WordRange) :
    Plain (path ++ r.pathForm) := by
  intro c hc
  rw [String.toList_append, List.mem_append] at hc
  rcases hc with hc | hc
  · exact hp c hc
  · rcases WordRange.mem_pathForm hc with rfl | rfl | rfl | hc
    · rfl
    · rfl
    · rfl
    · exact isPlain_of_isDigit hc

/-- What ends in a range does not end in a name. -/
theorem NodePath.ranged_ne {p q n : String} {i : Nat} {r : WordRange} (hn : ']' ∉ n.toList) :
    p ++ r.pathForm ≠ child q i n := fun h => by
  have hl := congrArg String.toList h
  rw [String.toList_append, WordRange.toList_pathForm, toList_child] at hl
  have hend (a b : List Char) : a ++ '[' :: (b ++ '-' :: (r.lastForm ++ [']'])) =
      (a ++ '[' :: (b ++ '-' :: r.lastForm)) ++ [']'] := by simp
  have hname (a b c : List Char) : a ++ '.' :: '(' :: (b ++ ')' :: c) =
      (a ++ '.' :: '(' :: (b ++ [')'])) ++ c := by simp
  rw [hend, hname] at hl
  rcases List.eq_nil_or_concat n.toList with hnil | ⟨l, c, hc⟩
  · rw [hnil, List.append_nil] at hl
    have hl : _ = (q.toList ++ '.' :: '(' :: i.repr.toList) ++ [')'] := hl.trans (by simp)
    exact absurd (List.append_inj_right' hl rfl) (by decide)
  · rw [List.concat_eq_append] at hc
    rw [hc, ← List.append_assoc] at hl
    have hcl := List.append_inj_right' hl rfl
    refine hn ?_
    rw [hc, ← hcl]
    simp

end AgentRules
