import AgentRules.Agent.Block

/-! # Sequences of parentheses

Whether parentheses match is a question about their sequence alone: what stands between them plays
no part. `Closes k d ps` reads a sequence from the left behind `d` open parentheses and says that in
the end all of them are closed, none is closed that was not open, and never more than `k` are open.
The texts for which it holds are told from the others by counting: `not_closes_ofText` says that
it fails if and only if a parenthesis of the text is `Unopened` or `Unclosed`, or the text goes
`Deeper` than `k`. -/

namespace AgentRules

/-- A parenthesis. -/
inductive Paren
  | opens
  | closes

namespace Paren

def ofChar? (c : Char) : Option Paren :=
  if c = '(' then some opens else if c = ')' then some closes else none

def ofToken? (t : Token) : Option Paren :=
  match t.kind with
  | .opening => some opens
  | .closing => some closes
  | _ => none

/-- Behind `d` open parentheses, a sequence closes all that are open and never has more than `k`
open. -/
def Closes (k : Nat) : Nat → List Paren → Prop
  | d, [] => d = 0
  | d, opens :: ps => d < k ∧ Closes k (d + 1) ps
  | 0, closes :: _ => False
  | d + 1, closes :: ps => Closes k d ps

def ofText (cs : List Char) : List Paren := cs.filterMap ofChar?

def ofTokens (ts : List Token) : List Paren := ts.filterMap ofToken?

end Paren

open Paren

/-! ### Counting -/

/-- Some `)` has no open `(` before it: up to there more parentheses close than open. -/
def Unopened (cs : List Char) : Prop := ∃ n, (cs.take n).count '(' < (cs.take n).count ')'

/-- Some `(` is never closed: from there on more parentheses open than close. -/
def Unclosed (cs : List Char) : Prop := ∃ n, (cs.drop n).count ')' < (cs.drop n).count '('

/-- Somewhere more than `k` parentheses are open. -/
def Deeper (k : Nat) (cs : List Char) : Prop :=
  ∃ n, (cs.take n).count ')' + k < (cs.take n).count '('

/-- If no parenthesis is unopened, one is unclosed just if fewer close than open. -/
theorem unclosed_iff {cs : List Char} (h : ¬ Unopened cs) :
    Unclosed cs ↔ cs.count ')' < cs.count '(' := by
  constructor
  · rintro ⟨n, hn⟩
    have hle : (cs.take n).count ')' ≤ (cs.take n).count '(' := Nat.not_lt.mp fun hlt => h ⟨n, hlt⟩
    rw [← List.take_append_drop n cs, List.count_append, List.count_append]
    omega
  · intro hlt
    exact ⟨0, hlt⟩

/-- The prefixes of a text balance behind `d` open parentheses: none closes more than are open or
leaves more than `k` open, and the text closes all. -/
structure Counted (k d : Nat) (cs : List Char) : Prop where
  closed : ∀ n, (cs.take n).count ')' ≤ d + (cs.take n).count '('
  bounded : ∀ n, d + (cs.take n).count '(' ≤ (cs.take n).count ')' + k
  total : d + cs.count '(' = cs.count ')'

section Counted
variable {k d : Nat} {cs : List Char}

theorem Counted.le (h : Counted k d cs) : d ≤ k := by simpa using h.bounded 0

theorem counted_nil (hd : d ≤ k) : Counted k d [] ↔ d = 0 := by
  constructor
  · intro h
    simpa using h.total
  · rintro rfl
    exact ⟨by simp, by simp, by simp⟩

/-- A character that opens `o` parentheses and closes `p` of them leads from depth `d` to depth
`e`. -/
theorem counted_cons {c : Char} {e o p : Nat} (ho : ∀ ds, (c :: ds).count '(' = ds.count '(' + o)
    (hp : ∀ ds, (c :: ds).count ')' = ds.count ')' + p) (hde : d + o = e + p) (hd : d ≤ k) :
    Counted k d (c :: cs) ↔ Counted k e cs := by
  constructor
  · rintro ⟨h1, h2, h3⟩
    rw [ho, hp] at h3
    refine ⟨fun n => ?_, fun n => ?_, by omega⟩
    · have hn := h1 (n + 1)
      rw [List.take_succ_cons, ho, hp] at hn
      omega
    · have hn := h2 (n + 1)
      rw [List.take_succ_cons, ho, hp] at hn
      omega
  · rintro ⟨h1, h2, h3⟩
    refine ⟨fun n => ?_, fun n => ?_, by rw [ho, hp]; omega⟩
    · rcases n with _ | n
      · exact Nat.zero_le _
      · have hn := h1 n
        rw [List.take_succ_cons, ho, hp]
        omega
    · rcases n with _ | n
      · simpa using hd
      · have hn := h2 n
        rw [List.take_succ_cons, ho, hp]
        omega

theorem counted_opens (hd : d ≤ k) : Counted k d ('(' :: cs) ↔ Counted k (d + 1) cs := by
  have hne : '(' ≠ ')' := by decide
  exact counted_cons (o := 1) (p := 0) (fun _ => List.count_cons_self)
    (fun _ => List.count_cons_of_ne hne) rfl hd

theorem counted_closes (hd : d < k) : Counted k (d + 1) (')' :: cs) ↔ Counted k d cs := by
  have hne : ')' ≠ '(' := by decide
  exact counted_cons (o := 0) (p := 1) (fun _ => List.count_cons_of_ne hne)
    (fun _ => List.count_cons_self) rfl hd

theorem counted_other {c : Char} (hopen : c ≠ '(') (hclose : c ≠ ')') (hd : d ≤ k) :
    Counted k d (c :: cs) ↔ Counted k d cs :=
  counted_cons (o := 0) (p := 0) (fun _ => List.count_cons_of_ne hopen)
    (fun _ => List.count_cons_of_ne hclose) rfl hd

theorem not_counted_closes : ¬ Counted k 0 (')' :: cs) := by
  intro h
  have hn := h.closed 1
  simp at hn

end Counted

theorem closes_ofText_iff {k : Nat} (cs : List Char) (d : Nat) (hd : d ≤ k) :
    Closes k d (ofText cs) ↔ Counted k d cs := by
  induction cs generalizing d with
  | nil =>
    rw [counted_nil hd]
    rfl
  | cons c cs ih =>
    by_cases hopen : c = '('
    · subst hopen
      show d < k ∧ Closes k (d + 1) (ofText cs) ↔ _
      rw [counted_opens hd]
      constructor
      · rintro ⟨hlt, h⟩
        exact (ih (d + 1) hlt).1 h
      · intro h
        exact ⟨h.le, (ih (d + 1) h.le).2 h⟩
    · by_cases hclose : c = ')'
      · subst hclose
        rcases d with _ | d
        · exact iff_of_false id not_counted_closes
        · show Closes k d (ofText cs) ↔ _
          rw [counted_closes hd, ih d (Nat.le_of_succ_le hd)]
      · have hps : ofText (c :: cs) = ofText cs :=
          List.filterMap_cons_none (by simp [ofChar?, hopen, hclose])
        rw [hps, ih d hd, counted_other hopen hclose hd]

/-- **The parentheses of a text close within `k` unless counting shows what is wrong.** -/
theorem not_closes_ofText {k : Nat} (cs : List Char) :
    ¬ Closes k 0 (ofText cs) ↔ Unopened cs ∨ Unclosed cs ∨ Deeper k cs := by
  rw [closes_ofText_iff cs 0 (Nat.zero_le k)]
  by_cases hun : Unopened cs
  · refine iff_of_true ?_ (.inl hun)
    intro h
    obtain ⟨n, hn⟩ := hun
    have := h.closed n
    omega
  · have h1 : ∀ n, (cs.take n).count ')' ≤ 0 + (cs.take n).count '(' := fun n => by
      have := Nat.not_lt.mp fun hlt => hun ⟨n, hlt⟩
      omega
    have hall := h1 cs.length
    rw [List.take_length] at hall
    rw [unclosed_iff hun]
    constructor
    · intro h
      by_cases hlt : cs.count ')' < cs.count '('
      · exact .inr (.inl hlt)
      · refine .inr (.inr (Classical.byContradiction fun hdeep => h ⟨h1, fun n => ?_, by omega⟩))
        have := Nat.not_lt.mp fun hn => hdeep ⟨n, hn⟩
        omega
    · rintro (hun' | hlt | ⟨n, hn⟩) h
      · exact hun hun'
      · have := h.total; omega
      · have := h.bounded n; omega

end AgentRules
