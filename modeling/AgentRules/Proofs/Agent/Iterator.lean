import AgentRules.Proofs.Agent.Contiguous
import AgentRules.Proofs.Segment.Slicing

/-! # The scan as a loop over places

The scan takes characters off a list. A scanner of texts in bytes works in another way: it has an
iterator that stands at a place, finds out where a token ends, as a place in bytes, and moves the
iterator on, one character at a time, until it has come to the end of the token or beyond it. The end
and the iterator are two numbers that nothing ties together, and nothing says that the iterator moves
at all. `round` is one round of such a loop, and `Walk` says what the loop writes down, without a
reason why it should end. It does end, on every text, and the spans that it writes down are those of
the tokens (`walk_iff`): in each round the iterator stops where the token does (`round_eq`). -/

namespace AgentRules

open Splitting Text

namespace Token

def span (t : Token) : TokenKind × Nat × Nat := (t.kind, t.start, t.stop)

/-- The iterator behind blanks. `stop` is the end of the last blank, which its size tells. -/
def skipBlanks (stop : Nat) : Nat → List Char → Nat × Nat × List Char
  | place, [] => (stop, place, [])
  | place, c :: cs =>
    if isBlank c then skipBlanks (place + c.utf8Size) (place + c.utf8Size) cs
    else (stop, place, c :: cs)

/-- One round: the kind and the end of the token that starts with `c`, and the iterator behind it.
A mark is taken to have one byte; the end of a value is told by the size of what was read. -/
def round (place : Nat) (c : Char) (cs : List Char) : TokenKind × Nat × Nat × List Char :=
  match mark? c with
  | some kind => (kind, place + 1, place + c.utf8Size, cs)
  | none =>
    if isBlank c then (.space, skipBlanks place place (c :: cs))
    else
      let (kind, n) := value (c :: cs)
      let stop := place + byteLength ((c :: cs).take n)
      (kind, stop, seek stop place (c :: cs))

/-- What the loop writes down from where its iterator stands. -/
inductive Walk : Nat → List Char → List (TokenKind × Nat × Nat) → Prop
  | done (place : Nat) : Walk place [] []
  | step {place : Nat} {c : Char} {cs rest : List Char} {kind : TokenKind} {stop next : Nat}
      {spans : List (TokenKind × Nat × Nat)} (hround : round place c cs = (kind, stop, next, rest))
      (hrest : Walk next rest spans) : Walk place (c :: cs) ((kind, place, stop) :: spans)

/-! ### One round -/

/-- The iterator stops right at the end of what it is to skip. -/
theorem seek_append (place : Nat) (taken rest : List Char) :
    seek (place + byteLength taken) place (taken ++ rest) = (place + byteLength taken, rest) := by
  induction taken generalizing place with
  | nil => exact seek_self place
  | cons c taken ih =>
    have hlt : place < place + byteLength (c :: taken) :=
      Nat.lt_add_of_pos_right (byteLength_pos (List.cons_ne_nil c taken))
    rw [List.cons_append, seek_cons hlt, byteLength_cons, ← Nat.add_assoc, ih]

/-- Behind blanks the end and the iterator are at one place. -/
theorem skipBlanks_eq (place : Nat) (cs : List Char) : skipBlanks place place cs =
    (place + byteLength (cs.takeWhile isBlank), place + byteLength (cs.takeWhile isBlank),
      cs.dropWhile isBlank) := by
  induction cs generalizing place with
  | nil => rfl
  | cons c cs ih =>
    rw [skipBlanks]
    by_cases hc : isBlank c = true
    · rw [if_pos hc, ih, List.takeWhile_cons_of_pos hc, List.dropWhile_cons_of_pos hc,
        byteLength_cons, Nat.add_assoc]
    · rw [if_neg hc, List.takeWhile_cons_of_neg hc, List.dropWhile_cons_of_neg hc]
      rfl

theorem utf8Size_of_mark {c : Char} {kind : TokenKind} (h : mark? c = some kind) :
    c.utf8Size = 1 := by
  unfold mark? at h
  split at h <;> first | rfl | cases h

theorem isDelimiter_eq_false {c : Char} (hmark : mark? c = none) (hblank : isBlank c = false) :
    isDelimiter c = false := by
  cases hc : isDelimiter c with
  | false => rfl
  | true =>
    simp only [isDelimiter, hblank, Bool.false_or, Bool.or_eq_true, decide_eq_true_eq] at hc
    rcases hc with (((rfl | rfl) | rfl) | rfl) | rfl <;> cases hmark

/-- **What the first token can be**: a mark, the blanks in front, or a value, which starts with no
delimiter and has at least one character. -/
theorem first_cases {c : Char} {cs : List Char} {kind : TokenKind} {n : Nat}
    (h : first c cs = (kind, n)) :
    (mark? c = some kind ∧ n = 1) ∨
    (mark? c = none ∧ isBlank c = true ∧ kind = .space ∧
      n = 1 + (cs.takeWhile isBlank).length) ∨
    (mark? c = none ∧ isBlank c = false ∧ value (c :: cs) = (kind, n) ∧ 0 < n) := by
  cases hmark : mark? c with
  | some kind' =>
    rw [first, hmark] at h
    obtain ⟨rfl, rfl⟩ := Prod.mk.inj h
    exact .inl ⟨rfl, rfl⟩
  | none =>
    cases hblank : isBlank c with
    | true =>
      rw [first_blank cs hblank] at h
      obtain ⟨rfl, rfl⟩ := Prod.mk.inj h
      exact .inr (.inl ⟨rfl, rfl, rfl, rfl⟩)
    | false =>
      have hc := isDelimiter_eq_false hmark hblank
      obtain ⟨hpos, -⟩ := value_ends c cs hc
      rw [first_value cs hc] at h
      rw [h] at hpos
      exact .inr (.inr ⟨rfl, rfl, h, hpos⟩)

theorem take_eq_cons {n : Nat} (h : 0 < n) (c : Char) (cs : List Char) :
    (c :: cs).take n = c :: cs.take (n - 1) ∧ (c :: cs).drop n = cs.drop (n - 1) := by
  obtain ⟨m, rfl⟩ := Nat.exists_eq_succ_of_ne_zero (Nat.pos_iff_ne_zero.1 h)
  exact ⟨rfl, rfl⟩

/-- **In each round the iterator stops where the token does.** -/
theorem round_eq {c : Char} {cs : List Char} {kind : TokenKind} {n : Nat}
    (hfirst : first c cs = (kind, n)) (place : Nat) :
    round place c cs =
      (kind, place + byteLength (c :: cs.take (n - 1)), place + byteLength (c :: cs.take (n - 1)),
        cs.drop (n - 1)) := by
  rcases first_cases hfirst with ⟨hmark, rfl⟩ | ⟨hmark, hblank, rfl, rfl⟩ |
    ⟨hmark, hblank, hvalue, hpos⟩
  · have hsize := utf8Size_of_mark hmark
    have hlength : byteLength (c :: cs.take (1 - 1)) = 1 := by
      rw [byteLength_cons, hsize]
      rfl
    rw [round, hmark, hlength, hsize]
    rfl
  · rw [round, hmark]
    dsimp only
    rw [if_pos hblank, skipBlanks_eq, List.takeWhile_cons_of_pos hblank,
      List.dropWhile_cons_of_pos hblank, Nat.add_sub_cancel_left, take_length_takeWhile,
      drop_length_takeWhile]
  · obtain ⟨htake, hdrop⟩ := take_eq_cons hpos c cs
    have hseek := seek_append place ((c :: cs).take n) ((c :: cs).drop n)
    rw [List.take_append_drop] at hseek
    rw [round, hmark, hvalue]
    dsimp only
    rw [if_neg (by simp [hblank]), hseek, htake, hdrop]

/-! ### The loop -/

/-- **The loop ends, with the spans of the tokens.** -/
theorem walk_iff (place : Nat) (cs : List Char) (spans : List (TokenKind × Nat × Nat)) :
    Walk place cs spans ↔ spans = (scanFrom place cs).map span := by
  induction place, cs using scanFrom.induct generalizing spans with
  | case1 place =>
    rw [scanFrom]
    constructor
    · rintro ⟨⟩
      rfl
    · rintro rfl
      exact .done place
  | case2 place c cs kind n hfirst text ih =>
    have hround := round_eq hfirst place
    rw [scanFrom, hfirst]
    constructor
    · intro h
      cases h with
      | step hround' hrest =>
        rw [hround] at hround'
        cases hround'
        rw [(ih _).1 hrest]
        rfl
    · rintro rfl
      exact .step hround ((ih _).2 rfl)

end Token

end AgentRules
