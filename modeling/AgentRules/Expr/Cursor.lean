import AgentRules.Fault
import AgentRules.Outcome
import AgentRules.Text.Bytes

/-! # Reading with a cursor

A text is read from the left by a cursor, which is what is left to read and the place where that
starts. Reading gives what was read and the cursor behind it, or a complaint about a place. Names,
numbers and quoted texts are what expressions are made of.

Whatever is read here has at least one character, so less is left behind it. -/

namespace AgentRules.Expr

open Text

/-- What is left to read, and the place where it starts. -/
structure Cursor where
  rest : List Char
  place : Nat
deriving Repr, DecidableEq

/-- A complaint and the place that it is about. -/
structure Misread where
  place : Nat
  complaint : Complaint
deriving Repr, DecidableEq

namespace Cursor

def fail {α : Type} (c : Cursor) (complaint : Complaint) : Except Misread α :=
  .error ⟨c.place, complaint⟩

def peek (c : Cursor) : Option Char := c.rest.head?

def advance (c : Cursor) : Cursor :=
  match c.rest with
  | [] => c
  | d :: ds => ⟨ds, c.place + d.utf8Size⟩

/-- The next characters as far as they satisfy `p`, and the cursor behind them. -/
def span (p : Char → Bool) (c : Cursor) : List Char × Cursor :=
  let taken := c.rest.takeWhile p
  (taken, ⟨c.rest.dropWhile p, c.place + byteLength taken⟩)

def skipBlanks (c : Cursor) : Cursor := (c.span fun d => d = ' ' || d = '\t').2

/-- Reads one given character. -/
def expect (d : Char) (c : Cursor) : Except Misread Cursor :=
  if c.peek = some d then .ok c.advance else c.fail (.expected d)

end Cursor

/-! ### Names, numbers and texts -/

/-- Whether a character can stand in a name. -/
def isNameChar (d : Char) : Bool := d.isAlphanum || d = '_'

def name (c : Cursor) : Except Misread (String × Cursor) :=
  match c.span isNameChar with
  | ([], _) => c.fail .expectedName
  | (d :: ds, c) => .ok (String.ofList (d :: ds), c)

/-- Reads a number of 64 bits. -/
def number (c : Cursor) : Except Misread (Nat × Cursor) :=
  match c.span Char.isDigit with
  | ([], _) => c.fail .expectedNumber
  | (d :: ds, c) =>
    match readDigits maxNat64 .tooLarge 0 (d :: ds) with
    | .error fault => c.fail (.badNumber fault)
    | .ok n => .ok (n, c)

/-- Reads a text up to the mark that closes it; a mark or a backslash behind a backslash stands for
itself. -/
def quotedRest : List Char → Nat → Except Misread (List Char × Cursor)
  | [], place => .error ⟨place, .unterminated⟩
  | '"' :: ds, place => .ok ([], ⟨ds, place + 1⟩)
  | '\\' :: '"' :: ds, place => (quotedRest ds (place + 2)).map fun (r, c) => ('"' :: r, c)
  | '\\' :: '\\' :: ds, place => (quotedRest ds (place + 2)).map fun (r, c) => ('\\' :: r, c)
  | d :: ds, place => (quotedRest ds (place + d.utf8Size)).map fun (r, c) => (d :: r, c)

def quoted (c : Cursor) : Except Misread (String × Cursor) := do
  let c ← c.expect '"'
  let (text, c) ← quotedRest c.rest c.place
  return (String.ofList text, c)

/-! ### Less is left -/

open Outcome

theorem length_span (p : Char → Bool) (c : Cursor) :
    (c.span p).1.length + (c.span p).2.rest.length = c.rest.length := by
  simp only [Cursor.span, ← List.length_append, List.takeWhile_append_dropWhile]

theorem length_skipBlanks (c : Cursor) : c.skipBlanks.rest.length ≤ c.rest.length := by
  have := length_span (fun d => d = ' ' || d = '\t') c
  simp only [Cursor.skipBlanks]
  omega

theorem length_advance {c : Cursor} {d : Char} (h : c.peek = some d) :
    c.advance.rest.length < c.rest.length := by
  unfold Cursor.peek at h
  unfold Cursor.advance
  split <;> simp_all

theorem length_advance_le (c : Cursor) : c.advance.rest.length ≤ c.rest.length := by
  unfold Cursor.advance
  split <;> simp_all

theorem length_expect {d : Char} {c e : Cursor} (h : c.expect d = .ok e) :
    e.rest.length < c.rest.length := by
  unfold Cursor.expect at h
  split at h
  · cases h; exact length_advance ‹_›
  · cases h

theorem length_name {c d : Cursor} {s : String} (h : name c = .ok (s, d)) :
    d.rest.length < c.rest.length := by
  have := length_span isNameChar c
  unfold name at h
  split at h
  · cases h
  · simp_all; omega

theorem length_number {c d : Cursor} {n : Nat} (h : number c = .ok (n, d)) :
    d.rest.length < c.rest.length := by
  have := length_span Char.isDigit c
  unfold number at h
  split at h
  · cases h
  · split at h
    · cases h
    · simp_all; omega

theorem length_quotedRest {ds text : List Char} {place : Nat} {d : Cursor}
    (h : quotedRest ds place = .ok (text, d)) : d.rest.length < ds.length := by
  fun_induction quotedRest ds place generalizing text d with
  | case1 => cases h
  | case2 => cases h; simp
  | case3 ds place ih | case4 ds place ih | case5 c ds place _ _ _ ih =>
    obtain ⟨⟨r, e⟩, hr, he⟩ := map_eq_ok_iff.1 h
    have := ih hr
    simp_all only [Prod.mk.injEq, List.length_cons]
    omega

theorem length_quoted {c d : Cursor} {s : String} (h : quoted c = .ok (s, d)) :
    d.rest.length < c.rest.length := by
  obtain ⟨e, he, h⟩ := bind_eq_ok_iff.1 h
  obtain ⟨⟨text, f⟩, hf, h⟩ := bind_eq_ok_iff.1 h
  cases h
  exact Nat.lt_trans (length_quotedRest hf) (length_expect he)

end AgentRules.Expr
