/-! # Reading UTF-8

Bytes are read one at a time. A leading byte announces how many continuation bytes its character is
owed and which values the first of them may take; that range keeps out overlong forms, surrogates
and code points past the last. What is wrong is reported with the index of the leading byte. -/

namespace AgentRules.Text

/-- Why some bytes are no text. -/
inductive Utf8Fault
  /-- The first `length` bytes from `index` on start no character. -/
  | invalid (length index : Nat)
  /-- The bytes end inside the character that starts at `index`. -/
  | incomplete (index : Nat)
deriving Repr, DecidableEq

def Utf8Fault.message : Utf8Fault → String
  | .invalid length index => s!"invalid utf-8 sequence of {length} bytes from index {index}"
  | .incomplete index => s!"incomplete utf-8 byte sequence from index {index}"

/-- A character that is being read. -/
structure Utf8State where
  /-- The index of the leading byte. -/
  start : Nat := 0
  /-- The bytes read of the character. -/
  read : Nat := 0
  /-- The continuation bytes still owed. -/
  owed : Nat := 0
  /-- The payload of the bytes read. -/
  value : Nat := 0
  /-- The least value of the next continuation byte. -/
  low : Nat := 0x80
  /-- The greatest value of the next continuation byte. -/
  high : Nat := 0xBF
deriving Repr, DecidableEq

/-- The state behind a leading byte at `start`; none if no character starts with it. -/
def Utf8State.lead? (start b : Nat) : Option Utf8State :=
  if b < 0x80 then some ⟨start, 1, 0, b, 0x80, 0xBF⟩
  else if 0xC2 ≤ b ∧ b ≤ 0xDF then some ⟨start, 1, 1, b - 0xC0, 0x80, 0xBF⟩
  else if 0xE0 ≤ b ∧ b ≤ 0xEF then
    some ⟨start, 1, 2, b - 0xE0, if b = 0xE0 then 0xA0 else 0x80, if b = 0xED then 0x9F else 0xBF⟩
  else if 0xF0 ≤ b ∧ b ≤ 0xF4 then
    some ⟨start, 1, 3, b - 0xF0, if b = 0xF0 then 0x90 else 0x80, if b = 0xF4 then 0x8F else 0xBF⟩
  else none

/-- The state behind one more byte. -/
def Utf8State.next (s : Utf8State) (b : Nat) : Except Utf8Fault Utf8State :=
  if s.owed = 0 then
    match lead? (s.start + s.read) b with
    | some t => .ok t
    | none => .error (.invalid 1 (s.start + s.read))
  else if s.low ≤ b ∧ b ≤ s.high then
    .ok ⟨s.start, s.read + 1, s.owed - 1, 64 * s.value + (b - 0x80), 0x80, 0xBF⟩
  else .error (.invalid s.read s.start)

/-- Reads bytes behind a state. -/
def decodeFrom (s : Utf8State) : List UInt8 → Except Utf8Fault (List Char)
  | [] => if s.owed = 0 then .ok [] else .error (.incomplete s.start)
  | b :: bs => do
    let t ← s.next b.toNat
    let cs ← decodeFrom t bs
    return if t.owed = 0 then Char.ofNat t.value :: cs else cs

/-- The leading byte of a character. -/
def leadByte (c : Char) : Nat :=
  let n := c.toNat
  if n < 0x80 then n
  else if n < 0x800 then 0xC0 + n / 0x40
  else if n < 0x10000 then 0xE0 + n / 0x1000
  else 0xF0 + n / 0x40000

def decode (bytes : List UInt8) : Except Utf8Fault String :=
  (decodeFrom {} bytes).map String.ofList

end AgentRules.Text
