/-! # Decimal numerals of bounded size

A numeral is read from the left, and the first thing that goes wrong is reported: a character that
is no digit, or a digit that takes the value past its limit. -/

namespace AgentRules.Text

def maxNat64 : Nat := 0xFFFFFFFFFFFFFFFF

/-- Why a text is no numeral. -/
inductive NumeralFault
  | empty
  | invalidDigit
  | tooLarge
  | tooSmall
deriving Repr, DecidableEq

def NumeralFault.message : NumeralFault → String
  | .empty => "cannot parse integer from empty string"
  | .invalidDigit => "invalid digit found in string"
  | .tooLarge => "number too large to fit in target type"
  | .tooSmall => "number too small to fit in target type"

/-- Reads digits behind a value `n`, up to a limit; `overflow` is the fault of passing it. -/
def readDigits (limit : Nat) (overflow : NumeralFault) : Nat → List Char → Except NumeralFault Nat
  | n, [] => .ok n
  | n, c :: cs =>
    if c.isDigit then
      let m := 10 * n + (c.toNat - '0'.toNat)
      if m ≤ limit then readDigits limit overflow m cs else .error overflow
    else .error .invalidDigit

/-- Reads a natural number of 64 bits, with or without a plus sign. -/
def readNat64 (s : String) : Except NumeralFault Nat :=
  match s.toList with
  | [] => .error .empty
  | ['+'] => .error .invalidDigit
  | '+' :: cs => readDigits maxNat64 .tooLarge 0 cs
  | cs => readDigits maxNat64 .tooLarge 0 cs

def maxInt64 : Nat := 0x7FFFFFFFFFFFFFFF

/-- The size of the least signed number of 64 bits. -/
def minInt64Size : Nat := maxInt64 + 1

/-- Reads a signed number of 64 bits, with or without a sign. -/
def readInt64 (s : String) : Except NumeralFault Int :=
  match s.toList with
  | [] => .error .empty
  | ['+'] | ['-'] => .error .invalidDigit
  | '-' :: cs => (readDigits minInt64Size .tooSmall 0 cs).map fun n => -(n : Int)
  | '+' :: cs => (readDigits maxInt64 .tooLarge 0 cs).map Int.ofNat
  | cs => (readDigits maxInt64 .tooLarge 0 cs).map Int.ofNat

end AgentRules.Text
