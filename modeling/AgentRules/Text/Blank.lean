/-! # White space

The characters with the Unicode property White_Space, and texts without them at their ends. -/

namespace AgentRules.Text

def isBlank (c : Char) : Bool :=
  let n := c.toNat
  n == 0x20 || (0x9 ≤ n && n ≤ 0xD) || n == 0x85 || n == 0xA0 || n == 0x1680 ||
    (0x2000 ≤ n && n ≤ 0x200A) || n == 0x2028 || n == 0x2029 || n == 0x202F || n == 0x205F ||
    n == 0x3000

/-- The list without the last elements that satisfy `p`. -/
def dropEndWhile {α : Type} (p : α → Bool) (xs : List α) : List α :=
  (xs.reverse.dropWhile p).reverse

/-- The characters without those at either end that satisfy `p`. -/
def stripBoth (p : Char → Bool) (cs : List Char) : List Char := dropEndWhile p (cs.dropWhile p)

def trim (s : String) : String := String.ofList (stripBoth isBlank s.toList)

def trimEnd (s : String) : String := String.ofList (dropEndWhile isBlank s.toList)

end AgentRules.Text
