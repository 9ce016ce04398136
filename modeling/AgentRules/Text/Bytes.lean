/-! # Byte offsets

Places in a text are counted in bytes of its UTF-8 form. A place is a *boundary* if no character
straddles it; only boundaries can be cut at.

* `dropBytes?`, `takeBytes?`: cut a list of characters at a boundary, nothing elsewhere.
* `slice?`: the text between two boundaries.
* `takeWithin`: as many leading characters as fit into a number of bytes. -/

namespace AgentRules.Text

def byteLength (cs : List Char) : Nat := cs.foldr (fun c n => c.utf8Size + n) 0

theorem byteLength_cons (c : Char) (cs : List Char) :
    byteLength (c :: cs) = c.utf8Size + byteLength cs := rfl

def size (s : String) : Nat := byteLength s.toList

/-- What follows the first `n` bytes, if place `n` is a boundary. -/
def dropBytes? : List Char → Nat → Option (List Char)
  | cs, 0 => some cs
  | [], _ + 1 => none
  | c :: cs, n + 1 => if c.utf8Size ≤ n + 1 then dropBytes? cs (n + 1 - c.utf8Size) else none

/-- The first `n` bytes, if place `n` is a boundary. -/
def takeBytes? : List Char → Nat → Option (List Char)
  | _, 0 => some []
  | [], _ + 1 => none
  | c :: cs, n + 1 =>
    if c.utf8Size ≤ n + 1 then (takeBytes? cs (n + 1 - c.utf8Size)).map (c :: ·) else none

def isBoundary (s : String) (n : Nat) : Bool := (dropBytes? s.toList n).isSome

/-- The characters between two places, if both are boundaries in this order. -/
def sliceChars? (cs : List Char) (start stop : Nat) : Option (List Char) :=
  if start ≤ stop then (dropBytes? cs start).bind (takeBytes? · (stop - start)) else none

/-- The text between two places, if both are boundaries in this order. -/
def slice? (s : String) (start stop : Nat) : Option String :=
  (sliceChars? s.toList start stop).map String.ofList

/-- The leading characters that fit into `n` bytes. -/
def takeWithin : Nat → List Char → List Char
  | _, [] => []
  | n, c :: cs => if c.utf8Size ≤ n then c :: takeWithin (n - c.utf8Size) cs else []

end AgentRules.Text
