import AgentRules.Text.Blank
import AgentRules.Text.Bytes

/-! # Tokens of an agent text

An agent text is cut into tokens without remainder. Marks stand alone, blanks in a row are one
token, and what is left are values. A value is a web address, a mail address, a UUID or a block of
base 64 if it has that form up to the next delimiter, and a word otherwise.

* `webAddress`, `mailAddress`, `uuid`, `base64`: how many characters at the start of a text have the
  form, if any do.
* `Token.scan`: the tokens of a text. -/

namespace AgentRules

open Text

/-- What a token is. -/
inductive TokenKind
  | word
  | url
  | email
  | uuid
  | base64
  | space
  | opening
  | closing
  | semicolon
  | comma
  | slash
deriving Repr, DecidableEq

def TokenKind.isValue : TokenKind → Bool
  | word | url | email | uuid | base64 => true
  | _ => false

/-- A piece of a text, and the place where it starts. -/
structure Token where
  kind : TokenKind
  start : Nat
  text : List Char
deriving Repr, DecidableEq

namespace Token

def stop (t : Token) : Nat := t.start + byteLength t.text

/-! ### Forms of values -/

def isDelimiter (c : Char) : Bool :=
  isBlank c || c = '(' || c = ')' || c = ';' || c = ',' || c = '/'

def isAddressChar (c : Char) : Bool := !(isBlank c || c = ';' || c = ',' || c = '(' || c = ')')

/-- The length of the address behind a start of `before` characters; it must not be empty. -/
def addressBody (before : Nat) (cs : List Char) : Option Nat :=
  match (cs.takeWhile isAddressChar).length with
  | 0 => none
  | n + 1 => some (before + (n + 1))

/-- The length of an address that starts with a scheme. -/
def schemeAddress (cs : List Char) : Option Nat :=
  let scheme := cs.takeWhile fun c => c.isAlphanum || c = '+' || c = '.' || c = '-'
  if scheme.head?.any Char.isAlpha then
    match cs.drop scheme.length with
    | ':' :: '/' :: '/' :: rest => addressBody (scheme.length + 3) rest
    | _ => none
  else none

def hostAddress (cs : List Char) : Option Nat :=
  match cs with
  | 'w' :: 'w' :: 'w' :: '.' :: rest => addressBody 4 rest
  | _ => none

def webAddress (cs : List Char) : Option Nat :=
  match cs with
  | '+' :: rest => ((schemeAddress rest).or (hostAddress rest)).map (· + 1)
  | cs => (schemeAddress cs).or (hostAddress cs)

def isMailboxChar (c : Char) : Bool :=
  c.isAlphanum || c = '.' || c = '_' || c = '%' || c = '+' || c = '-'

def isHostChar (c : Char) : Bool := c.isAlphanum || c = '-'

/-- The length of the further parts of a host name, each behind a point. The last part that starts
with two letters ends the name, at the end of its letters. -/
def hostParts (cs : List Char) : Option Nat :=
  match cs with
  | '.' :: rest =>
    let part := rest.takeWhile isHostChar
    let letters := (rest.takeWhile Char.isAlpha).length
    let here := if 2 ≤ letters then some (1 + letters) else none
    if part.isEmpty then here
    else ((hostParts (rest.drop part.length)).map (1 + part.length + ·)).or here
  | _ => none
termination_by cs.length
decreasing_by simp only [List.length_drop, List.length_cons]; omega

/-- The length of a mail address. -/
def mailAddress (cs : List Char) : Option Nat :=
  let mailbox := cs.takeWhile isMailboxChar
  if mailbox.isEmpty then none
  else match cs.drop mailbox.length with
    | '@' :: rest =>
      let host := rest.takeWhile isHostChar
      if host.isEmpty then none
      else (hostParts (rest.drop host.length)).map (mailbox.length + 1 + host.length + ·)
    | _ => none

def isHexDigit (c : Char) : Bool := c.isDigit || ('a' ≤ c && c ≤ 'f') || ('A' ≤ c && c ≤ 'F')

/-- The length of a UUID: groups of hexadecimal digits with dashes between them. -/
def uuid (cs : List Char) : Option Nat :=
  let fits (c : Char) (i : Nat) : Bool :=
    if i = 8 || i = 13 || i = 18 || i = 23 then c = '-' else isHexDigit c
  let head := cs.take 36
  if head.length = 36 ∧ head.zipIdx.all fun (c, i) => fits c i then some 36 else none

/-- The least number of characters of a block of base 64, without its padding. -/
def minBase64 : Nat := 24

/-- The length of a block of base 64 with at most two marks of padding. -/
def base64 (cs : List Char) : Option Nat :=
  let block := cs.takeWhile fun c => c.isAlphanum || c = '+' || c = '/'
  let padding := ((cs.drop block.length).take 2).takeWhile (· = '=')
  if minBase64 ≤ block.length then some (block.length + padding.length) else none

/-- The length of a form if it goes on to a delimiter or to the end. -/
def bounded (form : List Char → Option Nat) (cs : List Char) : Option Nat :=
  (form cs).filter fun n => (cs.drop n).head?.all isDelimiter

/-- The length of a bounded block of base 64 that has a digit and a letter, unlike a long word. -/
def mixedBase64 (cs : List Char) : Option Nat :=
  (bounded base64 cs).filter fun n =>
    (cs.take n).any Char.isDigit && (cs.take n).any Char.isAlpha

/-- The kind and the length of the value at the start of a text. -/
def value (cs : List Char) : TokenKind × Nat :=
  match bounded webAddress cs, bounded mailAddress cs, bounded uuid cs, mixedBase64 cs with
  | some n, _, _, _ => (.url, n)
  | none, some n, _, _ => (.email, n)
  | none, none, some n, _ => (.uuid, n)
  | none, none, none, some n => (.base64, n)
  | none, none, none, none => (.word, (cs.takeWhile (!isDelimiter ·)).length)

/-! ### The scan -/

/-- The kind of a mark. -/
def mark? : Char → Option TokenKind
  | '(' => some .opening
  | ')' => some .closing
  | ';' => some .semicolon
  | ',' => some .comma
  | '/' => some .slash
  | _ => none

/-- The kind and the length of the first token of a text that starts with `c`. -/
def first (c : Char) (cs : List Char) : TokenKind × Nat :=
  match mark? c with
  | some kind => (kind, 1)
  | none =>
    if isBlank c then (.space, 1 + (cs.takeWhile isBlank).length) else value (c :: cs)

/-- The tokens from a place on. A token has at least one character. -/
def scanFrom (place : Nat) (cs : List Char) : List Token :=
  match cs with
  | [] => []
  | c :: cs =>
    let (kind, n) := first c cs
    let text := c :: cs.take (n - 1)
    ⟨kind, place, text⟩ :: scanFrom (place + byteLength text) (cs.drop (n - 1))
termination_by cs.length
decreasing_by simp only [List.length_drop, List.length_cons]; omega

/-- The tokens of a text. -/
def scan (s : String) : List Token := scanFrom 0 s.toList

end Token

end AgentRules
