import AgentRules.Agent.Grammar

/-! # Reading a text by the indices of its tokens

The grammar is given on lists of tokens, which it takes apart. A parser that works in place goes
through an array of tokens with indices: it looks ahead and back by adding to an index and
subtracting from it, cuts the texts of its tokens out of the source, and hangs a node into the tree
before it knows where the node ends, so that the end is moved later on.

`readTree` is that parser. What can go wrong in it are values here (`Halt`): an index without a
token, a number below zero, a cut that is not between two boundaries, a node or an end that the tree
refuses. Nothing says that its loops and its recursion end. They get a number of rounds instead, and
to need more than these is one more way to break off. -/

namespace AgentRules.Grammar

/-- Why reading breaks off. -/
inductive Halt
  | noToken (i : Nat)
  | belowZero (n k : Nat)
  | noSlice (start stop : Nat)
  | refused (fault : Fault)
  | outOfRounds
deriving Repr, DecidableEq

/-- What a reader has made, and how many blocks it is inside of. -/
structure Reader where
  tree : SyntaxTree
  malformed : Bool
  depth : Nat
deriving Repr, DecidableEq

/-- A step of a reader. -/
abbrev Reading := StateT Reader (Except Halt)

namespace Reading

/-! ### What can break off -/

def less (n k : Nat) : Reading Nat := if k ≤ n then pure (n - k) else throw (.belowZero n k)

/-- The characters between two places. -/
def cut (cs : List Char) (start stop : Nat) : Reading (List Char) :=
  match Text.sliceChars? cs start stop with
  | some cut => pure cut
  | none => throw (.noSlice start stop)

/-- Hangs a node into the tree; its number is the size the tree had before. -/
def addNode (parent : Nat) (kind : NodeKind) (start stop : Nat) : Reading Nat := do
  let r ← get
  match r.tree.add? parent kind start stop with
  | .ok tree =>
    set { r with tree := tree }
    pure r.tree.size
  | .error fault => throw (.refused fault)

def moveStop (id stop : Nat) : Reading Unit := do
  let r ← get
  match r.tree.setStop? id stop with
  | .ok tree => set { r with tree := tree }
  | .error fault => throw (.refused fault)

/-- Notes that the parentheses do not match. -/
def markMalformed : Reading Unit := modify fun r => { r with malformed := true }

def setDepth (depth : Nat) : Reading Unit := modify fun r => { r with depth := depth }

section Tokens
variable (toks : List Token)

def tokenAt (i : Nat) : Reading Token :=
  match toks[i]? with
  | some t => pure t
  | none => throw (.noToken i)

/-- The kind of the token at an index, if the index is before `limit`. -/
def kindAt (i limit : Nat) : Reading (Option TokenKind) := do
  if i < limit then
    let t ← tokenAt toks i
    pure (some t.kind)
  else pure none

def spanOf (first last : Nat) : Reading (Nat × Nat) := do
  let t ← tokenAt toks first
  let u ← tokenAt toks last
  pure (t.start, u.stop)

/-- The text of a token, cut out of the source. -/
def textAt (i : Nat) : Reading (List Char) := do
  let t ← tokenAt toks i
  let r ← get
  cut r.tree.source.toList t.start t.stop

/-- The parenthesis of a block that follows at once or behind blanks. -/
def blockAt (i limit : Nat) : Reading (Option Nat) := do
  let first ← kindAt toks i limit
  let second ← kindAt toks (i + 1) limit
  if first = some .opening then pure (some i)
  else if first = some .space ∧ second = some .opening then pure (some (i + 1))
  else pure none

/-- The end of the last token before `limit`, or a place if there is none. -/
def lastEnd (limit place : Nat) : Reading Nat := do
  if 0 < limit then
    let last ← less limit 1
    let t ← tokenAt toks last
    pure t.stop
  else pure place

/-! ### Loops -/

/-- The last one of the words from a word on. -/
def lastWord : Nat → Nat → Nat → Reading Nat
  | 0, _, _ => throw .outOfRounds
  | n + 1, i, limit => do
    let blank ← kindAt toks (i + 1) limit
    let word ← kindAt toks (i + 2) limit
    if blank = some .space ∧ word = some .word then lastWord n (i + 2) limit else pure i

/-- Reads slashes and the values behind them. What is given is the next index, and the end of what
was read last. -/
def readVersions : Nat → Nat → Nat → Nat → Nat → Reading (Nat × Nat)
  | 0, _, _, _, _ => throw .outOfRounds
  | n + 1, product, i, limit, stop => do
    let mark ← kindAt toks i limit
    if mark = some .slash then
      let slash ← tokenAt toks i
      let _ ← addNode product .separator slash.start slash.stop
      let behind ← kindAt toks (i + 1) limit
      if behind.any TokenKind.isValue then
        let value ← tokenAt toks (i + 1)
        let wrapper ← addNode product .productVersion value.start value.stop
        let kind := if value.kind = .word then .version else specialKind value.kind
        let _ ← addNode wrapper kind value.start value.stop
        readVersions n product (i + 2) limit value.stop
      else pure (i + 1, slash.stop)
    else pure (i, stop)

/-- The index where the entry ends. -/
def entryStop : Nat → Nat → Nat → Nat → Reading Nat
  | 0, _, _, _ => throw .outOfRounds
  | n + 1, depth, i, limit => do
    if i < limit then
      let t ← tokenAt toks i
      match t.kind with
      | .opening => entryStop n (depth + 1) (i + 1) limit
      | .closing =>
        if 0 < depth then
          let outer ← less depth 1
          entryStop n outer (i + 1) limit
        else pure i
      | .semicolon | .comma => if depth = 0 then pure i else entryStop n depth (i + 1) limit
      | _ => entryStop n depth (i + 1) limit
    else pure i

/-- Goes back over blanks, but not beyond `first`. -/
def lastSolid : Nat → Nat → Nat → Reading Nat
  | 0, _, _ => throw .outOfRounds
  | n + 1, first, last => do
    if first < last then
      let t ← tokenAt toks last
      if t.kind = .space then
        let before ← less last 1
        lastSolid n first before
      else pure last
    else pure last

/-- Whether there are only words and blanks up to an index. -/
def arePlain : Nat → Nat → Nat → Reading Bool
  | 0, _, _ => throw .outOfRounds
  | n + 1, i, last => do
    if i ≤ last then
      let t ← tokenAt toks i
      if t.kind = .word ∨ t.kind = .space then arePlain n (i + 1) last else pure false
    else pure true

/-! ### Entries of one form -/

/-- The place of the first mark that may divide a key from its value. -/
def markPlace : List Char → Option Nat
  | [] => none
  | c :: cs => if c = ':' ∨ c = '=' then some 0 else (markPlace cs).map (c.utf8Size + ·)

/-- The place where a word is divided, if it is a key with a value. -/
def keyPlace (word : List Char) : Reading (Option Nat) :=
  match markPlace word with
  | none => pure none
  | some place => do
    let key ← cut word 0 place
    let value ← cut word (place + 1) (Text.byteLength word)
    pure (if !key.isEmpty && key.all isKeyChar && !value.isEmpty then some place else none)

/-- The place where an entry of one word is divided. -/
def keyPlaceAt (first last : Nat) : Reading (Option Nat) := do
  if first = last then
    let t ← tokenAt toks first
    if t.kind = .word then
      let text ← textAt toks first
      keyPlace text
    else pure none
  else pure none

def addKeyValue (entry i place : Nat) : Reading Unit := do
  let t ← tokenAt toks i
  let pair ← addNode entry .keyValue t.start t.stop
  let _ ← addNode pair .key t.start (t.start + place)
  let r ← get
  let value ← cut r.tree.source.toList (t.start + place + 1) t.stop
  let kind := if value.head?.any Char.isDigit then .version else .text
  let _ ← addNode pair kind (t.start + place + 1) t.stop

/-- The index of a last word that is the version of the words before it. -/
def versionAt (n first last : Nat) : Reading (Option Nat) := do
  if last < first + 2 then pure none
  else
    let plain ← arePlain toks n first last
    let text ← textAt toks last
    let t ← tokenAt toks last
    pure (if plain && text.head?.any Char.isDigit && t.kind = .word then some last else none)

def addNameVersion (entry first version : Nat) : Reading Unit := do
  let name ← less version 2
  let (start, nameStop) ← spanOf toks first name
  let (versionStart, stop) ← spanOf toks version version
  let product ← addNode entry .product start stop
  let wrapper ← addNode product .productName start nameStop
  let _ ← addNode wrapper .name start nameStop
  let wrapper ← addNode product .productVersion versionStart stop
  let _ ← addNode wrapper .version versionStart stop

/-! ### The recursion -/

mutual

/-- Reads the items from an index on. -/
def readItems : Nat → Nat → Nat → Nat → Reading Unit
  | 0, _, _, _ => throw .outOfRounds
  | n + 1, parent, i, limit => do
    if i < limit then
      let next ← readItem n parent i limit
      readItems n parent next limit
    else pure ()

/-- Reads one item and gives the next index. -/
def readItem : Nat → Nat → Nat → Nat → Reading Nat
  | 0, _, _, _ => throw .outOfRounds
  | n + 1, parent, i, limit => do
    let t ← tokenAt toks i
    match t.kind with
    | .space | .semicolon | .comma | .slash => pure (i + 1)
    | .closing =>
      markMalformed
      pure (i + 1)
    | .opening =>
      let (next, _) ← readBlock n parent i limit
      pure next
    | .word => readWords n parent i limit
    | kind =>
      let _ ← addNode parent (specialKind kind) t.start t.stop
      pure (i + 1)

/-- Reads words, with what they are the name of. A product gets its end when all of it is read. -/
def readWords : Nat → Nat → Nat → Nat → Reading Nat
  | 0, _, _, _ => throw .outOfRounds
  | n + 1, parent, i, limit => do
    let last ← lastWord toks n i limit
    let block ← blockAt toks (last + 1) limit
    let behind ← kindAt toks (last + 1) limit
    let (start, stop) ← spanOf toks i last
    if behind ≠ some .slash ∧ block = none then
      let _ ← addNode parent .text start stop
      pure (last + 1)
    else
      let product ← addNode parent .product start stop
      let wrapper ← addNode product .productName start stop
      let _ ← addNode wrapper .name start stop
      let (next, stop) ← readVersions toks n product (last + 1) limit stop
      let (next, stop) ← readBlocks n product next limit stop
      moveStop product stop
      pure next

/-- Reads the blocks right behind a product. What is given is the next index, and the end of what
was read last. -/
def readBlocks : Nat → Nat → Nat → Nat → Nat → Reading (Nat × Nat)
  | 0, _, _, _, _ => throw .outOfRounds
  | n + 1, product, i, limit, stop => do
    let block ← blockAt toks i limit
    match block with
    | some opening =>
      let (next, stop) ← readBlock n product opening limit
      readBlocks n product next limit stop
    | none => pure (i, stop)

/-- Reads a block. What is given is the next index, and the end of the block. -/
def readBlock : Nat → Nat → Nat → Nat → Reading (Nat × Nat)
  | 0, _, _, _ => throw .outOfRounds
  | n + 1, parent, opening, limit => do
    let r ← get
    if maxBlockDepth ≤ r.depth then
      markMalformed
      let last ← less limit 1
      let (start, stop) ← spanOf toks opening last
      let _ ← addNode parent .text start stop
      pure (limit, stop)
    else
      setDepth (r.depth + 1)
      let ends ← readInside n parent opening limit
      let r ← get
      let depth ← less r.depth 1
      setDepth depth
      pure ends

/-- Reads a block that is not nested too deeply. -/
def readInside : Nat → Nat → Nat → Nat → Reading (Nat × Nat)
  | 0, _, _, _ => throw .outOfRounds
  | n + 1, parent, opening, limit => do
    let t ← tokenAt toks opening
    let comments ← addNode parent .comments t.start t.stop
    readEntries n comments t.start (opening + 1) limit

/-- Reads the entries of a block from an index on, and moves the end of the block. -/
def readEntries : Nat → Nat → Nat → Nat → Nat → Reading (Nat × Nat)
  | 0, _, _, _, _ => throw .outOfRounds
  | n + 1, comments, start, i, limit => do
    let kind ← kindAt toks i limit
    match kind with
    | none =>
      markMalformed
      let stop ← lastEnd toks limit start
      moveStop comments (max stop (start + 1))
      pure (i, max stop (start + 1))
    | some .closing =>
      let t ← tokenAt toks i
      moveStop comments t.stop
      pure (i + 1, t.stop)
    | some .space | some .semicolon | some .comma =>
      readEntries n comments start (i + 1) limit
    | some _ =>
      let next ← readEntry n comments i limit
      readEntries n comments start next limit

/-- Reads an entry and gives the index where it ends. -/
def readEntry : Nat → Nat → Nat → Nat → Reading Nat
  | 0, _, _, _ => throw .outOfRounds
  | n + 1, comments, i, limit => do
    let next ← entryStop toks n 0 i limit
    let before ← less next 1
    let last ← lastSolid toks n i before
    let (start, stop) ← spanOf toks i last
    let entry ← addNode comments .commentEntry start stop
    readEntryBelow n entry i last
    pure next

/-- Reads what is below an entry. -/
def readEntryBelow : Nat → Nat → Nat → Nat → Reading Unit
  | 0, _, _, _ => throw .outOfRounds
  | n + 1, entry, first, last => do
    let place ← keyPlaceAt toks first last
    match place with
    | some place => addKeyValue toks entry first place
    | none =>
      let version ← versionAt toks n first last
      match version with
      | some version => addNameVersion toks entry first version
      | none => readItems n entry first (last + 1)

end

end Tokens

end Reading

/-- Reads a text in a number of rounds. -/
def readTree (rounds : Nat) (text : String) : Except Halt SyntaxTree := do
  let toks := Token.scan text
  let ((), r) ← (Reading.readItems toks rounds 0 0 toks.length).run ⟨.ofSource text, false, 0⟩
  pure (if r.malformed then r.tree.markSyntaxError else r.tree)

end AgentRules.Grammar
