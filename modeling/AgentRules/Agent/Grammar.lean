import AgentRules.Agent.Block
import AgentRules.Agent.Branch

/-! # The grammar of agent texts

An agent text is a list of products, free texts, special values and comment blocks. Words that are
followed by a slash or by a block name a product; the values behind its slashes are its versions,
and the blocks right behind it are its comments.

    agent    := (product | text | value | comments)*
    product  := words ('/' value)+ comments* | words comments+
    comments := '(' entry ((';' | ',') entry)* ')'
    entry    := key value | words version | agent

Any text has a tree. Parentheses that do not match, and blocks nested too deeply, are reported
beside it, which is what the truth value next to the branches says. -/

namespace AgentRules.Grammar

/-! ### Names and versions -/

/-- The kind of a node for a value that is no word. -/
def specialKind : TokenKind → NodeKind
  | .url => .url
  | .email => .email
  | .uuid => .uuid
  | .base64 => .base64
  | _ => .text

def tokenLeaf (kind : NodeKind) (t : Token) : Branch := .leaf kind t.start t.stop

/-- Goes on behind a word through further words, with blanks between them: the place where the last
one ends, and what follows. -/
def moreWords (stop : Nat) : List Token → Nat × List Token
  | s :: w :: ts =>
    if s.kind = .space ∧ w.kind = .word then moreWords w.stop ts else (stop, s :: w :: ts)
  | ts => (stop, ts)

def nameBranch (start stop : Nat) : Branch := .wrap .productName (.leaf .name start stop)

def versionBranch (t : Token) : Branch :=
  .wrap .productVersion (tokenLeaf (if t.kind = .word then .version else specialKind t.kind) t)

/-- Reads slashes and the values behind them, up to a slash without a value. -/
def versions : List Token → List Branch × List Token
  | s :: v :: ts =>
    if s.kind ≠ .slash then ([], s :: v :: ts)
    else if v.kind.isValue then
      let (bs, rest) := versions ts
      (tokenLeaf .separator s :: versionBranch v :: bs, rest)
    else ([tokenLeaf .separator s], v :: ts)
  | [s] => if s.kind = .slash then ([tokenLeaf .separator s], []) else ([], [s])
  | [] => ([], [])

/-- What follows the blocks right behind a product. -/
def behindBlocks (depth : Nat) (ts : List Token) : List Token :=
  match _h : nextBlock? ts with
  | some (t, us) => behindBlocks depth (Block.cut depth t us).rest
  | none => ts
termination_by ts.length
decreasing_by
  have := length_nextBlock? _h
  have := (Block.length_cut depth t us).2
  omega

/-- Whether what follows some words makes a product of them. -/
def namesProduct (ts : List Token) : Bool :=
  ts.head?.any (·.kind = .slash) || (nextBlock? ts).isSome

/-! ### Entries of one form -/

def isKeyChar (c : Char) : Bool := c.isAlphanum || c = '_' || c = '-'

/-- The two sides of a word that is a key with a value, divided at its first `:` or `=`. -/
def keyValue? (word : List Char) : Option (List Char × List Char) :=
  let key := word.takeWhile fun c => c ≠ ':' && c ≠ '='
  match word.drop key.length with
  | _ :: c :: value =>
    if key.isEmpty || !key.all isKeyChar then none else some (key, c :: value)
  | _ => none

/-- A key with its value; a value that starts with a digit is a version. -/
def keyValueBranch (t : Token) (key value : List Char) : Branch :=
  let keyStop := t.start + Text.byteLength key
  let kind := if value.head?.any Char.isDigit then .version else .text
  .mk .keyValue t.start t.stop [.leaf .key t.start keyStop, .leaf kind (keyStop + 1) t.stop]

/-- Words with a last one that starts with a digit: a product with its version. -/
def nameVersion? (ts : List Token) : Option Branch :=
  match ts.head?, ts.reverse with
  | some first, v :: _ :: n :: _ =>
    if ts.all (fun t => t.kind = .word || t.kind = .space) && v.kind = .word &&
        v.text.head?.any Char.isDigit then
      some (.mk .product first.start v.stop [nameBranch first.start n.stop, versionBranch v])
    else none
  | _, _ => none

/-- What is below an entry of one of these two forms. -/
def plainEntry? (ts : List Token) : Option Branch :=
  match ts with
  | [t] =>
    if t.kind = .word then (keyValue? t.text).map fun (key, value) => keyValueBranch t key value
    else none
  | ts => nameVersion? ts

/-! ### The recursion -/

/-- Whether a token stands for nothing between entries. -/
def isGap (t : Token) : Bool := t.kind = .space || t.kind = .semicolon || t.kind = .comma

/-- The entry at the start of a list of tokens, without blanks at its end. -/
def entryTokens (t : Token) (ts : List Token) : List Token :=
  t :: Text.dropEndWhile (·.kind = .space) (cutAtBreak (t.depthBehind 0) ts).1

def behindEntry (t : Token) (ts : List Token) : List Token := (cutAtBreak (t.depthBehind 0) ts).2

theorem length_entryTokens (t : Token) (ts : List Token) :
    (entryTokens t ts).length ≤ (t :: ts).length := by
  have h := (length_cutAtBreak (t.depthBehind 0) ts).1
  have h' := (List.dropWhile_suffix (l := (cutAtBreak (t.depthBehind 0) ts).1.reverse)
    (fun u : Token => decide (u.kind = .space))).length_le
  simp only [entryTokens, Text.dropEndWhile, List.length_cons, List.length_reverse] at h' ⊢
  omega

/-- The branch of a block, which is a text if the block is nested too deeply. -/
def blockBranch (depth : Nat) (b : Block) (children : List Branch) : Branch :=
  if maxBlockDepth ≤ depth then .leaf .text b.start b.stop
  else .mk .comments b.start b.stop children

theorem length_moreWords (stop : Nat) (ts : List Token) :
    (moreWords stop ts).2.length ≤ ts.length := by
  fun_induction moreWords stop ts with
  | case1 _ _ _ _ _ ih => simp only [List.length_cons]; omega
  | case2 => exact Nat.le_refl _
  | case3 => exact Nat.le_refl _

theorem length_versions (ts : List Token) : (versions ts).2.length ≤ ts.length := by
  fun_induction versions ts with
  | case2 _ _ _ _ _ _ _ h ih => simp_all only [List.length_cons]; omega
  | case3 => simp only [List.length_cons]; omega
  | case1 | case5 | case6 => exact Nat.le_refl _
  | case4 => exact Nat.zero_le _

theorem length_behindBlocks (depth : Nat) (ts : List Token) :
    (behindBlocks depth ts).length ≤ ts.length := by
  fun_induction behindBlocks depth ts with
  | case1 ts t us h ih =>
    have := length_nextBlock? h
    have := (Block.length_cut depth t us).2
    omega
  | case2 => exact Nat.le_refl _

mutual

/-- The branches of a list of tokens inside `depth` blocks. -/
def items (depth : Nat) (ts : List Token) : List Branch × Bool :=
  match ts with
  | [] => ([], false)
  | t :: ts =>
    match t.kind with
    | .space | .semicolon | .comma | .slash => items depth ts
    | .closing => ((items depth ts).1, true)
    | .opening =>
      let b := Block.cut depth t ts
      let (below, badBelow) := entries (depth + 1) b.inside
      let (behind, badBehind) := items depth b.rest
      (blockBranch depth b below :: behind, !b.isClosed || badBelow || badBehind)
    | .word =>
      let words := moreWords t.stop ts
      if namesProduct words.2 then
        let ofVersions := versions words.2
        let (ofBlocks, badBlocks) := blocks depth ofVersions.2
        let (behind, badBehind) := items depth (behindBlocks depth ofVersions.2)
        let parts := nameBranch t.start words.1 :: (ofVersions.1 ++ ofBlocks)
        (.around .product t.start parts :: behind, badBlocks || badBehind)
      else
        let (behind, bad) := items depth words.2
        (.leaf .text t.start words.1 :: behind, bad)
    | kind =>
      let (behind, bad) := items depth ts
      (tokenLeaf (specialKind kind) t :: behind, bad)
termination_by (ts.length, 0)
decreasing_by
  · decreasing_tactic
  · decreasing_tactic
  · have := (Block.length_cut depth t ts).1
    exact Prod.Lex.left _ _ (Nat.lt_succ_of_le this)
  · have := (Block.length_cut depth t ts).2
    exact Prod.Lex.left _ _ (Nat.lt_succ_of_le this)
  · have h1 := length_moreWords t.stop ts
    have h2 := length_versions (moreWords t.stop ts).2
    exact Prod.Lex.left _ _ (Nat.lt_succ_of_le (Nat.le_trans h2 h1))
  · have h1 := length_moreWords t.stop ts
    have h2 := length_versions (moreWords t.stop ts).2
    have h3 := length_behindBlocks depth (versions (moreWords t.stop ts).2).2
    exact Prod.Lex.left _ _ (Nat.lt_succ_of_le (Nat.le_trans h3 (Nat.le_trans h2 h1)))
  · exact Prod.Lex.left _ _ (Nat.lt_succ_of_le (length_moreWords t.stop ts))
  · decreasing_tactic

/-- The entries of a block. -/
def entries (depth : Nat) (ts : List Token) : List Branch × Bool :=
  match ts with
  | [] => ([], false)
  | t :: ts =>
    if isGap t then entries depth ts
    else
      let own := entryTokens t ts
      let (below, badBelow) :=
        match plainEntry? own with
        | some b => ([b], false)
        | none => items depth own
      let (behind, badBehind) := entries depth (behindEntry t ts)
      (.mk .commentEntry t.start (lastStop t own) below :: behind, badBelow || badBehind)
termination_by (ts.length, 1)
decreasing_by
  · decreasing_tactic
  · have h := length_entryTokens t ts
    rcases Nat.lt_or_eq_of_le h with h | h
    · exact Prod.Lex.left _ _ h
    · simp only [h]; exact Prod.Lex.right _ (by decide)
  · exact Prod.Lex.left _ _ (Nat.lt_succ_of_le (length_cutAtBreak (t.depthBehind 0) ts).2)

/-- The blocks right behind a product. -/
def blocks (depth : Nat) (ts : List Token) : List Branch × Bool :=
  match _h : nextBlock? ts with
  | none => ([], false)
  | some (t, us) =>
    let b := Block.cut depth t us
    let (below, badBelow) := entries (depth + 1) b.inside
    let (behind, badBehind) := blocks depth b.rest
    (blockBranch depth b below :: behind, !b.isClosed || badBelow || badBehind)
termination_by (ts.length, 0)
decreasing_by
  · have h1 := (Block.length_cut depth t us).1
    exact Prod.Lex.left _ _ (Nat.lt_of_le_of_lt h1 (length_nextBlock? _h))
  · have h1 := (Block.length_cut depth t us).2
    exact Prod.Lex.left _ _ (Nat.lt_of_le_of_lt h1 (length_nextBlock? _h))

end

/-- The tree of an agent text. -/
def parse (text : String) : Except Fault SyntaxTree := do
  let (branches, bad) := items 0 (Token.scan text)
  let t ← Branch.plantAll (.ofSource text) 0 branches
  return if bad then t.markSyntaxError else t

end AgentRules.Grammar
