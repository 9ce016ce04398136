import AgentRules.Agent.Token

/-! # Blocks and entries of a token list

Parentheses enclose blocks, and inside a block `;` and `,` divide entries. Both cuts count nested
parentheses and leave what is inside them alone. A block that is never closed goes on to the end of
its list, and so does one that is nested too deeply, whose inside is not looked at. -/

namespace AgentRules

/-- The number of blocks that can be nested. -/
def maxBlockDepth : Nat := 64

/-- The depth behind a token. -/
def Token.depthBehind (depth : Nat) (t : Token) : Nat :=
  match t.kind with
  | .opening => depth + 1
  | .closing => depth - 1
  | _ => depth

/-- Cuts behind the parenthesis that closes a block which has been opened: what is inside, the
parenthesis if there is one, and what follows. -/
def cutAtClose : Nat → List Token → List Token × Option Token × List Token
  | _, [] => ([], none, [])
  | depth, t :: ts =>
    if t.kind = .closing ∧ depth = 0 then ([], some t, ts)
    else
      let (inside, close, rest) := cutAtClose (t.depthBehind depth) ts
      (t :: inside, close, rest)

/-- Cuts in front of the mark that ends an entry. -/
def cutAtBreak : Nat → List Token → List Token × List Token
  | _, [] => ([], [])
  | depth, t :: ts =>
    if depth = 0 ∧ (t.kind = .semicolon ∨ t.kind = .comma) then ([], t :: ts)
    else
      let (entry, rest) := cutAtBreak (t.depthBehind depth) ts
      (t :: entry, rest)

/-- The place where the last token ends, or where the first one does if there is no other. -/
def lastStop (t : Token) (ts : List Token) : Nat := (ts.getLast?.getD t).stop

/-- What an opening parenthesis starts. -/
structure Block where
  start : Nat
  stop : Nat
  inside : List Token
  rest : List Token
  /-- Whether the block ends at a parenthesis of its own. -/
  isClosed : Bool
deriving Repr, DecidableEq

/-- The block that starts at a parenthesis inside `depth` others. -/
def Block.cut (depth : Nat) (opening : Token) (ts : List Token) : Block :=
  if maxBlockDepth ≤ depth then ⟨opening.start, lastStop opening ts, [], [], false⟩
  else match cutAtClose 0 ts with
    | (inside, some close, rest) => ⟨opening.start, close.stop, inside, rest, true⟩
    | (inside, none, rest) => ⟨opening.start, lastStop opening ts, inside, rest, false⟩

/-- The parenthesis of a block that follows at once or behind blanks, and what is behind it. -/
def nextBlock? : List Token → Option (Token × List Token)
  | t :: ts =>
    if t.kind = .opening then some (t, ts)
    else match ts with
      | u :: us => if t.kind = .space ∧ u.kind = .opening then some (u, us) else none
      | [] => none
  | [] => none

/-! ### Nothing gets longer -/

theorem length_cutAtClose (depth : Nat) (ts : List Token) :
    (cutAtClose depth ts).1.length ≤ ts.length ∧ (cutAtClose depth ts).2.2.length ≤ ts.length := by
  induction ts generalizing depth with
  | nil => simp [cutAtClose]
  | cons t ts ih =>
    have h := ih (t.depthBehind depth)
    unfold cutAtClose
    split
    · simp
    · exact ⟨Nat.succ_le_succ h.1, Nat.le_succ_of_le h.2⟩

theorem length_cutAtBreak (depth : Nat) (ts : List Token) :
    (cutAtBreak depth ts).1.length ≤ ts.length ∧ (cutAtBreak depth ts).2.length ≤ ts.length := by
  induction ts generalizing depth with
  | nil => simp [cutAtBreak]
  | cons t ts ih =>
    have h := ih (t.depthBehind depth)
    unfold cutAtBreak
    split
    · simp
    · exact ⟨Nat.succ_le_succ h.1, Nat.le_succ_of_le h.2⟩

theorem Block.length_cut (depth : Nat) (opening : Token) (ts : List Token) :
    (Block.cut depth opening ts).inside.length ≤ ts.length ∧
      (Block.cut depth opening ts).rest.length ≤ ts.length := by
  have h := length_cutAtClose 0 ts
  unfold Block.cut
  split
  · simp
  · split <;> simp_all

theorem length_nextBlock? {ts us : List Token} {t : Token} (h : nextBlock? ts = some (t, us)) :
    us.length < ts.length := by
  unfold nextBlock? at h
  split at h
  · split at h
    · cases h; exact Nat.lt_succ_self _
    · split at h
      · split at h
        · cases h; simp only [List.length_cons]; omega
        · cases h
      · cases h
  · cases h

end AgentRules
