import AgentRules.Agent.Grammar

/-! # The recursion of the grammar

What the three functions of the grammar return, case by case, with the pairs they pass on taken
apart: `items` by the kind of the first token, `blocks` by whether another block follows, `entries`
by the form of the first entry. `forest_induct` is the induction that goes with these cases; a fact
about all branches of a text, or about all places where its parentheses are judged, is proved by
it. -/

namespace AgentRules.Grammar

variable {depth : Nat} {t : Token} {ts us : List Token}

/-! ### Items -/

theorem items_nil : items depth [] = ([], false) := by rw [items]

theorem items_skip (h : isGap t = true ∨ t.kind = .slash) :
    items depth (t :: ts) = items depth ts := by
  rw [items]
  rcases h with h | h
  · simp only [isGap, Bool.or_eq_true, decide_eq_true_eq] at h
    rcases h with (h | h) | h <;> simp [h]
  · simp [h]

theorem items_closing (h : t.kind = .closing) :
    items depth (t :: ts) = ((items depth ts).1, true) := by
  rw [items]
  simp [h]

theorem items_opening (h : t.kind = .opening) :
    items depth (t :: ts) =
      (blockBranch depth (Block.cut depth t ts)
          (entries (depth + 1) (Block.cut depth t ts).inside).1 ::
        (items depth (Block.cut depth t ts).rest).1,
      !(Block.cut depth t ts).isClosed ||
        (entries (depth + 1) (Block.cut depth t ts).inside).2 ||
        (items depth (Block.cut depth t ts).rest).2) := by
  rw [items]
  simp [h]

def behindVersions (t : Token) (ts : List Token) : List Token :=
  (versions (moreWords t.stop ts).2).2

def productBranch (depth : Nat) (t : Token) (ts : List Token) : Branch :=
  .around .product t.start (nameBranch t.start (moreWords t.stop ts).1 ::
    ((versions (moreWords t.stop ts).2).1 ++ (blocks depth (behindVersions t ts)).1))

theorem items_product (h : t.kind = .word) (hnames : namesProduct (moreWords t.stop ts).2 = true) :
    items depth (t :: ts) =
      (productBranch depth t ts :: (items depth (behindBlocks depth (behindVersions t ts))).1,
      (blocks depth (behindVersions t ts)).2 ||
        (items depth (behindBlocks depth (behindVersions t ts))).2) := by
  rw [items]
  simp [h, hnames, productBranch, behindVersions]

theorem items_text (h : t.kind = .word) (hnames : namesProduct (moreWords t.stop ts).2 = false) :
    items depth (t :: ts) =
      (.leaf .text t.start (moreWords t.stop ts).1 :: (items depth (moreWords t.stop ts).2).1,
        (items depth (moreWords t.stop ts).2).2) := by
  rw [items]
  simp [h, hnames]

/-- A value that is no word. -/
def isSpecial (t : Token) : Bool := t.kind.isValue && t.kind ≠ .word

theorem items_special (h : isSpecial t = true) :
    items depth (t :: ts) =
      (tokenLeaf (specialKind t.kind) t :: (items depth ts).1, (items depth ts).2) := by
  rw [items]
  unfold isSpecial at h
  rcases hk : t.kind <;> simp [hk, TokenKind.isValue] at h ⊢

/-! ### Blocks -/

theorem blocks_none (h : nextBlock? ts = none) : blocks depth ts = ([], false) := by
  rw [blocks]
  split
  · rfl
  · next heq => rw [h] at heq; cases heq

theorem blocks_some (h : nextBlock? ts = some (t, us)) :
    blocks depth ts =
      (blockBranch depth (Block.cut depth t us)
          (entries (depth + 1) (Block.cut depth t us).inside).1 ::
        (blocks depth (Block.cut depth t us).rest).1,
      !(Block.cut depth t us).isClosed ||
        (entries (depth + 1) (Block.cut depth t us).inside).2 ||
        (blocks depth (Block.cut depth t us).rest).2) := by
  rw [blocks]
  split
  · next heq => rw [h] at heq; cases heq
  · next heq => rw [h] at heq; cases heq; rfl

theorem behindBlocks_none (h : nextBlock? ts = none) : behindBlocks depth ts = ts := by
  rw [behindBlocks]
  split
  · next heq => rw [h] at heq; cases heq
  · rfl

theorem behindBlocks_some (h : nextBlock? ts = some (t, us)) :
    behindBlocks depth ts = behindBlocks depth (Block.cut depth t us).rest := by
  rw [behindBlocks]
  split
  · next heq => rw [h] at heq; cases heq; rfl
  · next heq => rw [h] at heq; cases heq

/-! ### Entries -/

theorem entries_nil : entries depth [] = ([], false) := by rw [entries]

theorem entries_gap (h : isGap t = true) : entries depth (t :: ts) = entries depth ts := by
  rw [entries, if_pos h]

def belowEntry (depth : Nat) (own : List Token) : List Branch × Bool :=
  match plainEntry? own with
  | some b => ([b], false)
  | none => items depth own

theorem cutAtBreak_entry (h : isGap t = false) : cutAtBreak 0 (t :: ts) =
    (t :: (cutAtBreak (t.depthBehind 0) ts).1, (cutAtBreak (t.depthBehind 0) ts).2) := by
  have hbreak : ¬ (0 = 0 ∧ (t.kind = .semicolon ∨ t.kind = .comma)) := by
    rintro ⟨-, hk⟩
    rcases hk with hk | hk <;> simp [isGap, hk] at h
  rw [cutAtBreak, if_neg hbreak]

theorem entries_entry (h : isGap t = false) :
    entries depth (t :: ts) =
      (.mk .commentEntry t.start (lastStop t (entryTokens t ts))
          (belowEntry depth (entryTokens t ts)).1 :: (entries depth (behindEntry t ts)).1,
        (belowEntry depth (entryTokens t ts)).2 || (entries depth (behindEntry t ts)).2) := by
  rw [entries, if_neg (by simp [h])]
  rfl

/-! ### The induction -/

/-- **The induction of the grammar**: what holds of the items, the blocks and the entries of every
list if it holds in each case, given that it holds of the parts the case goes on to read. -/
theorem forest_induct {I B E : Nat → List Token → Prop}
    (nil : ∀ depth, I depth [])
    (skip : ∀ depth t ts, isGap t = true ∨ t.kind = .slash → I depth ts → I depth (t :: ts))
    (closing : ∀ depth t ts, t.kind = .closing → I depth ts → I depth (t :: ts))
    (opening : ∀ depth t ts, t.kind = .opening → E (depth + 1) (Block.cut depth t ts).inside →
      I depth (Block.cut depth t ts).rest → I depth (t :: ts))
    (product : ∀ depth t ts, t.kind = .word → namesProduct (moreWords t.stop ts).2 = true →
      B depth (behindVersions t ts) → I depth (behindBlocks depth (behindVersions t ts)) →
      I depth (t :: ts))
    (text : ∀ depth t ts, t.kind = .word → namesProduct (moreWords t.stop ts).2 = false →
      I depth (moreWords t.stop ts).2 → I depth (t :: ts))
    (special : ∀ depth t ts, isSpecial t = true → I depth ts → I depth (t :: ts))
    (last : ∀ depth ts, nextBlock? ts = none → B depth ts)
    (block : ∀ depth ts t us, nextBlock? ts = some (t, us) →
      E (depth + 1) (Block.cut depth t us).inside → B depth (Block.cut depth t us).rest →
      B depth ts)
    (done : ∀ depth, E depth [])
    (gap : ∀ depth t ts, isGap t = true → E depth ts → E depth (t :: ts))
    (entry : ∀ depth t ts, isGap t = false → I depth (entryTokens t ts) →
      E depth (behindEntry t ts) → E depth (t :: ts)) :
    (∀ depth ts, I depth ts) ∧ (∀ depth ts, B depth ts) ∧ ∀ depth ts, E depth ts := by
  refine items.mutual_induct I B E nil ?_ ?_ ?_ ?_ closing ?_ ?_ ?_ ?_ last ?_ done gap ?_
  · intro depth t ts h ih
    exact skip depth t ts (.inl (by simp [isGap, h])) ih
  · intro depth t ts h ih
    exact skip depth t ts (.inl (by simp [isGap, h])) ih
  · intro depth t ts h ih
    exact skip depth t ts (.inl (by simp [isGap, h])) ih
  · intro depth t ts h ih
    exact skip depth t ts (.inr h) ih
  · intro depth t ts h b _ _ _ _ _ _ hin hrest
    exact opening depth t ts h hin hrest
  · intro depth t ts h words hnames ofVersions _ _ _ _ _ _ hblocks hrest
    exact product depth t ts h hnames hblocks hrest
  · intro depth t ts h words hnames _ _ _ ih
    exact text depth t ts h (Bool.eq_false_iff.2 hnames) ih
  · intro depth t ts _ _ _ h1 h2 h3 h4 h5 h6 h7 ih
    refine special depth t ts ?_ ih
    rcases hk : t.kind <;> simp_all [isSpecial, TokenKind.isValue]
  · intro depth ts t us h b _ _ _ _ _ _ hin hrest
    exact block depth ts t us h hin hrest
  · intro depth t ts h own _ _ _ _ _ _ hown hrest
    exact entry depth t ts (Bool.eq_false_iff.2 h) hown hrest

end AgentRules.Grammar
