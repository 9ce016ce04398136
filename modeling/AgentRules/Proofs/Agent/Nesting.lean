import AgentRules.Proofs.Agent.Cuts

/-! # What the grammar reports about parentheses

The truth value that comes with the branches of a list is gathered from four places: a parenthesis
between items that closes nothing, a block of a product, a block between items, and an entry. None of
them sees the whole list. Together they tell whether its parentheses close, where `maxBlockDepth`
less the depth of the list may be open at a time (`items_bad`). -/

namespace AgentRules.Grammar

open Paren

/-- The parentheses of some tokens inside `depth` blocks close, none of them too deep. -/
def Nests (depth : Nat) (ts : List Token) : Prop :=
  Closes (maxBlockDepth - depth) 0 (ofTokens ts)

section Nests
variable {depth : Nat} {t : Token} {ts us : List Token}

theorem nests_nil : Nests depth [] := rfl

theorem nests_congr (h : ofTokens ts = ofTokens us) : Nests depth ts ↔ Nests depth us := by
  unfold Nests
  rw [h]

theorem nests_skip (h : isGap t = true ∨ t.kind = .slash) :
    Nests depth (t :: ts) ↔ Nests depth ts := by
  refine nests_congr (ofTokens_other ts ?_ ?_)
  all_goals
    intro hk
    simp [isGap, hk] at h

theorem not_nests_closing (h : t.kind = .closing) : ¬ Nests depth (t :: ts) := by
  unfold Nests
  rw [ofTokens_closing ts h]
  exact id

theorem nests_opening (h : t.kind = .opening) :
    Nests depth (t :: ts) ↔ (Block.cut depth t ts).isClosed = true ∧
      Nests (depth + 1) (Block.cut depth t ts).inside ∧
        Nests depth (Block.cut depth t ts).rest :=
  closes_block h depth ts

theorem nests_moreWords (h : t.kind = .word) :
    Nests depth (t :: ts) ↔ Nests depth (moreWords t.stop ts).2 := by
  refine nests_congr ?_
  rw [ofTokens_moreWords]
  exact ofTokens_other ts (by simp [h]) (by simp [h])

theorem nests_behindVersions (h : t.kind = .word) :
    Nests depth (t :: ts) ↔ Nests depth (behindVersions t ts) := by
  rw [nests_moreWords h]
  refine nests_congr ?_
  rw [behindVersions, ofTokens_versions]

theorem nests_special (h : isSpecial t = true) : Nests depth (t :: ts) ↔ Nests depth ts := by
  refine nests_congr (ofTokens_value ?_ ts)
  unfold isSpecial at h
  exact (Bool.and_eq_true_iff.1 h).1

theorem nests_nextBlock (h : nextBlock? ts = some (t, us)) :
    Nests depth ts ↔ (Block.cut depth t us).isClosed = true ∧
      Nests (depth + 1) (Block.cut depth t us).inside ∧
        Nests depth (Block.cut depth t us).rest := by
  obtain ⟨hopen, hps⟩ := ofTokens_nextBlock h
  rw [nests_congr hps, nests_opening hopen]

theorem nests_entry (h : isGap t = false) :
    Nests depth (t :: ts) ↔ Nests depth (entryTokens t ts) ∧ Nests depth (behindEntry t ts) :=
  closes_entry h _ ts

end Nests

theorem or_eq_false {a b : Bool} {p q : Prop} (ha : a = false ↔ p) (hb : b = false ↔ q) :
    (a || b) = false ↔ p ∧ q := by
  rw [Bool.or_eq_false_iff, ha, hb]

theorem block_eq_false {closed below behind : Bool} {p q : Prop} (hbelow : below = false ↔ p)
    (hbehind : behind = false ↔ q) :
    (!closed || below || behind) = false ↔ closed = true ∧ p ∧ q := by
  have hclosed : (!closed) = false ↔ closed = true := by simp
  rw [or_eq_false (or_eq_false hclosed hbelow) hbehind, and_assoc]

/-- **Nothing is reported of a list just if its parentheses nest**, as items, as the blocks behind a
product with what follows these, and as the entries of a block. -/
theorem reported_iff :
    (∀ depth ts, (items depth ts).2 = false ↔ Nests depth ts) ∧
    (∀ depth ts, (blocks depth ts).2 = false ∧ Nests depth (behindBlocks depth ts) ↔
      Nests depth ts) ∧
    (∀ depth ts, (entries depth ts).2 = false ↔ Nests depth ts) := by
  apply forest_induct
  case nil =>
    intro depth
    rw [items_nil]
    exact iff_of_true rfl nests_nil
  case skip =>
    intro depth t ts h ih
    rw [items_skip h, nests_skip h, ih]
  case closing =>
    intro depth t ts h _
    rw [items_closing h]
    exact iff_of_false (by simp) (not_nests_closing h)
  case opening =>
    intro depth t ts h hin hrest
    rw [items_opening h, nests_opening h]
    exact block_eq_false hin hrest
  case product =>
    intro depth t ts h hnames hblocks hrest
    rw [items_product h hnames, nests_behindVersions h, ← hblocks]
    exact or_eq_false Iff.rfl hrest
  case text =>
    intro depth t ts h hnames ih
    rw [items_text h hnames, nests_moreWords h]
    exact ih
  case special =>
    intro depth t ts h ih
    rw [items_special h, nests_special h]
    exact ih
  case last =>
    intro depth ts h
    rw [blocks_none h, behindBlocks_none h]
    exact ⟨fun hn => hn.2, fun hn => ⟨rfl, hn⟩⟩
  case block =>
    intro depth ts t us h hin hrest
    rw [blocks_some h, behindBlocks_some h, nests_nextBlock h,
      block_eq_false (p := Nests (depth + 1) (Block.cut depth t us).inside) hin Iff.rfl, ← hrest]
    simp only [and_assoc]
  case done =>
    intro depth
    rw [entries_nil]
    exact iff_of_true rfl nests_nil
  case gap =>
    intro depth t ts h ih
    rw [entries_gap h, nests_skip (.inl h), ih]
  case entry =>
    intro depth t ts h hown hrest
    have hbelow : (belowEntry depth (entryTokens t ts)).2 = false ↔
        Nests depth (entryTokens t ts) := by
      unfold belowEntry
      split
      · next b hplain =>
        -- an entry that is not read as items has no parentheses
        refine iff_of_true rfl ?_
        unfold Nests
        rw [ofTokens_plainEntry hplain]
        rfl
      · exact hown
    rw [entries_entry h, nests_entry h]
    exact or_eq_false hbelow hrest

theorem items_bad (ts : List Token) :
    (items 0 ts).2 = true ↔ ¬ Closes maxBlockDepth 0 (ofTokens ts) := by
  rw [← Bool.not_eq_false, reported_iff.1 0 ts]
  rfl

end AgentRules.Grammar
