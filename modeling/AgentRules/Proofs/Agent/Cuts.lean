import AgentRules.Proofs.Agent.Parens
import AgentRules.Proofs.Agent.Recursion

/-! # Cuts and parentheses

The grammar reads a list of tokens in pieces: a block up to the parenthesis that closes it, an entry
up to the mark that ends it. Each cut counts parentheses anew, from zero, and cannot see how deeply
its list is nested in others. Nothing is lost by this. Where a block is cut off, the parentheses of
the list close just if the block is closed, those inside close one level further down, and those
behind close (`closes_cutAtClose`); where an entry is cut off, just if those of both pieces do
(`closes_cutAtBreak`). What the grammar skips has no parentheses. -/

namespace AgentRules

open Paren

/-! ### One token -/

section Token
variable {t : Token} (ts : List Token)

theorem ofTokens_opening (h : t.kind = .opening) :
    ofTokens (t :: ts) = opens :: ofTokens ts :=
  List.filterMap_cons_some (by simp [ofToken?, h])

theorem ofTokens_closing (h : t.kind = .closing) :
    ofTokens (t :: ts) = closes :: ofTokens ts :=
  List.filterMap_cons_some (by simp [ofToken?, h])

theorem ofTokens_other (hopen : t.kind ≠ .opening) (hclose : t.kind ≠ .closing) :
    ofTokens (t :: ts) = ofTokens ts := by
  refine List.filterMap_cons_none ?_
  unfold ofToken?
  split
  · exact absurd (by assumption) hopen
  · exact absurd (by assumption) hclose
  · rfl

theorem depthBehind_opening (h : t.kind = .opening) (c : Nat) : t.depthBehind c = c + 1 := by
  simp [Token.depthBehind, h]

theorem depthBehind_closing (h : t.kind = .closing) (c : Nat) : t.depthBehind (c + 1) = c := by
  simp [Token.depthBehind, h]

theorem depthBehind_other (hopen : t.kind ≠ .opening) (hclose : t.kind ≠ .closing) (c : Nat) :
    t.depthBehind c = c := by
  unfold Token.depthBehind
  split
  · exact absurd (by assumption) hopen
  · exact absurd (by assumption) hclose
  · rfl

end Token

theorem ofTokens_eq_nil {ts : List Token} (h : ∀ t ∈ ts, t.kind ≠ .opening ∧ t.kind ≠ .closing) :
    ofTokens ts = [] := by
  induction ts with
  | nil => rfl
  | cons t ts ih =>
    obtain ⟨hopen, hclose⟩ := h t List.mem_cons_self
    rw [ofTokens_other ts hopen hclose]
    exact ih fun u hu => h u (List.mem_cons_of_mem t hu)

theorem ofTokens_append (ts us : List Token) : ofTokens (ts ++ us) = ofTokens ts ++ ofTokens us :=
  List.filterMap_append

/-! ### Blocks -/

/-- **A block is cut off where its parentheses close.** The cut has found `c` parentheses open
inside the block, and so the list stands behind `c + 1`. -/
theorem closes_cutAtClose (k : Nat) (ts : List Token) (c : Nat) :
    Closes (k + 1) (c + 1) (ofTokens ts) ↔
      (cutAtClose c ts).2.1.isSome ∧ Closes k c (ofTokens (cutAtClose c ts).1) ∧
        Closes (k + 1) 0 (ofTokens (cutAtClose c ts).2.2) := by
  induction ts generalizing c with
  | nil =>
    refine iff_of_false ?_ ?_
    · show ¬ c + 1 = 0
      omega
    · rintro ⟨h, -⟩
      exact absurd h (by simp [cutAtClose])
  | cons t ts ih =>
    by_cases hopen : t.kind = .opening
    · have hcut : cutAtClose c (t :: ts) =
          (t :: (cutAtClose (c + 1) ts).1, (cutAtClose (c + 1) ts).2) := by
        rw [cutAtClose, if_neg (by simp [hopen]), depthBehind_opening hopen]
      rw [hcut, ofTokens_opening _ hopen, ofTokens_opening _ hopen, Closes, Closes, ih (c + 1)]
      constructor
      · rintro ⟨hlt, hsome, hin, hrest⟩
        exact ⟨hsome, ⟨by omega, hin⟩, hrest⟩
      · rintro ⟨hsome, ⟨hlt, hin⟩, hrest⟩
        exact ⟨by omega, hsome, hin, hrest⟩
    · by_cases hclose : t.kind = .closing
      · rw [ofTokens_closing _ hclose, Closes]
        rcases c with _ | c
        · have hcut : cutAtClose 0 (t :: ts) = ([], some t, ts) := by
            rw [cutAtClose, if_pos ⟨hclose, rfl⟩]
          rw [hcut]
          exact ⟨fun h => ⟨rfl, rfl, h⟩, fun h => h.2.2⟩
        · have hcut : cutAtClose (c + 1) (t :: ts) =
              (t :: (cutAtClose c ts).1, (cutAtClose c ts).2) := by
            rw [cutAtClose, if_neg (by omega), depthBehind_closing hclose]
          rw [hcut, ofTokens_closing _ hclose, Closes]
          exact ih c
      · have hcut : cutAtClose c (t :: ts) =
            (t :: (cutAtClose c ts).1, (cutAtClose c ts).2) := by
          rw [cutAtClose, if_neg (fun h => hclose h.1), depthBehind_other hopen hclose]
        rw [hcut, ofTokens_other _ hopen hclose, ofTokens_other _ hopen hclose]
        exact ih c

/-- **What a block at some depth asks for.** The parentheses that may still be open there are
counted down from `maxBlockDepth`. -/
theorem closes_block {opening : Token} (h : opening.kind = .opening) (depth : Nat)
    (ts : List Token) :
    Closes (maxBlockDepth - depth) 0 (ofTokens (opening :: ts)) ↔
      (Block.cut depth opening ts).isClosed = true ∧
        Closes (maxBlockDepth - (depth + 1)) 0 (ofTokens (Block.cut depth opening ts).inside) ∧
          Closes (maxBlockDepth - depth) 0 (ofTokens (Block.cut depth opening ts).rest) := by
  rw [ofTokens_opening _ h, Closes]
  by_cases hdeep : maxBlockDepth ≤ depth
  · -- no more parenthesis may open, and the block counts as not closed
    refine iff_of_false ?_ ?_
    · rintro ⟨hlt, -⟩
      omega
    · rintro ⟨hclosed, -⟩
      rw [Block.cut, if_pos hdeep] at hclosed
      cases hclosed
  · obtain ⟨k, hk⟩ : ∃ k, maxBlockDepth - depth = k + 1 :=
      ⟨maxBlockDepth - depth - 1, by omega⟩
    have hk' : maxBlockDepth - (depth + 1) = k := by omega
    have hcut := closes_cutAtClose k ts 0
    rw [hk, hk', Block.cut, if_neg hdeep]
    rcases hc : cutAtClose 0 ts with ⟨inside, close, rest⟩
    rw [hc] at hcut
    rcases close with _ | close
    · refine iff_of_false ?_ ?_
      · rintro ⟨-, h⟩
        exact absurd (hcut.1 h).1 (by simp)
      · rintro ⟨hclosed, -⟩
        cases hclosed
    · constructor
      · rintro ⟨-, h⟩
        exact ⟨rfl, (hcut.1 h).2⟩
      · rintro ⟨-, h⟩
        exact ⟨Nat.succ_pos k, hcut.2 ⟨rfl, h⟩⟩

/-! ### Entries -/

/-- **An entry is cut off where none of its parentheses is open.** -/
theorem closes_cutAtBreak (k : Nat) (ts : List Token) (c : Nat) :
    Closes k c (ofTokens ts) ↔
      Closes k c (ofTokens (cutAtBreak c ts).1) ∧ Closes k 0 (ofTokens (cutAtBreak c ts).2) := by
  induction ts generalizing c with
  | nil => exact ⟨fun h => ⟨h, rfl⟩, fun h => h.1⟩
  | cons t ts ih =>
    by_cases hbreak : c = 0 ∧ (t.kind = .semicolon ∨ t.kind = .comma)
    · have hcut : cutAtBreak c (t :: ts) = ([], t :: ts) := by rw [cutAtBreak, if_pos hbreak]
      rw [hcut, hbreak.1]
      exact ⟨fun h => ⟨rfl, h⟩, fun h => h.2⟩
    · have hcut : cutAtBreak c (t :: ts) =
          (t :: (cutAtBreak (t.depthBehind c) ts).1, (cutAtBreak (t.depthBehind c) ts).2) := by
        rw [cutAtBreak, if_neg hbreak]
      rw [hcut]
      by_cases hopen : t.kind = .opening
      · rw [ofTokens_opening _ hopen, ofTokens_opening _ hopen, Closes, Closes,
          depthBehind_opening hopen, ih (c + 1), and_assoc]
      · by_cases hclose : t.kind = .closing
        · rw [ofTokens_closing _ hclose, ofTokens_closing _ hclose]
          rcases c with _ | c
          · exact iff_of_false id fun h => h.1
          · rw [Closes, Closes, depthBehind_closing hclose]
            exact ih c
        · rw [ofTokens_other _ hopen hclose, ofTokens_other _ hopen hclose,
            depthBehind_other hopen hclose]
          exact ih c

theorem ofTokens_dropWhile (ts : List Token) :
    ofTokens (ts.dropWhile (·.kind = .space)) = ofTokens ts := by
  induction ts with
  | nil => rfl
  | cons t ts ih =>
    by_cases h : t.kind = .space
    · rw [List.dropWhile_cons_of_pos (by simpa using h),
        ofTokens_other _ (by simp [h]) (by simp [h])]
      exact ih
    · rw [List.dropWhile_cons_of_neg (by simpa using h)]

theorem ofTokens_dropEndWhile (ts : List Token) :
    ofTokens (Text.dropEndWhile (·.kind = .space) ts) = ofTokens ts := by
  have hrev (us : List Token) : ofTokens us.reverse = (ofTokens us).reverse :=
    List.filterMap_reverse
  rw [Text.dropEndWhile, hrev, ofTokens_dropWhile, hrev, List.reverse_reverse]

namespace Grammar

/-- **What an entry asks for**: it and what follows close by themselves. -/
theorem closes_entry {t : Token} (hgap : isGap t = false) (k : Nat) (ts : List Token) :
    Closes k 0 (ofTokens (t :: ts)) ↔
      Closes k 0 (ofTokens (entryTokens t ts)) ∧ Closes k 0 (ofTokens (behindEntry t ts)) := by
  have hown : ofTokens (entryTokens t ts) =
      ofTokens (t :: (cutAtBreak (t.depthBehind 0) ts).1) := by
    rw [entryTokens, ← List.singleton_append, ofTokens_append, ofTokens_dropEndWhile,
      ← ofTokens_append, List.singleton_append]
  rw [closes_cutAtBreak k (t :: ts) 0, cutAtBreak_entry hgap, hown]
  rfl

/-! ### What has no parentheses -/

theorem ofTokens_plainEntry {ts : List Token} {b : Branch} (h : plainEntry? ts = some b) :
    ofTokens ts = [] := by
  have hplain : ∀ us, nameVersion? us = some b → ofTokens us = [] := by
    intro us hus
    refine ofTokens_eq_nil fun t ht => ?_
    unfold nameVersion? at hus
    split at hus
    · split at hus
      · next hall =>
        simp only [Bool.and_eq_true, List.all_eq_true, Bool.or_eq_true, decide_eq_true_eq] at hall
        rcases hall.1.1 t ht with hk | hk <;> simp [hk]
      · cases hus
    · cases hus
  unfold plainEntry? at h
  split at h
  · next t =>
    split at h
    · next hw => exact ofTokens_other [] (by simp [hw]) (by simp [hw])
    · cases h
  · exact hplain _ h

theorem ofTokens_moreWords (stop : Nat) (ts : List Token) :
    ofTokens (moreWords stop ts).2 = ofTokens ts := by
  fun_induction moreWords stop ts with
  | case1 stop s w ts h ih =>
    rw [ih, ofTokens_other _ (by simp [h.1]) (by simp [h.1]),
      ofTokens_other _ (by simp [h.2]) (by simp [h.2])]
  | case2 => rfl
  | case3 => rfl

theorem ofTokens_value {t : Token} (h : t.kind.isValue = true) (ts : List Token) :
    ofTokens (t :: ts) = ofTokens ts :=
  ofTokens_other ts (fun hk => by rw [hk] at h; cases h) (fun hk => by rw [hk] at h; cases h)

theorem ofTokens_versions (ts : List Token) : ofTokens (versions ts).2 = ofTokens ts := by
  fun_induction versions ts with
  | case1 => rfl
  | case2 s v ts hs hv bs rest hrec ih =>
    have hk : s.kind = .slash := by simpa using hs
    rw [hrec] at ih
    rw [ofTokens_other _ (by simp [hk]) (by simp [hk]), ofTokens_value hv]
    exact ih
  | case3 s v ts hs hv =>
    have hk : s.kind = .slash := by simpa using hs
    exact (ofTokens_other (v :: ts) (by simp [hk]) (by simp [hk])).symm
  | case4 s h => exact (ofTokens_other [] (by simp [h]) (by simp [h])).symm
  | case5 => rfl
  | case6 => rfl

theorem ofTokens_nextBlock {ts us : List Token} {t : Token} (h : nextBlock? ts = some (t, us)) :
    t.kind = .opening ∧ ofTokens ts = ofTokens (t :: us) := by
  unfold nextBlock? at h
  split at h
  · split at h
    · next hk => cases h; exact ⟨hk, rfl⟩
    · split at h
      · split at h
        · next hk =>
          cases h
          exact ⟨hk.2, ofTokens_other _ (by simp [hk.1]) (by simp [hk.1])⟩
        · cases h
      · cases h
  · cases h

end Grammar

end AgentRules
