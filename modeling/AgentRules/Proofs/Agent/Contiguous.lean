import Mathlib.Data.List.Chain
import AgentRules.Proofs.Agent.Scan
import AgentRules.Proofs.Agent.Places
import AgentRules.Proofs.Text.Strip

/-! # How tokens follow each other

The scan leaves nothing out: a token starts where the one before it ends. It reads as much as it can,
so that behind a value stands a mark or a blank, and behind blanks no other blank
(`Token.contiguous_scan`). Both hold of every piece of the list of tokens. -/

namespace AgentRules

open Text

/-- The second token can follow the first one at once. -/
structure Token.Joins (t u : Token) : Prop where
  stop_eq : t.stop = u.start
  not_values : t.kind.isValue = true → u.kind.isValue = false
  not_blanks : t.kind = .space → u.kind ≠ .space

/-- The tokens stand in the text, follow each other at once, and none of them is empty. -/
structure Contiguous (s : String) (ts : List Token) : Prop extends Placed s ts where
  joins : ts.IsChain Token.Joins
  nonempty : ∀ t ∈ ts, t.start < t.stop

namespace Contiguous
variable {s : String} {ts us vs : List Token} {t : Token}

theorem left (h : Contiguous s (us ++ vs)) : Contiguous s us where
  toPlaced := h.toPlaced.sublist (List.sublist_append_left us vs)
  joins := h.joins.left_of_append
  nonempty t ht := h.nonempty t (List.mem_append_left vs ht)

theorem right (h : Contiguous s (us ++ vs)) : Contiguous s vs where
  toPlaced := h.toPlaced.sublist (List.sublist_append_right us vs)
  joins := h.joins.right_of_append
  nonempty t ht := h.nonempty t (List.mem_append_right us ht)

theorem tail (h : Contiguous s (t :: ts)) : Contiguous s ts := @right s [t] ts h

end Contiguous

namespace Token

/-! ### Where a token ends -/

/-- A form reads at least one character. -/
def ReadsSome (form : List Char → Option Nat) : Prop := ∀ cs n, form cs = some n → 0 < n

theorem ReadsAddress.readsSome {form : List Char → Option Nat} (h : ReadsAddress form) :
    ReadsSome form := fun cs n hn => (h cs n hn).1

theorem head_dropWhile (p : Char → Bool) (cs : List Char) :
    (cs.dropWhile p).head?.all (!p ·) = true := by
  refine Option.all_eq_true _ _ |>.2 fun c hc => ?_
  rw [Text.eq_false_of_mem_head?_dropWhile c hc, Bool.not_false]

/-- **A value goes on to a delimiter or to the end**, and reads at least one character if one is
there. -/
theorem value_ends (c : Char) (cs : List Char) (hc : isDelimiter c = false) :
    0 < (value (c :: cs)).2 ∧ ((c :: cs).drop (value (c :: cs)).2).head?.all isDelimiter = true := by
  have hbounded {form : List Char → Option Nat} {n : Nat} (hform : ReadsSome form)
      (h : bounded form (c :: cs) = some n) :
      0 < n ∧ ((c :: cs).drop n).head?.all isDelimiter = true := by
    obtain ⟨h, hends⟩ := Option.filter_eq_some_iff.1 h
    exact ⟨hform _ n h, hends⟩
  unfold value
  split
  · exact hbounded readsAddress_webAddress.readsSome (by assumption)
  · exact hbounded readsAddress_mailAddress.readsSome (by assumption)
  · exact hbounded readsAddress_uuid.readsSome (by assumption)
  · next h =>
    exact hbounded readsAddress_base64.readsSome (Option.filter_eq_some_iff.1 h).1
  · -- a word is what stands before the next delimiter
    refine ⟨?_, ?_⟩
    · rw [List.takeWhile_cons_of_pos (by simp [hc])]
      exact Nat.succ_pos _
    · dsimp only
      rw [drop_length_takeWhile]
      simpa using head_dropWhile (!isDelimiter ·) (c :: cs)

/-! ### The scan -/

section First
variable {c : Char} (cs : List Char)

theorem mark_eq_none (h : isDelimiter c = false ∨ isBlank c = true) : mark? c = none := by
  cases hmark : mark? c with
  | none => rfl
  | some kind =>
    unfold mark? at hmark
    split at hmark <;> cases hmark <;> rcases h with h | h <;> exact absurd h (by decide)

theorem first_value (h : isDelimiter c = false) : first c cs = value (c :: cs) := by
  have hblank : ¬ isBlank c = true := fun hb => by simp [isDelimiter, hb] at h
  simp only [first, mark_eq_none (.inl h), if_neg hblank]

theorem first_blank (h : isBlank c = true) :
    first c cs = (.space, 1 + (cs.takeWhile isBlank).length) := by
  simp only [first, mark_eq_none (.inr h), if_pos h]

theorem first_mark (h : isDelimiter c = true) (hblank : isBlank c = false) :
    (first c cs).1.isValue = false ∧ (first c cs).1 ≠ .space := by
  simp only [isDelimiter, hblank, Bool.false_or, Bool.or_eq_true, decide_eq_true_eq] at h
  rcases h with (((rfl | rfl) | rfl) | rfl) | rfl <;> exact ⟨rfl, nofun⟩

theorem kind_first : (first c cs).1.isValue = !isDelimiter c ∧
    ((first c cs).1 = .space → isBlank c = true) := by
  cases hc : isDelimiter c with
  | false =>
    have hvalue := (free_value (c :: cs)).1
    rw [first_value cs hc]
    refine ⟨hvalue, fun h => ?_⟩
    rw [h] at hvalue
    cases hvalue
  | true =>
    cases hblank : isBlank c with
    | true =>
      rw [first_blank cs hblank]
      exact ⟨rfl, fun _ => rfl⟩
    | false =>
      obtain ⟨hvalue, hspace⟩ := first_mark cs hc hblank
      exact ⟨hvalue, fun h => absurd h hspace⟩

/-- What follows the first token starts with another kind of character. -/
theorem head_behind_first :
    ((first c cs).1.isValue = true →
      (cs.drop ((first c cs).2 - 1)).head?.all isDelimiter = true) ∧
    ((first c cs).1 = .space →
      (cs.drop ((first c cs).2 - 1)).head?.all (!isBlank ·) = true) := by
  refine ⟨fun hvalue => ?_, fun hspace => ?_⟩
  · have hc : isDelimiter c = false := by simpa [hvalue] using (@kind_first c cs).1
    obtain ⟨hpos, hends⟩ := value_ends c cs hc
    obtain ⟨n, hn⟩ : ∃ n, (value (c :: cs)).2 = n + 1 := ⟨_, (Nat.sub_add_cancel hpos).symm⟩
    rw [hn, List.drop_succ_cons] at hends
    rw [first_value cs hc, hn]
    exact hends
  · rw [first_blank cs ((kind_first cs).2 hspace), Nat.add_sub_cancel_left, drop_length_takeWhile]
    exact head_dropWhile isBlank cs

end First

theorem head_scanFrom {place : Nat} {cs : List Char} {u : Token}
    (h : (scanFrom place cs).head? = some u) :
    ∃ d ds, cs = d :: ds ∧ u.kind = (first d ds).1 ∧ u.start = place := by
  rcases cs with _ | ⟨d, ds⟩
  · rw [scanFrom] at h
    cases h
  · rw [scanFrom] at h
    cases h
    exact ⟨d, ds, rfl, rfl, rfl⟩

theorem isChain_scanFrom (place : Nat) (cs : List Char) : (scanFrom place cs).IsChain Joins := by
  induction place, cs using scanFrom.induct with
  | case1 place =>
    rw [scanFrom]
    exact .nil
  | case2 place c cs kind n hfirst text ih =>
    rw [scanFrom, hfirst]
    refine List.isChain_cons.2 ⟨fun u hu => ?_, ih⟩
    obtain ⟨d, ds, hcs, hkind, hstart⟩ := head_scanFrom hu
    obtain ⟨hvalue, hspace⟩ := @head_behind_first c cs
    rw [hfirst, hcs, List.head?_cons, Option.all_some] at hvalue hspace
    obtain ⟨hvalue', hspace'⟩ := @kind_first d ds
    refine ⟨hstart.symm, fun h => ?_, fun h h' => ?_⟩
    · rw [hkind, hvalue', hvalue h]
      rfl
    · rw [hkind] at h'
      have hblank := hspace h
      rw [hspace' h'] at hblank
      cases hblank

theorem nonempty_scanFrom {place : Nat} {cs : List Char} {t : Token} (h : t ∈ scanFrom place cs) :
    t.start < t.stop := by
  induction place, cs using scanFrom.induct with
  | case1 place =>
    rw [scanFrom] at h
    cases h
  | case2 place c cs kind n hfirst text ih =>
    rw [scanFrom, hfirst] at h
    rcases List.mem_cons.1 h with rfl | h
    · exact Nat.lt_add_of_pos_right (byteLength_pos (List.cons_ne_nil c _))
    · exact ih h

/-- **The tokens of a text follow each other at once.** -/
theorem contiguous_scan (s : String) : Contiguous s (scan s) where
  toPlaced := placed_scan s
  joins := isChain_scanFrom 0 s.toList
  nonempty _ := nonempty_scanFrom

end Token

end AgentRules
