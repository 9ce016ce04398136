import AgentRules.Proofs.Agent.Cuts
import AgentRules.Proofs.Agent.Forms

/-! # The parentheses that the scan sees

Every parenthesis of a text is a token of its own: no form of a value reaches over one, nor do
blanks. So the tokens of a text have the parentheses of the text, in the same order
(`ofTokens_scan`). -/

namespace AgentRules

open Paren Text

/-! ### Characters without parentheses -/

/-- No parenthesis is among the characters. -/
def Free (cs : List Char) : Prop := ofText cs = []

theorem ofChar_eq_none {c : Char} (hopen : c ≠ '(') (hclose : c ≠ ')') : ofChar? c = none := by
  rw [ofChar?, if_neg hopen, if_neg hclose]

theorem free_of_forall {p : Char → Bool} (hopen : p '(' = false) (hclose : p ')' = false)
    {cs : List Char} (h : ∀ c ∈ cs, p c = true) : Free cs := by
  refine List.filterMap_eq_nil_iff.2 fun c hc => ?_
  have hp := h c hc
  refine ofChar_eq_none ?_ ?_
  · rintro rfl
    rw [hopen] at hp
    cases hp
  · rintro rfl
    rw [hclose] at hp
    cases hp

theorem free_takeWhile {p : Char → Bool} (hopen : p '(' = false) (hclose : p ')' = false)
    (cs : List Char) : Free (cs.takeWhile p) :=
  free_of_forall hopen hclose fun _ h => List.mem_takeWhile_imp h

theorem free_take_takeWhile {p : Char → Bool} (hopen : p '(' = false) (hclose : p ')' = false)
    (cs : List Char) : Free (cs.take (cs.takeWhile p).length) := by
  rw [take_length_takeWhile]
  exact free_takeWhile hopen hclose cs

namespace Token

/-! ### Forms of values -/

/-- A form reads no parenthesis. -/
def ReadsFree (form : List Char → Option Nat) : Prop :=
  ∀ cs n, form cs = some n → Free (cs.take n)

theorem ReadsFree.filter {f : List Char → Option Nat} (hf : ReadsFree f)
    (p : List Char → Nat → Bool) : ReadsFree fun cs => (f cs).filter (p cs) := by
  intro cs n h
  exact hf cs n (Option.filter_eq_some_iff.1 h).1

theorem ReadsAddress.readsFree {f : List Char → Option Nat} (hf : ReadsAddress f) : ReadsFree f :=
  fun cs n h => free_of_forall rfl rfl (hf cs n h).2.2

/-- **A value reads no parenthesis**, of whatever form it is. -/
theorem free_value (cs : List Char) :
    (value cs).1.isValue = true ∧ Free (cs.take (value cs).2) := by
  have hbounded {f : List Char → Option Nat} (hf : ReadsAddress f) : ReadsFree (bounded f) :=
    hf.readsFree.filter fun cs n => (cs.drop n).head?.all isDelimiter
  have hmixed : ReadsFree mixedBase64 := (hbounded readsAddress_base64).filter fun cs n =>
    (cs.take n).any Char.isDigit && (cs.take n).any Char.isAlpha
  unfold value
  split
  · exact ⟨rfl, hbounded readsAddress_webAddress cs _ (by assumption)⟩
  · exact ⟨rfl, hbounded readsAddress_mailAddress cs _ (by assumption)⟩
  · exact ⟨rfl, hbounded readsAddress_uuid cs _ (by assumption)⟩
  · exact ⟨rfl, hmixed cs _ (by assumption)⟩
  · exact ⟨rfl, free_take_takeWhile rfl rfl cs⟩

/-! ### The scan -/

theorem free_cons {c : Char} {cs : List Char} (hc : ofChar? c = none) (h : Free cs) :
    Free (c :: cs) :=
  (List.filterMap_cons_none hc).trans h

theorem ofTokens_free {kind : TokenKind} {place : Nat} {text : List Char}
    (hkind : kind = .space ∨ kind.isValue = true) (h : Free text) :
    ofTokens [⟨kind, place, text⟩] = ofText text := by
  rw [h]
  rcases hkind with rfl | hkind
  · rfl
  · exact Grammar.ofTokens_value (t := ⟨kind, place, text⟩) hkind []

/-- **The first token of a text has the parentheses of its characters.** -/
theorem ofTokens_first (c : Char) (cs : List Char) (place : Nat) :
    ofTokens [⟨(first c cs).1, place, c :: cs.take ((first c cs).2 - 1)⟩] =
      ofText (c :: cs.take ((first c cs).2 - 1)) := by
  unfold first
  split
  · next kind hmark =>
    unfold mark? at hmark
    split at hmark <;> cases hmark <;> rfl
  · next hmark =>
    have hc : ofChar? c = none := by
      refine ofChar_eq_none ?_ ?_
      all_goals
        rintro rfl
        cases hmark
    split
    · refine ofTokens_free (.inl rfl) (free_cons hc ?_)
      rw [Nat.add_sub_cancel_left]
      exact free_take_takeWhile rfl rfl cs
    · obtain ⟨hvalue, hfree⟩ := free_value (c :: cs)
      refine ofTokens_free (.inr hvalue) ?_
      rcases hn : (value (c :: cs)).2 with _ | n
      · exact free_cons hc rfl
      · rw [hn] at hfree
        exact hfree

theorem ofTokens_scanFrom (place : Nat) (cs : List Char) :
    ofTokens (scanFrom place cs) = ofText cs := by
  induction place, cs using scanFrom.induct with
  | case1 place =>
    rw [scanFrom]
    rfl
  | case2 place c cs kind n hfirst text ih =>
    have hhead := ofTokens_first c cs place
    rw [hfirst] at hhead
    rw [scanFrom, hfirst]
    show ofTokens ([⟨kind, place, text⟩] ++ scanFrom (place + byteLength text) (cs.drop (n - 1))) = _
    have hsplit : c :: cs = text ++ cs.drop (n - 1) := by
      rw [List.cons_append, List.take_append_drop]
    rw [ofTokens_append, hhead, ih, hsplit]
    exact List.filterMap_append.symm

/-- **The tokens of a text have the parentheses of the text.** -/
theorem ofTokens_scan (s : String) : ofTokens (scan s) = ofText s.toList :=
  ofTokens_scanFrom 0 s.toList

end Token

end AgentRules
