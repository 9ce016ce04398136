import AgentRules.Text.Blank
import Mathlib.Data.List.DropRight

/-! # Texts without something at their ends

A text is stripped of the characters that satisfy a condition, from both ends inwards. What is left
is the part between two runs of such characters that has none at its own ends, and there is only one
part like that (`stripBoth_eq_iff`). So a text that has none at its ends stays
(`stripBoth_eq_self_iff`). -/

namespace AgentRules.Text

variable {p : Char → Bool} {cs core : List Char} {c : Char}

/-- The text does not start with a character that satisfies `p` and does not end with one. -/
def Bare (p : Char → Bool) (cs : List Char) : Prop :=
  (∀ c ∈ cs.head?, p c = false) ∧ ∀ c ∈ cs.getLast?, p c = false

instance (p : Char → Bool) (cs : List Char) : Decidable (Bare p cs) :=
  inferInstanceAs (Decidable (_ ∧ _))

/-! ### The end of a text -/

theorem eq_false_of_mem_head?_dropWhile {α : Type} {p : α → Bool} {xs : List α} :
    ∀ x ∈ (xs.dropWhile p).head?, p x = false := by
  intro x hx
  have hstop := List.head?_dropWhile_not p xs
  rw [Option.mem_def.1 hx] at hstop
  simpa using hstop

theorem dropEndWhile_eq_self {α : Type} {p : α → Bool} {xs : List α}
    (h : ∀ x ∈ xs.getLast?, p x = false) : dropEndWhile p xs = xs := by
  refine List.rdropWhile_eq_self_iff.2 fun hne hlast => ?_
  rw [h _ (List.getLast?_eq_some_getLast hne)] at hlast
  cases hlast

theorem dropEndWhile_append_of_forall {α : Type} {p : α → Bool} {bs : List α}
    (h : ∀ b ∈ bs, p b = true) (as : List α) :
    dropEndWhile p (as ++ bs) = dropEndWhile p as := by
  unfold dropEndWhile
  rw [List.reverse_append, List.dropWhile_append_of_pos (by simpa using h)]

theorem dropEndWhile_prefix_self (p : Char → Bool) (cs : List Char) : dropEndWhile p cs <+: cs :=
  List.rdropWhile_prefix p cs

theorem forall_head?_of_append {as bs : List Char} (h : ∀ c ∈ (as ++ bs).head?, p c = false) :
    ∀ c ∈ as.head?, p c = false :=
  fun c hc => h c (List.mem_head?_append_of_mem_head? hc)

/-- A text that starts with what stays has nothing to drop at its ends once its end is dropped. -/
theorem bare_dropEndWhile (h : ∀ c ∈ cs.head?, p c = false) : Bare p (dropEndWhile p cs) := by
  constructor
  · obtain ⟨rest, hrest⟩ := dropEndWhile_prefix_self p cs
    rw [← hrest] at h
    exact forall_head?_of_append h
  · intro c hc
    rw [dropEndWhile, List.getLast?_reverse] at hc
    exact eq_false_of_mem_head?_dropWhile c hc

/-! ### Both ends -/

theorem exists_stripped (p : Char → Bool) (cs : List Char) :
    ∃ front back, cs = front ++ (stripBoth p cs ++ back) ∧ (∀ c ∈ front, p c = true) ∧
      ∀ c ∈ back, p c = true := by
  refine ⟨cs.takeWhile p, (cs.dropWhile p).rtakeWhile p, ?_, fun c => List.mem_takeWhile_imp,
    fun c => List.mem_rtakeWhile_imp⟩
  have hback : stripBoth p cs ++ (cs.dropWhile p).rtakeWhile p = cs.dropWhile p :=
    List.rdropWhile_append_rtakeWhile
  rw [hback, List.takeWhile_append_dropWhile]

theorem bare_stripBoth (p : Char → Bool) (cs : List Char) : Bare p (stripBoth p cs) :=
  bare_dropEndWhile eq_false_of_mem_head?_dropWhile

/-- **What is left is the part with nothing to drop between two runs of what is dropped.** -/
theorem stripBoth_eq_iff : stripBoth p cs = core ↔ Bare p core ∧
    ∃ front back, cs = front ++ (core ++ back) ∧ (∀ c ∈ front, p c = true) ∧
      ∀ c ∈ back, p c = true := by
  constructor
  · rintro rfl
    exact ⟨bare_stripBoth p cs, exists_stripped p cs⟩
  · rintro ⟨⟨hhead, hlast⟩, front, back, rfl, hfront, hback⟩
    rw [stripBoth, List.dropWhile_append_of_pos hfront]
    cases core with
    | nil =>
      rw [List.nil_append, List.dropWhile_eq_nil_iff.2 hback]
      rfl
    | cons c core =>
      have hc : ¬ p c = true := by simp [hhead c rfl]
      rw [List.cons_append, List.dropWhile_cons_of_neg hc, ← List.cons_append,
        dropEndWhile_append_of_forall hback, dropEndWhile_eq_self hlast]

/-- **A text with nothing to drop at its ends stays, and no other one does.** -/
theorem stripBoth_eq_self_iff : stripBoth p cs = cs ↔ Bare p cs := by
  rw [stripBoth_eq_iff, and_iff_left]
  exact ⟨[], [], by simp, by simp, by simp⟩

theorem bare_of_forall (h : ∀ c ∈ cs, p c = false) : Bare p cs :=
  ⟨fun c hc => h c (List.mem_of_head? hc), fun c hc => h c (List.mem_of_getLast? hc)⟩

theorem stripBoth_sublist (p : Char → Bool) (cs : List Char) : (stripBoth p cs).Sublist cs :=
  (dropEndWhile_prefix_self p _).sublist.trans (List.dropWhile_suffix p).sublist

theorem stripBoth_map (f : Char → Char) (cs : List Char) :
    stripBoth p (cs.map f) = (stripBoth (p ∘ f) cs).map f := by
  unfold stripBoth dropEndWhile
  rw [List.dropWhile_map, ← List.map_reverse, List.dropWhile_map, ← List.map_reverse]

/-! ### Blanks -/

/-- Blanks may stand around the text. -/
def Padded (text cs : List Char) : Prop :=
  ∃ front back, cs = front ++ (text ++ back) ∧ (∀ c ∈ front, isBlank c = true) ∧
    ∀ c ∈ back, isBlank c = true

theorem padded_self (text : List Char) : Padded text text := ⟨[], [], by simp, by simp, by simp⟩

/-- **What is left between blanks is the text without blanks at its ends.** -/
theorem trim_eq_iff {s t : String} :
    trim s = t ↔ Bare isBlank t.toList ∧ Padded t.toList s.toList := by
  rw [Padded, ← stripBoth_eq_iff]
  constructor
  · rintro rfl
    exact String.toList_ofList.symm
  · intro h
    rw [trim, h, String.ofList_toList]

theorem bare_trim (s : String) : Bare isBlank (trim s).toList := (trim_eq_iff.1 rfl).1

theorem padded_trim (s : String) : Padded (trim s).toList s.toList := (trim_eq_iff.1 rfl).2

end AgentRules.Text
