import AgentRules.Proofs.Text.Strip
import Mathlib.Data.List.TakeWhile

/-! # Patterns

A pattern says which texts can be read from a place on, and which of them is preferred: alternatives
are tried in order, and a repetition makes one more round if it can. `ends` lists what is left behind
every way of reading, the preferred way first, so the first of them is what a leftmost-first search
that is anchored at the place finds (`first`).

Greedy reading of a class of characters is decided by what follows it. At the end of a pattern it
reads all of them (`head?_atLeast`). In front of something that does not start in the class it reads
all of them or fails, for with fewer of them the rest cannot be read (`ends_atLeast_seq`). -/

namespace AgentRules

/-- A description of the texts that can be read from a place on. -/
inductive Pattern
  | empty
  | one (p : Char → Bool)
  | seq (a b : Pattern)
  | alt (a b : Pattern)
  | star (a : Pattern)

namespace Pattern

/-- What is left behind rounds of reading, one more round before none. A round that reads nothing is
not followed by another one. -/
def rounds (round : List Char → List (List Char)) (cs : List Char) : List (List Char) :=
  (round cs).flatMap (fun ds => if _ : ds.length < cs.length then rounds round ds else []) ++ [cs]
termination_by cs.length

/-- What is left of a text behind each way of reading it, the preferred way first. -/
def ends : Pattern → List Char → List (List Char)
  | empty, cs => [cs]
  | one _, [] => []
  | one p, c :: cs => if p c then [cs] else []
  | seq a b, cs => (a.ends cs).flatMap b.ends
  | alt a b, cs => a.ends cs ++ b.ends cs
  | star a, cs => rounds a.ends cs

/-- The number of characters that the preferred way reads. -/
def first (a : Pattern) (cs : List Char) : Option Nat :=
  (a.ends cs).head?.map fun rest => cs.length - rest.length

/-! ### Derived patterns -/

def literal : List Char → Pattern
  | [] => empty
  | c :: cs => seq (one (· = c)) (literal cs)

/-- Something that may be left out. -/
def opt (a : Pattern) : Pattern := alt a empty

/-- One character of each class, one after another. -/
def each : List (Char → Bool) → Pattern
  | [] => empty
  | p :: ps => seq (one p) (each ps)

/-- At least `n` characters of a class. -/
def atLeast (n : Nat) (p : Char → Bool) : Pattern := seq (each (List.replicate n p)) (star (one p))

variable {p q : Char → Bool} {a b : Pattern} {c : Char} {cs rest : List Char}

/-! ### Ways of reading -/

theorem ends_seq (a b : Pattern) (cs : List Char) :
    (seq a b).ends cs = (a.ends cs).flatMap b.ends := rfl

theorem ends_alt (a b : Pattern) (cs : List Char) :
    (alt a b).ends cs = a.ends cs ++ b.ends cs := rfl

theorem ends_opt (a : Pattern) (cs : List Char) : (opt a).ends cs = a.ends cs ++ [cs] := rfl

theorem ends_one_cons (p : Char → Bool) (c : Char) (cs : List Char) :
    (one p).ends (c :: cs) = if p c then [cs] else [] := rfl

theorem ends_seq_assoc (a b d : Pattern) (cs : List Char) :
    (seq (seq a b) d).ends cs = (seq a (seq b d)).ends cs := by
  rw [ends_seq, ends_seq, ends_seq, List.flatMap_assoc]
  rfl

theorem ends_one_seq_cons (p : Char → Bool) (b : Pattern) (c : Char) (cs : List Char) :
    (seq (one p) b).ends (c :: cs) = if p c then b.ends cs else [] := by
  rw [ends_seq, ends]
  split
  · exact List.flatMap_singleton b.ends cs
  · rfl

theorem ends_char_seq (c : Char) (b : Pattern) (cs : List Char) :
    (seq (one (· = c)) b).ends (c :: cs) = b.ends cs := by
  rw [ends_one_seq_cons, if_pos (by simp)]

theorem ends_char_seq_eq_nil (h : ∀ ds, cs ≠ c :: ds) (b : Pattern) :
    (seq (one (· = c)) b).ends cs = [] := by
  cases cs with
  | nil => rfl
  | cons d ds =>
    rw [ends_one_seq_cons, if_neg]
    intro hd
    exact h ds (by rw [of_decide_eq_true hd])

theorem ends_opt_seq (a b : Pattern) (cs : List Char) :
    (seq (opt a) b).ends cs = (seq a b).ends cs ++ b.ends cs := by
  rw [ends_seq, ends_opt, List.flatMap_append, List.flatMap_singleton, ends_seq]

theorem ends_literal_append (l rest : List Char) : (literal l).ends (l ++ rest) = [rest] := by
  induction l with
  | nil => rfl
  | cons c l ih =>
    rw [literal, List.cons_append, ends_char_seq, ih]

theorem ends_literal_eq_nil {l : List Char} (h : ∀ rest, cs ≠ l ++ rest) :
    (literal l).ends cs = [] := by
  induction l generalizing cs with
  | nil => exact absurd rfl (h cs)
  | cons c l ih =>
    cases cs with
    | nil => rfl
    | cons d cs =>
      rw [literal, ends_one_seq_cons]
      split
      · next hd =>
        obtain rfl : d = c := by simpa using hd
        exact ih fun rest hrest => h rest (by rw [hrest]; rfl)
      · rfl

theorem ends_each (ps : List (Char → Bool)) (cs : List Char) : (each ps).ends cs =
    if ps.length ≤ cs.length ∧ (ps.zip cs).all fun x => x.1 x.2 then [cs.drop ps.length] else [] := by
  induction ps generalizing cs with
  | nil => simp [each, ends]
  | cons p ps ih =>
    cases cs with
    | nil => simp [each, ends]
    | cons c cs =>
      rw [each, ends_one_seq_cons, ih]
      by_cases hc : p c = true
      · simp only [hc, ↓reduceIte, List.length_cons, Nat.add_le_add_iff_right, List.zip_cons_cons,
          List.all_cons, Bool.true_and, List.drop_succ_cons]
      · simp [hc]

/-- The preferred way of something that can always be read follows the preferred way before it. -/
theorem head?_seq (hb : ∀ ds, b.ends ds ≠ []) (a : Pattern) (cs : List Char) :
    ((seq a b).ends cs).head? = (a.ends cs).head?.bind fun ds => (b.ends ds).head? := by
  rw [ends_seq]
  cases a.ends cs with
  | nil => rfl
  | cons ds rest =>
    obtain ⟨es, more, hes⟩ := List.exists_cons_of_ne_nil (hb ds)
    rw [List.flatMap_cons, hes, List.head?_cons, Option.bind_some, hes]
    rfl

/-! ### Greedy reading of a class -/

theorem ends_star_cons (h : p c = true) :
    (star (one p)).ends (c :: cs) = (star (one p)).ends cs ++ [c :: cs] := by
  have hlt : cs.length < (c :: cs).length := Nat.lt_succ_self _
  rw [ends, rounds, ends, if_pos h, List.flatMap_singleton, dif_pos hlt, ends]

theorem ends_star_of_head (h : ∀ c ∈ cs.head?, p c = false) : (star (one p)).ends cs = [cs] := by
  rw [ends, rounds]
  cases cs with
  | nil => rfl
  | cons c cs =>
    rw [ends, if_neg (by simp [h c rfl])]
    rfl

/-- **The preferred way reads the whole run.** -/
theorem head?_star (p : Char → Bool) (cs : List Char) :
    ((star (one p)).ends cs).head? = some (cs.dropWhile p) := by
  induction cs with
  | nil =>
    rw [ends_star_of_head (by simp)]
    rfl
  | cons c cs ih =>
    by_cases hc : p c = true
    · rw [ends_star_cons hc, List.head?_append, ih, List.dropWhile_cons_of_pos hc]
      rfl
    · rw [ends_star_of_head (by simpa using hc), List.dropWhile_cons_of_neg hc]
      rfl

/-- **In front of something that does not start in the class the whole run is read.** -/
theorem ends_star_seq (hb : ∀ c cs, p c = true → b.ends (c :: cs) = []) (cs : List Char) :
    (seq (star (one p)) b).ends cs = b.ends (cs.dropWhile p) := by
  induction cs with
  | nil =>
    rw [ends_seq, ends_star_of_head (by simp), List.flatMap_singleton]
    rfl
  | cons c cs ih =>
    by_cases hc : p c = true
    · rw [ends_seq, ends_star_cons hc, List.flatMap_append, List.flatMap_singleton, hb c cs hc,
        List.append_nil, List.dropWhile_cons_of_pos hc]
      exact ih
    · rw [ends_seq, ends_star_of_head (by simpa using hc), List.flatMap_singleton,
        List.dropWhile_cons_of_neg hc]

theorem ends_replicate_seq (n : Nat) (p : Char → Bool) (b : Pattern) (cs : List Char) :
    (seq (each (List.replicate n p)) b).ends cs =
      if n ≤ (cs.takeWhile p).length then b.ends (cs.drop n) else [] := by
  induction n generalizing cs with
  | zero => simp [each, ends]
  | succ n ih =>
    rw [List.replicate_succ, each, ends_seq_assoc]
    cases cs with
    | nil => rfl
    | cons c cs =>
      rw [ends_one_seq_cons, ih]
      by_cases hc : p c = true
      · simp [hc]
      · simp [hc]

theorem drop_dropWhile_of_le {n : Nat} (h : n ≤ (cs.takeWhile p).length) :
    (cs.drop n).dropWhile p = cs.dropWhile p := by
  induction n generalizing cs with
  | zero => rfl
  | succ n ih =>
    cases cs with
    | nil => rfl
    | cons c cs =>
      by_cases hc : p c = true
      · rw [List.takeWhile_cons_of_pos hc, List.length_cons] at h
        rw [List.drop_succ_cons, ih (by omega), List.dropWhile_cons_of_pos hc]
      · rw [List.takeWhile_cons_of_neg hc] at h
        cases h

/-- **At the end of a pattern all characters of the class are read.** -/
theorem head?_atLeast (n : Nat) (p : Char → Bool) (cs : List Char) :
    ((atLeast n p).ends cs).head? =
      if n ≤ (cs.takeWhile p).length then some (cs.dropWhile p) else none := by
  rw [atLeast, ends_replicate_seq]
  split
  · next h => rw [head?_star, drop_dropWhile_of_le h]
  · rfl

/-- **In front of something that does not start in the class all of them are read, or nothing.** -/
theorem ends_atLeast_seq (n : Nat) (hb : ∀ c cs, p c = true → b.ends (c :: cs) = [])
    (cs : List Char) : (seq (atLeast n p) b).ends cs =
      if n ≤ (cs.takeWhile p).length then b.ends (cs.dropWhile p) else [] := by
  rw [atLeast, ends_seq_assoc, ends_replicate_seq]
  split
  · next h => rw [ends_star_seq hb, drop_dropWhile_of_le h]
  · rfl

/-! ### What is read -/

/-- All classes of the pattern are within one class. -/
def Within (q : Char → Bool) : Pattern → Prop
  | empty => True
  | one p => ∀ c, p c = true → q c = true
  | seq a b | alt a b => a.Within q ∧ b.Within q
  | star a => a.Within q

/-- Whether a pattern reads at least one character. -/
def readsSome : Pattern → Bool
  | empty | star _ => false
  | one _ => true
  | seq a b => a.readsSome || b.readsSome
  | alt a b => a.readsSome && b.readsSome

theorem exists_of_mem_rounds {round : List Char → List (List Char)}
    (h : ∀ cs, ∀ rest ∈ round cs, ∃ taken, cs = taken ++ rest ∧ ∀ c ∈ taken, q c = true)
    (hrest : rest ∈ rounds round cs) :
    ∃ taken, cs = taken ++ rest ∧ ∀ c ∈ taken, q c = true := by
  induction cs using rounds.induct generalizing rest with
  | case1 cs ih =>
    rw [rounds, List.mem_append, List.mem_flatMap, List.mem_singleton] at hrest
    rcases hrest with ⟨ds, hds, hrest⟩ | rfl
    · split at hrest
      · next hlt =>
        obtain ⟨taken, rfl, htaken⟩ := h cs ds hds
        obtain ⟨more, rfl, hmore⟩ := ih ds hlt hrest
        refine ⟨taken ++ more, (List.append_assoc _ _ _).symm, fun c hc => ?_⟩
        exact (List.mem_append.1 hc).elim (htaken c) (hmore c)
      · cases hrest
    · exact ⟨[], rfl, by simp⟩

/-- **What is read is in the classes of the pattern.** -/
theorem exists_of_mem_ends (ha : a.Within q) (h : rest ∈ a.ends cs) :
    ∃ taken, cs = taken ++ rest ∧ ∀ c ∈ taken, q c = true := by
  induction a generalizing cs rest with
  | empty =>
    obtain rfl := List.mem_singleton.1 h
    exact ⟨[], rfl, by simp⟩
  | one p =>
    cases cs with
    | nil => cases h
    | cons c cs =>
      rw [ends] at h
      split at h
      · next hc =>
        obtain rfl := List.mem_singleton.1 h
        exact ⟨[c], rfl, by simpa using ha c hc⟩
      · cases h
  | seq a b iha ihb =>
    obtain ⟨ds, hds, hrest⟩ := List.mem_flatMap.1 h
    obtain ⟨taken, rfl, htaken⟩ := iha ha.1 hds
    obtain ⟨more, rfl, hmore⟩ := ihb ha.2 hrest
    refine ⟨taken ++ more, (List.append_assoc _ _ _).symm, fun c hc => ?_⟩
    exact (List.mem_append.1 hc).elim (htaken c) (hmore c)
  | alt a b iha ihb =>
    rcases List.mem_append.1 h with h | h
    · exact iha ha.1 h
    · exact ihb ha.2 h
  | star a ih => exact exists_of_mem_rounds (fun _ _ hrest => ih ha hrest) h

theorem within_literal {l : List Char} (h : l.all q = true) : (literal l).Within q := by
  induction l with
  | nil => trivial
  | cons c l ih =>
    obtain ⟨hc, hl⟩ := Bool.and_eq_true_iff.1 h
    exact ⟨fun d hd => by rwa [of_decide_eq_true hd], ih hl⟩

theorem within_each {ps : List (Char → Bool)} (h : ∀ p ∈ ps, ∀ c, p c = true → q c = true) :
    (each ps).Within q := by
  induction ps with
  | nil => trivial
  | cons p ps ih =>
    exact ⟨h p List.mem_cons_self, ih fun p hp => h p (List.mem_cons_of_mem _ hp)⟩

theorem within_atLeast (n : Nat) (h : ∀ c, p c = true → q c = true) : (atLeast n p).Within q :=
  ⟨within_each fun _ hp => by rwa [List.eq_of_mem_replicate hp], h⟩

theorem within_true (a : Pattern) : a.Within fun _ => true := by
  induction a with
  | empty => trivial
  | one p => exact fun _ _ => rfl
  | seq a b iha ihb => exact ⟨iha, ihb⟩
  | alt a b iha ihb => exact ⟨iha, ihb⟩
  | star a ih => exact ih

theorem length_le_of_mem_ends (h : rest ∈ a.ends cs) : rest.length ≤ cs.length := by
  obtain ⟨taken, rfl, -⟩ := exists_of_mem_ends a.within_true h
  rw [List.length_append]
  omega

theorem length_lt_of_mem_ends (ha : a.readsSome = true) (h : rest ∈ a.ends cs) :
    rest.length < cs.length := by
  induction a generalizing cs rest with
  | empty => cases ha
  | one p =>
    cases cs with
    | nil => cases h
    | cons c cs =>
      rw [ends] at h
      split at h
      · obtain rfl := List.mem_singleton.1 h
        exact Nat.lt_succ_self _
      · cases h
  | seq a b iha ihb =>
    obtain ⟨ds, hds, h⟩ := List.mem_flatMap.1 h
    have hle := length_le_of_mem_ends h
    have hle' := length_le_of_mem_ends hds
    rcases Bool.or_eq_true_iff.1 ha with ha | ha
    · have := iha ha hds
      omega
    · have := ihb ha h
      omega
  | alt a b iha ihb =>
    obtain ⟨ha, hb⟩ := Bool.and_eq_true_iff.1 ha
    rcases List.mem_append.1 h with h | h
    · exact iha ha h
    · exact ihb hb h
  | star a ih => cases ha

/-- Something behind rounds is read behind one more round before it is read behind none. -/
theorem ends_rounds_seq (ha : a.readsSome = true) (b : Pattern) (cs : List Char) :
    (seq (star a) b).ends cs = (seq a (seq (star a) b)).ends cs ++ b.ends cs := by
  have hstar : (star a).ends cs = (a.ends cs).flatMap (star a).ends ++ [cs] := by
    show rounds a.ends cs = _
    rw [rounds]
    exact congrArg (· ++ [cs]) (List.flatMap_congr fun ds hds =>
      dif_pos (length_lt_of_mem_ends ha hds))
  rw [ends_seq, hstar, List.flatMap_append, List.flatMap_singleton, List.flatMap_assoc]
  rfl

/-- How much is read of a text behind `n` characters that have been read already. -/
theorem map_add_first {n : Nat} (h : cs.length = n + rest.length) (a : Pattern) :
    (a.first rest).map (n + ·) = (a.ends rest).head?.map fun ds => cs.length - ds.length := by
  rw [first, Option.map_map]
  refine Option.map_congr fun ds hds => ?_
  have := length_le_of_mem_ends (List.mem_of_head? hds)
  simp only [Function.comp_apply]
  omega

theorem of_first (ha : a.Within q) {n : Nat} (h : a.first cs = some n) :
    n ≤ cs.length ∧ ∀ c ∈ cs.take n, q c = true := by
  obtain ⟨rest, hrest, rfl⟩ := Option.map_eq_some_iff.1 h
  obtain ⟨taken, rfl, htaken⟩ := exists_of_mem_ends ha (List.mem_of_head? hrest)
  have hlength : (taken ++ rest).length - rest.length = taken.length := by
    rw [List.length_append, Nat.add_sub_cancel]
  rw [hlength, List.take_left, List.length_append]
  exact ⟨by omega, htaken⟩

theorem first_pos (ha : a.readsSome = true) {n : Nat} (h : a.first cs = some n) : 0 < n := by
  obtain ⟨rest, hrest, rfl⟩ := Option.map_eq_some_iff.1 h
  have := length_lt_of_mem_ends ha (List.mem_of_head? hrest)
  omega

end Pattern

end AgentRules
