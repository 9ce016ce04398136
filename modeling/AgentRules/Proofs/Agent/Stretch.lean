import AgentRules.Proofs.Agent.Contiguous
import AgentRules.Proofs.Agent.Reading

/-! # Tokens between two indices

A reader by index is followed along the tokens that stand between two indices (`Between`). The
tokens it asks for are those at the front of this list, so that every index it uses has a token, and
its loops stop where the functions of the grammar that take the list apart stop. What comes of a
step is said by `Ends`, which holds if the step comes to it whenever it gets enough rounds. -/

namespace AgentRules.Grammar

open Text

/-! ### Steps that end -/

/-- Given enough rounds, the step ends with a value, and leaves a reader. -/
def Ends {α : Type} (x : Nat → Reading α) (r : Reader) (a : α) (r' : Reader) : Prop :=
  ∃ enough, ∀ n, enough ≤ n → (x n).run r = .ok (a, r')

namespace Ends
variable {α β : Type} {x : Nat → Reading α} {f : Nat → α → Reading β} {a : α} {b : β}
  {r r' r'' : Reader}

theorem of_run {y : Reading α} (h : y.run r = .ok (a, r')) : Ends (fun _ => y) r a r' :=
  ⟨0, fun _ _ => h⟩

theorem pure (a : α) (r : Reader) : Ends (fun _ => Pure.pure a) r a r := of_run rfl

theorem bind (hx : Ends x r a r') (hf : Ends (fun n => f n a) r' b r'') :
    Ends (fun n => x n >>= f n) r b r'' := by
  obtain ⟨m, hm⟩ := hx
  obtain ⟨k, hk⟩ := hf
  refine ⟨max m k, fun n hn => ?_⟩
  rw [StateT.run_bind, hm n (by omega)]
  exact hk n (by omega)

/-- A call takes one round. -/
theorem succ (h : Ends (fun n => x (n + 1)) r a r') : Ends x r a r' := by
  obtain ⟨m, hm⟩ := h
  refine ⟨m + 1, fun n hn => ?_⟩
  obtain ⟨n, rfl⟩ := Nat.exists_eq_add_one.2 (Nat.zero_lt_of_lt hn)
  exact hm n (by omega)

end Ends

namespace Reading
variable {r : Reader} {t u : SyntaxTree} {e : Bool} {depth : Nat}

theorem ends_get : Ends (fun _ => get) r r r := .of_run rfl

theorem ends_less {n k : Nat} (h : k ≤ n) : Ends (fun _ => less n k) r (n - k) r := by
  rw [less, if_pos h]
  exact .pure _ _

theorem ends_cut {before cs behind all : List Char} (h : all = before ++ (cs ++ behind))
    {start stop : Nat} (hstart : start = byteLength before) (hstop : stop = start + byteLength cs) :
    Ends (fun _ => cut all start stop) r cs r := by
  have hslice : sliceChars? all start stop = some cs := by
    rw [sliceChars?, if_pos (by omega), h, hstart, dropBytes_append, Option.bind_some, hstop,
      hstart, Nat.add_sub_cancel_left, takeBytes_append]
  simp only [cut, hslice]
  exact .pure _ _

theorem ends_markMalformed : Ends (fun _ => markMalformed) ⟨t, e, depth⟩ () ⟨t, true, depth⟩ :=
  .of_run rfl

theorem ends_setDepth (d : Nat) : Ends (fun _ => setDepth d) ⟨t, e, depth⟩ () ⟨t, e, d⟩ :=
  .of_run rfl

theorem ends_addNode {parent start stop : Nat} {kind : NodeKind}
    (h : t.add? parent kind start stop = .ok u) :
    Ends (fun _ => addNode parent kind start stop) ⟨t, e, depth⟩ t.size ⟨u, e, depth⟩ := by
  refine .bind ends_get ?_
  simp only [h]
  exact .of_run rfl

theorem ends_moveStop {id stop : Nat} (h : t.setStop? id stop = .ok u) :
    Ends (fun _ => moveStop id stop) ⟨t, e, depth⟩ () ⟨u, e, depth⟩ := by
  refine .bind ends_get ?_
  simp only [h]
  exact .of_run rfl

end Reading

/-! ### Tokens between indices -/

/-- The tokens from one index up to another one. -/
inductive Between (toks : List Token) : Nat → Nat → List Token → Prop
  | nil {i : Nat} : Between toks i i []
  | cons {i j : Nat} {t : Token} {ts : List Token} : toks[i]? = some t → Between toks (i + 1) j ts →
      Between toks i j (t :: ts)

namespace Between
variable {toks ts us : List Token} {i j k : Nat} {t : Token}

theorem add_length (h : Between toks i j ts) : i + ts.length = j := by
  induction h with
  | nil => rfl
  | cons _ _ ih => rw [List.length_cons]; omega

theorem tail (h : Between toks i j (t :: ts)) : Between toks (i + 1) j ts := by
  cases h
  assumption

theorem head (h : Between toks i j (t :: ts)) : toks[i]? = some t := by
  cases h
  assumption

theorem lt (h : Between toks i j (t :: ts)) : i < j := by
  have hlength := h.add_length
  rw [List.length_cons] at hlength
  omega

theorem getElem? (h : Between toks i j ts) (hk : k < ts.length) : toks[i + k]? = ts[k]? := by
  induction h generalizing k with
  | nil => cases hk
  | @cons i j t ts ht _ ih =>
    cases k with
    | zero => exact ht
    | succ k =>
      rw [List.getElem?_cons_succ, ← ih (Nat.lt_of_succ_lt_succ hk)]
      congr 1
      omega

theorem append_iff : Between toks i j (ts ++ us) ↔
    ∃ k, Between toks i k ts ∧ Between toks k j us := by
  induction ts generalizing i with
  | nil =>
    refine ⟨fun h => ⟨i, .nil, h⟩, ?_⟩
    rintro ⟨k, h, h'⟩
    cases h
    exact h'
  | cons t ts ih =>
    constructor
    · intro h
      obtain ⟨k, hts, hus⟩ := ih.1 h.tail
      exact ⟨k, .cons h.head hts, hus⟩
    · rintro ⟨k, hts, hus⟩
      exact .cons hts.head (ih.2 ⟨k, hts.tail, hus⟩)

theorem all (toks : List Token) : Between toks 0 toks.length toks := by
  have hbehind (us vs : List Token) (h : toks = us ++ vs) :
      Between toks us.length toks.length vs := by
    induction vs generalizing us with
    | nil =>
      rw [h, List.append_nil]
      exact .nil
    | cons v vs ih =>
      refine .cons (by rw [h]; simp) ?_
      have := ih (us ++ [v]) (by rw [h, List.append_assoc, List.singleton_append])
      rwa [List.length_append] at this
  exact hbehind [] toks rfl

theorem exists_eq_append (h : Between toks i j ts) : ∃ before behind,
    toks = before ++ (ts ++ behind) := by
  refine ⟨toks.take i, toks.drop j, ?_⟩
  have hdrop : toks.drop i = ts ++ toks.drop j := by
    induction h with
    | nil => rfl
    | cons ht _ ih => rw [List.drop_eq_getElem?_toList_append, ht, ih]; rfl
  rw [← hdrop, List.take_append_drop]

theorem contiguous {s : String} (h : Between toks i j ts) (hs : Contiguous s toks) :
    Contiguous s ts := by
  obtain ⟨before, behind, rfl⟩ := h.exists_eq_append
  exact hs.right.left

theorem last (h : Between toks i j (t :: ts)) :
    0 < j ∧ ∃ z, toks[j - 1]? = some z ∧ z.stop = lastStop t ts := by
  have hlength := h.add_length
  rw [List.length_cons] at hlength
  refine ⟨by omega, ts.getLast?.getD t, ?_, rfl⟩
  have hget : toks[i + ts.length]? = (t :: ts)[ts.length]? := h.getElem? (Nat.lt_succ_self _)
  have hlast : (t :: ts).getLast? = (t :: ts)[ts.length]? := List.getLast?_eq_getElem?
  rw [show j - 1 = i + ts.length by omega, hget, ← hlast, List.getLast?_cons]

theorem behind {v g n : Token} {rest : List Token} (h : Between toks i (j + 1) ts)
    (hrev : ts.reverse = v :: g :: n :: rest) :
    toks[j]? = some v ∧ toks[j - 2]? = some n := by
  have hts : ts = rest.reverse ++ [n, g, v] := by
    rw [List.reverse_eq_iff.1 hrev]
    simp
  rw [hts] at h
  obtain ⟨k, -, hk⟩ := append_iff.1 h
  obtain rfl : k + 2 = j := Nat.succ.inj hk.add_length
  exact ⟨hk.tail.tail.head, hk.head⟩

end Between

namespace Reading
variable {toks ts : List Token} {i j : Nat} {t u : Token} {r : Reader} {s : String}

/-! ### Looking at tokens -/

theorem ends_tokenAt (h : toks[i]? = some t) : Ends (fun _ => tokenAt toks i) r t r := by
  simp only [tokenAt, h]
  exact .pure _ _

/-- The kinds ahead are those at the front of the tokens that are left. -/
theorem ends_kindAt (h : Between toks i j ts) (k : Nat) :
    Ends (fun _ => kindAt toks (i + k) j) r (ts[k]?.map (·.kind)) r := by
  have hlength := h.add_length
  by_cases hk : k < ts.length
  · have hget := (h.getElem? hk).trans (List.getElem?_eq_getElem hk)
    simp only [kindAt, if_pos (show i + k < j by omega), List.getElem?_eq_getElem hk]
    exact (ends_tokenAt hget).bind (.pure _ _)
  · simp only [kindAt, if_neg (show ¬ i + k < j by omega),
      List.getElem?_eq_none (Nat.not_lt.1 hk)]
    exact .pure _ _

theorem ends_spanOf (ht : toks[i]? = some t) (hu : toks[j]? = some u) :
    Ends (fun _ => spanOf toks i j) r (t.start, u.stop) r :=
  (ends_tokenAt ht).bind ((ends_tokenAt hu).bind (.pure _ _))

theorem ends_textAt (hs : Placed s toks) (hr : r.tree.source = s) (h : toks[i]? = some t) :
    Ends (fun _ => textAt toks i) r t.text r := by
  obtain ⟨before, behind, hsplit, hstart⟩ := hs.pieces t (List.mem_of_getElem? h)
  rw [← hr] at hsplit
  exact (ends_tokenAt h).bind (ends_get.bind (ends_cut hsplit hstart rfl))

theorem ends_blockAt_none (h : Between toks i j ts) (hnext : nextBlock? ts = none) :
    Ends (fun _ => blockAt toks i j) r none r := by
  refine (ends_kindAt h 0).bind ((ends_kindAt h 1).bind ?_)
  rcases ts with _ | ⟨a, _ | ⟨b, bs⟩⟩
  · exact .pure _ _
  · have ha : a.kind ≠ .opening := fun ha => by simp [nextBlock?, ha] at hnext
    simpa [ha] using Ends.pure none r
  · have ha : a.kind ≠ .opening := fun ha => by simp [nextBlock?, ha] at hnext
    have hb : ¬ (a.kind = .space ∧ b.kind = .opening) := fun hb => by
      simp [nextBlock?, hb] at hnext
    simpa [ha, if_neg hb] using Ends.pure none r

theorem ends_blockAt_some {us : List Token} (h : Between toks i j ts)
    (hnext : nextBlock? ts = some (t, us)) : t.kind = .opening ∧
      ∃ k, Ends (fun _ => blockAt toks i j) r (some k) r ∧ Between toks k j (t :: us) := by
  unfold nextBlock? at hnext
  split at hnext
  · next a as =>
    split at hnext
    · next ha =>
      cases hnext
      refine ⟨ha, i, (ends_kindAt h 0).bind ((ends_kindAt h 1).bind ?_), h⟩
      simpa [ha] using Ends.pure (some i) r
    · split at hnext
      · next b bs =>
        split at hnext
        · next hb =>
          cases hnext
          refine ⟨hb.2, i + 1, (ends_kindAt h 0).bind ((ends_kindAt h 1).bind ?_), h.tail⟩
          simpa [hb] using Ends.pure (some (i + 1)) r
        · cases hnext
      · cases hnext
  · cases hnext

/-! ### Loops -/

/-- **The words end where the grammar ends them.** -/
theorem ends_lastWord {stop : Nat} (ht : toks[i]? = some t) (hstop : t.stop = stop)
    (h : Between toks (i + 1) j ts) : ∃ k w, Ends (fun n => lastWord toks n i j) r k r ∧
      toks[k]? = some w ∧ w.stop = (moreWords stop ts).1 ∧
      Between toks (k + 1) j (moreWords stop ts).2 := by
  fun_induction moreWords stop ts generalizing i t with
  | case1 stop s w ts hkinds ih =>
    obtain ⟨k, v, hends, hv⟩ := ih h.tail.head rfl h.tail.tail
    refine ⟨k, v, .succ ((ends_kindAt h 0).bind ((ends_kindAt h 1).bind ?_)), hv⟩
    simpa [hkinds] using hends
  | case2 stop s w ts hkinds =>
    refine ⟨i, t, .succ ((ends_kindAt h 0).bind ((ends_kindAt h 1).bind ?_)), ht, hstop, h⟩
    simpa [hkinds] using Ends.pure i r
  | case3 stop ts hshort =>
    refine ⟨i, t, .succ ((ends_kindAt h 0).bind ((ends_kindAt h 1).bind ?_)), ht, hstop, h⟩
    rcases ts with _ | ⟨a, _ | ⟨b, bs⟩⟩
    · exact .pure i r
    · simpa using Ends.pure i r
    · exact absurd rfl (hshort a b bs)

/-- **The entry ends where the grammar ends it**, with what follows of the block behind it. -/
theorem ends_entryStop {ahead inside rest : List Token} {close : Option Token} {depth : Nat}
    (h : Between toks i j ahead) (hcut : cutAtClose depth ahead = (inside, close, rest)) :
    ∃ k behind, Ends (fun n => entryStop toks n depth i j) r k r ∧
      Between toks i k (cutAtBreak depth inside).1 ∧ Between toks k j behind ∧
      cutAtClose 0 behind = ((cutAtBreak depth inside).2, close, rest) := by
  induction ahead generalizing i depth inside with
  | nil =>
    cases h
    cases hcut
    exact ⟨j, [], .succ (by simpa [entryStop] using Ends.pure j r), .nil, .nil, rfl⟩
  | cons t ahead ih =>
    have hlt := h.lt
    rw [cutAtClose] at hcut
    by_cases hclose : t.kind = .closing ∧ depth = 0
    · rw [if_pos hclose] at hcut
      cases hcut
      refine ⟨i, t :: rest, .succ ?_, .nil, h, ?_⟩
      · simp only [entryStop, if_pos hlt]
        refine (ends_tokenAt h.head).bind ?_
        simpa [hclose] using Ends.pure i r
      · rw [cutAtClose, if_pos ⟨hclose.1, rfl⟩]
        rfl
    · rw [if_neg hclose] at hcut
      rcases hrec : cutAtClose (t.depthBehind depth) ahead with ⟨inside', close', rest'⟩
      rw [hrec] at hcut
      cases hcut
      rw [cutAtBreak]
      by_cases hbreak : depth = 0 ∧ (t.kind = .semicolon ∨ t.kind = .comma)
      · obtain ⟨rfl, hmark⟩ := hbreak
        rw [if_pos ⟨rfl, hmark⟩]
        refine ⟨i, t :: ahead, .succ ?_, .nil, h, ?_⟩
        · simp only [entryStop, if_pos hlt]
          refine (ends_tokenAt h.head).bind ?_
          rcases hmark with hmark | hmark <;> simpa [hmark] using Ends.pure i r
        · rw [cutAtClose, if_neg hclose, hrec]
      · rw [if_neg hbreak]
        obtain ⟨k, behind, hends, hentry, hbehind, hrest⟩ := ih h.tail hrec
        refine ⟨k, behind, .succ ?_, .cons h.head hentry, hbehind, hrest⟩
        simp only [entryStop, if_pos hlt]
        refine (ends_tokenAt h.head).bind ?_
        unfold Token.depthBehind at hends
        cases hk : t.kind with
        | closing =>
          have hpos : 0 < depth := Nat.pos_of_ne_zero fun h0 => hclose ⟨hk, h0⟩
          simp only [hk, if_pos hpos] at hends ⊢
          exact (ends_less hpos).bind hends
        | semicolon | comma =>
          have hne : depth ≠ 0 := fun h0 => hbreak ⟨h0, by simp [hk]⟩
          simpa only [hk, if_neg hne] using hends
        | _ => simpa only [hk] using hends

/-- **The last index of an entry is that of its last token that is no blank.** -/
theorem ends_lastSolid (h : Between toks i j (t :: ts)) :
    ∃ last, Ends (fun n => lastSolid toks n i (j - 1)) r last r ∧
      Between toks i (last + 1) (t :: dropEndWhile (·.kind = .space) ts) := by
  induction ts using List.reverseRecOn generalizing j with
  | nil =>
    have hlength := h.add_length
    obtain rfl : j = i + 1 := hlength.symm
    refine ⟨i, .succ ?_, h⟩
    simp only [Nat.add_sub_cancel, lastSolid, if_neg (Nat.lt_irrefl i)]
    exact .pure i r
  | append_singleton ts u ih =>
    rw [← List.cons_append] at h
    obtain ⟨k, hts, hu⟩ := Between.append_iff.1 h
    obtain rfl : j = k + 1 := hu.add_length.symm
    have hlt := hts.lt
    by_cases hblank : u.kind = .space
    · obtain ⟨last, hends, hlast⟩ := ih hts
      refine ⟨last, .succ ?_, ?_⟩
      · simp only [Nat.add_sub_cancel, lastSolid, if_pos hlt]
        refine (ends_tokenAt hu.head).bind ?_
        simp only [if_pos hblank]
        exact (ends_less (by omega)).bind hends
      · have hdrop : dropEndWhile (·.kind = .space) (ts ++ [u]) =
            dropEndWhile (·.kind = .space) ts :=
          List.rdropWhile_concat_pos _ _ _ (by simpa using hblank)
        rwa [hdrop]
    · refine ⟨k, .succ ?_, ?_⟩
      · simp only [Nat.add_sub_cancel, lastSolid, if_pos hlt]
        refine (ends_tokenAt hu.head).bind ?_
        simp only [if_neg hblank]
        exact .pure k r
      · have hdrop : dropEndWhile (·.kind = .space) (ts ++ [u]) = ts ++ [u] :=
          List.rdropWhile_concat_neg _ _ _ (by simpa using hblank)
        rwa [hdrop]

theorem ends_arePlain (h : Between toks i (j + 1) ts) : Ends (fun n => arePlain toks n i j) r
    (ts.all fun t => t.kind = .word || t.kind = .space) r := by
  induction ts generalizing i with
  | nil =>
    cases h
    refine .succ ?_
    simp only [arePlain, if_neg (Nat.not_succ_le_self j)]
    exact .pure true r
  | cons t ts ih =>
    have hle := Nat.le_of_lt_succ h.lt
    refine .succ ?_
    simp only [arePlain, if_pos hle]
    refine (ends_tokenAt h.head).bind ?_
    rw [List.all_cons, ← Bool.decide_or]
    by_cases ht : t.kind = .word ∨ t.kind = .space
    · rw [decide_eq_true ht, Bool.true_and]
      simp only [if_pos ht]
      exact ih h.tail
    · rw [decide_eq_false ht, Bool.false_and]
      simp only [if_neg ht]
      exact .pure false r

end Reading

end AgentRules.Grammar
