import AgentRules.Proofs.Agent.Recursion
import AgentRules.Proofs.Text.Boundaries

/-! # Where tokens stand

The tokens of a text stand in it one behind the other, each between two boundaries. So do the tokens
of every list that is cut out of them. A span from the start of the first token of such a list to the
end of any of its tokens is then a span of the text (`Placed.isSpan`), which is all that a tree asks
of the places of a node. -/

namespace AgentRules

open Text

/-! ### Lists of tokens -/

/-- The tokens are pieces of the text, one behind the other. -/
structure Placed (s : String) (ts : List Token) : Prop where
  pieces : ∀ t ∈ ts, ∃ before behind, s.toList = before ++ (t.text ++ behind) ∧
    t.start = byteLength before
  ordered : ts.Pairwise fun t u => t.stop ≤ u.start

namespace Placed
variable {s : String} {ts us : List Token} {t u : Token}

theorem sublist (h : Placed s ts) (hsub : us.Sublist ts) : Placed s us where
  pieces t ht := h.pieces t (hsub.subset ht)
  ordered := h.ordered.sublist hsub

theorem tail (h : Placed s (t :: ts)) : Placed s ts := h.sublist (List.sublist_cons_self t ts)

theorem isBoundary_inside (h : Placed s ts) (ht : t ∈ ts) {cs ds : List Char}
    (htext : t.text = cs ++ ds) : isBoundary s (t.start + byteLength cs) = true := by
  obtain ⟨before, behind, hs, hstart⟩ := h.pieces t ht
  rw [hstart, ← byteLength_append]
  have hsplit : s.toList = (before ++ cs) ++ (ds ++ behind) := by
    rw [hs, htext]
    simp only [List.append_assoc]
  exact isBoundary_of_append hsplit

theorem isBoundary_start (h : Placed s ts) (ht : t ∈ ts) : isBoundary s t.start = true :=
  @isBoundary_inside s ts t h ht [] t.text rfl

theorem isBoundary_stop (h : Placed s ts) (ht : t ∈ ts) : isBoundary s t.stop = true :=
  h.isBoundary_inside ht (List.append_nil t.text).symm

/-- **A span of tokens is a span of the text.** -/
theorem isSpan (h : Placed s (t :: ts)) (hu : u ∈ t :: ts) : IsSpan s t.start u.stop where
  le := by
    have hle (v : Token) : v.start ≤ v.stop := Nat.le_add_right _ _
    rcases List.mem_cons.1 hu with rfl | hu'
    · exact hle u
    · have hnext := (List.pairwise_cons.1 h.ordered).1 u hu'
      have := hle t
      have := hle u
      omega
  start_boundary := h.isBoundary_start List.mem_cons_self
  stop_boundary := h.isBoundary_stop hu

theorem isSpan_token (h : Placed s ts) (ht : t ∈ ts) : IsSpan s t.start t.stop where
  le := Nat.le_add_right _ _
  start_boundary := h.isBoundary_start ht
  stop_boundary := h.isBoundary_stop ht

end Placed

/-! ### The scan -/

theorem Token.le_start_of_mem_scanFrom {place : Nat} {cs : List Char} {t : Token}
    (h : t ∈ scanFrom place cs) : place ≤ t.start := by
  induction place, cs using scanFrom.induct with
  | case1 place =>
    rw [scanFrom] at h
    cases h
  | case2 place c cs kind n hfirst text ih =>
    rw [scanFrom, hfirst] at h
    rcases List.mem_cons.1 h with rfl | h
    · exact Nat.le_refl _
    · exact Nat.le_trans (Nat.le_add_right _ _) (ih h)

theorem Token.placed_scanFrom {s : String} (place : Nat) (cs : List Char) :
    ∀ before, s.toList = before ++ cs → place = byteLength before →
      Placed s (scanFrom place cs) := by
  induction place, cs using scanFrom.induct with
  | case1 place =>
    intro before _ _
    rw [scanFrom]
    exact ⟨by simp, .nil⟩
  | case2 place c cs kind n hfirst text ih =>
    intro before hs hplace
    have htext : c :: cs = text ++ cs.drop (n - 1) := by
      rw [List.cons_append, List.take_append_drop]
    rw [htext] at hs
    have hrest := ih (before ++ text) (by rw [hs, List.append_assoc])
      (by rw [byteLength_append, hplace])
    rw [scanFrom, hfirst]
    refine ⟨fun t ht => ?_, List.pairwise_cons.2 ⟨fun t ht => ?_, hrest.ordered⟩⟩
    · rcases List.mem_cons.1 ht with rfl | ht
      · exact ⟨before, cs.drop (n - 1), hs, hplace⟩
      · exact hrest.pieces t ht
    · exact le_start_of_mem_scanFrom ht

/-- **The tokens of a text stand in it one behind the other.** -/
theorem Token.placed_scan (s : String) : Placed s (scan s) :=
  placed_scanFrom 0 s.toList [] rfl rfl

theorem exists_lastStop (t : Token) (ts : List Token) : ∃ u ∈ t :: ts, lastStop t ts = u.stop := by
  unfold lastStop
  rcases h : ts.getLast? with _ | u
  · exact ⟨t, List.mem_cons_self, rfl⟩
  · exact ⟨u, List.mem_cons_of_mem t (List.mem_of_getLast? h), rfl⟩

end AgentRules
