import AgentRules.Proofs.Chain.Linked
import Mathlib.Data.List.Basic

/-! # Facts about walks

A walk without a value is the walk with the text of its node (`walk_text`). The mark at the start of
a chain can stand anywhere and is passed over (`walk_append_isNull`). `reach` lists the nodes that
going down through several levels leads to, in the order in which a walk tries them. Last steps that
cannot fail decide neither whether a walk succeeds nor where it ends, so they can be left out
(`prune_keeps_verdict`). -/

namespace AgentRules.Chain

variable {t : SyntaxTree}

/-! ### One walk behind another -/

/-- **A walk starts with the text of its node.** -/
theorem walk_text (c : Chain) (n : Nat) : c.walk t n (some (t.text n)) = c.walk t n none := by
  induction c with
  | nil => rfl
  | cons s c ih =>
    cases s with
    | isNull =>
      rw [walk, walk]
      exact ih
    | move m => rfl
    | down range name => rfl
    | test c => rfl
    | change c => rfl

theorem walk_test (c : Test) (rest : Chain) (n : Nat) : walk t (.test c :: rest) n none =
    if c.accepts (t.text n) then walk t rest n none else none := by
  rw [walk, Option.getD_none, walk_text]

theorem walk_append_isNull (a b : Chain) (n : Nat) (v : Option String) :
    walk t (a ++ .isNull :: b) n v = walk t (a ++ b) n v := by
  induction a generalizing n v with
  | nil =>
    rw [List.nil_append, List.nil_append, walk]
  | cons s a ih =>
    rw [List.cons_append, List.cons_append]
    cases s with
    | isNull =>
      rw [walk, walk]
      exact ih n v
    | move m =>
      rw [walk, walk]
      simp only [ih]
    | down range name =>
      rw [walk, walk]
      simp only [ih]
    | test c =>
      rw [walk, walk]
      simp only [ih]
    | change c =>
      rw [walk, walk]
      simp only [ih]

theorem walk_marks_append {a : Chain} (ha : ∀ s ∈ a, s = .isNull) (b : Chain) (n : Nat)
    (v : Option String) : walk t (a ++ b) n v = walk t b n v := by
  induction a with
  | nil => rfl
  | cons s a ih =>
    rw [ha s List.mem_cons_self, List.cons_append, walk]
    exact ih fun s hs => ha s (List.mem_cons_of_mem _ hs)

/-! ### Going down -/

theorem findSome?_flatMap {α β γ : Type} (l : List α) (f : α → List β) (g : β → Option γ) :
    (l.flatMap f).findSome? g = l.findSome? fun a => (f a).findSome? g := by
  induction l with
  | nil => rfl
  | cons a l ih =>
    rw [List.flatMap_cons, List.findSome?_append, List.findSome?_cons, ih]
    cases (f a).findSome? g <;> rfl

theorem findSome?_congr {α β : Type} {l : List α} {f g : α → Option β}
    (h : ∀ a ∈ l, f a = g a) : l.findSome? f = l.findSome? g := by
  induction l with
  | nil => rfl
  | cons a l ih =>
    rw [List.findSome?_cons, List.findSome?_cons, h a List.mem_cons_self,
      ih fun b hb => h b (List.mem_cons_of_mem a hb)]

/-- The nodes that some steps down lead to, in the order in which a walk tries them. -/
def reach (t : SyntaxTree) : List (IndexRange × String) → Nat → List Nat
  | [], n => [n]
  | (range, name) :: downs, n => (t.candidates n range name).flatMap (reach t downs)

theorem reach_append (downs : List (IndexRange × String)) (range : IndexRange) (name : String)
    (n : Nat) : reach t (downs ++ [(range, name)]) n =
      (reach t downs n).flatMap fun m => t.candidates m range name := by
  induction downs generalizing n with
  | nil =>
    show (t.candidates n range name).flatMap (fun c => [c]) =
      [n].flatMap fun m => t.candidates m range name
    simp
  | cons d downs ih =>
    obtain ⟨r, m⟩ := d
    rw [List.cons_append, reach, reach, List.flatMap_assoc]
    exact List.flatMap_congr fun m _ => ih m

/-! ### Steps that cannot fail -/

theorem exists_apply {c : Change} (hc : c.canFail = false) (v : String) :
    ∃ w, c.apply v = some w := by
  cases c with
  | words range => cases hc
  | lookup table default | lookupByHead table default =>
    simp only [Change.canFail, Bool.and_eq_false_iff, Option.isNone_eq_false_iff] at hc
    rw [← Option.isSome_iff_exists]
    simp only [Change.apply, Option.isSome_or, Bool.or_eq_true]
    rcases hc with h | h
    · exact .inl (.inr h)
    · exact .inr h
  | cleanVersion | normalizeBrand | concat | concatBefore | concatAfter => exact ⟨_, rfl⟩

theorem node_walk_of_total {c : Chain} (hc : ∀ s ∈ c, s.canFail = false) (n : Nat)
    (v : Option String) : (c.walk t n v).map Prod.fst = some n := by
  induction c generalizing n v with
  | nil => rfl
  | cons s c ih =>
    obtain ⟨hs, hrest⟩ := List.forall_mem_cons.1 hc
    cases s with
    | isNull => cases hs
    | down range name => cases hs
    | test c => cases hs
    | move m =>
      cases m with
      | backToFull =>
        rw [walk]
        exact ih hrest n none
      | up | next count | prev count => cases hs
    | change c =>
      obtain ⟨w, hw⟩ := exists_apply hs (v.getD (t.text n))
      rw [walk, hw, Option.bind_some]
      exact ih hrest n (some w)

/-- Last steps that cannot fail decide neither whether a walk succeeds nor where it ends. -/
theorem node_walk_append {b : Chain} (hb : ∀ s ∈ b, s.canFail = false) (a : Chain) (n : Nat)
    (v : Option String) : (walk t (a ++ b) n v).map Prod.fst = (walk t a n v).map Prod.fst := by
  induction a generalizing n v with
  | nil => exact node_walk_of_total hb n v
  | cons s a ih =>
    rw [List.cons_append]
    cases s with
    | isNull =>
      rw [walk, walk]
      exact ih n v
    | move m =>
      rw [walk, walk]
      cases m.target t n with
      | none => rfl
      | some target => exact ih target none
    | down range name =>
      -- of the children, the same one is the first from which the rest can be walked
      rw [walk, walk, List.map_findSome?, List.map_findSome?]
      exact findSome?_congr fun child _ => ih child none
    | test c =>
      rw [walk, walk]
      split
      · exact ih n _
      · rfl
    | change c =>
      rw [walk, walk]
      cases c.apply (v.getD (t.text n)) with
      | none => rfl
      | some w => exact ih n (some w)

theorem prune_parts (c : Chain) :
    ∃ rest, c = c.prune ++ rest ∧ ∀ s ∈ rest, s.canFail = false :=
  ⟨c.rtakeWhile (!·.canFail), List.rdropWhile_append_rtakeWhile.symm,
    fun s hs => by simpa using List.mem_rtakeWhile_imp hs⟩

/-- Pruning goes no further back than a step that can fail. -/
theorem prune_append {a : Chain} (ha : ∀ s ∈ a, s.canFail = true) (b : Chain) :
    Chain.prune (a ++ b) = a ++ Chain.prune b := by
  have hkept : a.reverse.dropWhile (!·.canFail) = a.reverse := by
    refine List.dropWhile_eq_self_iff.2 fun hpos => ?_
    rw [ha _ (List.mem_reverse.1 (List.getElem_mem hpos))]
    exact Bool.false_ne_true
  unfold Chain.prune Text.dropEndWhile
  rw [List.reverse_append, List.dropWhile_append, hkept]
  split
  · next hnil =>
    rw [List.reverse_reverse, List.isEmpty_iff.1 hnil, List.reverse_nil, List.append_nil]
  · rw [List.reverse_append, List.reverse_reverse]

theorem node_walk_prune (c : Chain) (n : Nat) (v : Option String) :
    (c.prune.walk t n v).map Prod.fst = (c.walk t n v).map Prod.fst := by
  obtain ⟨rest, hc, hrest⟩ := prune_parts c
  conv => rhs; rw [hc]
  exact (node_walk_append hrest _ n v).symm

theorem isSome_walk_prune (c : Chain) (n : Nat) (v : Option String) :
    (c.prune.walk t n v).isSome = (c.walk t n v).isSome := by
  rw [← Option.isSome_map, node_walk_prune, Option.isSome_map]

/-- **Pruning keeps the verdict.** A pruned chain can be walked just if the chain can, and the walk
ends at the same node. It is the chain without some last steps that cannot fail, it is empty or ends
with a step that can, and pruning it again changes nothing. Where the steps are linked, cutting one
link leaves the pruned chain, to be read and to be walked by links. -/
theorem prune_keeps_verdict (c : Chain) :
    (∀ (t : SyntaxTree) (n : Nat) (v : Option String),
      (c.prune.walk t n v).map Prod.fst = (c.walk t n v).map Prod.fst) ∧
    (∃ rest, c = c.prune ++ rest ∧ ∀ s ∈ rest, s.canFail = false) ∧
    (c.prune = [] ∨ ∃ s, c.prune.getLast? = some s ∧ s.canFail = true) ∧
    c.prune.prune = c.prune ∧
    ∀ rounds, c.length ≤ rounds → ∃ pruned, (LinkedChain.ofChain c).prune rounds = some pruned ∧
      pruned.chain? rounds = some c.prune ∧
      ∀ t n v, pruned.walk rounds t n v = some (c.prune.walk t n v) := by
  refine ⟨fun t n v => node_walk_prune c n v, prune_parts c, ?_, List.rdropWhile_idempotent _ c,
    fun rounds h => LinkedChain.prune_ofChain c h⟩
  rcases hlast : c.prune.getLast? with _ | s
  · exact .inl (List.getLast?_eq_none_iff.1 hlast)
  · obtain ⟨hne, rfl⟩ := List.mem_getLast?_eq_getLast hlast
    have hstop : ¬ (!(c.prune.getLast hne).canFail) = true :=
      List.rdropWhile_last_not (fun s : Step => !s.canFail) c hne
    exact .inr ⟨_, rfl, by simpa using hstop⟩

end AgentRules.Chain
