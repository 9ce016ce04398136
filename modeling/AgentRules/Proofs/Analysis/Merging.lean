import AgentRules.Analysis.Collector
import Mathlib.Data.List.Sort

/-! # Merging what is written

A collector keeps of each field the surest value, and of two that are as sure the first one. This is
a merge field by field (`Field.prefer`), which is associative, so offers that are collected one list
after the other are collected as if each list had been collected by itself and the results merged
(`flush_append`). -/

namespace AgentRules

/-! ### One field -/

/-- The surer of two fields, and the first one if both are as sure. -/
def Field.prefer : Option Field → Option Field → Option Field
  | none, g => g
  | some f, none => some f
  | some f, some g => if f.confidence < g.confidence then some g else some f

namespace Field

theorem prefer_none (f : Option Field) : prefer f none = f := by
  cases f <;> rfl

theorem prefer_of_lt {f g : Field} (h : f.confidence < g.confidence) :
    prefer (some f) (some g) = some g := if_pos h

theorem prefer_of_le {f g : Field} (h : g.confidence ≤ f.confidence) :
    prefer (some f) (some g) = some f := if_neg (Int.not_lt.2 h)

theorem prefer_eq_some {f g : Option Field} {h : Field} : prefer f g = some h ↔
    f = some h ∧ (∀ k, g = some k → k.confidence ≤ h.confidence) ∨
      g = some h ∧ ∀ k, f = some k → k.confidence < h.confidence := by
  cases f with
  | none => simp [prefer]
  | some f => cases g with
    | none => simp [prefer]
    | some g =>
      rcases Int.lt_or_le f.confidence g.confidence with hfg | hfg
      · rw [prefer_of_lt hfg]
        constructor
        · rintro ⟨⟩
          exact .inr ⟨rfl, by rintro k ⟨⟩; exact hfg⟩
        · rintro (⟨⟨⟩, hle⟩ | ⟨hg, -⟩)
          · exact absurd (hle g rfl) (Int.not_le.2 hfg)
          · exact hg
      · rw [prefer_of_le hfg]
        constructor
        · rintro ⟨⟩
          exact .inl ⟨rfl, by rintro k ⟨⟩; exact hfg⟩
        · rintro (⟨hf, -⟩ | ⟨⟨⟩, hlt⟩)
          · exact hf
          · exact absurd (hlt f rfl) (Int.not_lt.2 hfg)

theorem prefer_eq_none {f g : Option Field} : prefer f g = none ↔ f = none ∧ g = none := by
  cases f with
  | none => simp [prefer]
  | some f => cases g with
    | none => simp [prefer]
    | some g =>
      rcases Int.lt_or_le f.confidence g.confidence with hfg | hfg
      · simp [prefer_of_lt hfg]
      · simp [prefer_of_le hfg]

theorem prefer_assoc (f g h : Option Field) :
    prefer (prefer f g) h = prefer f (prefer g h) := by
  cases f with
  | none => rfl
  | some f => cases g with
    | none => rfl
    | some g => cases h with
      | none => rw [prefer_none, prefer_none]
      | some h =>
        rcases Int.lt_or_le f.confidence g.confidence with hfg | hfg <;>
          rcases Int.lt_or_le g.confidence h.confidence with hgh | hgh
        · rw [prefer_of_lt hfg, prefer_of_lt hgh, prefer_of_lt (Int.lt_trans hfg hgh)]
        · rw [prefer_of_lt hfg, prefer_of_le hgh, prefer_of_lt hfg]
        · rw [prefer_of_le hfg, prefer_of_lt hgh]
        · rw [prefer_of_le hfg, prefer_of_le hgh, prefer_of_le hfg,
            prefer_of_le (Int.le_trans hgh hfg)]

end Field

/-! ### Many fields -/

namespace Fields
variable {fields : Fields} {name : String} {f : Field}

theorem get?_cons (x : String × Field) (n : String) :
    get? (x :: fields) n = if n = x.1 then some x.2 else fields.get? n := by
  unfold get?
  rw [List.lookup_cons]
  by_cases h : n = x.1
  · rw [if_pos h, beq_iff_eq.2 h]
  · rw [if_neg h, beq_eq_false_iff_ne.2 h]

theorem get?_put (n : String) :
    (fields.put name f).get? n = if n = name then some f else fields.get? n := by
  induction fields with
  | nil =>
    rw [put, get?_cons]
  | cons x rest ih =>
    obtain ⟨m, g⟩ := x
    rw [put]
    by_cases hm : m = name
    · rw [if_pos hm, get?_cons, get?_cons, hm]
      split <;> rfl
    · rw [if_neg hm, get?_cons, get?_cons, ih]
      by_cases hn : n = m
      · rw [if_pos hn, if_pos hn, if_neg fun h => hm (hn.symm.trans h)]
      · rw [if_neg hn, if_neg hn]

/-- **Raising a field prefers the surer value.** -/
theorem get?_raise (value : String) (confidence : Int) (n : String) :
    (fields.raise name value confidence).get? n =
      Field.prefer (fields.get? n) (if n = name then some ⟨value, confidence⟩ else none) := by
  unfold raise
  by_cases hn : n = name
  · subst hn
    rw [if_pos rfl, wouldRaise]
    cases hget : fields.get? n with
    | none =>
      rw [if_pos rfl, get?_put, if_pos rfl]
      rfl
    | some g =>
      dsimp only
      rcases Int.lt_or_le g.confidence confidence with h | h
      · rw [if_pos (decide_eq_true h), get?_put, if_pos rfl, Field.prefer_of_lt h]
      · rw [if_neg (by simpa using h), hget, Field.prefer_of_le h]
  · rw [if_neg hn, Field.prefer_none]
    split
    · rw [get?_put, if_neg hn]
    · rfl

theorem mem_names_put {n : String} (h : n ∈ (fields.put name f).map (·.1)) :
    n = name ∨ n ∈ fields.map (·.1) := by
  induction fields with
  | nil => exact .inl (List.mem_singleton.1 h)
  | cons x rest ih =>
    obtain ⟨m, g⟩ := x
    rw [put] at h
    split at h
    · exact .inr h
    · rcases List.mem_cons.1 h with rfl | h
      · exact .inr List.mem_cons_self
      · exact (ih h).imp_right (List.mem_cons_of_mem m)

theorem nodup_put (h : (fields.map (·.1)).Nodup) : ((fields.put name f).map (·.1)).Nodup := by
  induction fields with
  | nil => exact List.nodup_singleton _
  | cons x rest ih =>
    obtain ⟨m, g⟩ := x
    obtain ⟨hm, hrest⟩ := List.nodup_cons.1 h
    rw [put]
    split
    · exact h
    · next hne =>
      refine List.nodup_cons.2 ⟨fun hmem => ?_, ih hrest⟩
      rcases mem_names_put hmem with heq | hmem
      · exact hne heq
      · exact hm hmem

theorem mem_iff_get? (h : (fields.map (·.1)).Nodup) :
    (name, f) ∈ fields ↔ fields.get? name = some f := by
  induction fields with
  | nil => simp [get?]
  | cons x rest ih =>
    obtain ⟨m, g⟩ := x
    obtain ⟨hm, hrest⟩ := List.nodup_cons.1 h
    rw [List.mem_cons, get?_cons, ih hrest]
    by_cases hn : name = m
    · subst hn
      have hnone : ¬ get? rest name = some f := fun hget =>
        hm (List.mem_map.2 ⟨_, (ih hrest).2 hget, rfl⟩)
      rw [if_pos rfl, or_iff_left hnone, Prod.mk.injEq, eq_comm (a := f)]
      simp
    · rw [if_neg hn, or_iff_right]
      exact fun heq => hn (Prod.mk.inj heq).1

end Fields

/-! ### Collecting offers -/

namespace Collector

/-- What a list of offers comes to. -/
def collect (offers : List Offer) : Collector := offers.foldl offer {}

theorem get?_offer (c : Collector) (o : Offer) (n : String) : (c.offer o).fields.get? n =
    Field.prefer (c.fields.get? n) (if n = o.field then some ⟨o.value, o.confidence⟩ else none) :=
  Fields.get?_raise o.value o.confidence n

theorem get?_foldl (offers : List Offer) (c : Collector) (n : String) :
    (offers.foldl offer c).fields.get? n =
      Field.prefer (c.fields.get? n) ((collect offers).fields.get? n) := by
  induction offers generalizing c with
  | nil => exact (Field.prefer_none _).symm
  | cons o offers ih =>
    rw [collect, List.foldl_cons, List.foldl_cons, ih, ih, get?_offer, get?_offer,
      Field.prefer_assoc]
    rfl

/-- **Offers that come one list after the other are merged.** -/
theorem get?_collect_append (first second : List Offer) (n : String) :
    (collect (first ++ second)).fields.get? n =
      Field.prefer ((collect first).fields.get? n) ((collect second).fields.get? n) := by
  rw [collect, List.foldl_append, get?_foldl]
  rfl

theorem nodup_collect (offers : List Offer) : ((collect offers).fields.map (·.1)).Nodup := by
  have hfoldl (c : Collector) (h : (c.fields.map (·.1)).Nodup) :
      ((offers.foldl offer c).fields.map (·.1)).Nodup := by
    induction offers generalizing c with
    | nil => exact h
    | cons o offers ih =>
      refine ih _ ?_
      show ((c.fields.raise o.field o.value o.confidence).map (·.1)).Nodup
      unfold Fields.raise
      split
      · exact Fields.nodup_put h
      · exact h
  exact hfoldl {} List.nodup_nil

/-! ### What is written -/

theorem mem_flush {offers : List Offer} {o : Offer} : o ∈ (collect offers).flush ↔
    (collect offers).fields.get? o.field = some ⟨o.value, o.confidence⟩ := by
  rw [flush, List.mem_mergeSort, List.mem_map, ← Fields.mem_iff_get? (nodup_collect offers)]
  constructor
  · rintro ⟨⟨name, f⟩, hf, rfl⟩
    exact hf
  · exact fun h => ⟨_, h, rfl⟩

/-- **Every field is written once.** -/
theorem nodup_flush (offers : List Offer) : ((collect offers).flush.map Offer.field).Nodup := by
  refine (((List.mergeSort_perm _ writtenBefore).map Offer.field).nodup_iff).2 ?_
  rw [List.map_map]
  exact nodup_collect offers

/-- The writes of two lists, field by field: the surer one, and the first list's if both are as
sure. -/
def mergeWrites (first second : List Offer) : List Offer :=
  (first.filter (fun o => ∀ p ∈ second, p.field = o.field → p.confidence ≤ o.confidence) ++
    second.filter fun o => ∀ p ∈ first, p.field = o.field → p.confidence < o.confidence)
      |>.mergeSort writtenBefore

theorem writtenBefore_iff {a b : Offer} : writtenBefore a b = true ↔
    a.confidence < b.confidence ∨ a.confidence = b.confidence ∧ a.field ≤ b.field := by
  simp [writtenBefore]

theorem pairwise_mergeSort (xs : List Offer) :
    (xs.mergeSort writtenBefore).Pairwise fun a b => writtenBefore a b = true := by
  refine List.pairwise_mergeSort (fun a b c => ?_) (fun a b => ?_) xs
  · rw [writtenBefore_iff, writtenBefore_iff, writtenBefore_iff]
    rintro (hab | ⟨hab, hf⟩) (hbc | ⟨hbc, hf'⟩)
    · exact .inl (Int.lt_trans hab hbc)
    · exact .inl (hbc ▸ hab)
    · exact .inl (hab ▸ hbc)
    · exact .inr ⟨hab.trans hbc, String.le_trans hf hf'⟩
  · rw [Bool.or_eq_true, writtenBefore_iff, writtenBefore_iff]
    rcases Int.lt_trichotomy a.confidence b.confidence with hlt | heq | hlt
    · exact .inl (.inl hlt)
    · exact (String.le_total a.field b.field).imp (fun hf => .inr ⟨heq, hf⟩)
        fun hf => .inr ⟨heq.symm, hf⟩
    · exact .inr (.inl hlt)

/-- The order of distinct fields is decided by what is written. -/
theorem mergeSort_eq_of_perm {xs ys : List Offer} (h : xs.Perm ys)
    (hxs : (xs.map Offer.field).Nodup) :
    xs.mergeSort writtenBefore = ys.mergeSort writtenBefore := by
  refine List.Perm.eq_of_pairwise (fun a b ha hb hab hba => ?_) (pairwise_mergeSort xs)
    (pairwise_mergeSort ys) ((List.mergeSort_perm xs _).trans (h.trans (List.mergeSort_perm ys _).symm))
  -- two writes that are each before the other one are of the same field
  rw [List.mem_mergeSort] at ha hb
  rw [writtenBefore_iff] at hab hba
  refine List.inj_on_of_nodup_map hxs ha (h.mem_iff.2 hb) ?_
  rcases hab with hab | ⟨heq, hab⟩ <;> rcases hba with hba | ⟨heq', hba⟩
  · omega
  · omega
  · omega
  · exact String.le_antisymm hab hba

/-- What is said of the confidence in a field is said of its write. -/
theorem forall_flush_iff {offers : List Offer} {name : String} {P : Int → Prop} :
    (∀ p ∈ (collect offers).flush, p.field = name → P p.confidence) ↔
      ∀ f, (collect offers).fields.get? name = some f → P f.confidence := by
  constructor
  · rintro h ⟨value, confidence⟩ hf
    exact h ⟨name, value, confidence⟩ (mem_flush.2 hf) rfl
  · rintro h ⟨field, value, confidence⟩ hp rfl
    exact h ⟨value, confidence⟩ (mem_flush.1 hp)

/-- **Collecting two lists of offers one after the other writes the merge of what each list
writes.** -/
theorem flush_append (first second : List Offer) : (collect (first ++ second)).flush =
    mergeWrites (collect first).flush (collect second).flush := by
  have hfields := nodup_collect (first ++ second)
  rw [flush, mergeWrites]
  refine mergeSort_eq_of_perm ?_ (by rw [List.map_map]; exact hfields)
  have hnodup (offers : List Offer) : (collect offers).flush.Nodup :=
    (nodup_flush offers).of_map
  refine (List.perm_ext_iff_of_nodup ?_ ?_).2 fun o => ?_
  · exact List.Nodup.of_map Offer.field (by rw [List.map_map]; exact hfields)
  · refine ((hnodup first).filter _).append ((hnodup second).filter _) fun o ho ho' => ?_
    rw [List.mem_filter, decide_eq_true_eq] at ho ho'
    have := ho.2 o ho'.1 rfl
    have := ho'.2 o ho.1 rfl
    omega
  · refine Iff.trans (b := o ∈ (collect (first ++ second)).flush) List.mem_mergeSort.symm ?_
    rw [mem_flush, get?_collect_append, Field.prefer_eq_some, List.mem_append, List.mem_filter,
      List.mem_filter, decide_eq_true_eq, decide_eq_true_eq,
      forall_flush_iff (P := (· ≤ o.confidence)), forall_flush_iff (P := (· < o.confidence)),
      mem_flush, mem_flush]

end Collector

end AgentRules
