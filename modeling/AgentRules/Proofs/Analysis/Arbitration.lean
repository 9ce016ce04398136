import AgentRules.Proofs.Analysis.Merging
import AgentRules.Result.UserAgent

/-! # Which offers prevail

A collector decides about each field as offers come in. What it has decided at the end can be read
off the offers: an offer `Prevails` if the earlier ones for its field are less sure and the later
ones no surer, and the prevailing offers are the ones that are written (`mem_flush_iff`). The
collisions are the offers that are as sure as the one that prevailed before them (`ties`). A result
that receives only what is written knows the same fields as one that receives every offer
(`get?_receive_flush`): it keeps the surer value itself, and the collector has only left out what
could not have been kept. -/

namespace AgentRules

/-! ### The surest offer of a field -/

/-- The offer is the surest one of its field, and the earliest of those. -/
def Prevails (offers : List Offer) (o : Offer) : Prop :=
  ∃ before behind, offers = before ++ o :: behind ∧
    (∀ p ∈ before, p.field = o.field → p.confidence < o.confidence) ∧
    ∀ p ∈ behind, p.field = o.field → p.confidence ≤ o.confidence

/-- The offer for a field that prevails, if there is an offer for it. -/
def surest (name : String) : List Offer → Option Offer
  | [] => none
  | o :: offers =>
    if o.field = name then
      match surest name offers with
      | none => some o
      | some p => if o.confidence < p.confidence then some p else some o
    else surest name offers

section Prevails
variable {offers : List Offer} {o p : Offer} {name : String}

theorem prevails_cons : Prevails (p :: offers) o ↔
    (p = o ∧ ∀ q ∈ offers, q.field = o.field → q.confidence ≤ o.confidence) ∨
      (p.field = o.field → p.confidence < o.confidence) ∧ Prevails offers o := by
  constructor
  · rintro ⟨_ | ⟨q, before⟩, behind, heq, hbefore, hbehind⟩
    · obtain ⟨rfl, rfl⟩ := List.cons.inj heq
      exact .inl ⟨rfl, hbehind⟩
    · obtain ⟨rfl, rfl⟩ := List.cons.inj heq
      obtain ⟨hp, hbefore⟩ := List.forall_mem_cons.1 hbefore
      exact .inr ⟨hp, before, behind, rfl, hbefore, hbehind⟩
  · rintro (⟨rfl, hbehind⟩ | ⟨hp, before, behind, rfl, hbefore, hbehind⟩)
    · exact ⟨[], offers, rfl, by simp, hbehind⟩
    · exact ⟨p :: before, behind, rfl, List.forall_mem_cons.2 ⟨hp, hbefore⟩, hbehind⟩

theorem Prevails.mem (h : Prevails offers o) : o ∈ offers := by
  obtain ⟨before, behind, rfl, -, -⟩ := h
  simp

theorem Prevails.le (h : Prevails offers o) (hp : p ∈ offers) (hfield : p.field = o.field) :
    p.confidence ≤ o.confidence := by
  obtain ⟨before, behind, rfl, hbefore, hbehind⟩ := h
  rcases List.mem_append.1 hp with hp | hp
  · exact Int.le_of_lt (hbefore p hp hfield)
  · rcases List.mem_cons.1 hp with rfl | hp
    · exact Int.le_refl _
    · exact hbehind p hp hfield

/-- Where no field is offered twice, every offer prevails. -/
theorem prevails_iff_mem (h : (offers.map Offer.field).Nodup) :
    Prevails offers o ↔ o ∈ offers := by
  refine ⟨Prevails.mem, fun ho => ?_⟩
  obtain ⟨before, behind, rfl⟩ := List.append_of_mem ho
  rw [List.map_append, List.map_cons, List.nodup_middle, List.nodup_cons, List.mem_append,
    not_or] at h
  obtain ⟨⟨hbefore, hbehind⟩, -⟩ := h
  exact ⟨before, behind, rfl, fun p hp hf => absurd (List.mem_map.2 ⟨p, hp, hf⟩) hbefore,
    fun p hp hf => absurd (List.mem_map.2 ⟨p, hp, hf⟩) hbehind⟩

theorem surest_eq_none_iff : surest name offers = none ↔ name ∉ offers.map Offer.field := by
  induction offers with
  | nil => simp [surest]
  | cons p offers ih =>
    rw [surest, List.map_cons, List.mem_cons, not_or, eq_comm (a := name)]
    by_cases hp : p.field = name
    · rw [if_pos hp]
      refine iff_of_false ?_ fun h => h.1 hp
      cases surest name offers with
      | none => simp
      | some q =>
        dsimp only
        split <;> simp
    · rw [if_neg hp, ih, and_iff_right hp]

theorem prevails_of_surest (h : surest name offers = some o) :
    o.field = name ∧ Prevails offers o := by
  induction offers generalizing o with
  | nil => cases h
  | cons p offers ih =>
    rw [surest] at h
    rw [prevails_cons]
    by_cases hp : p.field = name
    · rw [if_pos hp] at h
      cases hs : surest name offers with
      | none =>
        rw [hs] at h
        cases h
        exact ⟨hp, .inl ⟨rfl, fun q hq hf =>
          absurd (List.mem_map.2 ⟨q, hq, hf.trans hp⟩) (surest_eq_none_iff.1 hs)⟩⟩
      | some q =>
        obtain ⟨hq, hprevails⟩ := ih hs
        rw [hs] at h
        dsimp only at h
        by_cases hlt : p.confidence < q.confidence
        · rw [if_pos hlt] at h
          cases h
          exact ⟨hq, .inr ⟨fun _ => hlt, hprevails⟩⟩
        · rw [if_neg hlt] at h
          cases h
          exact ⟨hp, .inl ⟨rfl, fun x hx hf => (hprevails.le hx (hf.trans (hp.trans hq.symm))).trans
            (Int.not_lt.1 hlt)⟩⟩
    · rw [if_neg hp] at h
      obtain ⟨ho, hprevails⟩ := ih h
      exact ⟨ho, .inr ⟨fun hf => absurd (hf.trans ho) hp, hprevails⟩⟩

theorem Prevails.eq (ho : Prevails offers o) (hp : Prevails offers p) (hfield : o.field = p.field) :
    o = p := by
  induction offers with
  | nil => cases ho.mem
  | cons x offers ih =>
    rcases prevails_cons.1 ho with ⟨rfl, hole⟩ | ⟨holt, ho'⟩
    · rcases prevails_cons.1 hp with ⟨rfl, -⟩ | ⟨hplt, hp'⟩
      · rfl
      · exact absurd (hplt hfield) (Int.not_lt.2 (hole p hp'.mem hfield.symm))
    · rcases prevails_cons.1 hp with ⟨rfl, hple⟩ | ⟨-, hp'⟩
      · exact absurd (holt hfield.symm) (Int.not_lt.2 (hple o ho'.mem hfield))
      · exact ih ho' hp'

/-- **The surest offer for a field is the one that prevails.** -/
theorem surest_eq_some_iff :
    surest name offers = some o ↔ o.field = name ∧ Prevails offers o := by
  refine ⟨prevails_of_surest, fun ⟨hfield, ho⟩ => ?_⟩
  cases hs : surest name offers with
  | none => exact absurd (List.mem_map.2 ⟨o, ho.mem, hfield⟩) (surest_eq_none_iff.1 hs)
  | some p =>
    obtain ⟨hp, hprevails⟩ := prevails_of_surest hs
    rw [hprevails.eq ho (hp.trans hfield.symm)]

end Prevails

/-! ### What a collector keeps -/

/-- The field as an offer wants it. -/
def Offer.content (o : Offer) : Field := ⟨o.value, o.confidence⟩

namespace Collector
variable {offers : List Offer}

/-- **A collector keeps the surest offer of each field.** -/
theorem get?_collect (offers : List Offer) (name : String) :
    (collect offers).fields.get? name = (surest name offers).map Offer.content := by
  induction offers with
  | nil => rfl
  | cons o offers ih =>
    have hone : (collect [o]).fields.get? name = if name = o.field then some o.content else none :=
      get?_offer {} o name
    rw [← List.singleton_append, get?_collect_append, ih, List.singleton_append, surest, hone]
    by_cases hname : name = o.field
    · rw [if_pos hname, if_pos hname.symm]
      cases surest name offers with
      | none => rfl
      | some p =>
        rw [Option.map_some, Field.prefer]
        dsimp only
        rw [apply_ite (Option.map Offer.content)]
        rfl
    · rw [if_neg hname, if_neg (Ne.symm hname)]
      rfl

/-- **The offers that prevail are written.** -/
theorem mem_flush_iff {o : Offer} : o ∈ (collect offers).flush ↔ Prevails offers o := by
  rw [mem_flush, get?_collect, Option.map_eq_some_iff]
  constructor
  · rintro ⟨⟨field, value, confidence⟩, hs, heq⟩
    cases heq
    obtain ⟨rfl, h⟩ := surest_eq_some_iff.1 hs
    exact h
  · exact fun h => ⟨o, surest_eq_some_iff.2 ⟨rfl, h⟩, rfl⟩

theorem mem_fields_flush {name : String} :
    name ∈ (collect offers).flush.map Offer.field ↔ name ∈ offers.map Offer.field := by
  constructor
  · intro h
    obtain ⟨o, ho, rfl⟩ := List.mem_map.1 h
    exact List.mem_map.2 ⟨o, (mem_flush_iff.1 ho).mem, rfl⟩
  · intro h
    cases hs : surest name offers with
    | none => exact absurd h (surest_eq_none_iff.1 hs)
    | some o =>
      obtain ⟨hfield, hprevails⟩ := surest_eq_some_iff.1 hs
      exact List.mem_map.2 ⟨o, mem_flush_iff.2 hprevails, hfield⟩

theorem pairwise_flush (offers : List Offer) : (collect offers).flush.Pairwise fun a b =>
    a.confidence < b.confidence ∨ a.confidence = b.confidence ∧ a.field < b.field := by
  have hdistinct := List.pairwise_map.1 (nodup_flush offers)
  refine (hdistinct.and (pairwise_mergeSort _)).imp ?_
  rintro a b ⟨hne, hab⟩
  refine (writtenBefore_iff.1 hab).imp_right fun ⟨heq, hle⟩ => ⟨heq, ?_⟩
  exact String.not_le.1 fun hge => hne (String.le_antisymm hle hge)

/-! ### Collisions -/

/-- The collision of an offer with the one that prevails among those before it: both are as sure,
and their values differ. -/
def tie? (before : List Offer) (o : Offer) : Option Collision :=
  (surest o.field before).bind fun k =>
    if o.confidence = k.confidence ∧ k.value ≠ o.value then
      some ⟨o.field, o.confidence, k.value, o.value⟩
    else none

/-- The collisions of some offers that come behind others, in order. -/
def ties (before : List Offer) : List Offer → List Collision
  | [] => []
  | o :: offers => (tie? before o).toList ++ ties (before ++ [o]) offers

theorem collision?_collect (before : List Offer) (o : Offer) :
    (collect before).collision? o = tie? before o := by
  rw [collision?, get?_collect, tie?]
  cases surest o.field before <;> rfl

theorem collisions_foldl (before offers : List Offer) :
    (offers.foldl offer (collect before)).collisions =
      (ties before offers).reverse ++ (collect before).collisions := by
  induction offers generalizing before with
  | nil => rfl
  | cons o offers ih =>
    have hnext : (collect before).offer o = collect (before ++ [o]) := by
      rw [collect, collect, List.foldl_append]
      rfl
    have hcollisions : (collect (before ++ [o])).collisions =
        (tie? before o).toList ++ (collect before).collisions := by
      rw [← hnext, ← collision?_collect]
      rfl
    have hreverse : (tie? before o).toList.reverse = (tie? before o).toList := by
      cases tie? before o <;> rfl
    rw [List.foldl_cons, hnext, ih, hcollisions, ties, List.reverse_append, hreverse,
      List.append_assoc]

/-- **The collisions are the ties with the offer that prevailed before.** -/
theorem collisions_collect (offers : List Offer) :
    (collect offers).collisions.reverse = ties [] offers := by
  have h := collisions_foldl [] offers
  rw [show (collect []).collisions = [] from rfl, List.append_nil] at h
  rw [show (collect offers).collisions = (ties [] offers).reverse from h, List.reverse_reverse]

end Collector

/-! ### Results -/

/-- The result with each of some offers written, if it is surer than what is there. -/
def UserAgent.receive (u : UserAgent) (offers : List Offer) : UserAgent :=
  offers.foldl (fun u o => u.raise o.field o.value o.confidence) u

namespace UserAgent
open Collector

/-- A result merges offers with what it knows, as a collector does. -/
theorem get?_receive (u : UserAgent) (offers : List Offer) (name : String) :
    (u.receive offers).get? name =
      Field.prefer (u.get? name) ((collect offers).fields.get? name) := by
  induction offers generalizing u with
  | nil => exact (Field.prefer_none _).symm
  | cons o offers ih =>
    have hraise : (u.raise o.field o.value o.confidence).get? name =
        Field.prefer (u.get? name) (if name = o.field then some o.content else none) :=
      Fields.get?_raise o.value o.confidence name
    have hone : (collect [o]).fields.get? name = if name = o.field then some o.content else none :=
      get?_offer {} o name
    rw [receive, List.foldl_cons, ← List.singleton_append, get?_collect_append,
      ← Field.prefer_assoc, hone, ← hraise]
    exact ih _

/-- **A result can do without the offers that do not prevail.** -/
theorem get?_receive_flush (u : UserAgent) (offers : List Offer) (name : String) :
    (u.receive (collect offers).flush).get? name = (u.receive offers).get? name := by
  have hsurest : surest name (collect offers).flush = surest name offers := by
    ext o
    rw [surest_eq_some_iff, surest_eq_some_iff, prevails_iff_mem (nodup_flush offers),
      mem_flush_iff]
  rw [get?_receive, get?_receive, get?_collect, get?_collect, hsurest]

end UserAgent

/-- **Offers are arbitrated field by field.** Of any offers in any order, each field that is offered
is written once, with the earliest of its surest offers, and the least sure fields are written first,
those that are as sure by their names. What is reported as colliding are, in order, the offers that
are as sure as the one that prevailed before them and have another value. A result that receives
what is written knows in the end of every field what it would know if it had received all offers,
whatever it knew before. -/
theorem collect_arbitrates (offers : List Offer) :
    ((Collector.collect offers).flush.map Offer.field).Nodup ∧
    (∀ name, name ∈ (Collector.collect offers).flush.map Offer.field ↔
      name ∈ offers.map Offer.field) ∧
    (∀ o, o ∈ (Collector.collect offers).flush ↔ Prevails offers o) ∧
    (Collector.collect offers).flush.Pairwise (fun a b =>
      a.confidence < b.confidence ∨ a.confidence = b.confidence ∧ a.field < b.field) ∧
    (Collector.collect offers).collisions.reverse = Collector.ties [] offers ∧
    ∀ (u : UserAgent) (name : String),
      (u.receive (Collector.collect offers).flush).get? name = (u.receive offers).get? name :=
  ⟨Collector.nodup_flush offers, fun _ => Collector.mem_fields_flush,
    fun _ => Collector.mem_flush_iff, Collector.pairwise_flush offers,
    Collector.collisions_collect offers, fun u name => u.get?_receive_flush offers name⟩

end AgentRules
