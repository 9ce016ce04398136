import AgentRules.Proofs.Result.Members

/-! # Derived fields settle

Fields are derived one after the other on the result that they change, and one of them is made of
another one. As every field is derived before those that are made of it (`InOrder`), and a
derivation reads its sources alone (`derived?_congr`), what it gives at its turn is what it gives in
the end. So each derived field is in the end the surer of what it was and what is made of the final
result (`get?_settled`), and deriving once more changes nothing (`derive_settles`). -/

namespace AgentRules

/-- The fields that a derivation reads. -/
def Derivation.sources : Derivation → List String
  | .major version => [version]
  | .nameVersion name version => [name, version]

namespace UserAgent

/-- No derivation reads what it writes itself or what a later one writes, and no field is written
twice. -/
structure InOrder (ds : List (String × Derivation)) : Prop where
  self : ∀ d ∈ ds, d.1 ∉ d.2.sources
  later : ds.Pairwise fun d e => e.1 ≠ d.1 ∧ e.1 ∉ d.2.sources

theorem inOrder_derivations : InOrder derivations where
  self := by decide
  later := by decide

/-! ### One derivation -/

theorem reads_congr {u v : UserAgent} {n : String} (h : u.get? n = v.get? n) :
    u.isKnown n = v.isKnown n ∧ u.value n = v.value n ∧ u.confidence n = v.confidence n := by
  unfold isKnown value confidence
  rw [h]
  exact ⟨rfl, rfl, rfl⟩

theorem derived?_congr {u v : UserAgent} {d : Derivation}
    (h : ∀ n ∈ d.sources, u.get? n = v.get? n) : u.derived? d = v.derived? d := by
  cases d with
  | major version =>
    obtain ⟨hknown, hvalue, hconfidence⟩ := reads_congr (h version List.mem_cons_self)
    rw [derived?, derived?, hknown, hvalue, hconfidence]
  | nameVersion name version =>
    obtain ⟨hname, hvalue, hconfidence⟩ := reads_congr (h name List.mem_cons_self)
    obtain ⟨hversion, hvalue', hconfidence'⟩ :=
      reads_congr (h version (List.mem_cons_of_mem _ List.mem_cons_self))
    rw [derived?, derived?, hname, hvalue, hconfidence, hversion, hvalue', hconfidence']

theorem confidence_of_isKnown {u : UserAgent} {n : String} (h : u.isKnown n = true) :
    0 ≤ u.confidence n := by
  unfold isKnown at h
  unfold confidence
  cases hget : u.get? n with
  | none =>
    rw [hget] at h
    cases h
  | some f =>
    rw [hget, Option.any_some, Bool.and_eq_true, decide_eq_true_eq] at h
    exact h.1

theorem confidence_of_derived? {u : UserAgent} {d : Derivation} {f : Field}
    (h : u.derived? d = some f) : unknownConfidence < f.confidence := by
  have hknown : 0 ≤ f.confidence := by
    cases d with
    | major version =>
      rw [derived?] at h
      split at h
      · next hk =>
        obtain ⟨v, -, rfl⟩ := Option.map_eq_some_iff.1 h
        exact confidence_of_isKnown hk
      · cases h
    | nameVersion name version =>
      rw [derived?] at h
      split at h
      · next hk =>
        cases h
        rw [Bool.and_eq_true] at hk
        exact (confidence_of_isKnown hk.1).trans (Int.le_max_left _ _)
      · cases h
  exact Int.lt_of_lt_of_le (by decide) hknown

theorem deriveField_eq_self {u : UserAgent} {d : String × Derivation}
    (h : ∀ f, u.derived? d.2 = some f → ∃ g, u.get? d.1 = some g ∧ f.confidence ≤ g.confidence) :
    u.deriveField d = u := by
  rw [deriveField_eq]
  cases hd : u.derived? d.2 with
  | none => rfl
  | some f =>
    obtain ⟨g, hg, hle⟩ := h f hd
    have hkeep : u.fields.wouldRaise d.1 f.confidence = false := by
      rw [Fields.wouldRaise, show u.fields.get? d.1 = some g from hg]
      exact decide_eq_false (Int.not_lt.2 hle)
    rw [Option.elim_some, raise, Fields.raise, hkeep, if_neg Bool.false_ne_true]

/-- A field that changes for something that is known is surer than before. -/
theorem confidence_lt_of_ne {u v : UserAgent} {n : String} {f : Option Field}
    (h : v.get? n = Field.prefer (u.get? n) f)
    (hf : ∀ g, f = some g → unknownConfidence < g.confidence) (hne : v.get? n ≠ u.get? n) :
    u.confidence n < v.confidence n := by
  cases hv : v.get? n with
  | none =>
    rw [hv] at h hne
    exact absurd (Field.prefer_eq_none.1 h.symm).1.symm hne
  | some g =>
    rw [hv] at h hne
    rw [confidence, confidence, hv]
    rcases Field.prefer_eq_some.1 h.symm with ⟨hu, -⟩ | ⟨hg, hlt⟩
    · exact absurd hu.symm hne
    · cases hu : u.get? n with
      | none => exact hf g hg
      | some k => exact hlt k hu

/-! ### Derivations in order -/

theorem get?_foldl_of_not_mem {ds : List (String × Derivation)} {n : String}
    (h : n ∉ ds.map Prod.fst) (u : UserAgent) : (ds.foldl deriveField u).get? n = u.get? n := by
  obtain ⟨g, hg, hnone⟩ := u.exists_get?_derive ds n
  rw [hg, hnone h, Field.prefer_none]

/-- **What is derived settles.** In the end a derived field is the surer of what it was before and
what is derived for it from the final result. -/
theorem get?_settled {ds : List (String × Derivation)} (h : InOrder ds) {d : String × Derivation}
    (hd : d ∈ ds) (u : UserAgent) :
    (ds.foldl deriveField u).get? d.1 =
      Field.prefer (u.get? d.1) ((ds.foldl deriveField u).derived? d.2) := by
  induction ds generalizing u with
  | nil => cases hd
  | cons e ds ih =>
    obtain ⟨hself, hlater⟩ := h
    obtain ⟨hfirst, hrest⟩ := List.pairwise_cons.1 hlater
    rw [List.foldl_cons]
    rcases List.mem_cons.1 hd with rfl | hd
    · -- nothing that is read or written here is written later
      have hread {n : String} (hn : n ∈ d.2.sources) :
          ((ds.foldl deriveField (u.deriveField d))).get? n = u.get? n := by
        have hnot : n ∉ ds.map Prod.fst := fun hmem => by
          obtain ⟨x, hx, rfl⟩ := List.mem_map.1 hmem
          exact (hfirst x hx).2 hn
        rw [get?_foldl_of_not_mem hnot, get?_deriveField, if_neg, Field.prefer_none]
        rintro rfl
        exact hself d List.mem_cons_self hn
      have hwritten : d.1 ∉ ds.map Prod.fst := fun hmem => by
        obtain ⟨x, hx, hname⟩ := List.mem_map.1 hmem
        exact (hfirst x hx).1 hname
      rw [get?_foldl_of_not_mem hwritten, get?_deriveField, if_pos rfl,
        derived?_congr fun n hn => hread hn]
    · have hother : d.1 ≠ e.1 := (hfirst d hd).1
      rw [ih ⟨fun x hx => hself x (List.mem_cons_of_mem _ hx), hrest⟩ hd, get?_deriveField,
        if_neg hother, Field.prefer_none]

/-- What is derived from the final result is no surer than the field that it is derived for. -/
theorem exists_get?_settled {ds : List (String × Derivation)} (h : InOrder ds)
    {d : String × Derivation} (hd : d ∈ ds) {u : UserAgent} {f : Field}
    (hf : (ds.foldl deriveField u).derived? d.2 = some f) :
    ∃ g, (ds.foldl deriveField u).get? d.1 = some g ∧ f.confidence ≤ g.confidence := by
  have hget := get?_settled h hd u
  rw [hf] at hget
  cases hg : (ds.foldl deriveField u).get? d.1 with
  | none =>
    rw [hg] at hget
    cases (Field.prefer_eq_none.1 hget.symm).2
  | some g =>
    rw [hg] at hget
    refine ⟨g, rfl, ?_⟩
    rcases Field.prefer_eq_some.1 hget.symm with ⟨-, hle⟩ | ⟨hfg, -⟩
    · exact hle f rfl
    · cases hfg
      exact Int.le_refl _

theorem foldl_settled {ds : List (String × Derivation)} (h : InOrder ds) (u : UserAgent) :
    ds.foldl deriveField (ds.foldl deriveField u) = ds.foldl deriveField u := by
  have hstep : ∀ d ∈ ds, (ds.foldl deriveField u).deriveField d = ds.foldl deriveField u :=
    fun d hd => deriveField_eq_self fun f hf => exists_get?_settled h hd hf
  generalize ds.foldl deriveField u = v at hstep ⊢
  induction ds with
  | nil => rfl
  | cons d ds ih =>
    obtain ⟨hd, hds⟩ := List.forall_mem_cons.1 hstep
    rw [List.foldl_cons, hd]
    exact ih ⟨fun x hx => h.self x (List.mem_cons_of_mem _ hx), (List.pairwise_cons.1 h.later).2⟩ hds

/-- **Derived fields only improve a result, and settle.** Whatever is known of an agent, deriving
fields changes no other field, and a field that it changes is surer than before. Each derived field
is in the end the surer of what it was and what is derived for it from the final result, so it is at
least as sure as that, and deriving once more changes nothing. -/
theorem derive_settles (u : UserAgent) :
    u.derive.source = u.source ∧ u.derive.matched = u.matched ∧
    (∀ n, n ∉ derivations.map Prod.fst → u.derive.get? n = u.get? n) ∧
    (∀ n, u.derive.get? n ≠ u.get? n → u.confidence n < u.derive.confidence n) ∧
    (∀ d ∈ derivations,
      u.derive.get? d.1 = Field.prefer (u.get? d.1) (u.derive.derived? d.2) ∧
      ∀ f, u.derive.derived? d.2 = some f → f.confidence ≤ u.derive.confidence d.1) ∧
    u.derive.derive = u.derive := by
  have hframe (n : String) (hn : n ∉ derivations.map Prod.fst) : u.derive.get? n = u.get? n :=
    get?_foldl_of_not_mem hn u
  have hsettled (d : String × Derivation) (hd : d ∈ derivations) :
      u.derive.get? d.1 = Field.prefer (u.get? d.1) (u.derive.derived? d.2) :=
    get?_settled inOrder_derivations hd u
  refine ⟨(u.frame_derive derivations).1, (u.frame_derive derivations).2, hframe, fun n hn => ?_,
    fun d hd => ⟨hsettled d hd, fun f hf => ?_⟩, foldl_settled inOrder_derivations u⟩
  · obtain ⟨d, hd, rfl⟩ : ∃ d ∈ derivations, d.1 = n := by
      by_contra hnone
      refine hn (hframe n fun hmem => hnone ?_)
      exact List.mem_map.1 hmem
    exact confidence_lt_of_ne (hsettled d hd) (fun f hf => confidence_of_derived? hf) hn
  · obtain ⟨g, hg, hle⟩ := exists_get?_settled inOrder_derivations hd hf
    rw [confidence, show u.derive.get? d.1 = some g from hg]
    exact hle

/-- A device of which some things are not known: one field says so, one is not sure enough, and what
is known of the first part of the version is less sure than the version. -/
def halfKnown : UserAgent where
  source := "Chrome/53.0"
  fields := [("AgentName", ⟨"Chrome", 200⟩), ("AgentVersion", ⟨"53.0", 5⟩),
    ("AgentVersionMajor", ⟨"old", -7⟩), ("OperatingSystemName", ⟨"Android", -1⟩),
    ("OperatingSystemVersion", ⟨"7.0", 100⟩), ("LayoutEngineVersion", ⟨"Unknown", 9⟩)]

/-- The first part of the version is derived, and then the name with it; what is made of fields that
are not known is not. -/
theorem derive_settles_halfKnown :
    "AgentName" ∉ derivations.map Prod.fst ∧
    halfKnown.derive.get? "AgentName" = some ⟨"Chrome", 200⟩ ∧
    halfKnown.derive.get? "AgentVersionMajor" = some ⟨"53", 5⟩ ∧
    halfKnown.confidence "AgentVersionMajor" < halfKnown.derive.confidence "AgentVersionMajor" ∧
    halfKnown.derive.get? "AgentNameVersionMajor" = some ⟨"Chrome 53", 200⟩ ∧
    200 ≤ halfKnown.derive.confidence "AgentNameVersionMajor" ∧
    halfKnown.derive.get? "OperatingSystemNameVersion" = none ∧
    halfKnown.derive.get? "LayoutEngineVersionMajor" = none ∧
    halfKnown.derive.derive = halfKnown.derive := by
  obtain ⟨-, -, hframe, hsurer, hsettled, hagain⟩ := derive_settles halfKnown
  have hname : "AgentName" ∉ derivations.map Prod.fst := by decide
  have hmajor : halfKnown.derive.get? "AgentVersionMajor" = some ⟨"53", 5⟩ := by decide +kernel
  obtain ⟨-, hle⟩ := hsettled ("AgentNameVersionMajor", .nameVersion "AgentName" "AgentVersionMajor")
    (by decide)
  refine ⟨hname, (hframe _ hname).trans rfl, hmajor, hsurer _ ?_, by decide +kernel,
    hle ⟨"Chrome 53", 200⟩ (by decide +kernel), by decide +kernel, by decide +kernel, hagain⟩
  rw [hmajor]
  decide +kernel

end UserAgent

end AgentRules
