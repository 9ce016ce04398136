import AgentRules.Analyzer.Basic
import AgentRules.Proofs.Analysis.Arbitration

/-! # The members of a result

A result is written as an object whose members are the text, the fields and perhaps the matches.
What stands under a name can be read off the object if the name comes up once (`under_eq`); all names
come up once if no field has one of the two names under which the text and the matches are written
(`nodup_keys_iff`). Deriving fields only puts surer values where there are any
(`exists_get?_derive`). -/

namespace AgentRules

/-! ### Objects -/

namespace Json

def keys : Json → List (Option String)
  | object members => members.map Prod.fst
  | _ => []

def under (name : String) : Json → List Json
  | object members => (members.filter fun m => m.1 = some name).map Prod.snd
  | _ => []

theorem keys_ofMembers (members : List (String × Json)) :
    (ofMembers members).keys = (members.map Prod.fst).map some := by
  rw [ofMembers, keys, List.map_map, List.map_map]
  rfl

/-- Where every name comes up once, a member is all that stands under its name. -/
theorem under_eq {members : List (String × Json)} (h : (ofMembers members).keys.Nodup)
    {name : String} {value : Json} (hm : (name, value) ∈ members) :
    (ofMembers members).under name = [value] := by
  have hnodup : (members.map Prod.fst).Nodup := by
    rw [keys_ofMembers] at h
    exact h.of_map _
  obtain ⟨before, behind, rfl⟩ := List.append_of_mem hm
  rw [List.map_append, List.map_cons, List.nodup_middle, List.nodup_cons, List.mem_append,
    not_or] at hnodup
  obtain ⟨⟨hbefore, hbehind⟩, -⟩ := hnodup
  have hnone {ms : List (String × Json)} (hms : name ∉ ms.map Prod.fst) :
      (ms.map fun m => (some m.1, m.2)).filter (fun m => m.1 = some name) = [] := by
    rw [List.filter_eq_nil_iff]
    rintro m hm' hname
    obtain ⟨x, hx, rfl⟩ := List.mem_map.1 hm'
    refine hms (List.mem_map.2 ⟨x, hx, ?_⟩)
    simpa using hname
  show (((before ++ (name, value) :: behind).map fun m => (some m.1, m.2)).filter
    fun m => m.1 = some name).map Prod.snd = [value]
  rw [List.map_append, List.map_cons, List.filter_append, List.filter_cons, hnone hbefore,
    hnone hbehind]
  simp

end Json

/-! ### Fields -/

namespace Fields
variable {fields : Fields} {name : String}

theorem get?_eq_none_iff : fields.get? name = none ↔ name ∉ fields.map (·.1) := by
  induction fields with
  | nil => exact iff_of_true rfl List.not_mem_nil
  | cons x rest ih =>
    rw [get?_cons, List.map_cons, List.mem_cons, not_or]
    by_cases hx : name = x.1
    · rw [if_pos hx]
      exact iff_of_false (Option.some_ne_none _) fun h => h.1 hx
    · rw [if_neg hx, ih, and_iff_right hx]

theorem mem_names : name ∈ fields.names ↔ ∃ f, fields.get? name = some f := by
  rw [names, List.mem_mergeSort, ← Option.ne_none_iff_exists', ne_eq, get?_eq_none_iff, not_not]

theorem nodup_raise (h : (fields.map (·.1)).Nodup) (value : String) (confidence : Int) :
    ((fields.raise name value confidence).map (·.1)).Nodup := by
  unfold raise
  split
  · exact nodup_put h
  · exact h

end Fields

namespace UserAgent

theorem get?_raise (u : UserAgent) (name value : String) (confidence : Int) (n : String) :
    (u.raise name value confidence).get? n =
      Field.prefer (u.get? n) (if n = name then some ⟨value, confidence⟩ else none) :=
  Fields.get?_raise value confidence n

/-- Every name comes up once in the result. -/
def Distinct (u : UserAgent) : Prop := (u.fields.map (·.1)).Nodup

theorem Distinct.raise {u : UserAgent} (h : u.Distinct) (name value : String) (confidence : Int) :
    (u.raise name value confidence).Distinct := Fields.nodup_raise h value confidence

theorem Distinct.receive {u : UserAgent} (h : u.Distinct) (offers : List Offer) :
    (u.receive offers).Distinct := by
  induction offers generalizing u with
  | nil => exact h
  | cons o offers ih => exact ih (h.raise o.field o.value o.confidence)

theorem source_receive (u : UserAgent) (offers : List Offer) :
    (u.receive offers).source = u.source := by
  induction offers generalizing u with
  | nil => rfl
  | cons o offers ih => exact ih _

/-! ### Derived fields -/

theorem deriveField_eq (u : UserAgent) (d : String × Derivation) : u.deriveField d =
    ((u.derived? d.2).elim u fun f => u.raise d.1 f.value f.confidence) := by
  unfold deriveField
  cases u.derived? d.2 <;> rfl

theorem frame_derive (u : UserAgent) (ds : List (String × Derivation)) :
    (ds.foldl deriveField u).source = u.source ∧ (ds.foldl deriveField u).matched = u.matched := by
  induction ds generalizing u with
  | nil => exact ⟨rfl, rfl⟩
  | cons d ds ih =>
    have hone : (u.deriveField d).source = u.source ∧ (u.deriveField d).matched = u.matched := by
      rw [deriveField_eq]
      cases u.derived? d.2 <;> exact ⟨rfl, rfl⟩
    obtain ⟨hsource, hmatched⟩ := ih (u.deriveField d)
    exact ⟨hsource.trans hone.1, hmatched.trans hone.2⟩

theorem Distinct.derive {u : UserAgent} (h : u.Distinct) (ds : List (String × Derivation)) :
    (ds.foldl deriveField u).Distinct := by
  induction ds generalizing u with
  | nil => exact h
  | cons d ds ih =>
    refine ih ?_
    rw [deriveField_eq]
    cases u.derived? d.2 with
    | none => exact h
    | some f => exact h.raise d.1 f.value f.confidence

theorem get?_deriveField (u : UserAgent) (d : String × Derivation) (name : String) :
    (u.deriveField d).get? name =
      Field.prefer (u.get? name) (if name = d.1 then u.derived? d.2 else none) := by
  rw [deriveField_eq]
  cases u.derived? d.2 with
  | none => rw [ite_self, Field.prefer_none, Option.elim_none]
  | some f => exact u.get?_raise d.1 f.value f.confidence name

/-- **Deriving fields** changes those alone that are derived, and only for a surer value. -/
theorem exists_get?_derive (u : UserAgent) (ds : List (String × Derivation)) (name : String) :
    ∃ g, (ds.foldl deriveField u).get? name = Field.prefer (u.get? name) g ∧
      (name ∉ ds.map Prod.fst → g = none) := by
  induction ds generalizing u with
  | nil => exact ⟨none, (Field.prefer_none _).symm, fun _ => rfl⟩
  | cons d ds ih =>
    obtain ⟨g, hg, hnone⟩ := ih (u.deriveField d)
    refine ⟨Field.prefer (if name = d.1 then u.derived? d.2 else none) g, ?_, fun hname => ?_⟩
    · rw [List.foldl_cons, hg, get?_deriveField, Field.prefer_assoc]
    · rw [List.map_cons, List.mem_cons, not_or] at hname
      rw [hnone hname.2, if_neg hname.1]
      rfl

/-! ### What is written -/

section Written
variable {u : UserAgent}

theorem keys_toJson (u : UserAgent) : u.toJson.keys =
    (sourceName :: (u.names ++ if u.matched.isEmpty then [] else [matchesName])).map some := by
  rw [toJson, Json.keys_ofMembers, List.map_cons, List.map_append, List.map_map]
  congr 4
  · exact List.map_id _
  · split <;> rfl

/-- **The names are told apart** unless a field has the name of the text, or that of the matches
where there are any. -/
theorem nodup_keys_iff (h : u.Distinct) : u.toJson.keys.Nodup ↔
    sourceName ∉ u.names ∧ (u.matched = [] ∨ matchesName ∉ u.names) := by
  have hnames : u.names.Nodup := (List.mergeSort_perm _ _).nodup_iff.2 h
  have hdiffer : sourceName ≠ matchesName := by decide
  rw [keys_toJson, List.nodup_map_iff (Option.some_injective _), List.nodup_cons]
  cases hm : u.matched with
  | nil =>
    rw [List.isEmpty_nil, if_pos rfl, List.append_nil]
    simp [hnames]
  | cons m ms =>
    have hlast : (u.names ++ [matchesName]).Nodup ↔ matchesName ∉ u.names := by
      rw [← List.concat_eq_append, List.nodup_concat, and_iff_left hnames]
    rw [List.isEmpty_cons, if_neg Bool.false_ne_true, List.mem_append, List.mem_singleton,
      or_iff_left hdiffer, hlast, or_iff_right (List.cons_ne_nil _ _)]

theorem under_source (h : u.toJson.keys.Nodup) :
    u.toJson.under sourceName = [.ofString u.source] :=
  Json.under_eq h List.mem_cons_self

/-- **A field stands under its own name.** -/
theorem under_field (h : u.toJson.keys.Nodup) {name : String} {f : Field}
    (hf : u.get? name = some f) : u.toJson.under name = [.ofString f.value] := by
  have hvalue : u.value name = f.value := by rw [value, hf, Option.elim_some]
  rw [← hvalue]
  refine Json.under_eq h (List.mem_cons_of_mem _ (List.mem_append_left _ ?_))
  exact List.mem_map.2 ⟨name, Fields.mem_names.2 ⟨f, hf⟩, rfl⟩

end Written

end UserAgent

end AgentRules
