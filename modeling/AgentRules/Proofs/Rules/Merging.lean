import AgentRules.Proofs.InPlace
import AgentRules.Proofs.Lookup.Resolution
import AgentRules.Proofs.Rules.Roundtrip

/-! # Merging rule libraries

A library is put behind another one if no name of its tables clashes with one that is there, nor one
of its sets (`Clash`). In place the lists grow one after the other, but only once both kinds of names
are checked, so a refusal leaves the library as it was (`atomic_extend`). Documents are merged from
a library without names on, so all of them are merged just if all names are distinct
(`readAll_eq_ok_iff`), and then no registry is refused for a name. -/

namespace AgentRules

/-- Some name is known already, or is there twice. -/
def Clash (known names : List String) : Prop := ¬ names.Nodup ∨ ∃ n ∈ names, n ∈ known

instance (known names : List String) : Decidable (Clash known names) :=
  inferInstanceAs (Decidable (_ ∨ _))

theorem not_clash_iff {known names : List String} :
    ¬ Clash known names ↔ names.Nodup ∧ ∀ n ∈ names, n ∉ known := by
  rw [Clash, not_or, not_not]
  simp only [not_exists, not_and]

theorem firstRepeat?_eq_none_iff {known names : List String} :
    firstRepeat? known names = none ↔ ¬ Clash known names := by
  rw [not_clash_iff]
  induction names generalizing known with
  | nil => simp [firstRepeat?]
  | cons n names ih =>
    rw [firstRepeat?, List.nodup_cons, List.forall_mem_cons]
    by_cases hn : n ∈ known
    · simp [hn]
    · -- later names must differ from this one too
      rw [if_neg hn, ih]
      constructor
      · rintro ⟨hnodup, hnew⟩
        refine ⟨⟨fun hmem => hnew n hmem List.mem_cons_self, hnodup⟩, hn, fun x hx hknown => ?_⟩
        exact hnew x hx (List.mem_cons_of_mem n hknown)
      · rintro ⟨⟨hnot, hnodup⟩, -, hnew⟩
        refine ⟨hnodup, fun x hx hknown => ?_⟩
        rcases List.mem_cons.1 hknown with rfl | hknown
        · exact hnot hx
        · exact hnew x hx hknown

theorem nodup_append_iff_of_nodup {known names : List String} (h : known.Nodup) :
    (known ++ names).Nodup ↔ ¬ Clash known names := by
  rw [List.nodup_append', not_clash_iff]
  constructor
  · rintro ⟨-, hnodup, hdisjoint⟩
    exact ⟨hnodup, fun n hn hknown => hdisjoint hknown hn⟩
  · rintro ⟨hnodup, hnew⟩
    exact ⟨h, hnodup, fun n hknown hn => hnew n hn hknown⟩

namespace RuleLibrary
variable {a b m : RuleLibrary} {libs : List RuleLibrary}

/-- A library behind another one. -/
instance : Append RuleLibrary where
  append a b := ⟨a.lookups ++ b.lookups, a.sets ++ b.sets, a.rules ++ b.rules⟩

theorem tableNames_append : (a ++ b).tableNames = a.tableNames ++ b.tableNames := List.map_append

theorem setNames_append : (a ++ b).setNames = a.setNames ++ b.setNames := List.map_append

/-! ### Two libraries -/

theorem merge_eq_ok_iff : a.merge b = .ok m ↔
    ¬ Clash a.tableNames b.tableNames ∧ ¬ Clash a.setNames b.setNames ∧ m = a ++ b := by
  rw [← firstRepeat?_eq_none_iff, ← firstRepeat?_eq_none_iff, merge]
  cases firstRepeat? a.tableNames b.tableNames with
  | some n => simp
  | none =>
    cases firstRepeat? a.setNames b.setNames with
    | some n => simp
    | none =>
      rw [Except.ok.injEq, eq_comm]
      exact ⟨fun h => ⟨rfl, rfl, h⟩, fun h => h.2.2⟩

theorem exists_merge_error_iff : (∃ f, a.merge b = .error f) ↔
    Clash a.tableNames b.tableNames ∨ Clash a.setNames b.setNames := by
  rw [← not_iff_not, not_or]
  constructor
  · intro h
    cases hm : a.merge b with
    | error f => exact absurd ⟨f, hm⟩ h
    | ok m =>
      obtain ⟨htables, hsets, -⟩ := merge_eq_ok_iff.1 hm
      exact ⟨htables, hsets⟩
  · rintro ⟨htables, hsets⟩ ⟨f, hf⟩
    rw [merge_eq_ok_iff.2 ⟨htables, hsets, rfl⟩] at hf
    cases hf

/-- Puts a library behind the one that is there. The names of both kinds are checked first; then the
lists grow one after the other. -/
def extend (b : RuleLibrary) : Attempt RuleLibrary Unit := do
  let a ← get
  if let some name := firstRepeat? a.tableNames b.tableNames then throw (.duplicateTable name)
  if let some name := firstRepeat? a.setNames b.setNames then throw (.duplicateSet name)
  modify fun a => { a with lookups := a.lookups ++ b.lookups }
  modify fun a => { a with sets := a.sets ++ b.sets }
  modify fun a => { a with rules := a.rules ++ b.rules }

/-- **A library is put behind another one as a whole or not at all.** -/
theorem atomic_extend (b : RuleLibrary) :
    (extend b).Atomic fun a => (a.merge b).map fun m => ((), m) := by
  intro a
  rw [extend, Attempt.perform_bind, Attempt.perform_get]
  dsimp only [merge]
  cases firstRepeat? a.tableNames b.tableNames with
  | some name => rfl
  | none =>
    cases firstRepeat? a.setNames b.setNames with
    | some name => rfl
    | none => rfl

/-! ### Many libraries -/

/-- The libraries one behind the other. -/
def joined (libs : List RuleLibrary) : RuleLibrary :=
  ⟨libs.flatMap (·.lookups), libs.flatMap (·.sets), libs.flatMap (·.rules)⟩

theorem tableNames_joined : (joined libs).tableNames = libs.flatMap tableNames := List.map_flatMap

theorem setNames_joined : (joined libs).setNames = libs.flatMap setNames := List.map_flatMap

theorem append_joined_nil (a : RuleLibrary) : a ++ joined [] = a := by
  show RuleLibrary.mk _ _ _ = a
  simp [joined]

theorem append_joined_cons (a b : RuleLibrary) (libs : List RuleLibrary) :
    a ++ joined (b :: libs) = a ++ b ++ joined libs := by
  show RuleLibrary.mk _ _ _ = RuleLibrary.mk (a.lookups ++ b.lookups ++ _) (a.sets ++ b.sets ++ _)
    (a.rules ++ b.rules ++ _)
  simp [joined]

/-- **Libraries are merged** behind one with distinct names just if the names stay distinct. -/
theorem foldlM_merge_eq_ok_iff (htables : a.tableNames.Nodup) (hsets : a.setNames.Nodup) :
    libs.foldlM merge a = .ok m ↔ (a ++ joined libs).tableNames.Nodup ∧
      (a ++ joined libs).setNames.Nodup ∧ m = a ++ joined libs := by
  induction libs generalizing a with
  | nil =>
    rw [append_joined_nil]
    show Except.ok a = .ok m ↔ _
    rw [Except.ok.injEq, eq_comm]
    exact ⟨fun h => ⟨htables, hsets, h⟩, fun h => h.2.2⟩
  | cons b libs ih =>
    rw [List.foldlM_cons, Outcome.bind_eq_ok_iff, append_joined_cons]
    constructor
    · rintro ⟨c, hc, h⟩
      obtain ⟨hb, hb', rfl⟩ := merge_eq_ok_iff.1 hc
      rw [← nodup_append_iff_of_nodup htables, ← tableNames_append] at hb
      rw [← nodup_append_iff_of_nodup hsets, ← setNames_append] at hb'
      exact (ih hb hb').1 h
    · rintro ⟨hall, hall', rfl⟩
      -- names that are distinct in the end are distinct on the way
      have hb : (a ++ b).tableNames.Nodup := (tableNames_append ▸ hall).of_append_left
      have hb' : (a ++ b).setNames.Nodup := (setNames_append ▸ hall').of_append_left
      refine ⟨a ++ b, merge_eq_ok_iff.2 ⟨?_, ?_, rfl⟩, (ih hb hb').2 ⟨hall, hall', rfl⟩⟩
      · rwa [← nodup_append_iff_of_nodup htables, ← tableNames_append]
      · rwa [← nodup_append_iff_of_nodup hsets, ← setNames_append]

/-- **Documents are merged** just if each of them can be read and all names are distinct. -/
theorem readAll_eq_ok_iff {documents : List (String × String)} :
    RuleDocument.readAll documents = .ok m ↔
      ∃ libs, List.Forall₂ (fun d l => RuleDocument.read d.1 d.2 = .ok l) documents libs ∧
        (joined libs).tableNames.Nodup ∧ (joined libs).setNames.Nodup ∧ m = joined libs := by
  refine Fold.foldlM_bind_eq_ok_iff.trans (exists_congr fun libs => and_congr_right fun _ => ?_)
  exact foldlM_merge_eq_ok_iff List.nodup_nil List.nodup_nil

/-- **Merging is all or nothing, and keeps names distinct.** A library is refused just if a name of
its tables clashes with one that is there, or one of its sets does; a table and a set may share a
name. A refused library changes nothing, and one that is merged comes behind what is there. So
documents that can be read are merged just if the names of all tables are distinct and those of all
sets are, and a registry of what comes of it is never refused for a name. -/
theorem merging_keeps_names_distinct :
    (∀ a b : RuleLibrary,
      ((∃ f, ((extend b).perform a).1 = .error f) ↔
        Clash a.tableNames b.tableNames ∨ Clash a.setNames b.setNames) ∧
      (∀ f, ((extend b).perform a).1 = .error f →
        a.merge b = .error f ∧ ((extend b).perform a).2 = a) ∧
      (((extend b).perform a).1 = .ok () →
        a.merge b = .ok ((extend b).perform a).2 ∧
        ((extend b).perform a).2 =
          ⟨a.lookups ++ b.lookups, a.sets ++ b.sets, a.rules ++ b.rules⟩)) ∧
    (∀ documents libs,
      List.Forall₂ (fun d l => RuleDocument.read d.1 d.2 = .ok l) documents libs →
      ((∃ m, RuleDocument.readAll documents = .ok m) ↔
        (libs.flatMap tableNames).Nodup ∧ (libs.flatMap setNames).Nodup)) ∧
    ∀ documents m, RuleDocument.readAll documents = .ok m →
      (∃ libs, List.Forall₂ (fun d l => RuleDocument.read d.1 d.2 = .ok l) documents libs ∧
        m = joined libs) ∧
      ∀ n, Registry.ofDefinitions m.lookups m.sets ≠ .error (.duplicateTable n) ∧
        Registry.ofDefinitions m.lookups m.sets ≠ .error (.duplicateSet n) := by
  have herror (a b : RuleLibrary) (f : Fault) (hf : ((extend b).perform a).1 = .error f) :
      a.merge b = .error f ∧ ((extend b).perform a).2 = a := by
    obtain ⟨hmerge, hstate⟩ := (atomic_extend b).of_error hf
    exact ⟨Outcome.map_eq_error_iff.1 hmerge, hstate⟩
  refine ⟨fun a b => ⟨?_, herror a b, fun hx => ?_⟩, fun documents libs hlibs => ?_,
    fun documents m hm => ?_⟩
  · rw [← exists_merge_error_iff]
    refine exists_congr fun f => ⟨fun hf => (herror a b f hf).1, fun hf => ?_⟩
    rw [(atomic_extend b).perform_of_error (Outcome.map_eq_error_iff.2 hf)]
  · obtain ⟨m, hm, hstate⟩ := Outcome.map_eq_ok_iff.1 ((atomic_extend b).of_ok hx)
    obtain ⟨-, -, heq⟩ := merge_eq_ok_iff.1 hm
    obtain rfl := (Prod.mk.inj hstate).2
    exact ⟨hm, heq⟩
  · rw [← tableNames_joined, ← setNames_joined]
    constructor
    · rintro ⟨m, hm⟩
      obtain ⟨libs', hlibs', htables, hsets, -⟩ := readAll_eq_ok_iff.1 hm
      obtain rfl : libs = libs' := List.right_unique_forall₂'
        (fun _ _ _ hl hl' => Except.ok.inj (hl.symm.trans hl')) hlibs hlibs'
      exact ⟨htables, hsets⟩
    · rintro ⟨htables, hsets⟩
      exact ⟨_, readAll_eq_ok_iff.2 ⟨libs, hlibs, htables, hsets, rfl⟩⟩
  · obtain ⟨libs, hlibs, htables, hsets, rfl⟩ := readAll_eq_ok_iff.1 hm
    refine ⟨⟨libs, hlibs, rfl⟩, fun n => ⟨fun h => ?_, fun h => ?_⟩⟩
    · rcases Registry.fault_of_ofDefinitions h with ⟨_, _, hf⟩ | ⟨hnot, -⟩ | ⟨-, _, hf⟩
      · cases hf
      · exact hnot htables
      · cases hf
    · rcases Registry.fault_of_ofDefinitions h with ⟨_, _, hf⟩ | ⟨-, _, hf⟩ | ⟨hnot, -⟩
      · cases hf
      · cases hf
      · exact hnot hsets

def brandLibrary : RuleLibrary where
  lookups := [⟨"Brands", [("sm", "Samsung")], none⟩]
  sets := [⟨"Robots", ["bot"]⟩]
  rules := [⟨⟨"brands", 0⟩, ["agent.(1)product.(1)name"], ["DeviceBrand : 1 : agent.(1)product"]⟩]

def robotLibrary : RuleLibrary where
  lookups := [⟨"Robots", [("bot", "Robot")], none⟩]
  sets := [⟨"Brands", []⟩]

def twiceLibrary : RuleLibrary where
  lookups := brandLibrary.lookups ++ brandLibrary.lookups

/-- Names are shared by a table and a set, but not by two tables, be they in one document. -/
theorem merging_keeps_names_distinct_brandLibrary :
    ((extend robotLibrary).perform brandLibrary).2.tableNames = ["Brands", "Robots"] ∧
    ((extend twiceLibrary).perform robotLibrary).2 = robotLibrary ∧
    (∃ m, RuleDocument.readAll [("brands", RuleDocument.write brandLibrary),
        ("robots", RuleDocument.write robotLibrary)] = .ok m ∧
      Registry.ofDefinitions m.lookups m.sets ≠ .error (.duplicateTable "Robots")) ∧
    ¬ ∃ m, RuleDocument.readAll [("twice", RuleDocument.write twiceLibrary)] = .ok m := by
  obtain ⟨hmerge, hread, hregistry⟩ := merging_keeps_names_distinct
  have hdocument (file : String) (l : RuleLibrary) :
      RuleDocument.read file (RuleDocument.write l) = .ok (l.stamp file) :=
    RuleDocument.read_layout Json.Layout.blank_compact l file
  refine ⟨?_, ?_, ?_, fun hm => ?_⟩
  · obtain ⟨-, -, hdone⟩ := hmerge brandLibrary robotLibrary
    rw [(hdone (by decide)).2]
    decide
  · obtain ⟨hiff, hrefused, -⟩ := hmerge robotLibrary twiceLibrary
    obtain ⟨f, hf⟩ := hiff.2 (by decide)
    exact (hrefused f hf).2
  · obtain ⟨m, hm⟩ := (hread [("brands", RuleDocument.write brandLibrary),
      ("robots", RuleDocument.write robotLibrary)] [brandLibrary.stamp "brands",
        robotLibrary.stamp "robots"] (.cons (hdocument _ _) (.cons (hdocument _ _) .nil))).2
      (by decide)
    exact ⟨m, hm, ((hregistry _ m hm).2 "Robots").1⟩
  · have hnames := (hread [("twice", RuleDocument.write twiceLibrary)] [twiceLibrary.stamp "twice"]
      (.cons (hdocument _ _) .nil)).1 hm
    exact absurd hnames (by decide)

end RuleLibrary

end AgentRules
