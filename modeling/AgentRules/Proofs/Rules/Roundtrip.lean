import AgentRules.Proofs.Json.Roundtrip
import AgentRules.Rules.Document

/-! # Rule documents that are written

A library that is written as a document is read back from it, but for the places of its rules: a
document has none, and each rule is placed in the file that is read (`read_write`). Every kind of
record is read back from what is written for it, so lists of records are too (`mapM_map_some`), and
the document of a library is a value without numbers (`textual_ofLibrary`), which is read back as
it was. -/

namespace AgentRules

namespace RuleLibrary
variable (l : RuleLibrary) (file : String)

theorem require_stamp : (l.stamp file).rules.map (·.require) = l.rules.map (·.require) := by
  apply List.ext_getElem <;> simp [stamp]

theorem extract_stamp : (l.stamp file).rules.map (·.extract) = l.rules.map (·.extract) := by
  apply List.ext_getElem <;> simp [stamp]

theorem source_stamp :
    (l.stamp file).rules.map (·.source) = (List.range l.rules.length).map fun i => ⟨file, i⟩ := by
  apply List.ext_getElem <;> simp [stamp]

theorem stamp_placed (place : Rule → RuleSource) :
    stamp file { l with rules := l.rules.map fun r => { r with source := place r } } =
      l.stamp file := by
  refine congrArg (RuleLibrary.mk l.lookups l.sets) ?_
  apply List.ext_getElem <;> simp

end RuleLibrary

namespace RuleDocument

/-! ### Parts -/

theorem mapM_map_some {α β γ : Type} {f : α → β} {g : β → Option γ} {h : α → γ}
    (hfg : ∀ a, g (f a) = some (h a)) (as : List α) : (as.map f).mapM g = some (as.map h) := by
  have hcomp : g ∘ f = fun a => pure (h a) := funext hfg
  rw [List.mapM_map, hcomp]
  exact List.mapM_pure

theorem mapM_map_self {α β : Type} {f : α → β} {g : β → Option α} (hfg : ∀ a, g (f a) = some a)
    (as : List α) : (as.map f).mapM g = some as := by
  rw [mapM_map_some (h := id) hfg, List.map_id]

@[simp] theorem text?_ofString (s : String) : text? (.ofString s) = some s := rfl

@[simp] theorem nullable?_ofString (s : String) : nullable? (.ofString s) = some (some s) := rfl

@[simp] theorem list?_ofStrings (xs : List String) : list? text? (.ofStrings xs) = some xs :=
  mapM_map_self text?_ofString xs

@[simp] theorem pairs?_ofMembers (m : List (String × String)) :
    pairs? (.ofMembers (m.map fun e => (e.1, .ofString e.2))) = some m := by
  rw [Json.ofMembers, List.map_map]
  exact mapM_map_self (f := fun e => (some e.1, Json.ofString e.2))
    (g := fun e => do return (← e.1, ← text? e.2)) (fun _ => rfl) m

theorem record?_ofMembers {names : List String} {members : List (String × Json)}
    (h : ∀ n ∈ names, members.countP (·.1 = n) ≤ 1) :
    record? names (.ofMembers members) = some (names.map fun n => members.lookup n) := by
  have hall : (names.all fun n => decide (members.countP (·.1 = n) ≤ 1)) = true :=
    List.all_eq_true.2 fun n hn => decide_eq_true (h n hn)
  have hmembers := mapM_map_self (f := fun m => (some m.1, m.2))
    (g := fun m : Option String × Json => do return (← m.1, m.2)) (fun _ => rfl) members
  rw [Json.ofMembers, record?]
  refine (congrArg (Option.bind · _) hmembers).trans ?_
  exact if_pos hall

/-! ### Records -/

theorem table?_ofTable (d : TableDefinition) : table? (ofTable d) = some d := by
  rcases d with ⟨name, map, _ | value⟩
  · rw [table?, ofTable, record?_ofMembers (by simp)]
    simp [optional?, List.lookup_cons, List.lookup_nil]
  · rw [table?, ofTable, record?_ofMembers (by simp)]
    simp [optional?, List.lookup_cons, List.lookup_nil]

theorem set?_ofSet (d : SetDefinition) : set? (ofSet d) = some d := by
  rw [set?, ofSet, record?_ofMembers (by simp)]
  simp [List.lookup_cons, List.lookup_nil]

theorem rule?_ofRule (r : Rule) : rule? (ofRule r) = some { r with source := {} } := by
  rw [rule?, ofRule, record?_ofMembers (by simp)]
  simp [optional?, List.lookup_cons, List.lookup_nil]

theorem library?_ofLibrary (l : RuleLibrary) :
    library? (ofLibrary l) =
      some { l with rules := l.rules.map fun r => { r with source := {} } } := by
  have htables : list? table? (.array (l.lookups.map ofTable)) = some l.lookups :=
    mapM_map_self table?_ofTable _
  have hsets : list? set? (.array (l.sets.map ofSet)) = some l.sets := mapM_map_self set?_ofSet _
  have hrules : list? rule? (.array (l.rules.map ofRule)) =
      some (l.rules.map fun r => { r with source := {} }) := mapM_map_some rule?_ofRule _
  rw [library?, ofLibrary, record?_ofMembers (by simp)]
  simp [htables, hsets, hrules, optional?, List.lookup_cons, List.lookup_nil]

/-! ### Documents -/

theorem textual_ofStrings (xs : List String) : (Json.ofStrings xs).Textual := by
  refine .array fun j hj => ?_
  obtain ⟨s, -, rfl⟩ := List.mem_map.1 hj
  exact .text s

theorem textual_ofTable (d : TableDefinition) : (ofTable d).Textual := by
  have hmap : (Json.ofMembers (d.map.map fun e => (e.1, .ofString e.2))).Textual := by
    refine .object fun m hm => ?_
    obtain ⟨⟨k, v⟩, -, rfl⟩ := List.mem_map.1 hm
    exact .text v
  refine .object (List.forall_mem_append.2 ⟨?_, ?_⟩)
  · exact List.forall_mem_cons.2 ⟨.text _, List.forall_mem_singleton.2 hmap⟩
  · intro m hm
    obtain ⟨v, -, rfl⟩ := List.mem_map.1 hm
    exact .text v

theorem textual_ofSet (d : SetDefinition) : (ofSet d).Textual :=
  .object (List.forall_mem_cons.2 ⟨.text _, List.forall_mem_singleton.2 (textual_ofStrings _)⟩)

theorem textual_ofRule (r : Rule) : (ofRule r).Textual :=
  .object (List.forall_mem_cons.2
    ⟨textual_ofStrings _, List.forall_mem_singleton.2 (textual_ofStrings _)⟩)

theorem textual_map {α : Type} {f : α → Json} (h : ∀ a, (f a).Textual) (as : List α) :
    (Json.array (as.map f)).Textual := by
  refine .array fun j hj => ?_
  obtain ⟨a, -, rfl⟩ := List.mem_map.1 hj
  exact h a

theorem textual_ofLibrary (l : RuleLibrary) : (ofLibrary l).Textual :=
  .object (List.forall_mem_cons.2 ⟨textual_map textual_ofTable _, List.forall_mem_cons.2
    ⟨textual_map textual_ofSet _, List.forall_mem_singleton.2 (textual_map textual_ofRule _)⟩⟩)

theorem read_layout {layout : Json.Layout} (h : layout.Blank) (l : RuleLibrary) (file : String) :
    read file (Json.write layout 0 (ofLibrary l)) = .ok (l.stamp file) := by
  rw [read, Json.read?_write h (textual_ofLibrary l), Option.bind_some, library?_ofLibrary]
  exact congrArg Except.ok (l.stamp_placed file fun _ => {})

/-- **A written library is read back**: the same tables with the same entries in order, the same
sets, and rules with the same lines, which are placed in the file by their indices, whatever their
places were. -/
theorem read_write (l : RuleLibrary) (file : String) :
    ∃ m, read file (write l) = .ok m ∧ read file (ofLibrary l).pretty = .ok m ∧
      m.lookups = l.lookups ∧ m.sets = l.sets ∧
      m.rules.map (·.require) = l.rules.map (·.require) ∧
      m.rules.map (·.extract) = l.rules.map (·.extract) ∧
      m.rules.map (·.source) = (List.range l.rules.length).map fun i => ⟨file, i⟩ :=
  ⟨l.stamp file, read_layout Json.Layout.blank_compact l file,
    read_layout Json.Layout.blank_indented l file, rfl, rfl, l.require_stamp file,
    l.extract_stamp file, l.source_stamp file⟩

end RuleDocument

end AgentRules
