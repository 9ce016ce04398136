import AgentRules.Lookup.Registry
import AgentRules.Proofs.Lookup.Entered
import AgentRules.Proofs.Lookup.LongestHead

/-! # What names resolve to

A registry enters the tables of a library and its sets under their names, and then the keys of each
table as a set, where no set has that name. Tables and sets are entered alike (`addTable_eq`,
`addSet_eq`), so a registry can be made just if no name and no key of a table is there twice, and
what stands in the way is known otherwise (`fault_of_ofDefinitions`). The keys of tables only come
where nothing is (`getElem?_foldl_addKeys`). So each name resolves to what is declared under it
(`resolves_declared`). -/

namespace AgentRules

/-! ### Tables -/

namespace LookupTable

theorem frame_add {t t' : LookupTable} {e : String × String} (h : t.add e = .ok t') :
    t'.name = t.name ∧ t'.default = t.default := by
  unfold LookupTable.add at h
  split at h
  · cases h
  · cases h
    exact ⟨rfl, rfl⟩

theorem fault_of_add {t : LookupTable} {e : String × String} {f : Fault} (h : t.add e = .error f) :
    ∃ table key, f = .duplicateKey table key := by
  unfold LookupTable.add at h
  split at h
  · cases h
    exact ⟨_, _, rfl⟩
  · cases h

/-- **A table is what is written down.** -/
theorem eq_of_ofDefinition {d : TableDefinition} {t : LookupTable} (h : ofDefinition d = .ok t) :
    t.name = d.name ∧ t.entries = d.map ∧ t.default = d.default := by
  obtain ⟨u, hu, h⟩ := Outcome.bind_eq_ok_iff.1 h
  cases h
  obtain ⟨hname, hdefault⟩ := Fold.foldlM_invariant
    (fun t : LookupTable => t.name = d.name ∧ t.default = d.default)
    (fun t e t' ht _ he => ⟨(frame_add he).1.trans ht.1, (frame_add he).2.trans ht.2⟩)
    ⟨rfl, rfl⟩ hu
  exact ⟨hname, rfl, hdefault⟩

theorem fault_of_ofDefinition {d : TableDefinition} {f : Fault} (h : ofDefinition d = .error f) :
    ∃ table key, f = .duplicateKey table key := by
  unfold ofDefinition make at h
  cases hfold : d.map.foldlM add (empty d.name d.default) with
  | ok t =>
    rw [hfold] at h
    cases h
  | error g =>
    rw [hfold] at h
    cases h
    obtain ⟨-, e, -, t, -, -, he⟩ := Fold.exists_of_foldlM_error hfold
    exact fault_of_add he

end LookupTable

theorem LookupSet.has_make {name : String} {values : List String} {text : String} :
    (make name values).has text = true ↔ text ∈ values := by
  rw [has, make, Std.HashSet.contains_ofList, List.contains_iff_mem]

namespace Registry

/-! ### Entering tables and sets -/

def setOf (d : SetDefinition) : Except Fault LookupSet := .ok (LookupSet.make d.name d.values)

def enterTable : Std.HashMap String LookupTable → TableDefinition →
    Except Fault (Std.HashMap String LookupTable) :=
  enter (·.name) LookupTable.ofDefinition .duplicateTable

def enterSet : Std.HashMap String LookupSet → SetDefinition →
    Except Fault (Std.HashMap String LookupSet) :=
  enter (·.name) setOf .duplicateSet

theorem addTable_eq (m : Std.HashMap String LookupTable) (d : TableDefinition)
    (sets : Std.HashMap String LookupSet) :
    addTable ⟨m, sets⟩ d = (enterTable m d).map (⟨·, sets⟩) := by
  unfold addTable enterTable enter
  cases LookupTable.ofDefinition d with
  | error f => rfl
  | ok t =>
    show (if m.contains d.name then _ else _) = Except.map _ (if _ then _ else _)
    cases m.contains d.name <;> rfl

theorem addSet_eq (m : Std.HashMap String LookupSet) (d : SetDefinition)
    (tables : Std.HashMap String LookupTable) :
    addSet ⟨tables, m⟩ d = (enterSet m d).map (⟨tables, ·⟩) := by
  unfold addSet enterSet enter
  show (if m.contains d.name then _ else _) = Except.map _ (if _ then _ else _)
  cases m.contains d.name <;> rfl

/-- **Tables and sets are entered one kind after the other.** -/
theorem ofDefinitions_eq (tables : List TableDefinition) (sets : List SetDefinition) :
    ofDefinitions tables sets = do
      let ts ← tables.foldlM enterTable ∅
      let ss ← sets.foldlM enterSet ∅
      return tables.foldl addKeys ⟨ts, ss⟩ := by
  have htables : tables.foldlM addTable ⟨∅, ∅⟩ = (tables.foldlM enterTable ∅).map (⟨·, ∅⟩) :=
    Fold.foldlM_map_into (fun m d => addTable_eq m d ∅) tables ∅
  rw [ofDefinitions, htables]
  cases tables.foldlM enterTable ∅ with
  | error f => rfl
  | ok ts =>
    have hsets : sets.foldlM addSet ⟨ts, ∅⟩ = (sets.foldlM enterSet ∅).map (⟨ts, ·⟩) :=
      Fold.foldlM_map_into (fun m d => addSet_eq m d ts) sets ∅
    show (sets.foldlM addSet ⟨ts, ∅⟩ >>= _) = _
    rw [hsets]
    cases sets.foldlM enterSet ∅ <;> rfl

theorem ofDefinitions_eq_ok_iff {tables : List TableDefinition} {sets : List SetDefinition}
    {r : Registry} : ofDefinitions tables sets = .ok r ↔
      ∃ ts ss, tables.foldlM enterTable ∅ = .ok ts ∧ sets.foldlM enterSet ∅ = .ok ss ∧
        tables.foldl addKeys ⟨ts, ss⟩ = r := by
  rw [ofDefinitions_eq, Outcome.bind_eq_ok_iff]
  refine exists_congr fun ts => ?_
  rw [Outcome.bind_eq_ok_iff]
  constructor
  · rintro ⟨hts, ss, hss, hr⟩
    exact ⟨ss, hts, hss, Except.ok.inj hr⟩
  · rintro ⟨ss, hts, hss, hr⟩
    exact ⟨hts, ss, hss, congrArg Except.ok hr⟩

/-- **A registry is refused** for a key that is twice in a table, or for a name that is twice among
the tables or among the sets. -/
theorem fault_of_ofDefinitions {tables : List TableDefinition} {sets : List SetDefinition}
    {f : Fault} (h : ofDefinitions tables sets = .error f) :
    (∃ table key, f = .duplicateKey table key) ∨
      (¬ (tables.map (·.name)).Nodup ∧ ∃ n, f = .duplicateTable n) ∨
      ¬ (sets.map (·.name)).Nodup ∧ ∃ n, f = .duplicateSet n := by
  rw [ofDefinitions_eq] at h
  cases hts : tables.foldlM enterTable ∅ with
  | error g =>
    rw [hts] at h
    cases h
    rcases fault_of_foldlM hts with ⟨d, -, hd⟩ | hname
    · exact .inl (LookupTable.fault_of_ofDefinition hd)
    · exact .inr (.inl hname)
  | ok ts =>
    rw [hts] at h
    cases hss : sets.foldlM enterSet ∅ with
    | error g =>
      rcases fault_of_foldlM hss with ⟨d, -, hd⟩ | hname
      · cases hd
      · have hfg : f = g := by
          rw [hss] at h
          cases h
          rfl
        rw [hfg]
        exact .inr (.inr hname)
    | ok ss =>
      rw [hss] at h
      cases h

/-! ### The keys of tables -/

theorem tables_addKeys (r : Registry) (d : TableDefinition) :
    (r.addKeys d).tables = r.tables := by
  unfold addKeys
  split <;> rfl

theorem getElem?_addKeys (r : Registry) (d : TableDefinition) (n : String) :
    (r.addKeys d).sets[n]? =
      (r.sets[n]?).or (if d.name = n then (r.tables[n]?).map LookupSet.ofTable else none) := by
  unfold addKeys
  by_cases hn : d.name = n
  · subst hn
    cases ht : r.tables[d.name]? with
    | none => simp
    | some t =>
      dsimp only
      rw [Std.HashMap.getElem?_insertIfNew, if_pos rfl]
      by_cases hs : d.name ∈ r.sets
      · obtain ⟨s, hs'⟩ := exists_getElem?_iff.2 hs
        rw [if_neg fun h => h.2 hs, hs']
        rfl
      · rw [if_pos ⟨BEq.rfl, hs⟩, Std.HashMap.getElem?_eq_none hs]
        rfl
  · rw [if_neg hn, Option.or_none]
    split
    · rw [Std.HashMap.getElem?_insertIfNew, if_neg]
      rintro ⟨h, -⟩
      exact hn (beq_iff_eq.1 h)
    · rfl

theorem tables_foldl_addKeys (ds : List TableDefinition) (r : Registry) :
    (ds.foldl addKeys r).tables = r.tables := by
  induction ds generalizing r with
  | nil => rfl
  | cons d ds ih => rw [List.foldl_cons, ih, tables_addKeys]

/-- **Every table is a set too**, where no set has its name. -/
theorem getElem?_foldl_addKeys (ds : List TableDefinition) (r : Registry) (n : String) :
    (ds.foldl addKeys r).sets[n]? = (r.sets[n]?).or
      (if n ∈ ds.map (·.name) then (r.tables[n]?).map LookupSet.ofTable else none) := by
  induction ds generalizing r with
  | nil => simp
  | cons d ds ih =>
    rw [List.foldl_cons, ih, getElem?_addKeys, tables_addKeys, Option.or_assoc, List.map_cons]
    congr 1
    by_cases hd : d.name = n
    · rw [if_pos hd, if_pos (List.mem_cons.2 (.inl hd.symm))]
      split
      · exact Option.or_self
      · exact Option.or_none
    · rw [if_neg hd, Option.none_or]
      refine if_congr ?_ rfl rfl
      rw [List.mem_cons, or_iff_right fun h => hd h.symm]

/-! ### What is found -/

/-- The registry holds the tables of a library under their names, and under each name the set of that
name or else the keys of the table. -/
structure Holds (r : Registry) (l : RuleLibrary) (ss : Std.HashMap String LookupSet) : Prop where
  tables : Entered (·.name) LookupTable.ofDefinition l.lookups r.tables
  declared : Entered (·.name) setOf l.sets ss
  sets : ∀ n : String, r.sets[n]? = (ss[n]?).or ((r.tables[n]?).map LookupSet.ofTable)

theorem exists_holds {l : RuleLibrary} {r : Registry}
    (h : ofDefinitions l.lookups l.sets = .ok r) : ∃ ss, r.Holds l ss := by
  obtain ⟨ts, ss, hts, hss, rfl⟩ := ofDefinitions_eq_ok_iff.1 h
  have htables := entered_of_foldlM hts
  have hr : (l.lookups.foldl addKeys ⟨ts, ss⟩).tables = ts := tables_foldl_addKeys _ _
  refine ⟨ss, by rwa [hr], entered_of_foldlM hss, fun n => ?_⟩
  rw [hr, getElem?_foldl_addKeys]
  congr 1
  by_cases hn : n ∈ ts
  · rw [if_pos (htables.mem_iff.1 hn)]
  · rw [if_neg fun h => hn (htables.mem_iff.2 h), Std.HashMap.getElem?_eq_none hn]
    rfl

/-- The registry finds what a library declares: a table under each name of a table, with the values
that are written down for its keys; a set under each name of a set, and the keys of a table where
only a table has the name; and nothing else. -/
structure Resolves (r : Registry) (l : RuleLibrary) : Prop where
  table : ∀ d ∈ l.lookups, ∃ t, r.table d.name = .ok t ∧ t.name = d.name ∧ t.entries = d.map ∧
    t.default = d.default ∧ ∀ key value, t.get? key = some value ↔ (key, value) ∈ d.map
  unknownTable : ∀ n, n ∉ l.tableNames → r.table n = .error (.unknownTable n)
  set : ∀ d ∈ l.sets, ∃ s, r.set d.name = .ok s ∧ ∀ text, s.has text = true ↔ text ∈ d.values
  keySet : ∀ d ∈ l.lookups, d.name ∉ l.setNames →
    ∃ s, r.set d.name = .ok s ∧ ∀ text, s.has text = true ↔ text ∈ d.map.map (·.1)
  unknownSet : ∀ n, n ∉ l.setNames → n ∉ l.tableNames → r.set n = .error (.unknownSet n)
  tableCount : r.tables.size = l.lookups.length
  setCount : r.sets.size = (l.tableNames ++ l.setNames).dedup.length

namespace Holds
variable {r : Registry} {l : RuleLibrary} {ss : Std.HashMap String LookupSet} (h : r.Holds l ss)
include h

theorem exists_table {d : TableDefinition} (hd : d ∈ l.lookups) :
    ∃ t, LookupTable.ofDefinition d = .ok t ∧ r.tables[d.name]? = some t := by
  obtain ⟨t, ht⟩ := h.tables.made d hd
  exact ⟨t, ht, (h.tables.get? _ _).2 ⟨d, hd, rfl, ht⟩⟩

theorem mem_tables {n : String} : n ∈ r.tables ↔ n ∈ l.tableNames := h.tables.mem_iff

theorem mem_declared {n : String} : n ∈ ss ↔ n ∈ l.setNames := h.declared.mem_iff

theorem mem_sets {n : String} : n ∈ r.sets ↔ n ∈ l.tableNames ++ l.setNames := by
  rw [List.mem_append, ← h.mem_tables, ← h.mem_declared, ← exists_getElem?_iff,
    ← exists_getElem?_iff, ← exists_getElem?_iff, h.sets]
  cases ss[n]? <;> cases r.tables[n]? <;> simp

/-- **A registry finds what it holds.** -/
theorem resolves : r.Resolves l where
  table d hd := by
    obtain ⟨t, ht, hget⟩ := h.exists_table hd
    obtain ⟨hname, hentries, hdefault⟩ := LookupTable.eq_of_ofDefinition ht
    refine ⟨t, ?_, hname, hentries, hdefault, (LookupTable.filled_of_make ht).get?⟩
    rw [table, hget]
  unknownTable n hn := by
    rw [table, Std.HashMap.getElem?_eq_none fun hmem => hn (h.mem_tables.1 hmem)]
  set d hd := by
    have hget : ss[d.name]? = some (LookupSet.make d.name d.values) :=
      (h.declared.get? _ _).2 ⟨d, hd, rfl, rfl⟩
    refine ⟨LookupSet.make d.name d.values, ?_, fun text => LookupSet.has_make⟩
    rw [set, h.sets, hget, Option.some_or]
  keySet d hd hname := by
    obtain ⟨t, ht, hget⟩ := h.exists_table hd
    refine ⟨LookupSet.ofTable t, ?_, fun text => ?_⟩
    · rw [set, h.sets, Std.HashMap.getElem?_eq_none fun hmem => hname (h.mem_declared.1 hmem), hget]
      rfl
    · rw [LookupSet.ofTable, LookupSet.has_make, LookupTable.keys,
        (LookupTable.eq_of_ofDefinition ht).2.1]
  unknownSet n hset htable := by
    have hnot : n ∉ r.sets := fun hmem =>
      (List.mem_append.1 (h.mem_sets.1 hmem)).elim htable hset
    rw [set, Std.HashMap.getElem?_eq_none hnot]
  tableCount := by
    rw [size_eq_of_mem_iff fun n => h.tables.mem_iff, h.tables.nodup.dedup, List.length_map]
  setCount := size_eq_of_mem_iff fun n => h.mem_sets

end Holds

/-- **Names resolve to what is declared.** A registry can be made of a library just if the names of
its tables are distinct, those of its sets are, and so are the keys of each table; a table and a set
may share a name. The registry then finds what is declared under each name, and nothing else. -/
theorem resolves_declared (l : RuleLibrary) :
    ((∃ r, ofDefinitions l.lookups l.sets = .ok r) ↔
      l.tableNames.Nodup ∧ l.setNames.Nodup ∧ ∀ d ∈ l.lookups, (d.map.map (·.1)).Nodup) ∧
    ∀ r, ofDefinitions l.lookups l.sets = .ok r → r.Resolves l := by
  refine ⟨?_, fun r h => ?_⟩
  · have htables : (∃ ts, l.lookups.foldlM enterTable ∅ = .ok ts) ↔
        l.tableNames.Nodup ∧ ∀ d ∈ l.lookups, (d.map.map (·.1)).Nodup := by
      rw [enterTable, exists_foldlM_enter_iff]
      exact and_congr_right fun _ => forall₂_congr fun d _ => LookupTable.exists_make_iff
    have hsets : (∃ ss, l.sets.foldlM enterSet ∅ = .ok ss) ↔ l.setNames.Nodup := by
      rw [enterSet, exists_foldlM_enter_iff]
      exact and_iff_left fun d _ => ⟨_, rfl⟩
    constructor
    · rintro ⟨r, hr⟩
      obtain ⟨ts, ss, hts, hss, -⟩ := ofDefinitions_eq_ok_iff.1 hr
      obtain ⟨hnames, hkeys⟩ := htables.1 ⟨ts, hts⟩
      exact ⟨hnames, hsets.1 ⟨ss, hss⟩, hkeys⟩
    · rintro ⟨hnames, hsetNames, hkeys⟩
      obtain ⟨ts, hts⟩ := htables.2 ⟨hnames, hkeys⟩
      obtain ⟨ss, hss⟩ := hsets.2 hsetNames
      exact ⟨_, ofDefinitions_eq_ok_iff.2 ⟨ts, ss, hts, hss, rfl⟩⟩
  · obtain ⟨ss, hholds⟩ := exists_holds h
    exact hholds.resolves

/-- Tables and sets that share a name, a table without entries, and a set with a text that is there
twice. -/
def sharedNames : RuleLibrary where
  lookups := [⟨"Brands", [("sm", "Samsung"), ("htc", "HTC")], none⟩,
    ⟨"Robots", [("bot", "Robot")], some "Human"⟩, ⟨"None", [], none⟩]
  sets := [⟨"Robots", ["crawler", "crawler"]⟩, ⟨"Empty", []⟩]

/-- A table is found and so are its keys, but for those of the table that shares its name with a
set; there are four sets under five names. -/
theorem resolves_declared_sharedNames :
    ∃ r, ofDefinitions sharedNames.lookups sharedNames.sets = .ok r ∧
      (∃ t, r.table "Robots" = .ok t ∧ t.get? "bot" = some "Robot") ∧
      (∃ s, r.set "Robots" = .ok s ∧ s.has "crawler" = true ∧ ¬ s.has "bot" = true) ∧
      (∃ s, r.set "Brands" = .ok s ∧ s.has "htc" = true) ∧
      (∃ s, r.set "None" = .ok s ∧ ¬ s.has "htc" = true) ∧
      r.table "Empty" = .error (.unknownTable "Empty") ∧
      r.set "Cars" = .error (.unknownSet "Cars") ∧ r.sets.size = 4 := by
  obtain ⟨hiff, hresolves⟩ := resolves_declared sharedNames
  obtain ⟨r, hr⟩ := hiff.2 (by decide)
  have h := hresolves r hr
  obtain ⟨t, ht, -, -, -, hget⟩ := h.table ⟨"Robots", [("bot", "Robot")], some "Human"⟩ (by decide)
  obtain ⟨s, hs, hhas⟩ := h.set ⟨"Robots", ["crawler", "crawler"]⟩ (by decide)
  obtain ⟨s', hs', hhas'⟩ :=
    h.keySet ⟨"Brands", [("sm", "Samsung"), ("htc", "HTC")], none⟩ (by decide) (by decide)
  obtain ⟨s'', hs'', hhas''⟩ := h.keySet ⟨"None", [], none⟩ (by decide) (by decide)
  exact ⟨r, hr, ⟨t, ht, (hget _ _).2 (by decide)⟩,
    ⟨s, hs, (hhas _).2 (by decide), fun hbot => absurd ((hhas _).1 hbot) (by decide)⟩,
    ⟨s', hs', (hhas' _).2 (by decide)⟩,
    ⟨s'', hs'', fun hhtc => absurd ((hhas'' _).1 hhtc) (by decide)⟩,
    h.unknownTable _ (by decide), h.unknownSet _ (by decide) (by decide), h.setCount⟩

end Registry

end AgentRules
