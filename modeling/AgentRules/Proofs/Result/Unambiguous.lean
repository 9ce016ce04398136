import AgentRules.Proofs.Agent.Nesting
import AgentRules.Proofs.Agent.Planted
import AgentRules.Proofs.Analysis.Composition
import AgentRules.Proofs.Index.Numbering
import AgentRules.Proofs.Json.Roundtrip
import AgentRules.Proofs.Result.Members

/-! # When a result can be read back

What rules write shares one space of names with what the result itself writes: the text, whether it
is malformed, and the matches. Every text is analysed (`exists_parsed`), and each field of the
result is the surest of what is said of it. So a result is unambiguous just if the rules leave the
names of the result alone (`unambiguous_iff_leavesNames`). A rule may write to each of them, and
then the result says something else (`reserved_names_written`). -/

namespace AgentRules

open CompiledLibrary Outcome

/-! ### Where offers come from -/

/-- A line of a rule names the field of the offer, and how sure it is. -/
def RuleLibrary.Names (library : RuleLibrary) (o : Offer) : Prop :=
  ∃ rule ∈ library.rules, ∃ line ∈ rule.extract, ∃ e, ExtractLine.parse line = .ok e ∧
    e.field = o.field ∧ e.confidence = o.confidence

theorem exists_of_forall₂ {α β : Type} {R : α → β → Prop} {xs : List α} {ys : List β}
    (h : List.Forall₂ R xs ys) {y : β} (hy : y ∈ ys) : ∃ x ∈ xs, R x y := by
  induction h with
  | nil => cases hy
  | cons hxy _ ih =>
    rcases List.mem_cons.1 hy with rfl | hy
    · exact ⟨_, List.mem_cons_self, hxy⟩
    · obtain ⟨x, hx, hxy⟩ := ih hy
      exact ⟨x, List.mem_cons_of_mem _ hx, hxy⟩

/-- **What a rule offers is named by one of its lines.** -/
theorem names_of_mem_offered {library : RuleLibrary} {threshold : Nat} {l : CompiledLibrary}
    (h : compile library threshold = .ok l) {t : SyntaxTree} {o : Offer} (ho : o ∈ l.offered t) :
    library.Names o := by
  have hlined := lined_of_compile h
  obtain ⟨compiled, hcompiled, ho⟩ := List.mem_flatMap.1 ho
  obtain ⟨i, hi⟩ := Session.exists_getElem?_rules (List.mem_of_mem_filter hcompiled)
  have hlt : i < library.rules.length := hlined.size ▸ (Array.getElem?_eq_some_iff.1 hi).1
  have hsource := List.getElem?_eq_getElem hlt
  have hlines := hlined.lines i _ compiled hsource hi
  refine ⟨_, List.mem_of_getElem? hsource, ?_⟩
  rcases List.mem_append.1 ho with ho | ho
  · obtain ⟨id, hid, ho⟩ := List.mem_filterMap.1 ho
    obtain ⟨line, hline, e, a, he, ha, -, hrole, -⟩ := exists_of_forall₂ hlines.extracts hid
    rw [roleOf, ha, Option.map_some, hrole] at ho
    cases hfound : (l.found t id).head? with
    | none =>
      rw [hfound] at ho
      cases ho
    | some value =>
      rw [hfound] at ho
      cases ho
      exact ⟨line, List.mem_of_mem_filter hline, e, he, rfl, rfl⟩
  · obtain ⟨f, hf, rfl⟩ := List.mem_map.1 ho
    obtain ⟨line, hline, e, path, he, -, -, hfield, hconfidence⟩ :=
      exists_of_forall₂ hlines.fixed hf
    exact ⟨line, List.mem_of_mem_filter hline, e, he, hfield.symm, hconfidence.symm⟩

/-! ### Analysing a text -/

namespace Analyzer

/-- What an analyzer makes of a text: the tree of what is left of the text, the report on it, and a
result with the surest of all that is said of each field. -/
structure Parsed (a : Analyzer) (text : String) (t : SyntaxTree) (report : Report) (u : UserAgent) :
    Prop where
  tree : Grammar.parse (limitText text a.config.maxLength) = .ok t
  analysis : a.library.analyze t a.config.keepsMatches = .ok report
  writes : report.writes = (Collector.collect (a.library.offered t)).flush
  result : a.parse text = .ok u
  source : u.source = limitText text a.config.maxLength
  matched : u.matched = report.matched.entries.map fun m => (m.key, m.value)
  distinct : u.Distinct
  get? : ∀ name, ∃ g, u.get? name =
      Field.prefer (Field.prefer (if name = NodePath.syntaxError then some ⟨t.flag, 0⟩ else none)
        ((surest name report.writes).map Offer.content)) g ∧
    (a.config.derives = false ∨ name ∉ UserAgent.derivations.map Prod.fst → g = none)

theorem distinct_found (source : String) (t : SyntaxTree) (report : Report) :
    (found source t report).Distinct := by
  have hstart : UserAgent.Distinct { source } := List.nodup_nil
  exact (hstart.raise NodePath.syntaxError t.flag 0).receive report.writes

/-- **Before fields are derived**, a result prefers what the rules write to the flag of the tree. -/
theorem get?_found (source : String) (t : SyntaxTree) (report : Report) (name : String) :
    (found source t report).get? name =
      Field.prefer (if name = NodePath.syntaxError then some ⟨t.flag, 0⟩ else none)
        ((surest name report.writes).map Offer.content) := by
  have hreceive := UserAgent.get?_receive
    (({ source } : UserAgent).raise NodePath.syntaxError t.flag 0) report.writes name
  rw [UserAgent.get?_raise, Collector.get?_collect] at hreceive
  exact hreceive

/-- **Every text is analysed.** -/
theorem exists_parsed {rules : RuleLibrary} {threshold : Nat} {a : Analyzer}
    (h : compile rules threshold = .ok a.library) (text : String) :
    ∃ t report u, Parsed a text t report u := by
  obtain ⟨t, ht, -⟩ := Grammar.parse_ok (limitText text a.config.maxLength)
  obtain ⟨report, hreport, -, -, -, hwrites⟩ := exists_report (registered_of_compile h)
    (linked_of_compile h) (Grammar.built_of_parse ht).wellFormed a.config.keepsMatches
  let u : UserAgent := { found (limitText text a.config.maxLength) t report with
    matched := report.matched.entries.map fun m => (m.key, m.value) }
  have hsource : u.source = limitText text a.config.maxLength :=
    UserAgent.source_receive _ report.writes
  have hdistinct : u.Distinct := distinct_found _ t report
  have hget (name : String) := get?_found (limitText text a.config.maxLength) t report name
  have hparse : a.parse text = .ok (if a.config.derives then u.derive else u) :=
    bind_eq_ok_iff.2 ⟨t, mapError_eq_ok_iff.2 ht,
      bind_eq_ok_iff.2 ⟨report, mapError_eq_ok_iff.2 hreport, rfl⟩⟩
  cases hderives : a.config.derives with
  | false =>
    rw [hderives, if_neg Bool.false_ne_true] at hparse
    refine ⟨t, report, u, ht, hreport, hwrites, hparse, hsource, rfl, hdistinct, fun name => ?_⟩
    refine ⟨none, ?_, fun _ => rfl⟩
    rw [Field.prefer_none, ← hget]
    rfl
  | true =>
    rw [hderives, if_pos rfl] at hparse
    obtain ⟨hs, hm⟩ := u.frame_derive UserAgent.derivations
    refine ⟨t, report, u.derive, ht, hreport, hwrites, hparse, hs.trans hsource, hm,
      hdistinct.derive _, fun name => ?_⟩
    obtain ⟨g, hg, hnone⟩ := u.exists_get?_derive UserAgent.derivations name
    refine ⟨g, ?_, fun hname => hnone ?_⟩
    · rw [← hget]
      exact hg
    · exact hname.resolve_left (by simp [hderives])

end Analyzer

/-! ### What the result says -/

/-- What is written leaves to the result the names under which the result itself writes: no field has
the name of the text, none has that of the matches where there are any, and none says surely
something else of whether the text is malformed. -/
structure Report.LeavesNames (report : Report) (t : SyntaxTree) : Prop where
  source : ∀ o ∈ report.writes, o.field ≠ UserAgent.sourceName
  matched : report.matched.entries = [] ∨ ∀ o ∈ report.writes, o.field ≠ UserAgent.matchesName
  flag : ∀ o ∈ report.writes, o.field = NodePath.syntaxError → 0 < o.confidence → o.value = t.flag

/-- The result can be read back from the object that is written: its names are told apart, and under
them stand the text, whether it is malformed, and every field that was written. -/
structure UserAgent.Unambiguous (u : UserAgent) (text : String) (t : SyntaxTree)
    (written : List Offer) : Prop where
  distinct : u.toJson.keys.Nodup
  source : u.toJson.under sourceName = [.ofString text]
  flag : u.toJson.under NodePath.syntaxError = [.ofString t.flag]
  hasSyntaxError : u.hasSyntaxError = t.syntaxError
  written : ∀ o ∈ written, u.toJson.under o.field = [.ofString (u.value o.field)]

namespace Analyzer.Parsed
variable {a : Analyzer} {text : String} {t : SyntaxTree} {report : Report} {u : UserAgent}
  (h : Parsed a text t report u)
include h

theorem surest_eq {o : Offer} (ho : o ∈ report.writes) : surest o.field report.writes = some o := by
  have hnodup : (report.writes.map Offer.field).Nodup := by
    rw [h.writes]
    exact Collector.nodup_flush _
  exact surest_eq_some_iff.2 ⟨rfl, (prevails_iff_mem hnodup).2 ho⟩

theorem exists_get? {o : Offer} (ho : o ∈ report.writes) : ∃ f, u.get? o.field = some f := by
  obtain ⟨g, hg, -⟩ := h.get? o.field
  rw [← Option.ne_none_iff_exists', hg, ne_eq, Field.prefer_eq_none, Field.prefer_eq_none,
    h.surest_eq ho]
  simp

/-- A field that is not derived is the surest of what was written, and for the flag of the tree. -/
theorem get?_of_not_derived {name : String} (hname : name ∉ UserAgent.derivations.map Prod.fst) :
    u.get? name =
      Field.prefer (if name = NodePath.syntaxError then some ⟨t.flag, 0⟩ else none)
        ((surest name report.writes).map Offer.content) := by
  obtain ⟨g, hg, hnone⟩ := h.get? name
  rw [hg, hnone (.inr hname), Field.prefer_none]

theorem mem_names_iff {name : String} (hname : name ∉ UserAgent.derivations.map Prod.fst)
    (hflag : name ≠ NodePath.syntaxError) :
    name ∈ u.names ↔ ∃ o ∈ report.writes, o.field = name := by
  rw [UserAgent.names, Fields.mem_names, ← Option.ne_none_iff_exists', ← List.mem_map,
    ← not_iff_not, not_not, ← surest_eq_none_iff]
  have hget := h.get?_of_not_derived hname
  rw [if_neg hflag] at hget
  rw [show u.fields.get? name = _ from hget, Field.prefer_eq_none, and_iff_right rfl,
    Option.map_eq_none_iff]

/-- **Whether the text is malformed** is as the tree has it, unless a rule surely says something
else. -/
theorem exists_flag : ∃ f, u.get? NodePath.syntaxError = some f ∧
    (f.value = t.flag ↔ ∀ o ∈ report.writes, o.field = NodePath.syntaxError → 0 < o.confidence →
      o.value = t.flag) := by
  have hnot : NodePath.syntaxError ∉ UserAgent.derivations.map Prod.fst := by decide
  have hget := h.get?_of_not_derived hnot
  rw [if_pos rfl] at hget
  cases hs : surest NodePath.syntaxError report.writes with
  | none =>
    rw [hs] at hget
    refine ⟨_, hget, iff_of_true rfl fun o ho hfield => ?_⟩
    exact absurd (List.mem_map.2 ⟨o, ho, hfield⟩) (surest_eq_none_iff.1 hs)
  | some p =>
    obtain ⟨hp, hprevails⟩ := surest_eq_some_iff.1 hs
    have honly : ∀ o ∈ report.writes, o.field = NodePath.syntaxError → o = p := fun o ho hfield =>
      Option.some.inj ((h.surest_eq ho).symm.trans ((congrArg (surest · _) hfield).trans hs))
    rw [hs, Option.map_some] at hget
    by_cases hpos : 0 < p.confidence
    · rw [Field.prefer_of_lt hpos] at hget
      refine ⟨_, hget, fun hv o ho hfield _ => ?_, fun hall => hall p hprevails.mem hp hpos⟩
      rw [honly o ho hfield]
      exact hv
    · rw [Field.prefer_of_le (Int.not_lt.1 hpos)] at hget
      refine ⟨_, hget, iff_of_true rfl fun o ho hfield hlt => ?_⟩
      rw [honly o ho hfield] at hlt
      exact absurd hlt hpos

/-- **What is written is kept**, unless it is about a malformed text and no surer than the tree, or
a surer value is derived. -/
theorem kept {o : Offer} (ho : o ∈ report.writes)
    (hflag : o.field = NodePath.syntaxError → 0 < o.confidence) :
    u.get? o.field = some o.content ∨ a.config.derives = true ∧
      o.field ∈ UserAgent.derivations.map Prod.fst ∧
      ∃ f, u.get? o.field = some f ∧ o.confidence < f.confidence := by
  obtain ⟨g, hg, hnone⟩ := h.get? o.field
  have hprefer : Field.prefer (if o.field = NodePath.syntaxError then some ⟨t.flag, 0⟩ else none)
      (some o.content) = some o.content := by
    split
    · next hfield => exact Field.prefer_of_lt (hflag hfield)
    · rfl
  rw [h.surest_eq ho, Option.map_some, hprefer] at hg
  cases g with
  | none =>
    rw [Field.prefer_none] at hg
    exact .inl hg
  | some f =>
    rcases Int.lt_or_le o.confidence f.confidence with hlt | hle
    · have hderived : ¬ (a.config.derives = false ∨
          o.field ∉ UserAgent.derivations.map Prod.fst) := fun hor => by cases hnone hor
      rw [not_or, not_not, Bool.not_eq_false] at hderived
      rw [Field.prefer_of_lt hlt] at hg
      exact .inr ⟨hderived.1, hderived.2, f, hg, hlt⟩
    · rw [Field.prefer_of_le hle] at hg
      exact .inl hg

/-- **The names of the object are told apart** just if nothing is written under the names of the text
and of the matches. -/
theorem nodup_keys_iff : u.toJson.keys.Nodup ↔
    (∀ o ∈ report.writes, o.field ≠ UserAgent.sourceName) ∧
      (report.matched.entries = [] ∨ ∀ o ∈ report.writes, o.field ≠ UserAgent.matchesName) := by
  rw [UserAgent.nodup_keys_iff h.distinct, h.matched, List.map_eq_nil_iff,
    h.mem_names_iff (by decide) (by decide), h.mem_names_iff (by decide) (by decide)]
  simp only [not_exists, not_and, ne_eq]

/-- **A result is unambiguous just if the names of the result are left to it.** -/
theorem unambiguous_iff : u.Unambiguous (limitText text a.config.maxLength) t report.writes ↔
    report.LeavesNames t := by
  obtain ⟨f, hf, hflag⟩ := h.exists_flag
  have hvalue : u.value NodePath.syntaxError = f.value := by
    rw [UserAgent.value, hf, Option.elim_some]
  constructor
  · intro hu
    obtain ⟨hsource, hmatched⟩ := h.nodup_keys_iff.1 hu.distinct
    refine ⟨hsource, hmatched, hflag.1 ?_⟩
    have hunder := hu.flag
    rw [UserAgent.under_field hu.distinct hf] at hunder
    exact Option.some.inj (Json.text.inj (List.cons.inj hunder).1)
  · rintro ⟨hsource, hmatched, hall⟩
    have hkeys := h.nodup_keys_iff.2 ⟨hsource, hmatched⟩
    have hsays := hflag.2 hall
    refine ⟨hkeys, ?_, ?_, ?_, fun o ho => ?_⟩
    · rw [UserAgent.under_source hkeys, h.source]
    · rw [UserAgent.under_field hkeys hf, hsays]
    · rw [UserAgent.hasSyntaxError, hvalue, hsays, SyntaxTree.flag]
      cases t.syntaxError <;> rfl
    · obtain ⟨g, hg⟩ := h.exists_get? ho
      rw [UserAgent.under_field hkeys hg, UserAgent.value, hg, Option.elim_some]

end Analyzer.Parsed

theorem UserAgent.read?_render (u : UserAgent) (pretty : Bool) :
    Json.read? (u.render pretty) = some u.toJson := by
  have htextual : Json.Textual u.toJson := by
    refine .object fun m hm => ?_
    rcases List.mem_cons.1 hm with rfl | hm
    · exact .text _
    rcases List.mem_append.1 hm with hm | hm
    · obtain ⟨n, -, rfl⟩ := List.mem_map.1 hm
      exact .text _
    split at hm
    · cases hm
    · rw [List.mem_singleton.1 hm]
      refine .array fun j hj => ?_
      obtain ⟨entry, -, rfl⟩ := List.mem_map.1 hj
      refine .object fun x hx => ?_
      rcases List.mem_cons.1 hx with rfl | hx
      · exact .text _
      · rw [List.mem_singleton.1 hx]
        exact .text _
  cases pretty with
  | false => exact Json.read?_write Json.Layout.blank_compact htextual 0
  | true => exact Json.read?_write Json.Layout.blank_indented htextual 0

/-! ### Any rules -/

/-- The names under which the result itself writes. -/
def UserAgent.ownNames : List String := [sourceName, matchesName, NodePath.syntaxError]

/-- No line of the rules names a field as the result names what it writes itself. -/
def RuleLibrary.LeavesNames (library : RuleLibrary) : Prop :=
  ∀ rule ∈ library.rules, ∀ line ∈ rule.extract, ∀ e, ExtractLine.parse line = .ok e →
    e.field ∉ UserAgent.ownNames

theorem leavesNames_of_names {rules : RuleLibrary} (hrules : rules.LeavesNames) {report : Report}
    (hnames : ∀ o ∈ report.writes, rules.Names o) (t : SyntaxTree) : report.LeavesNames t := by
  have hown : ∀ o ∈ report.writes, o.field ∉ UserAgent.ownNames := by
    intro o ho
    obtain ⟨rule, hrule, line, hline, e, he, hfield, -⟩ := hnames o ho
    rw [← hfield]
    exact hrules rule hrule line hline e he
  simp only [UserAgent.ownNames, List.mem_cons, List.not_mem_nil, or_false, not_or] at hown
  exact ⟨fun o ho => (hown o ho).1, .inr fun o ho => (hown o ho).2.1,
    fun o ho hfield => absurd hfield (hown o ho).2.2⟩

/-- **A result is unambiguous just if the rules leave its names alone.** Every text is analysed by any
rules that compile, and what is written of the result is read back as an object. The names of its
members are told apart, and under them stand what was analysed, whether it is malformed, and every
field that was written, if nothing is written under the names of the text and of the matches and
nothing surely different under that of the flag; otherwise it is not so. No rules whose lines leave
these names alone write to them. What is written is kept unless a surer value is derived. -/
theorem Analyzer.unambiguous_iff_leavesNames {rules : RuleLibrary} {threshold : Nat}
    {library : CompiledLibrary} {config : Config} {a : Analyzer}
    (hl : compile rules threshold = .ok library) (ha : ofCompiled library config = .ok a)
    (text : String) :
    ∃ t report u, Grammar.parse (limitText text config.maxLength) = .ok t ∧
      library.analyze t config.keepsMatches = .ok report ∧ a.parse text = .ok u ∧
      (∀ pretty, Json.read? (u.render pretty) = some u.toJson) ∧
      (u.Unambiguous (limitText text config.maxLength) t report.writes ↔ report.LeavesNames t) ∧
      (rules.LeavesNames → report.LeavesNames t) ∧
      ∀ o ∈ report.writes, (o.field = NodePath.syntaxError → 0 < o.confidence) →
        u.get? o.field = some o.content ∨ config.derives = true ∧
          o.field ∈ UserAgent.derivations.map Prod.fst ∧
          ∃ f, u.get? o.field = some f ∧ o.confidence < f.confidence := by
  obtain ⟨-, -, hpair⟩ := bind_eq_ok_iff.1 ha
  cases hpair
  obtain ⟨t, report, u, h⟩ := exists_parsed (a := ⟨library, config⟩) hl text
  refine ⟨t, report, u, h.tree, h.analysis, h.result, u.read?_render, h.unambiguous_iff,
    fun hrules => leavesNames_of_names hrules (fun o ho => ?_) t, fun o ho => h.kept ho⟩
  rw [h.writes] at ho
  exact names_of_mem_offered hl (Collector.mem_flush_iff.1 ho).mem

/-- The rules with and without requirements leave the names alone. -/
theorem Analyzer.unambiguous_mixed : ∃ library a t report u,
    compile mixedRules 0 = .ok library ∧ ofCompiled library {} = .ok a ∧
    Grammar.parse (limitText "AB/1" 2048) = .ok t ∧ library.analyze t false = .ok report ∧
    a.parse "AB/1" = .ok u ∧ u.Unambiguous (limitText "AB/1" 2048) t report.writes := by
  have hrules : mixedRules.LeavesNames := by
    have hall : ∀ rule ∈ mixedRules.rules, ∀ line ∈ rule.extract,
        (ExtractLine.parse line).toOption.all (fun e => e.field ∉ UserAgent.ownNames) = true := by
      decide +kernel
    intro rule hrule line hline e he
    have h := hall rule hrule line hline
    rw [he] at h
    exact of_decide_eq_true h
  obtain ⟨library, hl⟩ := exists_compile_mixed
  have ha : ofCompiled library {} = .ok ⟨library, {}⟩ := rfl
  obtain ⟨t, report, u, ht, hreport, hu, -, hiff, hleaves, -⟩ :=
    unambiguous_iff_leavesNames hl ha "AB/1"
  exact ⟨library, _, t, report, u, hl, ha, ht, hreport, hu, hiff.2 (hleaves hrules)⟩

/-! ### Rules that write to the names -/

/-- A rule that says of every text that it is malformed, and another text than the one that was
analysed. -/
def reservedRules : RuleLibrary :=
  ⟨[], [], [⟨{}, [], ["__SyntaxError__:5:\"true\"", "Useragent:1:\"x\""]⟩]⟩

/-- The rule holds of every tree, and offers both. -/
theorem offered_reserved {l : CompiledLibrary} (hl : compile reservedRules 0 = .ok l)
    (t : SyntaxTree) :
    l.offered t = [⟨NodePath.syntaxError, "true", 5⟩, ⟨UserAgent.sourceName, "x", 1⟩] := by
  have hrules : ((compile reservedRules 0).map CompiledLibrary.rules).toOption = some #[{
      source := {}
      fixed := [⟨NodePath.syntaxError, 5, "true"⟩, ⟨UserAgent.sourceName, 1, "x"⟩] }] := by
    decide +kernel
  rw [hl] at hrules
  have hrules := Option.some.inj hrules
  rw [offered, holding, hrules]
  simp [HoldsOf, offersOf]

/-- **Rules that write to the names of the result make it ambiguous.** A well-formed text is called
malformed, and two members have the name of the text. -/
theorem Analyzer.reserved_names_written : ∃ library a t u,
    compile reservedRules 0 = .ok library ∧ ofCompiled library {} = .ok a ∧
    Grammar.parse (limitText "Foo/1" 2048) = .ok t ∧ a.parse "Foo/1" = .ok u ∧
    t.syntaxError = false ∧ u.hasSyntaxError = true ∧ ¬ u.toJson.keys.Nodup := by
  have hok : (compile reservedRules 0).isOk = true := by decide +kernel
  obtain ⟨library, hl⟩ := exists_eq_ok hok
  obtain ⟨t, report, u, h⟩ := exists_parsed (a := ⟨library, {}⟩) hl "Foo/1"
  have hwritten {o : Offer}
      (ho : o ∈ [⟨NodePath.syntaxError, "true", 5⟩, ⟨UserAgent.sourceName, "x", 1⟩]) :
      o ∈ report.writes := by
    rw [h.writes, offered_reserved hl, Collector.mem_flush_iff, prevails_iff_mem (by decide)]
    exact ho
  have hlimit : limitText "Foo/1" 2048 = "Foo/1" := by decide +kernel
  have hflag : t.syntaxError = false := by
    obtain ⟨t', ht', hflag⟩ := Grammar.parse_ok (limitText "Foo/1" 2048)
    rw [Except.ok.inj (h.tree.symm.trans ht'), hflag, ← Bool.not_eq_true, Grammar.items_bad, not_not,
      Token.ofTokens_scan, hlimit]
    rfl
  refine ⟨library, _, t, u, hl, rfl, h.tree, h.result, hflag, ?_, fun hkeys => ?_⟩
  · rcases h.kept (hwritten List.mem_cons_self) (fun _ => by decide) with hget | ⟨-, hderived, -⟩
    · rw [UserAgent.hasSyntaxError, UserAgent.value, hget]
      rfl
    · exact absurd hderived (by decide)
  · exact (h.nodup_keys_iff.1 hkeys).1 _ (hwritten (List.mem_cons_of_mem _ List.mem_cons_self)) rfl

end AgentRules
