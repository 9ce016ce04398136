import AgentRules.Lookup.Table
import AgentRules.Proofs.Lookup.Entered
import AgentRules.Proofs.Text.Boundaries
import Mathlib.Data.List.Nodup

/-! # The longest key that a text starts with

A table does not compare all of its keys with a text. It keeps them in buckets by their first
characters and looks into the few buckets that the first characters of the text name. `Filled` says
how the index and the buckets of a table agree with the entries it was made of; adding an entry keeps
this (`filled_add`), and a table can be made of all entries whose keys are distinct
(`exists_make_iff`). A key that the text starts with is in one of the buckets that are looked into
(`mem_candidates`), and of the entries there a single pass keeps the longest (`best_foldl`). As no
key is there twice, that entry is the only one as long (`longestHead_exact`). -/

namespace AgentRules.LookupTable

open Text

/-! ### Making a table -/

/-- The index and the buckets of a table hold the entries and nothing else. -/
structure Filled (t : LookupTable) (entries : List (String × String)) : Prop where
  nodup : (entries.map (·.1)).Nodup
  get? : ∀ key value, t.index[key]? = some value ↔ (key, value) ∈ entries
  bucket : ∀ head e, e ∈ t.buckets.getD head [] ↔ e ∈ entries ∧ headOf e.1 headLength = head

theorem filled_empty (name : String) (default : Option String) : Filled (empty name default) [] :=
  ⟨List.nodup_nil, by simp [empty], by simp [empty]⟩

theorem Filled.mem_iff {t : LookupTable} {entries : List (String × String)} (h : Filled t entries)
    {key : String} : key ∈ t.index ↔ key ∈ entries.map (·.1) := by
  rw [← exists_getElem?_iff, List.mem_map]
  constructor
  · rintro ⟨value, hvalue⟩
    exact ⟨(key, value), (h.get? key value).1 hvalue, rfl⟩
  · rintro ⟨e, he, rfl⟩
    exact ⟨e.2, (h.get? e.1 e.2).2 he⟩

/-- **An entry is added to the index and to one bucket, if its key is new.** -/
theorem filled_add {t t' : LookupTable} {entries : List (String × String)} {e : String × String}
    (h : Filled t entries) (hadd : t.add e = .ok t') : Filled t' (entries ++ [e]) := by
  unfold LookupTable.add at hadd
  split at hadd
  · cases hadd
  · next hnew =>
    cases hadd
    have hkey : e.1 ∉ entries.map (·.1) := by
      rw [← h.mem_iff]
      simpa using hnew
    refine ⟨?_, fun key value => ?_, fun head x => ?_⟩
    · rw [List.map_append]
      exact h.nodup.append (List.nodup_singleton _) (List.disjoint_singleton.2 hkey)
    · rw [getElem?_insert_of_new (by simpa using hnew), h.get?, List.mem_append,
        List.mem_singleton, Prod.ext_iff]
    · rw [Std.HashMap.getD_insert, List.mem_append, List.mem_singleton]
      by_cases heq : headOf e.1 headLength = head
      · rw [if_pos (beq_iff_eq.2 heq), List.mem_cons, h.bucket, heq]
        constructor
        · rintro (rfl | ⟨hx, hhead⟩)
          · exact ⟨.inr rfl, heq⟩
          · exact ⟨.inl hx, hhead⟩
        · rintro ⟨hx | rfl, hhead⟩
          · exact .inr ⟨hx, hhead⟩
          · exact .inl rfl
      · rw [if_neg (by simpa using heq), h.bucket]
        refine and_congr_left fun hhead => (or_iff_left ?_).symm
        rintro rfl
        exact heq hhead

theorem filled_foldlM {t : LookupTable} {name : String} {default : Option String}
    {entries : List (String × String)} (h : entries.foldlM add (empty name default) = .ok t) :
    Filled t entries := by
  have hall := Fold.foldlM_prefix (fun done t => Filled t done)
    (fun _ _ _ _ hdone hadd => filled_add hdone hadd) (filled_empty name default) h
  rwa [List.nil_append] at hall

/-- **A table that is made holds its entries.** -/
theorem filled_of_make {name : String} {entries : List (String × String)} {default : Option String}
    {t : LookupTable} (h : make name entries default = .ok t) : Filled t entries := by
  obtain ⟨t₁, hfold, h⟩ := Outcome.bind_eq_ok_iff.1 h
  cases h
  obtain ⟨hnodup, hget, hbucket⟩ := filled_foldlM hfold
  exact ⟨hnodup, hget, hbucket⟩

theorem exists_add {t : LookupTable} {entries : List (String × String)} {e : String × String}
    (h : Filled t entries) (hnew : e.1 ∉ entries.map (·.1)) : ∃ t', t.add e = .ok t' := by
  rw [← h.mem_iff] at hnew
  unfold LookupTable.add
  rw [if_neg (by simpa using hnew)]
  exact ⟨_, rfl⟩

theorem not_nodup_of_foldlM {name : String} {default : Option String} {f : Fault}
    {entries : List (String × String)} (h : entries.foldlM add (empty name default) = .error f) :
    ¬ (entries.map (·.1)).Nodup := by
  intro hnodup
  obtain ⟨done, e, rest, t, rfl, hdone, he⟩ := Fold.exists_of_foldlM_error h
  rw [List.map_append, List.map_cons, List.nodup_middle, List.nodup_cons] at hnodup
  obtain ⟨t', ht'⟩ := exists_add (filled_foldlM hdone) fun hmem =>
    hnodup.1 (List.mem_append_left _ hmem)
  rw [ht'] at he
  cases he

/-- **A table can be made of entries whose keys are distinct.** -/
theorem exists_make_iff {name : String} {entries : List (String × String)}
    {default : Option String} :
    (∃ t, make name entries default = .ok t) ↔ (entries.map (·.1)).Nodup := by
  constructor
  · rintro ⟨t, ht⟩
    exact (filled_of_make ht).nodup
  · intro hnodup
    cases hfold : entries.foldlM add (empty name default) with
    | ok t => exact ⟨_, Outcome.bind_eq_ok_iff.2 ⟨t, hfold, rfl⟩⟩
    | error f => exact absurd hnodup (not_nodup_of_foldlM hfold)

/-! ### The buckets of a text -/

/-- The entries that are compared with a text. -/
def candidates (t : LookupTable) (text : String) : List (String × String) :=
  (List.range (min text.length headLength + 1)).flatMap fun n => t.buckets.getD (headOf text n) []

theorem longestHead?_eq (t : LookupTable) (text : String) :
    t.longestHead? text = (t.candidates text).foldl (better text) none := by
  rw [candidates, List.foldl_flatMap]
  rfl

/-- **A key that the text starts with is compared with it.** -/
theorem mem_candidates {t : LookupTable} {entries : List (String × String)} (h : Filled t entries)
    {text : String} {e : String × String} (hstart : e.1.toList <+: text.toList) :
    e ∈ t.candidates text ↔ e ∈ entries := by
  have hhead : headOf e.1 headLength = headOf text (min e.1.length headLength) := by
    obtain ⟨rest, hrest⟩ := hstart
    have hlen : min e.1.length headLength ≤ e.1.toList.length := by
      rw [String.length_toList]
      exact Nat.min_le_left _ _
    rw [headOf, headOf, ← hrest, List.take_append_of_le_length hlen]
    congr 1
    rw [Nat.min_comm, ← String.length_toList, ← List.take_take, List.take_length]
  have hlen := hstart.length_le
  rw [String.length_toList, String.length_toList] at hlen
  rw [candidates, List.mem_flatMap]
  constructor
  · rintro ⟨n, -, hn⟩
    exact ((h.bucket _ _).1 hn).1
  · intro he
    exact ⟨min e.1.length headLength, List.mem_range.2 (by omega), (h.bucket _ _).2 ⟨he, hhead⟩⟩

theorem mem_entries_of_mem_candidates {t : LookupTable} {entries : List (String × String)}
    (h : Filled t entries) {text : String} {e : String × String} (he : e ∈ t.candidates text) :
    e ∈ entries := by
  obtain ⟨n, -, hn⟩ := List.mem_flatMap.1 he
  exact ((h.bucket _ _).1 hn).1

/-! ### The pass over the candidates -/

/-- The best of the entries seen: the text starts with its key, and with no longer one. -/
def IsBest (text : String) (seen : List (String × String)) : Option (String × String) → Prop
  | none => ∀ e ∈ seen, ¬ e.1.toList <+: text.toList
  | some b => b ∈ seen ∧ b.1.toList <+: text.toList ∧
      ∀ e ∈ seen, e.1.toList <+: text.toList → e.1.length ≤ b.1.length

theorem best_better {text : String} {seen : List (String × String)}
    {best : Option (String × String)} (h : IsBest text seen best) (e : String × String) :
    IsBest text (seen ++ [e]) (better text best e) := by
  have hmem {x : String × String} : x ∈ seen ++ [e] ↔ x ∈ seen ∨ x = e := by simp
  unfold better
  by_cases hstart : e.1.toList <+: text.toList
  · have hhead : e.1.toList.isPrefixOf text.toList = true := List.isPrefixOf_iff_prefix.2 hstart
    rw [hhead, Bool.true_and]
    cases best with
    | none =>
      refine ⟨hmem.2 (.inr rfl), hstart, fun x hx hxs => ?_⟩
      rcases hmem.1 hx with hx | rfl
      · exact absurd hxs (h x hx)
      · exact Nat.le_refl _
    | some b =>
      obtain ⟨hb, hbs, hmax⟩ := h
      by_cases hlt : b.1.length < e.1.length
      · rw [if_pos (by simpa using hlt)]
        refine ⟨hmem.2 (.inr rfl), hstart, fun x hx hxs => ?_⟩
        rcases hmem.1 hx with hx | rfl
        · exact Nat.le_of_lt (Nat.lt_of_le_of_lt (hmax x hx hxs) hlt)
        · exact Nat.le_refl _
      · rw [if_neg (by simpa using hlt)]
        refine ⟨hmem.2 (.inl hb), hbs, fun x hx hxs => ?_⟩
        rcases hmem.1 hx with hx | rfl
        · exact hmax x hx hxs
        · exact Nat.not_lt.1 hlt
  · have hhead : e.1.toList.isPrefixOf text.toList = false := by
      rw [Bool.eq_false_iff, Ne, List.isPrefixOf_iff_prefix]
      exact hstart
    rw [hhead, Bool.false_and, if_neg Bool.false_ne_true]
    -- an entry that the text does not start with changes nothing
    cases best with
    | none =>
      intro x hx
      rcases hmem.1 hx with hx | rfl
      · exact h x hx
      · exact hstart
    | some b =>
      obtain ⟨hb, hbs, hmax⟩ := h
      refine ⟨hmem.2 (.inl hb), hbs, fun x hx hxs => ?_⟩
      rcases hmem.1 hx with hx | rfl
      · exact hmax x hx hxs
      · exact absurd hxs hstart

/-- **The pass keeps the best of all entries.** -/
theorem best_foldl {text : String} {seen : List (String × String)}
    {best : Option (String × String)} (h : IsBest text seen best) (es : List (String × String)) :
    IsBest text (seen ++ es) (es.foldl (better text) best) := by
  induction es generalizing seen best with
  | nil => rwa [List.append_nil]
  | cons e es ih =>
    have hall := ih (best_better h e)
    rwa [List.append_assoc] at hall

theorem best_longestHead? {t : LookupTable} {entries : List (String × String)} (h : Filled t entries)
    (text : String) : IsBest text entries (t.longestHead? text) := by
  have hbest : IsBest text [] none := fun e he => nomatch he
  have hbest := best_foldl hbest (t.candidates text)
  rw [List.nil_append, ← longestHead?_eq] at hbest
  cases hfound : t.longestHead? text with
  | none =>
    rw [hfound] at hbest
    exact fun e he hstart => hbest e ((mem_candidates h hstart).2 he) hstart
  | some b =>
    rw [hfound] at hbest
    obtain ⟨hb, hbs, hmax⟩ := hbest
    exact ⟨mem_entries_of_mem_candidates h hb, hbs,
      fun e he hstart => hmax e ((mem_candidates h hstart).2 he) hstart⟩

/-! ### The longest key -/

/-- The text starts with the key of the entry, and every other such key is shorter, in characters
and in bytes alike. -/
structure IsLongestHead (entries : List (String × String)) (text : String) (e : String × String) :
    Prop where
  mem : e ∈ entries
  start : e.1.toList <+: text.toList
  longest : ∀ x ∈ entries, x.1.toList <+: text.toList → x ≠ e →
    x.1.length < e.1.length ∧ size x.1 < size e.1

theorem IsLongestHead.eq {entries : List (String × String)} {text : String} {e x : String × String}
    (he : IsLongestHead entries text e) (hx : IsLongestHead entries text x) : e = x := by
  by_contra hne
  have hlt := (hx.longest e he.mem he.start hne).1
  have hgt := (he.longest x hx.mem hx.start (Ne.symm hne)).1
  omega

/-- Of two heads of a text, the one with fewer characters has fewer bytes. -/
theorem size_lt_of_length_lt {text a b : String} (ha : a.toList <+: text.toList)
    (hb : b.toList <+: text.toList) (h : a.length < b.length) : size a < size b := by
  rw [← String.length_toList, ← String.length_toList] at h
  obtain ⟨rest, hrest⟩ := List.prefix_of_prefix_length_le ha hb (Nat.le_of_lt h)
  have hne : rest ≠ [] := by
    rintro rfl
    rw [← hrest, List.append_nil] at h
    exact Nat.lt_irrefl _ h
  have := byteLength_pos hne
  rw [size, size, ← hrest, byteLength_append]
  omega

/-- Without keys that are there twice, the best entry is the longest one. -/
theorem isLongestHead_of_best {entries : List (String × String)}
    (hnodup : (entries.map (·.1)).Nodup) {text : String} {b : String × String}
    (h : IsBest text entries (some b)) : IsLongestHead entries text b := by
  obtain ⟨hb, hbs, hmax⟩ := h
  refine ⟨hb, hbs, fun x hx hxs hne => ?_⟩
  have hlt : x.1.length < b.1.length := by
    refine Nat.lt_of_le_of_ne (hmax x hx hxs) fun heq => hne ?_
    refine List.inj_on_of_nodup_map hnodup hx hb (String.toList_inj.1 ?_)
    rw [← String.length_toList, ← String.length_toList] at heq
    exact (List.prefix_of_prefix_length_le hxs hbs (Nat.le_of_eq heq)).eq_of_length heq
  exact ⟨hlt, size_lt_of_length_lt hxs hbs hlt⟩

/-- **Looking for the longest key is exact.** Whatever the entries a table is made of: an entry is
found just if it has the longest of all keys that the text starts with, and none is found just if
there is no such key. So a table has a head of a text just if the text starts with one of its keys,
and a key is its own longest head, with the value that the table gives for it. -/
theorem longestHead_exact {name : String} {entries : List (String × String)}
    {default : Option String} {t : LookupTable} (h : make name entries default = .ok t) :
    (∀ text e, t.longestHead? text = some e ↔ IsLongestHead entries text e) ∧
    (∀ text, t.longestHead? text = none ↔ ∀ e ∈ entries, ¬ e.1.toList <+: text.toList) ∧
    (∀ text, t.hasHead text = true ↔ ∃ e ∈ entries, e.1.toList <+: text.toList) ∧
    ∀ e ∈ entries, t.longestHead? e.1 = some e ∧ t.get? e.1 = some e.2 := by
  have hfilled := filled_of_make h
  have hsome {text : String} {e : String × String} (hfound : t.longestHead? text = some e) :
      IsLongestHead entries text e := by
    have hbest := best_longestHead? hfilled text
    rw [hfound] at hbest
    exact isLongestHead_of_best hfilled.nodup hbest
  have hnone (text : String) :
      t.longestHead? text = none ↔ ∀ e ∈ entries, ¬ e.1.toList <+: text.toList := by
    constructor
    · intro hfound
      have hbest := best_longestHead? hfilled text
      rwa [hfound] at hbest
    · intro hall
      rw [Option.eq_none_iff_forall_ne_some]
      exact fun e he => hall e (hsome he).mem (hsome he).start
  have hiff (text : String) (e : String × String) :
      t.longestHead? text = some e ↔ IsLongestHead entries text e := by
    refine ⟨hsome, fun he => ?_⟩
    cases hfound : t.longestHead? text with
    | none => exact absurd he.start ((hnone text).1 hfound e he.mem)
    | some b => rw [(hsome hfound).eq he]
  refine ⟨hiff, hnone, fun text => ?_, fun e he => ⟨(hiff _ _).2 ?_, (hfilled.get? _ _).2 he⟩⟩
  · rw [hasHead, Option.isSome_iff_ne_none, Ne, hnone]
    push Not
    rfl
  · -- a key that the key starts with has no more characters
    have hbest : IsBest e.1 entries (some e) :=
      ⟨he, List.prefix_refl _, fun x _ hx => by
        rw [← String.length_toList, ← String.length_toList]
        exact hx.length_le⟩
    exact isLongestHead_of_best hfilled.nodup hbest

/-- Makers by the start of a device's name: keys of no characters, of fewer than the head of a
bucket, of as many and of more, and one that is not in ASCII. -/
def makers : List (String × String) :=
  [("SM", "Samsung"), ("SM-G9", "Galaxy"), ("", "unknown"), ("SM-", "Samsung mobile"),
    ("SM-G930", "Galaxy 7"), ("Größe", "none")]

/-- Of four keys that the name starts with the longest is found, a name with no better key is found
under the empty one, and a key that ends behind an umlaut is its own longest head. -/
theorem longestHead_exact_makers : ∃ t, make "Makers" makers none = .ok t ∧
    t.longestHead? "SM-G950F" = some ("SM-G9", "Galaxy") ∧
    t.longestHead? "SM" = some ("SM", "Samsung") ∧
    t.longestHead? "Größ" = some ("", "unknown") ∧
    t.longestHead? "Größe" = some ("Größe", "none") ∧ t.hasHead "Pixel" = true := by
  obtain ⟨t, ht⟩ : ∃ t, make "Makers" makers none = .ok t := exists_make_iff.2 (by decide +kernel)
  obtain ⟨hsome, -, hhas, hself⟩ := longestHead_exact ht
  refine ⟨t, ht, (hsome _ _).2 ⟨?_, ?_, ?_⟩, (hself ("SM", "Samsung") ?_).1,
    (hsome _ _).2 ⟨?_, ?_, ?_⟩, (hself ("Größe", "none") ?_).1,
    (hhas _).2 ⟨("", "unknown"), ?_, ?_⟩⟩ <;> decide +kernel

end AgentRules.LookupTable
