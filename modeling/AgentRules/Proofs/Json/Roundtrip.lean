import AgentRules.Json.Reader
import AgentRules.Proofs.Json.Quoted

/-! # Reading what was written

A value that is written is read back (`read?_write`), whatever its depth and whichever blanks stand
between its parts. Reading goes on from a stack and a state (`resume`); a written value takes the
reader from any state that expects a value to the state behind that value, on the same stack
(`reads_write`). The items of an array and the members of an object are read one by one in the
frame that holds those before (`resume_items`, `resume_members`).

Numbers are left out: no rule document has one that is written. -/

namespace AgentRules.Json

/-! ### The cut -/

theorem lexemes?_gap {c : Char} (h : isGap c = true) (cs : List Char) :
    lexemes? (c :: cs) = lexemes? cs := by
  rw [lexemes?, if_pos h]

theorem lexemes?_gaps {gap : List Char} (h : ∀ c ∈ gap, isGap c = true) (cs : List Char) :
    lexemes? (gap ++ cs) = lexemes? cs := by
  induction gap with
  | nil => rfl
  | cons c gap ih =>
    rw [List.cons_append, lexemes?_gap (h c List.mem_cons_self),
      ih fun d hd => h d (List.mem_cons_of_mem _ hd)]

theorem lexemes?_cons {c : Char} {cs rest : List Char} {x : Lexeme} (hc : isGap c = false)
    (h : lexeme? (c :: cs) = some (x, rest)) :
    lexemes? (c :: cs) = (lexemes? rest).map (x :: ·) := by
  rw [lexemes?, hc, if_neg Bool.false_ne_true]
  split
  · next hnone =>
    rw [hnone] at h
    cases h
  · next hsome =>
    rw [hsome] at h
    cases h
    rfl

/-! ### Reading on -/

/-- What the reader makes of a document from a stack and a state on. -/
def resume (stack : List Frame) (state : Expecting) (cs : List Char) : Option Json :=
  (lexemes? cs).bind (readFrom stack state)

section Resume
variable {stack stack' : List Frame} {state state' : Expecting} {x : Lexeme} {c : Char}
  {cs rest gap : List Char}

theorem resume_gaps (h : ∀ c ∈ gap, isGap c = true) :
    resume stack state (gap ++ cs) = resume stack state cs := by
  rw [resume, lexemes?_gaps h, resume]

theorem resume_cons (hc : isGap c = false) (h : lexeme? (c :: cs) = some (x, rest))
    (hnext : next? stack state x = some (stack', state')) :
    resume stack state (c :: cs) = resume stack' state' rest := by
  rw [resume, lexemes?_cons hc h, Option.bind_map, resume]
  congr 1
  funext xs
  rw [Function.comp_apply, readFrom, hnext]

theorem resume_quote (s : String)
    (hnext : next? stack state (.text (some s)) = some (stack', state')) :
    resume stack state ((quote s).toList ++ cs) = resume stack' state' cs := by
  have hquote : ∃ cs', (quote s).toList = '"' :: cs' := ⟨_, by rw [quote, String.toList_ofList]⟩
  obtain ⟨cs', hcs'⟩ := hquote
  have hlex := lexeme?_quote s cs
  rw [hcs', List.cons_append] at hlex ⊢
  exact resume_cons (by decide) hlex hnext

end Resume

/-! ### Layouts -/

/-- Nothing but blanks stands between the parts of a value, and a colon behind a key. -/
structure Layout.Blank (l : Layout) : Prop where
  line : ∀ depth, ∀ c ∈ (l.line depth).toList, isGap c = true
  colon : ∃ gap, l.colon.toList = ':' :: gap ∧ ∀ c ∈ gap, isGap c = true

theorem Layout.blank_compact : Layout.compact.Blank where
  line := by simp [Layout.compact]
  colon := ⟨[], rfl, by simp⟩

theorem Layout.blank_indented : Layout.indented.Blank where
  line depth c hc := by
    rw [Layout.indented, String.toList_ofList, List.mem_cons] at hc
    rcases hc with rfl | hc
    · rfl
    · rw [List.eq_of_mem_replicate hc]
      rfl
  colon := ⟨[' '], rfl, List.forall_mem_singleton.2 rfl⟩

/-- The characters of parts at a depth, with a comma and a new line between two of them. -/
def Layout.joined (l : Layout) (depth : Nat) (parts : List String) : List Char :=
  (',' :: (l.line depth).toList).intercalate (parts.map String.toList)

theorem Layout.joined_singleton (l : Layout) (depth : Nat) (part : String) :
    l.joined depth [part] = part.toList :=
  List.intercalate_singleton

theorem Layout.joined_cons_cons (l : Layout) (depth : Nat) (part next : String)
    (parts : List String) (cs : List Char) :
    l.joined depth (part :: next :: parts) ++ cs =
      part.toList ++ ',' :: ((l.line depth).toList ++ (l.joined depth (next :: parts) ++ cs)) := by
  rw [joined, List.map_cons, List.map_cons, List.intercalate_cons_cons, ← List.map_cons, ← joined]
  simp only [List.append_assoc, List.cons_append]

theorem Layout.enclose_nil (l : Layout) (depth : Nat) {opening closing : String} {o c : Char}
    (ho : opening.toList = [o]) (hc : closing.toList = [c]) (cs : List Char) :
    (l.enclose opening closing depth []).toList ++ cs = o :: c :: cs := by
  rw [enclose, List.isEmpty_nil, if_pos rfl, String.toList_append, ho, hc]
  rfl

theorem Layout.enclose_cons (l : Layout) (depth : Nat) {opening closing : String} {o c : Char}
    (ho : opening.toList = [o]) (hc : closing.toList = [c]) (part : String) (parts : List String)
    (cs : List Char) :
    (l.enclose opening closing depth (part :: parts)).toList ++ cs =
      o :: ((l.line (depth + 1)).toList ++
        (l.joined (depth + 1) (part :: parts) ++ ((l.line depth).toList ++ c :: cs))) := by
  have hcomma : ("," : String).toList = [','] := rfl
  rw [enclose, List.isEmpty_cons, if_neg Bool.false_ne_true]
  simp only [joined, String.toList_append, String.toList_intercalate, ho, hc, hcomma,
    List.append_assoc, List.cons_append, List.nil_append]

/-! ### Values -/

/-- A value without numbers, whose texts are all there. -/
inductive Textual : Json → Prop
  | null : Textual null
  | bool (b : Bool) : Textual (bool b)
  | text (s : String) : Textual (ofString s)
  | array {items : List Json} : (∀ j ∈ items, Textual j) → Textual (array items)
  | object {members : List (String × Json)} : (∀ m ∈ members, Textual m.2) →
      Textual (ofMembers members)

/-- What comes next may be a value. -/
def Expects (stack : List Frame) (state : Expecting) : Prop :=
  ∀ x next, startValue stack x = some next → next? stack state x = some next

theorem expects_value (stack : List Frame) : Expects stack .value := fun _ _ h => h

theorem expects_item (stack : List Frame) : Expects (.array [] :: stack) .valueOrClose := by
  intro x next h
  cases x <;> first | exact h | cases h

/-- Characters that take the reader from any state that expects a value to the state behind it. -/
def Reads (text : List Char) (j : Json) : Prop :=
  ∀ stack state cs, Expects stack state →
    resume stack state (text ++ cs) = resume stack (.done j) cs

theorem reads_null : Reads "null".toList .null := fun _ _ _ h =>
  resume_cons (by decide) rfl (h _ _ rfl)

theorem reads_bool (b : Bool) : Reads (if b then "true" else "false").toList (.bool b) := by
  intro stack state cs h
  cases b <;> exact resume_cons (by decide) rfl (h _ _ rfl)

theorem reads_quote (s : String) : Reads (quote s).toList (ofString s) := fun _ _ _ h =>
  resume_quote s (h _ _ rfl)

def writeMember (l : Layout) (depth : Nat) (m : String × Json) : String :=
  quote m.1 ++ l.colon ++ write l depth m.2

section Parts
variable {l : Layout} (hl : l.Blank) {stack : List Frame} {depth depth' : Nat} {cs : List Char}
include hl

/-- **The items of an array are read one by one.** -/
theorem resume_items {j : Json} {js : List Json}
    (h : ∀ i ∈ j :: js, Reads (write l depth i).toList i) {before : List Json} {state : Expecting}
    (hstate : Expects (.array before :: stack) state) :
    resume (.array before :: stack) state
      (l.joined depth ((j :: js).map (write l depth)) ++ ((l.line depth').toList ++ ']' :: cs)) =
      resume stack (.done (.array (before.reverse ++ j :: js))) cs := by
  induction js generalizing j before state with
  | nil =>
    rw [List.map_singleton, l.joined_singleton, h j List.mem_cons_self _ _ _ hstate,
      resume_gaps (hl.line depth'), resume_cons (by decide) rfl rfl, List.reverse_cons]
  | cons k js ih =>
    have hrest := ih (fun i hi => h i (List.mem_cons_of_mem _ hi))
      (expects_value (.array (j :: before) :: stack))
    rw [List.map_cons] at hrest
    rw [List.map_cons, List.map_cons, l.joined_cons_cons, h j List.mem_cons_self _ _ _ hstate,
      resume_cons (by decide) rfl rfl, resume_gaps (hl.line depth), hrest, List.reverse_cons,
      List.append_assoc, List.singleton_append]

theorem resume_member {m : String × Json} (hm : Reads (write l depth m.2).toList m.2)
    {before : List (Option String × Json)} {state : Expecting}
    (hkey : next? stack state (.text (some m.1)) = some (stack, .colon before (some m.1))) :
    resume stack state ((writeMember l depth m).toList ++ cs) =
      resume (.object before (some m.1) :: stack) (.done m.2) cs := by
  obtain ⟨gap, hcolon, hgap⟩ := hl.colon
  rw [writeMember, String.toList_append, String.toList_append, hcolon, List.append_assoc,
    List.append_assoc, resume_quote m.1 hkey, List.cons_append, resume_cons (by decide) rfl rfl,
    resume_gaps hgap, hm _ _ _ (expects_value _)]

/-- **The members of an object are read one by one.** -/
theorem resume_members {m : String × Json} {ms : List (String × Json)}
    (h : ∀ i ∈ m :: ms, Reads (write l depth i.2).toList i.2)
    {before : List (Option String × Json)} {state : Expecting}
    (hkey : ∀ k, next? stack state (.text (some k)) = some (stack, .colon before (some k))) :
    resume stack state (l.joined depth ((m :: ms).map (writeMember l depth)) ++
      ((l.line depth').toList ++ '\x7d' :: cs)) =
      resume stack (.done (.object (before.reverse ++ (m :: ms).map fun (k, v) => (some k, v))))
        cs := by
  induction ms generalizing m before state with
  | nil =>
    rw [List.map_singleton, l.joined_singleton, resume_member hl (h m List.mem_cons_self) (hkey m.1),
      resume_gaps (hl.line depth'), resume_cons (by decide) rfl rfl, List.reverse_cons]
    rfl
  | cons n ms ih =>
    have hnext (k : String) : next? stack (.key ((some m.1, m.2) :: before)) (.text (some k)) =
        some (stack, .colon ((some m.1, m.2) :: before) (some k)) := rfl
    have hrest := ih (fun i hi => h i (List.mem_cons_of_mem _ hi)) hnext
    rw [List.map_cons] at hrest
    rw [List.map_cons, List.map_cons, l.joined_cons_cons,
      resume_member hl (h m List.mem_cons_self) (hkey m.1), resume_cons (by decide) rfl rfl,
      resume_gaps (hl.line depth), hrest, List.reverse_cons, List.append_assoc,
      List.singleton_append]
    rfl

end Parts

/-! ### Whole values -/

theorem writeItems_eq (l : Layout) (depth : Nat) (items : List Json) :
    writeItems l depth items = items.map (write l depth) := by
  induction items with
  | nil => rw [writeItems, List.map_nil]
  | cons j js ih => rw [writeItems, ih, List.map_cons]

theorem writeMembers_eq (l : Layout) (depth : Nat) (members : List (String × Json)) :
    writeMembers l depth (members.map fun (k, v) => (some k, v)) =
      members.map (writeMember l depth) := by
  induction members with
  | nil => rw [List.map_nil, writeMembers, List.map_nil]
  | cons m ms ih =>
    rw [List.map_cons, writeMembers, ih, List.map_cons, Option.getD_some, ← writeMember]

/-- **A written value is read.** -/
theorem reads_write {l : Layout} (hl : l.Blank) {j : Json} (h : Textual j) (depth : Nat) :
    Reads (write l depth j).toList j := by
  induction h generalizing depth with
  | null =>
    rw [write]
    exact reads_null
  | bool b =>
    rw [write]
    exact reads_bool b
  | text s =>
    rw [ofString, write, Option.getD_some]
    exact reads_quote s
  | @array items _ ih =>
    have hopen : ("[" : String).toList = ['['] := rfl
    have hclose : ("]" : String).toList = [']'] := rfl
    intro stack state cs hstate
    rw [write, writeItems_eq]
    rcases items with _ | ⟨j, js⟩
    · rw [List.map_nil, l.enclose_nil depth hopen hclose,
        resume_cons (by decide) rfl (hstate _ _ rfl), resume_cons (by decide) rfl rfl]
    · rw [List.map_cons, l.enclose_cons depth hopen hclose, ← List.map_cons,
        resume_cons (by decide) rfl (hstate _ _ rfl), resume_gaps (hl.line _),
        resume_items hl (fun i hi => ih i hi _) (expects_item stack)]
      rfl
  | @object members _ ih =>
    have hopen : ("\x7b" : String).toList = ['\x7b'] := rfl
    have hclose : ("\x7d" : String).toList = ['\x7d'] := rfl
    intro stack state cs hstate
    rw [ofMembers, write, writeMembers_eq]
    rcases members with _ | ⟨m, ms⟩
    · rw [List.map_nil, l.enclose_nil depth hopen hclose,
        resume_cons (by decide) rfl (hstate _ _ rfl), resume_cons (by decide) rfl rfl, List.map_nil]
    · have hkey (k : String) : next? stack .keyOrClose (.text (some k)) =
          some (stack, .colon [] (some k)) := rfl
      rw [List.map_cons, l.enclose_cons depth hopen hclose, ← List.map_cons,
        resume_cons (by decide) rfl (hstate _ _ rfl), resume_gaps (hl.line _),
        resume_members hl (fun i hi => ih i hi _) hkey]
      rfl

/-- **A value that is written is read back.** -/
theorem read?_write {l : Layout} (hl : l.Blank) {j : Json} (h : Textual j) (depth : Nat) :
    read? (write l depth j) = some j := by
  have hread := reads_write hl h depth [] .value [] (expects_value _)
  rw [List.append_nil] at hread
  rw [read?, ← resume, hread, resume, lexemes?]
  rfl

end AgentRules.Json
