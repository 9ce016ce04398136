import AgentRules.Expr.Cursor

/-! # Reading the steps of a path

    step    := '.' indices? name | '^' | '>' | '<' | '@' | '@{' text '}' | '[' words ']'
             | '=' text | '!=' text | '^=' text | '$=' text | '~=' text | '{' text (';' text)? '}'
    indices := '(' ('*' | n | n '-' n | n '-' | '-' n) ')'
    words   := n | n '-' n | n '-' | '-' n

Up to three marks `>` or `<` in a row are one step. Steps are read as long as there are any, which
ends because each has at least one character. -/

namespace AgentRules.Expr

open Text

/-! ### Ranges -/

def atDigit (c : Cursor) : Bool := c.peek.any Char.isDigit

/-- What stands behind the first number of a range. -/
inductive RangeEnd (α : Type)
  /-- Nothing: the range has one number. -/
  | alone
  /-- A dash. -/
  | unbounded
  /-- A dash and the last number. -/
  | closed (last : α)

/-- Reads what stands behind the first number of a range, where `read` reads a number. -/
def rangeEnd {α : Type} (read : Cursor → Except Misread (α × Cursor)) (c : Cursor) :
    Except Misread (RangeEnd α × Cursor) :=
  if c.peek ≠ some '-' then .ok (.alone, c)
  else if atDigit c.advance then (read c.advance).map fun (last, c) => (.closed last, c)
  else .ok (.unbounded, c.advance)

/-- The child indices from a number on. -/
def indicesFrom (first : Nat) : RangeEnd Nat → IndexSpec
  | .alone => .single first
  | .unbounded => .onward first
  | .closed last => .between first last

/-- Reads what stands between the parentheses of child indices. -/
def indexBody (c : Cursor) : Except Misread (IndexSpec × Cursor) :=
  if c.peek = some '*' then .ok (.all, c.advance)
  else if c.peek = some '-' then (number c.advance).map fun (last, c) => (.upTo last, c)
  else do
    let (first, c) ← number c
    let (stop, c) ← rangeEnd number c
    return (indicesFrom first stop, c)

/-- Whether child indices start at one and ascend. -/
def isAscending : IndexSpec → Bool
  | .all => true
  | .single n | .onward n | .upTo n => 1 ≤ n
  | .between first last => 1 ≤ first && first ≤ last

def indexSpec (c : Cursor) : Except Misread (IndexSpec × Cursor) := do
  let c ← c.expect '('
  let (indices, c) ← indexBody c
  let c ← c.expect ')'
  if isAscending indices then return (indices, c) else c.fail .indexRange

/-- The largest number of a segment. -/
def maxWordIndex : Nat := 0x7FFFFFFF

def wordIndex (c : Cursor) : Except Misread (Int × Cursor) := do
  let (n, c) ← number c
  if n ≤ maxWordIndex then return (n, c) else c.fail (.wordIndex n)

/-- The last segment of a range that starts with a number. -/
def lastFrom (first : Int) : RangeEnd Int → Int
  | .alone => first
  | .unbounded => WordRange.toEnd
  | .closed last => last

/-- Reads what stands between the brackets of a range of segments. -/
def wordBody (c : Cursor) : Except Misread ((Int × Int) × Cursor) :=
  if c.peek = some '-' then (wordIndex c.advance).map fun (last, c) => ((1, last), c)
  else do
    let (first, c) ← wordIndex c
    let (stop, c) ← rangeEnd wordIndex c
    return ((first, lastFrom first stop), c)

/-- Reads a range of segments. -/
def wordRange (c : Cursor) : Except Misread (WordRange × Cursor) := do
  let c ← c.expect '['
  let ((first, last), c) ← wordBody c
  let c ← c.expect ']'
  match WordRange.make first last with
  | .error fault => c.fail (.wordRange fault)
  | .ok range => return (range, c)

/-! ### Steps -/

/-- The most marks that make one step. -/
def maxJump : Nat := 3

/-- Counts a mark in a row, up to `left` times. -/
def repeats (mark : Char) : Nat → Cursor → Nat × Cursor
  | 0, c => (0, c)
  | left + 1, c =>
    if c.peek = some mark then
      let (n, c) := repeats mark left c.advance
      (n + 1, c)
    else (0, c)

/-- Reads child indices that may be left out. -/
def optionalIndices (c : Cursor) : Except Misread (IndexSpec × Cursor) :=
  if c.peek = some '(' then indexSpec c else .ok (.all, c)

/-- Reads the child indices and the name of a step down. -/
def downStep (c : Cursor) : Except Misread (PathStep × Cursor) := do
  let (indices, c) ← optionalIndices c
  let (child, c) ← name c
  return (.down indices child, c)

def comparison (step : String → PathStep) (c : Cursor) : Except Misread (PathStep × Cursor) :=
  (quoted c).map fun (text, c) => (step text, c)

def setStep (c : Cursor) : Except Misread (PathStep × Cursor) := do
  let (set, c) ← quoted c
  let c ← c.expect '}'
  return (.inSet set, c)

def optionalDefault (c : Cursor) : Except Misread (Option String × Cursor) :=
  if c.peek = some ';' then (quoted c.advance).map fun (text, c) => (some text, c)
  else .ok (none, c)

def lookupStep (c : Cursor) : Except Misread (PathStep × Cursor) := do
  let (table, c) ← quoted c
  let (default, c) ← optionalDefault c
  let c ← c.expect '}'
  return (.lookup table default, c)

/-- Reads one step; there is none at the end and before what can follow an argument. -/
def step? (c : Cursor) : Except Misread (Option (PathStep × Cursor)) :=
  match c.rest with
  | [] | ']' :: _ | ';' :: _ | ' ' :: _ | '\t' :: _ => .ok none
  | '.' :: _ => (downStep c.advance).map some
  | '^' :: '=' :: _ => (comparison .startsWith c.advance.advance).map some
  | '^' :: _ => .ok (some (.up, c.advance))
  | '>' :: _ => let (n, c) := repeats '>' maxJump c; .ok (some (.next n, c))
  | '<' :: _ => let (n, c) := repeats '<' maxJump c; .ok (some (.prev n, c))
  | '@' :: '{' :: _ => (setStep c.advance.advance).map some
  | '@' :: _ => .ok (some (.backToFull, c.advance))
  | '[' :: _ => (wordRange c).map fun (range, c) => some (.words range, c)
  | '=' :: _ => (comparison .equals c.advance).map some
  | '!' :: '=' :: _ => (comparison .differs c.advance.advance).map some
  | '$' :: '=' :: _ => (comparison .endsWith c.advance.advance).map some
  | '~' :: '=' :: _ => (comparison .contains c.advance.advance).map some
  | '!' :: _ | '$' :: _ | '~' :: _ => c.fail .expectedEquals
  | '{' :: _ => (lookupStep c.advance).map some
  | d :: _ => c.fail (.unexpected (leadByte d))

/-! ### Less is left -/

open Outcome

theorem length_rangeEnd {α : Type} {read : Cursor → Except Misread (α × Cursor)}
    (hr : ∀ {c d x}, read c = .ok (x, d) → d.rest.length < c.rest.length) {c d : Cursor}
    {x : RangeEnd α} (h : rangeEnd read c = .ok (x, d)) : d.rest.length ≤ c.rest.length := by
  have ha := length_advance_le c
  unfold rangeEnd at h
  split at h
  · cases h; exact Nat.le_refl _
  · split at h
    · obtain ⟨⟨last, e⟩, he, h⟩ := map_eq_ok_iff.1 h
      cases h
      exact Nat.le_trans (Nat.le_of_lt (hr he)) ha
    · cases h; exact ha

/-- Less is left behind what is read between two marks and then checked. -/
theorem length_bracketed {α β : Type} {body : Cursor → Except Misread (α × Cursor)}
    (hbody : ∀ {c d x}, body c = .ok (x, d) → d.rest.length ≤ c.rest.length)
    (check : α → Cursor → Except Misread (β × Cursor))
    (hcheck : ∀ {c d x y}, check x c = .ok (y, d) → c = d) {opening closing : Char} {c d : Cursor}
    {y : β} (h : (c.expect opening >>= fun c => body c >>= fun p =>
      p.2.expect closing >>= check p.1) = .ok (y, d)) : d.rest.length < c.rest.length := by
  obtain ⟨e, he, h⟩ := bind_eq_ok_iff.1 h
  obtain ⟨⟨x, f⟩, hf, h⟩ := bind_eq_ok_iff.1 h
  obtain ⟨g, hg, h⟩ := bind_eq_ok_iff.1 h
  have hopen := length_expect he
  have hmiddle := hbody hf
  have hclose : g.rest.length < f.rest.length := length_expect hg
  rw [← hcheck h]
  omega

theorem length_indexBody {c d : Cursor} {i : IndexSpec} (h : indexBody c = .ok (i, d)) :
    d.rest.length ≤ c.rest.length := by
  have ha := length_advance_le c
  unfold indexBody at h
  split at h
  · cases h; exact ha
  · split at h
    · obtain ⟨⟨last, e⟩, he, h⟩ := map_eq_ok_iff.1 h
      cases h
      exact Nat.le_trans (Nat.le_of_lt (length_number he)) ha
    · obtain ⟨⟨first, e⟩, he, h⟩ := bind_eq_ok_iff.1 h
      obtain ⟨⟨stop, f⟩, hf, h⟩ := bind_eq_ok_iff.1 h
      cases h
      exact Nat.le_trans (length_rangeEnd length_number hf) (Nat.le_of_lt (length_number he))

theorem length_indexSpec {c d : Cursor} {i : IndexSpec} (h : indexSpec c = .ok (i, d)) :
    d.rest.length < c.rest.length := by
  refine length_bracketed length_indexBody
    (fun i c => if isAscending i then .ok (i, c) else c.fail .indexRange) (fun h => ?_) h
  split at h <;> cases h
  rfl

theorem length_wordIndex {c d : Cursor} {n : Int} (h : wordIndex c = .ok (n, d)) :
    d.rest.length < c.rest.length := by
  obtain ⟨⟨m, e⟩, he, h⟩ := bind_eq_ok_iff.1 h
  dsimp only at h
  split at h <;> cases h
  exact length_number he

theorem length_wordBody {c d : Cursor} {r : Int × Int} (h : wordBody c = .ok (r, d)) :
    d.rest.length < c.rest.length := by
  have ha := length_advance_le c
  unfold wordBody at h
  split at h
  · obtain ⟨⟨last, e⟩, he, h⟩ := map_eq_ok_iff.1 h
    cases h
    exact Nat.lt_of_lt_of_le (length_wordIndex he) ha
  · obtain ⟨⟨first, e⟩, he, h⟩ := bind_eq_ok_iff.1 h
    obtain ⟨⟨stop, f⟩, hf, h⟩ := bind_eq_ok_iff.1 h
    cases h
    exact Nat.lt_of_le_of_lt (length_rangeEnd length_wordIndex hf) (length_wordIndex he)

theorem length_wordRange {c d : Cursor} {r : WordRange} (h : wordRange c = .ok (r, d)) :
    d.rest.length < c.rest.length := by
  refine length_bracketed (fun h => Nat.le_of_lt (length_wordBody h)) (fun r c =>
    match WordRange.make r.1 r.2 with
    | .error fault => c.fail (.wordRange fault)
    | .ok range => .ok (range, c)) (fun h => ?_) h
  split at h <;> cases h
  rfl

theorem length_repeats (mark : Char) (left : Nat) (c : Cursor) :
    (repeats mark left c).2.rest.length ≤ c.rest.length := by
  fun_induction repeats mark left c with
  | case1 => exact Nat.le_refl _
  | case2 left c h n d hd ih =>
    have := length_advance h
    simp_all only
    omega
  | case3 => exact Nat.le_refl _

theorem length_repeats_lt {mark : Char} {c : Cursor} (h : c.peek = some mark) :
    (repeats mark maxJump c).2.rest.length < c.rest.length := by
  have := length_repeats mark 2 c.advance
  have := length_advance h
  simp only [maxJump, repeats, if_pos h] at *
  omega

theorem length_optionalIndices {c d : Cursor} {i : IndexSpec}
    (h : optionalIndices c = .ok (i, d)) : d.rest.length ≤ c.rest.length := by
  unfold optionalIndices at h
  split at h
  · exact Nat.le_of_lt (length_indexSpec h)
  · cases h; exact Nat.le_refl _

theorem length_downStep {c d : Cursor} {s : PathStep} (h : downStep c = .ok (s, d)) :
    d.rest.length < c.rest.length := by
  obtain ⟨⟨i, e⟩, he, h⟩ := bind_eq_ok_iff.1 h
  obtain ⟨⟨child, f⟩, hf, h⟩ := bind_eq_ok_iff.1 h
  cases h
  exact Nat.lt_of_lt_of_le (length_name hf) (length_optionalIndices he)

theorem length_comparison {step : String → PathStep} {c d : Cursor} {s : PathStep}
    (h : comparison step c = .ok (s, d)) : d.rest.length < c.rest.length := by
  obtain ⟨⟨text, e⟩, he, h⟩ := map_eq_ok_iff.1 h
  cases h
  exact length_quoted he

theorem length_setStep {c d : Cursor} {s : PathStep} (h : setStep c = .ok (s, d)) :
    d.rest.length < c.rest.length := by
  obtain ⟨⟨set, e⟩, he, h⟩ := bind_eq_ok_iff.1 h
  obtain ⟨f, hf, h⟩ := bind_eq_ok_iff.1 h
  cases h
  exact Nat.lt_trans (length_expect hf) (length_quoted he)

theorem length_optionalDefault {c d : Cursor} {s : Option String}
    (h : optionalDefault c = .ok (s, d)) : d.rest.length ≤ c.rest.length := by
  have ha := length_advance_le c
  unfold optionalDefault at h
  split at h
  · obtain ⟨⟨text, e⟩, he, h⟩ := map_eq_ok_iff.1 h
    cases h
    exact Nat.le_trans (Nat.le_of_lt (length_quoted he)) ha
  · cases h; exact Nat.le_refl _

theorem length_lookupStep {c d : Cursor} {s : PathStep} (h : lookupStep c = .ok (s, d)) :
    d.rest.length < c.rest.length := by
  obtain ⟨⟨table, e⟩, he, h⟩ := bind_eq_ok_iff.1 h
  obtain ⟨⟨default, f⟩, hf, h⟩ := bind_eq_ok_iff.1 h
  obtain ⟨g, hg, h⟩ := bind_eq_ok_iff.1 h
  cases h
  have := length_quoted he
  have := length_optionalDefault hf
  have := length_expect hg
  omega

theorem length_step? {c d : Cursor} {s : PathStep} (h : step? c = .ok (some (s, d))) :
    d.rest.length < c.rest.length := by
  have ha := length_advance_le c
  have ha' := length_advance_le c.advance
  have map_some {x : Except Misread (PathStep × Cursor)}
      (hx : x.map some = .ok (some (s, d))) : x = .ok (s, d) := by
    obtain ⟨y, hy, hy'⟩ := map_eq_ok_iff.1 hx
    cases hy'
    exact hy
  unfold step? at h
  split at h
  case h_1 | h_2 | h_3 | h_4 | h_5 => cases h
  case h_6 => exact Nat.lt_of_lt_of_le (length_downStep (map_some h)) ha
  case h_7 | h_15 | h_16 | h_17 =>
    exact Nat.lt_of_lt_of_le (length_comparison (map_some h)) (Nat.le_trans ha' ha)
  case h_14 => exact Nat.lt_of_lt_of_le (length_comparison (map_some h)) ha
  case h_8 hc | h_12 hc =>
    cases h
    exact length_advance (congrArg List.head? hc)
  case h_9 hc | h_10 hc =>
    cases h
    exact length_repeats_lt (congrArg List.head? hc)
  case h_11 =>
    exact Nat.lt_of_lt_of_le (length_setStep (map_some h)) (Nat.le_trans ha' ha)
  case h_13 =>
    obtain ⟨⟨range, e⟩, he, h⟩ := map_eq_ok_iff.1 h
    cases h
    exact length_wordRange he
  case h_18 | h_19 | h_20 | h_22 => cases h
  case h_21 => exact Nat.lt_of_lt_of_le (length_lookupStep (map_some h)) ha

/-- Reads steps as long as there are any. -/
def steps (c : Cursor) : Except Misread ((List PathStep) × Cursor) :=
  match _h : step? c with
  | .error e => .error e
  | .ok none => .ok ([], c)
  | .ok (some (s, d)) => (steps d).map fun (ss, e) => (s :: ss, e)
termination_by c.rest.length
decreasing_by exact length_step? _h

end AgentRules.Expr
