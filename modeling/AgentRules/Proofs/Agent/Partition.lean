import AgentRules.Proofs.Agent.Iterator
import AgentRules.Proofs.Text.MaximalRun

/-! # The tokens divide the text

The tokens of a text cover it from its start to its end, each byte once. What a token is made of is
told by its kind (`Shape`): a word has no delimiter, a web address is what a leftmost-first search for
its pattern finds, and every value stands in front of a delimiter or at the end. From what the first
token of a text can be (`shape_first`) follows what a list of tokens can be (`Divides`), and from this
that blanks are maximal runs and that no token reaches over a mark, apart from slashes
(`scan_partitions`). -/

namespace AgentRules

open Text

namespace Token

/-! ### One token -/

/-- The search for a pattern finds the text in front of what is behind it, and a value can end
there. -/
def Finds (a : Pattern) (text behind : List Char) : Prop :=
  a.first (text ++ behind) = some text.length ∧ behind.head?.all isDelimiter = true

/-- What the text of a token of a kind is, and what can stand behind it. -/
def Shape : TokenKind → List Char → List Char → Prop
  | .word, text, behind =>
    (∀ c ∈ text, isDelimiter c = false) ∧ behind.head?.all isDelimiter = true
  | .url, text, behind => Finds Pattern.web text behind
  | .email, text, behind => Finds Pattern.mail text behind
  | .uuid, text, behind => Finds Pattern.uuid text behind
  | .base64, text, behind =>
    Finds Pattern.base64 text behind ∧ text.any Char.isDigit = true ∧ text.any Char.isAlpha = true
  | .space, text, behind =>
    (∀ c ∈ text, isBlank c = true) ∧ ∀ c ∈ behind.head?, isBlank c = false
  | kind, text, _ => ∃ c, text = [c] ∧ mark? c = some kind

section Value
variable {form : List Char → Option Nat} {a : Pattern} {cs : List Char} {n : Nat}

theorem finds_of_bounded (hform : ∀ cs, form cs = a.first cs) (h : bounded form cs = some n) :
    Finds a (cs.take n) (cs.drop n) := by
  obtain ⟨hn, hends⟩ := Option.filter_eq_some_iff.1 h
  rw [hform] at hn
  have hle := (Pattern.of_first a.within_true hn).1
  refine ⟨?_, hends⟩
  rw [List.take_append_drop, hn, List.length_take, Nat.min_eq_left hle]

theorem shape_value (cs : List Char) :
    Shape (value cs).1 (cs.take (value cs).2) (cs.drop (value cs).2) := by
  unfold value
  split
  · exact finds_of_bounded Pattern.web_first (by assumption)
  · exact finds_of_bounded Pattern.mail_first (by assumption)
  · exact finds_of_bounded Pattern.uuid_first (by assumption)
  · next h =>
    obtain ⟨hbounded, hmixed⟩ := Option.filter_eq_some_iff.1 h
    obtain ⟨hdigit, halpha⟩ := Bool.and_eq_true_iff.1 hmixed
    exact ⟨finds_of_bounded Pattern.base64_first hbounded, hdigit, halpha⟩
  · show (∀ c ∈ cs.take (cs.takeWhile (!isDelimiter ·)).length, isDelimiter c = false) ∧ _
    rw [take_length_takeWhile, drop_length_takeWhile]
    refine ⟨fun c hc => ?_, by simpa using head_dropWhile (!isDelimiter ·) cs⟩
    simpa using List.mem_takeWhile_imp hc

end Value

theorem shape_mark {c : Char} {kind : TokenKind} (h : mark? c = some kind) (behind : List Char) :
    Shape kind [c] behind := by
  have hshape : ∃ d, [c] = [d] ∧ mark? d = some kind := ⟨c, rfl, h⟩
  unfold mark? at h
  split at h <;> cases h <;> exact hshape

/-- **The first token of a text has the shape of its kind.** -/
theorem shape_first {c : Char} {cs : List Char} {kind : TokenKind} {n : Nat}
    (h : first c cs = (kind, n)) : Shape kind (c :: cs.take (n - 1)) (cs.drop (n - 1)) := by
  rcases first_cases h with ⟨hmark, rfl⟩ | ⟨-, hblank, rfl, rfl⟩ | ⟨-, -, hvalue, hpos⟩
  · exact shape_mark hmark cs
  · rw [Nat.add_sub_cancel_left, take_length_takeWhile, drop_length_takeWhile]
    refine ⟨fun d hd => ?_, eq_false_of_mem_head?_dropWhile⟩
    rcases List.mem_cons.1 hd with rfl | hd
    · exact hblank
    · exact List.mem_takeWhile_imp hd
  · obtain ⟨htake, hdrop⟩ := take_eq_cons hpos c cs
    have hshape := shape_value (c :: cs)
    rw [hvalue] at hshape
    rwa [htake, hdrop] at hshape

section Shape
variable {kind : TokenKind} {text behind : List Char} {c : Char}

theorem isAddressChar_of_finds {a : Pattern} (ha : a.Within isAddressChar)
    (h : Finds a text behind) : ∀ c ∈ text, isAddressChar c = true := by
  have := (Pattern.of_first ha h.1).2
  rwa [List.take_left] at this

/-- **A value has no blank and no mark**, slashes apart. -/
theorem isAddressChar_of_shape (hvalue : kind.isValue = true) (h : Shape kind text behind) :
    ∀ c ∈ text, isAddressChar c = true := by
  cases kind with
  | word =>
    intro c hc
    have hdelimiter := h.1 c hc
    simp only [isDelimiter, Bool.or_eq_false_iff] at hdelimiter
    simp [isAddressChar, hdelimiter]
  | url => exact isAddressChar_of_finds Pattern.web_within h
  | email => exact isAddressChar_of_finds Pattern.mail_within h
  | uuid => exact isAddressChar_of_finds Pattern.uuid_within h
  | base64 => exact isAddressChar_of_finds Pattern.base64_within h.1
  | space | opening | closing | semicolon | comma | slash => cases hvalue

theorem head_of_shape (hvalue : kind.isValue = true) (h : Shape kind text behind) :
    behind.head?.all isDelimiter = true := by
  cases kind with
  | word | url | email | uuid => exact h.2
  | base64 => exact h.1.2
  | space | opening | closing | semicolon | comma | slash => cases hvalue

theorem mark_of_shape (hvalue : kind.isValue = false) (hspace : kind ≠ .space)
    (h : Shape kind text behind) : ∃ c, text = [c] ∧ mark? c = some kind := by
  cases kind with
  | word | url | email | uuid | base64 => cases hvalue
  | space => exact absurd rfl hspace
  | opening | closing | semicolon | comma | slash => exact h

/-- A token with a blank in it has nothing but blanks. -/
theorem space_of_mem (h : Shape kind text behind) (hc : c ∈ text) (hblank : isBlank c = true) :
    kind = .space := by
  by_contra hspace
  cases hvalue : kind.isValue with
  | true =>
    have := isAddressChar_of_shape hvalue h c hc
    simp [isAddressChar, hblank] at this
  | false =>
    obtain ⟨d, rfl, hmark⟩ := mark_of_shape hvalue hspace h
    obtain rfl := List.mem_singleton.1 hc
    rw [mark_eq_none (.inr hblank)] at hmark
    cases hmark

/-- A token with a mark in it has nothing but the mark, slashes apart. -/
theorem eq_singleton_of_mem {mark : TokenKind} (h : Shape kind text behind) (hc : c ∈ text)
    (hmark : mark? c = some mark) (hslash : mark ≠ .slash) : text = [c] ∧ kind = mark := by
  cases hvalue : kind.isValue with
  | true =>
    have haddress := isAddressChar_of_shape hvalue h c hc
    unfold mark? at hmark
    split at hmark <;> cases hmark <;>
      first | exact absurd haddress (by decide) | exact absurd rfl hslash
  | false =>
    by_cases hspace : kind = .space
    · subst hspace
      rw [mark_eq_none (.inr (h.1 c hc))] at hmark
      cases hmark
    · obtain ⟨d, rfl, hmark'⟩ := mark_of_shape hvalue hspace h
      obtain rfl := List.mem_singleton.1 hc
      rw [hmark] at hmark'
      exact ⟨rfl, (Option.some.inj hmark').symm⟩

end Shape

/-! ### All tokens -/

/-- The tokens divide the characters from a place on. -/
inductive Divides : Nat → List Char → List Token → Prop
  | nil (place : Nat) : Divides place [] []
  | cons {place : Nat} {kind : TokenKind} {text behind : List Char} {ts : List Token}
      (hne : text ≠ []) (hshape : Shape kind text behind)
      (hrest : Divides (place + byteLength text) behind ts) :
      Divides place (text ++ behind) (⟨kind, place, text⟩ :: ts)

/-- **The scan divides the text.** -/
theorem divides_scanFrom (place : Nat) (cs : List Char) : Divides place cs (scanFrom place cs) := by
  induction place, cs using scanFrom.induct with
  | case1 place =>
    rw [scanFrom]
    exact .nil place
  | case2 place c cs kind n hfirst text ih =>
    have hsplit : c :: cs = text ++ cs.drop (n - 1) := by
      rw [List.cons_append, List.take_append_drop]
    rw [scanFrom, hfirst, hsplit]
    exact .cons (List.cons_ne_nil _ _) (shape_first hfirst) ih

/-- Each token starts where the one before it stops, from one place to another. -/
def Tiles : Nat → List Token → Nat → Prop
  | start, [], stop => start = stop
  | start, t :: ts, stop => t.start = start ∧ Tiles t.stop ts stop

section Tiles
variable {start stop : Nat} {ts : List Token}

theorem le_start_of_tiles (h : Tiles start ts stop) {t : Token} (ht : t ∈ ts) : start ≤ t.start := by
  induction ts generalizing start with
  | nil => cases ht
  | cons u ts ih =>
    obtain ⟨rfl, hrest⟩ := h
    rcases List.mem_cons.1 ht with rfl | ht
    · exact Nat.le_refl _
    · exact Nat.le_trans (Nat.le_add_right _ _) (ih hrest ht)

/-- **No byte is lost or covered twice.** -/
theorem existsUnique_of_tiles (h : Tiles start ts stop) {i : Nat} (hle : start ≤ i)
    (hlt : i < stop) : ∃! t, t ∈ ts ∧ t.start ≤ i ∧ i < t.stop := by
  induction ts generalizing start with
  | nil =>
    obtain rfl : start = stop := h
    omega
  | cons t ts ih =>
    obtain ⟨rfl, hrest⟩ := h
    by_cases hi : i < t.stop
    · refine ⟨t, ⟨List.mem_cons_self, hle, hi⟩, fun u ⟨hu, hstart, hstop⟩ => ?_⟩
      rcases List.mem_cons.1 hu with rfl | hu
      · rfl
      · have := le_start_of_tiles hrest hu
        omega
    · obtain ⟨u, ⟨hu, hcovers⟩, hunique⟩ := ih hrest (Nat.le_of_not_lt hi)
      refine ⟨u, ⟨List.mem_cons_of_mem t hu, hcovers⟩, fun v ⟨hv, hstart, hstop⟩ => ?_⟩
      rcases List.mem_cons.1 hv with rfl | hv
      · exact absurd hstop hi
      · exact hunique v ⟨hv, hstart, hstop⟩

end Tiles

section Divides
variable {place : Nat} {cs : List Char} {ts : List Token}

theorem tiles_of_divides (h : Divides place cs ts) : Tiles place ts (place + byteLength cs) := by
  induction h with
  | nil place => rfl
  | cons hne hshape hrest ih =>
    refine ⟨rfl, ?_⟩
    rw [byteLength_append, ← Nat.add_assoc]
    exact ih

theorem piece_of_divides (h : Divides place cs ts) {t : Token} (ht : t ∈ ts) :
    ∃ before behind, cs = before ++ (t.text ++ behind) ∧ t.start = place + byteLength before ∧
      Shape t.kind t.text behind := by
  induction h with
  | nil place => cases ht
  | @cons place kind text behind ts hne hshape hrest ih =>
    rcases List.mem_cons.1 ht with rfl | ht
    · exact ⟨[], behind, rfl, rfl, hshape⟩
    · obtain ⟨before, behind', rfl, hstart, hshape⟩ := ih ht
      refine ⟨text ++ before, behind', by rw [List.append_assoc], ?_, hshape⟩
      rw [hstart, byteLength_append, Nat.add_assoc]

/-- **Blank tokens are the maximal runs of blanks.** -/
theorem mem_space_iff (h : Divides place cs ts) (start : Nat) (run : List Char) :
    ⟨.space, start, run⟩ ∈ ts ↔
      ∃ before behind, MaximalRun isBlank cs before run behind ∧
        start = place + byteLength before := by
  induction h with
  | nil place => simp [not_maximalRun_nil]
  | @cons place kind text behind ts hne hshape hrest ih =>
    rw [List.mem_cons, ih]
    by_cases hspace : kind = .space
    · subst hspace
      -- the token is the first maximal run, and the others are behind it
      have hfirst : MaximalRun isBlank (text ++ behind) [] text behind :=
        ⟨rfl, hne, hshape.1, by simp, hshape.2⟩
      obtain ⟨htake, hdrop⟩ := eq_takeWhile_of_maximalRun hfirst
      simp only [maximalRun_iff (htake ▸ hne), ← htake, ← hdrop]
      constructor
      · rintro (heq | ⟨before, behind', hmax, rfl⟩)
        · cases heq
          exact ⟨[], behind, .inl ⟨rfl, rfl, rfl⟩, rfl⟩
        · exact ⟨text ++ before, behind', .inr ⟨before, rfl, hmax⟩, by
            rw [byteLength_append, Nat.add_assoc]⟩
      · rintro ⟨before, behind', ⟨rfl, rfl, rfl⟩ | ⟨front, rfl, hmax⟩, rfl⟩
        · exact .inl rfl
        · exact .inr ⟨front, behind', hmax, by rw [byteLength_append, Nat.add_assoc]⟩
    · have hnone : ∀ c ∈ text, isBlank c = false := fun c hc => by
        by_contra hblank
        exact hspace (space_of_mem hshape hc (by simpa using hblank))
      simp only [maximalRun_append_iff hnone]
      constructor
      · rintro (heq | ⟨before, behind', hmax, rfl⟩)
        · cases heq
          exact absurd rfl hspace
        · exact ⟨text ++ before, behind', ⟨before, rfl, hmax⟩, by
            rw [byteLength_append, Nat.add_assoc]⟩
      · rintro ⟨before, behind', ⟨front, rfl, hmax⟩, rfl⟩
        exact .inr ⟨front, behind', hmax, by rw [byteLength_append, Nat.add_assoc]⟩

/-- **Marks are tokens of their own**, slashes apart. -/
theorem mem_mark_iff (h : Divides place cs ts) {c : Char} {mark : TokenKind}
    (hmark : mark? c = some mark) (hslash : mark ≠ .slash) (start : Nat) :
    ⟨mark, start, [c]⟩ ∈ ts ↔
      ∃ before behind, cs = before ++ c :: behind ∧ start = place + byteLength before := by
  constructor
  · intro ht
    obtain ⟨before, behind, hcs, hstart, -⟩ := piece_of_divides h ht
    exact ⟨before, behind, hcs, hstart⟩
  · rintro ⟨before, behind, hcs, rfl⟩
    induction h generalizing before with
    | nil place => simp at hcs
    | @cons place kind text behind' ts hne hshape hrest ih =>
      rcases List.append_eq_append_iff.1 hcs with ⟨front, rfl, hbehind⟩ | ⟨front, htext, hfront⟩
      · refine List.mem_cons_of_mem _ ?_
        rw [byteLength_append, ← Nat.add_assoc]
        exact ih front hbehind
      · rcases front with _ | ⟨d, front⟩
        · rw [List.append_nil] at htext
          subst htext
          exact List.mem_cons_of_mem _ (ih [] hfront.symm)
        · obtain ⟨rfl, -⟩ := List.cons.inj hfront
          have hc : c ∈ text := by simp [htext]
          obtain ⟨rfl, rfl⟩ := eq_singleton_of_mem hshape hc hmark hslash
          obtain rfl : before = [] := by
            have := congrArg List.length htext
            simp at this
            exact List.eq_nil_of_length_eq_zero (by omega)
          exact List.mem_cons_self

end Divides

/-- **The tokens of a text are a partition of it.** -/
theorem scan_partitions (s : String) :
    (∀ spans, Walk 0 s.toList spans ↔ spans = (scan s).map span) ∧
    Tiles 0 (scan s) (size s) ∧
    (∀ i < size s, ∃! t, t ∈ scan s ∧ t.start ≤ i ∧ i < t.stop) ∧
    (∀ t ∈ scan s, t.start < t.stop ∧ IsSpan s t.start t.stop ∧
      ∃ before behind, s.toList = before ++ (t.text ++ behind) ∧ t.start = byteLength before ∧
        Shape t.kind t.text behind ∧
        (t.kind.isValue = true → behind.head?.all isDelimiter = true)) ∧
    (scan s).IsChain Joins ∧
    (∀ start run, ⟨.space, start, run⟩ ∈ scan s ↔
      ∃ before behind, MaximalRun isBlank s.toList before run behind ∧ start = byteLength before) ∧
    (∀ c mark, mark? c = some mark → mark ≠ .slash → ∀ start, ⟨mark, start, [c]⟩ ∈ scan s ↔
      ∃ before behind, s.toList = before ++ c :: behind ∧ start = byteLength before) := by
  have hdivides : Divides 0 s.toList (scan s) := divides_scanFrom 0 s.toList
  have htiles := tiles_of_divides hdivides
  have hcontiguous := contiguous_scan s
  rw [Nat.zero_add] at htiles
  refine ⟨fun spans => walk_iff 0 s.toList spans, htiles,
    fun i hi => existsUnique_of_tiles htiles (Nat.zero_le i) hi, fun t ht => ?_,
    hcontiguous.joins, fun start run => ?_, fun c mark hmark hslash start => ?_⟩
  · obtain ⟨before, behind, hs, hstart, hshape⟩ := piece_of_divides hdivides ht
    rw [Nat.zero_add] at hstart
    exact ⟨hcontiguous.nonempty t ht, hcontiguous.isSpan_token ht, before, behind, hs, hstart,
      hshape, fun hvalue => head_of_shape hvalue hshape⟩
  · simpa only [Nat.zero_add] using mem_space_iff hdivides start run
  · simpa only [Nat.zero_add] using mem_mark_iff hdivides hmark hslash start

theorem scan_partitions_umlaut : ⟨.semicolon, 1, [';']⟩ ∈ scan "a; ü" ∧
    ⟨.space, 2, [' ']⟩ ∈ scan "a; ü" ∧ ∃! t, t ∈ scan "a; ü" ∧ t.start ≤ 4 ∧ 4 < t.stop := by
  obtain ⟨-, -, hunique, -, -, hspace, hmark⟩ := scan_partitions "a; ü"
  have hrun : MaximalRun isBlank "a; ü".toList ['a', ';'] [' '] ['ü'] :=
    ⟨rfl, List.cons_ne_nil _ _, List.all_eq_true.1 rfl, by simp [isBlank], by simp [isBlank]⟩
  exact ⟨(hmark ';' .semicolon rfl (by decide) 1).2 ⟨['a'], [' ', 'ü'], rfl, rfl⟩,
    (hspace 2 [' ']).2 ⟨['a', ';'], ['ü'], hrun, rfl⟩, hunique 4 (by decide)⟩

end Token

end AgentRules
