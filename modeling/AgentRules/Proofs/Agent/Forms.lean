import AgentRules.Agent.Token
import AgentRules.Proofs.Agent.Pattern
import AgentRules.Proofs.Text.Ascii
import AgentRules.Proofs.Text.MaximalRun

/-! # The forms of values as patterns

Web addresses, mail addresses, UUIDs and blocks of base 64 are patterns, and how much of a text has
one of these forms is how much a leftmost-first search for its pattern reads (`web_first`,
`mail_first`, `uuid_first`, `base64_first`). So a form reads at least one character, and none that
cannot stand in a web address. -/

namespace AgentRules

open Text

namespace Pattern

/-! ### The patterns -/

def isSchemeChar (c : Char) : Bool := c.isAlphanum || c = '+' || c = '.' || c = '-'

def scheme : Pattern :=
  seq (one Char.isAlpha) (seq (star (one isSchemeChar)) (literal [':', '/', '/']))

def www : Pattern := literal ['w', 'w', 'w', '.']

/-- A web address behind its plus sign: `(?:[a-zA-Z][a-zA-Z0-9+.-]*://|www\.)[^\s;,()]+`. -/
def address : Pattern := seq (alt scheme www) (atLeast 1 Token.isAddressChar)

/-- A web address, with a plus sign in front or without. -/
def web : Pattern := seq (opt (one (· = '+'))) address

def hostPart : Pattern := seq (one (· = '.')) (atLeast 1 Token.isHostChar)

def topLevel : Pattern := seq (one (· = '.')) (atLeast 2 Char.isAlpha)

/-- The parts of a host name behind the first one. -/
def hostTail : Pattern := seq (star hostPart) topLevel

/-- A mail address: `[A-Za-z0-9._%+-]+@[A-Za-z0-9-]+(?:\.[A-Za-z0-9-]+)*\.[A-Za-z]{2,}`. -/
def mail : Pattern := seq (atLeast 1 Token.isMailboxChar)
  (seq (one (· = '@')) (seq (atLeast 1 Token.isHostChar) hostTail))

/-- The classes of the characters of a UUID: groups of `[0-9a-fA-F]` with dashes between them. -/
def uuidClasses : List (Char → Bool) :=
  let digits (n : Nat) := List.replicate n Token.isHexDigit
  let dash : List (Char → Bool) := [(· = '-')]
  digits 8 ++ dash ++ digits 4 ++ dash ++ digits 4 ++ dash ++ digits 4 ++ dash ++ digits 12

def uuid : Pattern := each uuidClasses

def isBase64Char (c : Char) : Bool := c.isAlphanum || c = '+' || c = '/'

/-- At most two marks of padding. -/
def padding : Pattern := opt (seq (one (· = '=')) (opt (one (· = '='))))

/-- A block of base 64: `[A-Za-z0-9+/]{24,}={0,2}`. -/
def base64 : Pattern := seq (atLeast Token.minBase64 isBase64Char) padding

/-! ### Reading them -/

/-- What is read of a text of which `before` characters have been read already. -/
theorem addressBody_eq {before : Nat} {cs rest : List Char} (h : cs.length = before + rest.length) :
    Token.addressBody before rest =
      ((atLeast 1 Token.isAddressChar).ends rest).head?.map fun r => cs.length - r.length := by
  have hlength := length_takeWhile_add Token.isAddressChar rest
  rw [head?_atLeast, Token.addressBody]
  split
  · next h0 =>
    rw [h0, if_neg (by omega)]
    rfl
  · next n hn =>
    rw [hn, if_pos (by omega), Option.map_some]
    exact congrArg some (by omega)

theorem schemeAddress_eq (cs : List Char) : Token.schemeAddress cs =
    ((scheme.ends cs).flatMap (atLeast 1 Token.isAddressChar).ends).head?.map fun r =>
      cs.length - r.length := by
  cases cs with
  | nil => rfl
  | cons c cs =>
    have hmark : ∀ d ds, isSchemeChar d = true → (literal [':', '/', '/']).ends (d :: ds) = [] := by
      intro d ds hd
      refine ends_literal_eq_nil fun rest hrest => ?_
      obtain ⟨rfl, -⟩ := List.cons.inj hrest
      exact absurd hd (by decide)
    have hends : scheme.ends (c :: cs) = if c.isAlpha = true then
        (literal [':', '/', '/']).ends (cs.dropWhile isSchemeChar) else [] := by
      rw [scheme, ends_one_seq_cons, ends_star_seq hmark]
    by_cases hc : c.isAlpha = true
    · have hscheme : isSchemeChar c = true := by simp [isSchemeChar, Char.isAlphanum, hc]
      have htake : (c :: cs).takeWhile (fun c => c.isAlphanum || c = '+' || c = '.' || c = '-') =
          c :: cs.takeWhile isSchemeChar := List.takeWhile_cons_of_pos hscheme
      have hlength := length_takeWhile_add isSchemeChar cs
      rw [hends, if_pos hc, Token.schemeAddress, htake, List.head?_cons, Option.any_some,
        if_pos hc, List.length_cons, List.drop_succ_cons, drop_length_takeWhile]
      split
      · next rest hrest =>
        have hread : (literal [':', '/', '/']).ends (':' :: '/' :: '/' :: rest) = [rest] :=
          ends_literal_append [':', '/', '/'] rest
        rw [hrest, List.length_cons, List.length_cons, List.length_cons] at hlength
        rw [hrest, hread, List.flatMap_singleton]
        exact addressBody_eq (by rw [List.length_cons]; omega)
      · next hnot =>
        rw [ends_literal_eq_nil fun rest hrest => hnot rest hrest]
        rfl
    · have hany : (((c :: cs).takeWhile fun c =>
          c.isAlphanum || c = '+' || c = '.' || c = '-').head?.any Char.isAlpha) = false := by
        rw [List.takeWhile_cons]
        split
        · simpa using hc
        · rfl
      rw [hends, if_neg hc, Token.schemeAddress, hany, if_neg Bool.false_ne_true]
      rfl

theorem hostAddress_eq (cs : List Char) : Token.hostAddress cs =
    ((www.ends cs).flatMap (atLeast 1 Token.isAddressChar).ends).head?.map fun r =>
      cs.length - r.length := by
  unfold Token.hostAddress
  split
  · next rest =>
    have hread : www.ends ('w' :: 'w' :: 'w' :: '.' :: rest) = [rest] :=
      ends_literal_append ['w', 'w', 'w', '.'] rest
    rw [hread, List.flatMap_singleton]
    exact addressBody_eq (by simp only [List.length_cons]; omega)
  · next hnot =>
    rw [www, ends_literal_eq_nil fun rest hrest => hnot rest hrest]
    rfl

theorem address_first (cs : List Char) :
    (Token.schemeAddress cs).or (Token.hostAddress cs) = address.first cs := by
  rw [schemeAddress_eq, hostAddress_eq, ← Option.map_or, ← List.head?_append,
    ← List.flatMap_append]
  rfl

/-- **Web addresses are what the search for their pattern finds.** -/
theorem web_first (cs : List Char) : Token.webAddress cs = web.first cs := by
  unfold Token.webAddress
  split
  · next rest =>
    -- with the plus sign left out nothing could be read
    have hskip : address.ends ('+' :: rest) = [] := by
      have hwww : www.ends ('+' :: rest) = [] :=
        ends_literal_eq_nil fun rest' h => absurd (List.cons.inj h).1 (by decide)
      rw [address, ends_seq, ends_alt, hwww, scheme, ends_one_seq_cons, if_neg (by decide)]
      rfl
    have hlength : ('+' :: rest).length = 1 + rest.length := by rw [List.length_cons, Nat.add_comm]
    have hfirst : web.first ('+' :: rest) = (address.first rest).map (1 + ·) := by
      rw [first, web, ends_opt_seq, ends_char_seq, hskip, List.append_nil, map_add_first hlength]
    rw [address_first, hfirst]
    exact Option.map_congr fun n _ => Nat.add_comm n 1
  · next hplus =>
    rw [address_first, first, first, web, ends_opt_seq, ends_char_seq_eq_nil hplus, List.nil_append]

/-! ### Mail addresses -/

theorem ends_char_seq_of_class {p : Char → Bool} {c : Char} (hc : p c = false) (b : Pattern) :
    ∀ d ds, p d = true → (seq (one (· = c)) b).ends (d :: ds) = [] := by
  intro d ds hd
  refine ends_char_seq_eq_nil (fun ds' h => ?_) b
  rw [(List.cons.inj h).1, hc] at hd
  cases hd

theorem ends_hostTail_eq_nil {cs : List Char} (h : ∀ ds, cs ≠ '.' :: ds) : hostTail.ends cs = [] := by
  rw [hostTail, ends_rounds_seq rfl, hostPart, ends_seq_assoc, ends_char_seq_eq_nil h, topLevel,
    ends_char_seq_eq_nil h, List.append_nil]

theorem ends_host_seq (cs : List Char) :
    (seq (atLeast 1 Token.isHostChar) hostTail).ends cs =
      if 1 ≤ (cs.takeWhile Token.isHostChar).length then
        hostTail.ends (cs.dropWhile Token.isHostChar) else [] := by
  refine ends_atLeast_seq 1 (fun d ds hd => ends_hostTail_eq_nil fun ds' h => ?_) cs
  rw [(List.cons.inj h).1] at hd
  cases hd

/-- What is behind a point of a host name: another part and what follows it, or the last part. -/
theorem ends_hostTail_point (rest : List Char) : hostTail.ends ('.' :: rest) =
    (if 1 ≤ (rest.takeWhile Token.isHostChar).length then
      hostTail.ends (rest.dropWhile Token.isHostChar) else []) ++
        (atLeast 2 Char.isAlpha).ends rest := by
  rw [← ends_host_seq, hostTail, ends_rounds_seq rfl, hostPart, ends_seq_assoc, ends_char_seq,
    topLevel, ends_char_seq]

theorem hostParts_first (cs : List Char) : Token.hostParts cs = hostTail.first cs := by
  -- the name may end behind the letters in front of the next part
  have hhere : ∀ rest : List Char,
      (((atLeast 2 Char.isAlpha).ends rest).head?.map fun ds => ('.' :: rest).length - ds.length) =
        if 2 ≤ (rest.takeWhile Char.isAlpha).length then
          some (1 + (rest.takeWhile Char.isAlpha).length) else none := by
    intro rest
    have hlength := length_takeWhile_add Char.isAlpha rest
    rw [head?_atLeast]
    split
    · rw [Option.map_some, List.length_cons]
      exact congrArg some (by omega)
    · rfl
  induction cs using Token.hostParts.induct with
  | case1 rest part hpart =>
    have hnone : ¬ 1 ≤ part.length := by rw [List.isEmpty_iff.1 hpart]; decide
    rw [Token.hostParts, if_pos hpart, first, ends_hostTail_point, if_neg hnone, List.nil_append,
      hhere]
  | case2 rest part hpart ih =>
    have hsome : 1 ≤ part.length := List.length_pos_of_ne_nil fun h => hpart (List.isEmpty_iff.2 h)
    have hlength : ('.' :: rest).length =
        1 + part.length + (rest.dropWhile Token.isHostChar).length := by
      have : part.length + (rest.dropWhile Token.isHostChar).length = rest.length :=
        length_takeWhile_add Token.isHostChar rest
      rw [List.length_cons]
      omega
    have hfirst : hostTail.first ('.' :: rest) =
        ((hostTail.first (rest.dropWhile Token.isHostChar)).map (1 + part.length + ·)).or
          (if 2 ≤ (rest.takeWhile Char.isAlpha).length then
            some (1 + (rest.takeWhile Char.isAlpha).length) else none) := by
      rw [first, ends_hostTail_point, if_pos hsome, List.head?_append, Option.map_or, hhere,
        map_add_first hlength]
    rw [Token.hostParts, if_neg hpart, ih, drop_length_takeWhile, hfirst]
  | case3 cs hcs =>
    rw [first, ends_hostTail_eq_nil hcs]
    unfold Token.hostParts
    split
    · exact absurd rfl (hcs _)
    · rfl

/-- **Mail addresses are what the search for their pattern finds.** -/
theorem mail_first (cs : List Char) : Token.mailAddress cs = mail.first cs := by
  have hmailbox := length_takeWhile_add Token.isMailboxChar cs
  rw [first, mail, ends_atLeast_seq 1 (ends_char_seq_of_class rfl _), Token.mailAddress]
  by_cases hempty : (cs.takeWhile Token.isMailboxChar).isEmpty
  · rw [if_pos hempty, List.isEmpty_iff.1 hempty]
    rfl
  · have hsome : 1 ≤ (cs.takeWhile Token.isMailboxChar).length :=
      List.length_pos_of_ne_nil fun h => hempty (List.isEmpty_iff.2 h)
    rw [if_neg hempty, if_pos hsome, drop_length_takeWhile]
    split
    · next rest hrest =>
      have hhost := length_takeWhile_add Token.isHostChar rest
      rw [hrest, List.length_cons] at hmailbox
      rw [hrest, ends_char_seq, ends_host_seq]
      dsimp only
      by_cases hempty : (rest.takeWhile Token.isHostChar).isEmpty
      · rw [if_pos hempty, List.isEmpty_iff.1 hempty]
        rfl
      · have hsome : 1 ≤ (rest.takeWhile Token.isHostChar).length :=
          List.length_pos_of_ne_nil fun h => hempty (List.isEmpty_iff.2 h)
        rw [if_neg hempty, if_pos hsome, drop_length_takeWhile, hostParts_first]
        exact map_add_first (by omega) hostTail
    · next hnot =>
      rw [ends_char_seq_eq_nil hnot]
      rfl

/-! ### UUIDs -/

theorem all_zip_map_range (f : Nat → Char → Bool) (n k : Nat) (cs : List Char) :
    (((List.range' k n).map f).zip cs).all (fun x => x.1 x.2) =
      ((cs.take n).zipIdx k).all fun x => f x.2 x.1 := by
  induction n generalizing k cs with
  | zero => simp
  | succ n ih =>
    cases cs with
    | nil => simp
    | cons c cs => simp [List.range'_succ, ih]

/-- **UUIDs are what the search for their pattern finds.** -/
theorem uuid_first (cs : List Char) : Token.uuid cs = uuid.first cs := by
  have hclasses : uuidClasses = (List.range' 0 36).map fun i c =>
      if i = 8 || i = 13 || i = 18 || i = 23 then decide (c = '-') else Token.isHexDigit c := rfl
  have hlength : (cs.take 36).length = 36 ↔ 36 ≤ cs.length := by
    rw [List.length_take]
    omega
  rw [first, uuid, ends_each, hclasses, all_zip_map_range, Token.uuid]
  simp only [List.length_map, List.length_range', hlength]
  split
  · next h =>
    rw [List.head?_cons, Option.map_some, List.length_drop]
    exact congrArg some (by omega)
  · rfl

/-! ### Base 64 -/

theorem head?_padding (cs : List Char) : (padding.ends cs).head? =
    some (cs.drop ((cs.take 2).takeWhile (· = '=')).length) := by
  rw [padding, ends_opt]
  match cs with
  | [] => rfl
  | c :: cs =>
    rw [ends_one_seq_cons]
    by_cases hc : c = '='
    · rw [if_pos (by simpa using hc), ends_opt]
      match cs with
      | [] => simp [hc, ends]
      | d :: cs =>
        rw [ends_one_cons]
        by_cases hd : d = '='
        · simp [hc, hd]
        · simp [hc, hd]
    · simp [hc]

/-- **Blocks of base 64 are what the search for their pattern finds.** -/
theorem base64_first (cs : List Char) : Token.base64 cs = base64.first cs := by
  have hpadding : ∀ ds, padding.ends ds ≠ [] := fun ds h => by
    have hhead := head?_padding ds
    rw [h] at hhead
    cases hhead
  have hlength := length_takeWhile_add isBase64Char cs
  have hmarks : (((cs.dropWhile isBase64Char).take 2).takeWhile (· = '=')).length ≤
      (cs.dropWhile isBase64Char).length :=
    ((List.takeWhile_sublist _).trans (List.take_sublist 2 _)).length_le
  rw [first, base64, head?_seq hpadding, head?_atLeast, Token.base64]
  change (if Token.minBase64 ≤ (cs.takeWhile isBase64Char).length then
    some ((cs.takeWhile isBase64Char).length + (((cs.drop (cs.takeWhile isBase64Char).length).take
      2).takeWhile (· = '=')).length) else none) = _
  rw [drop_length_takeWhile]
  split
  · rw [Option.bind_some, head?_padding, Option.map_some, List.length_drop]
    exact congrArg some (by omega)
  · rfl

/-! ### What the forms read -/

theorem isAddressChar_of_isAlphanum {c : Char} (h : c.isAlphanum = true) :
    Token.isAddressChar c = true := by
  obtain ⟨hblank, hmarks⟩ := isAlphanum_facts h
  simp only [List.mem_cons, not_or] at hmarks
  simp [Token.isAddressChar, hblank, hmarks]

theorem isAddressChar_of_mem {c : Char} (ds : List Char) (hds : ds.all Token.isAddressChar = true)
    (h : c.isAlphanum = true ∨ c ∈ ds) : Token.isAddressChar c = true := by
  rcases h with h | h
  · exact isAddressChar_of_isAlphanum h
  · exact List.all_eq_true.1 hds c h

theorem isAddressChar_of_eq {d : Char} (hd : Token.isAddressChar d = true) :
    ∀ c, decide (c = d) = true → Token.isAddressChar c = true := by
  intro c hc
  rwa [of_decide_eq_true hc]

theorem web_within : web.Within Token.isAddressChar := by
  have hscheme : scheme.Within Token.isAddressChar := by
    refine ⟨fun c hc => isAddressChar_of_isAlphanum (by simp [Char.isAlphanum, hc]),
      fun c hc => isAddressChar_of_mem ['+', '.', '-'] rfl ?_, within_literal rfl⟩
    simpa [isSchemeChar, or_assoc] using hc
  exact ⟨⟨isAddressChar_of_eq rfl, trivial⟩, ⟨hscheme, within_literal rfl⟩,
    within_atLeast 1 fun _ => id⟩

theorem mail_within : mail.Within Token.isAddressChar := by
  have hhost : (atLeast 1 Token.isHostChar).Within Token.isAddressChar :=
    within_atLeast 1 fun c hc => isAddressChar_of_mem ['-'] rfl (by
      simpa [Token.isHostChar] using hc)
  have hletters : (atLeast 2 Char.isAlpha).Within Token.isAddressChar :=
    within_atLeast 2 fun c hc => isAddressChar_of_isAlphanum (by simp [Char.isAlphanum, hc])
  refine ⟨within_atLeast 1 fun c hc => ?_, isAddressChar_of_eq rfl, hhost,
    ⟨isAddressChar_of_eq rfl, hhost⟩, isAddressChar_of_eq rfl, hletters⟩
  refine isAddressChar_of_mem ['.', '_', '%', '+', '-'] rfl ?_
  simpa [Token.isMailboxChar, or_assoc] using hc

theorem isAlphanum_of_isHexDigit {c : Char} (h : Token.isHexDigit c = true) :
    c.isAlphanum = true := by
  simp only [Token.isHexDigit, Bool.or_eq_true, Bool.and_eq_true, decide_eq_true_eq, Char.le_def,
    UInt32.le_iff_toNat_le] at h
  change (c.isDigit = true ∨ 97 ≤ c.toNat ∧ c.toNat ≤ 102) ∨ 65 ≤ c.toNat ∧ c.toNat ≤ 70 at h
  show ((decide (c.val ≥ 'A'.val ∧ c.val ≤ 'Z'.val) ||
    (c.val ≥ 'a'.val && c.val ≤ 'z'.val)) || c.isDigit) = true
  simp only [Bool.or_eq_true, Bool.and_eq_true, decide_eq_true_eq, ge_iff_le,
    UInt32.le_iff_toNat_le]
  change ((65 ≤ c.toNat ∧ c.toNat ≤ 90) ∨ (97 ≤ c.toNat ∧ c.toNat ≤ 122)) ∨ c.isDigit = true
  rcases h with (h | h) | h
  · exact .inr h
  · exact .inl (.inr (by omega))
  · exact .inl (.inl (by omega))

theorem uuid_within : uuid.Within Token.isAddressChar := by
  refine within_each fun p hp c hc => ?_
  have hclass : p = (Token.isHexDigit ·) ∨ p = (decide <| · = '-') := by
    simp only [uuidClasses, List.mem_append, List.mem_replicate, List.mem_singleton] at hp
    tauto
  rcases hclass with rfl | rfl
  · exact isAddressChar_of_isAlphanum (isAlphanum_of_isHexDigit hc)
  · exact isAddressChar_of_eq rfl c hc

theorem base64_within : base64.Within Token.isAddressChar := by
  have hmark := isAddressChar_of_eq (d := '=') rfl
  refine ⟨within_atLeast Token.minBase64 fun c hc => ?_, ⟨hmark, hmark, trivial⟩, trivial⟩
  refine isAddressChar_of_mem ['+', '/'] rfl ?_
  simpa [isBase64Char, or_assoc] using hc

end Pattern

namespace Token

/-- A form reads at least one character, and none that cannot stand in an address. -/
def ReadsAddress (form : List Char → Option Nat) : Prop :=
  ∀ cs n, form cs = some n →
    0 < n ∧ n ≤ cs.length ∧ ∀ c ∈ cs.take n, isAddressChar c = true

theorem readsAddress_of_first {form : List Char → Option Nat} {a : Pattern}
    (hform : ∀ cs, form cs = a.first cs) (hwithin : a.Within isAddressChar)
    (hsome : a.readsSome = true) : ReadsAddress form := by
  intro cs n h
  rw [hform] at h
  exact ⟨Pattern.first_pos hsome h, Pattern.of_first hwithin h⟩

theorem readsAddress_webAddress : ReadsAddress webAddress :=
  readsAddress_of_first Pattern.web_first Pattern.web_within rfl

theorem readsAddress_mailAddress : ReadsAddress mailAddress :=
  readsAddress_of_first Pattern.mail_first Pattern.mail_within rfl

theorem readsAddress_uuid : ReadsAddress uuid :=
  readsAddress_of_first Pattern.uuid_first Pattern.uuid_within rfl

theorem readsAddress_base64 : ReadsAddress base64 :=
  readsAddress_of_first Pattern.base64_first Pattern.base64_within rfl

end Token

end AgentRules
