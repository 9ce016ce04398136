import AgentRules.Proofs.Agent.LateEnds
import AgentRules.Proofs.Agent.Stretch

/-! # Reading by index is planting the branches of the grammar

A reader by index hangs into the tree what the grammar has branches for, and reports what the
grammar reports (`ends_read`). So it never breaks off: it has a token at every index, goes below no
number, cuts at boundaries only, and the tree refuses nothing (`readTree_eq`). -/

namespace AgentRules.Grammar

open Branch Outcome SyntaxTree Text

/-- The end of the last branch, or a place if there is none. -/
def endBehind (stop : Nat) (bs : List Branch) : Nat := bs.foldl (fun _ b => b.stop) stop

theorem endBehind_cons (stop : Nat) (b : Branch) (bs : List Branch) :
    endBehind stop (b :: bs) = endBehind b.stop bs := rfl

theorem endBehind_append (stop : Nat) (bs cs : List Branch) :
    endBehind stop (bs ++ cs) = endBehind (endBehind stop bs) cs := List.foldl_append

theorem stop_around {kind : NodeKind} {start : Nat} {b : Branch} {bs : List Branch} :
    Branch.around kind start (b :: bs) = .mk kind start (endBehind b.stop bs) (b :: bs) := by
  have hlast (c : Branch) : (c :: bs).getLast?.elim start Branch.stop = endBehind c.stop bs := by
    induction bs generalizing c with
    | nil => rfl
    | cons d bs ih => exact ih d
  rw [Branch.around, hlast]

theorem stop_blockBranch (depth : Nat) (b : Block) (children : List Branch) :
    (blockBranch depth b children).stop = b.stop := by
  unfold blockBranch
  split <;> rfl

/-- The inside of a block is empty if nothing or the closing parenthesis comes next. -/
theorem cutAtClose_eq_nil {ahead rest : List Token} {close : Option Token}
    (h : cutAtClose 0 ahead = ([], close, rest)) : (ahead = [] ∧ close = none ∧ rest = []) ∨
      ∃ c, ahead = c :: rest ∧ close = some c ∧ c.kind = .closing := by
  rcases ahead with _ | ⟨c, ahead⟩
  · cases h
    exact .inl ⟨rfl, rfl, rfl⟩
  · rw [cutAtClose] at h
    split at h
    · next hc =>
      cases h
      exact .inr ⟨c, rfl, rfl, hc.1⟩
    · cases h

/-- The inside of a block starts with what comes next, which does not close the block. -/
theorem cutAtClose_eq_cons {t : Token} {ts ahead rest : List Token} {close : Option Token}
    (h : cutAtClose 0 ahead = (t :: ts, close, rest)) : ∃ more, ahead = t :: more ∧
      t.kind ≠ .closing ∧ cutAtClose (t.depthBehind 0) more = (ts, close, rest) := by
  rcases ahead with _ | ⟨c, ahead⟩
  · cases h
  · rw [cutAtClose] at h
    split at h
    · cases h
    · next hc =>
      cases h
      exact ⟨ahead, rfl, fun hk => hc ⟨hk, rfl⟩, rfl⟩

namespace Reading
variable {s : String} {toks ts : List Token} {i j : Nat} {t : Token} {tree grown : SyntaxTree}
  {parent depth : Nat} {e : Bool}

/-! ### Versions -/

theorem ends_readVersions_stop (r : Reader) (stop : Nat) (h : Between toks i j ts)
    (hno : ts[0]?.map (·.kind) ≠ some .slash) :
    Ends (fun n => readVersions toks n parent i j stop) r (i, stop) r := by
  refine .succ ((ends_kindAt h 0).bind ?_)
  simp only [if_neg hno]
  exact .pure _ _

/-- A slash without a value behind it is the last one. -/
theorem ends_readVersions_bare (e : Bool) (depth stop : Nat) (h : Between toks i j (t :: ts))
    (ht : t.kind = .slash) (hno : (ts[0]?.map (·.kind)).any TokenKind.isValue = false)
    (hadd : tree.add? parent .separator t.start t.stop = .ok grown) :
    Ends (fun n => readVersions toks n parent i j stop) ⟨tree, e, depth⟩ (i + 1, t.stop)
      ⟨grown, e, depth⟩ := by
  refine .succ ((ends_kindAt h 0).bind ?_)
  simp only [List.getElem?_cons_zero, Option.map_some, if_pos (congrArg some ht)]
  refine (ends_tokenAt h.head).bind ((ends_addNode hadd).bind ((ends_kindAt h 1).bind ?_))
  simp only [List.getElem?_cons_succ, hno, Bool.false_eq_true, if_false]
  exact .pure _ _

/-- **Slashes and values are read as the versions of the grammar.** -/
theorem ends_readVersions (e : Bool) (depth stop : Nat) (h : Between toks i j ts)
    (hplant : plantAll tree parent (versions ts).1 = .ok grown) :
    ∃ k, Ends (fun n => readVersions toks n parent i j stop) ⟨tree, e, depth⟩
        (k, endBehind stop (versions ts).1) ⟨grown, e, depth⟩ ∧
      Between toks k j (versions ts).2 := by
  fun_induction versions ts generalizing i stop tree with
  | case1 s v ts hs =>
    cases plantAll_nil_iff.1 hplant
    exact ⟨i, ends_readVersions_stop _ stop h (by simpa using hs), h⟩
  | case2 s v ts hs hv bs rest hrec ih =>
    rw [hrec] at ih
    obtain ⟨t₁, h₁, hplant⟩ := plantAll_cons_iff.1 hplant
    obtain ⟨t₂, h₂, hplant⟩ := plantAll_cons_iff.1 hplant
    obtain ⟨t₃, h₃, h₂⟩ := plant_wrap_iff.1 h₂
    obtain ⟨k, hends, hk⟩ := ih v.stop h.tail.tail hplant
    refine ⟨k, .succ ((ends_kindAt h 0).bind ?_), hk⟩
    simp only [List.getElem?_cons_zero, Option.map_some, Option.some.injEq, if_pos (not_not.1 hs)]
    refine (ends_tokenAt h.head).bind ((ends_addNode (plant_leaf_iff.1 h₁)).bind ?_)
    refine (ends_kindAt h 1).bind ?_
    simp only [List.getElem?_cons_succ, List.getElem?_cons_zero, Option.map_some, Option.any_some,
      if_pos hv]
    refine (ends_tokenAt h.tail.head).bind ((ends_addNode h₃).bind ?_)
    exact (ends_addNode h₂).bind hends
  | case3 s v ts hs hv =>
    obtain ⟨t₁, h₁, hplant⟩ := plantAll_cons_iff.1 hplant
    cases plantAll_nil_iff.1 hplant
    have hadd := plant_leaf_iff.1 h₁
    exact ⟨i + 1, ends_readVersions_bare e depth stop h (not_not.1 hs) (by simpa using hv) hadd,
      h.tail⟩
  | case4 s hs =>
    obtain ⟨t₁, h₁, hplant⟩ := plantAll_cons_iff.1 hplant
    cases plantAll_nil_iff.1 hplant
    have hadd := plant_leaf_iff.1 h₁
    exact ⟨i + 1, ends_readVersions_bare e depth stop h hs rfl hadd, h.tail⟩
  | case5 s hs =>
    cases plantAll_nil_iff.1 hplant
    exact ⟨i, ends_readVersions_stop _ stop h (by simpa using hs), h⟩
  | case6 =>
    cases plantAll_nil_iff.1 hplant
    exact ⟨i, ends_readVersions_stop _ stop h (by simp), h⟩

/-! ### Entries of one form -/

theorem markPlace_of_forall {cs : List Char} (h : ∀ c ∈ cs, ¬ (c = ':' ∨ c = '=')) :
    markPlace cs = none := by
  induction cs with
  | nil => rfl
  | cons c cs ih =>
    obtain ⟨hc, hcs⟩ := List.forall_mem_cons.1 h
    rw [markPlace, if_neg hc, ih hcs]
    rfl

theorem markPlace_append {key value : List Char} {c : Char}
    (hkey : ∀ d ∈ key, ¬ (d = ':' ∨ d = '=')) (hc : c = ':' ∨ c = '=') :
    markPlace (key ++ c :: value) = some (byteLength key) := by
  induction key with
  | nil => exact if_pos hc
  | cons d key ih =>
    obtain ⟨hd, hkey⟩ := List.forall_mem_cons.1 hkey
    rw [List.cons_append, markPlace, if_neg hd, ih hkey]
    rfl

theorem ends_keyPlace {r : Reader} (word : List Char) :
    Ends (fun _ => keyPlace word) r ((keyValue? word).map fun p => byteLength p.1) r := by
  have hsplit := (List.takeWhile_append_dropWhile (p := fun c => c ≠ ':' && c ≠ '=')
    (l := word)).symm
  have hkey : ∀ d ∈ word.takeWhile (fun c => c ≠ ':' && c ≠ '='), ¬ (d = ':' ∨ d = '=') :=
    fun d hd => by simpa using List.mem_takeWhile_imp hd
  dsimp only [keyValue?]
  rw [drop_length_takeWhile]
  generalize word.takeWhile (fun c => c ≠ ':' && c ≠ '=') = key at hsplit hkey
  rcases hrest : word.dropWhile (fun c => c ≠ ':' && c ≠ '=') with _ | ⟨c, value⟩
  · rw [hrest, List.append_nil] at hsplit
    simp only [keyPlace, hsplit, markPlace_of_forall hkey]
    exact .pure _ _
  · have hc : c = ':' ∨ c = '=' := by
      have hstop := eq_false_of_mem_head?_dropWhile c (by rw [hrest]; rfl)
      simpa [Classical.or_iff_not_imp_left] using hstop
    rw [hrest] at hsplit
    have hword : word = (key ++ [c]) ++ (value ++ []) := by rw [hsplit]; simp
    have hstop : byteLength word = byteLength key + 1 + byteLength value := by
      rw [hword, byteLength_append, byteLength_mark hc, List.append_nil]
    simp only [keyPlace, hsplit, markPlace_append hkey hc]
    rw [← hsplit]
    have hkeyCut : word = [] ++ (key ++ c :: value) := hsplit
    refine (ends_cut hkeyCut rfl (Nat.zero_add _).symm).bind ?_
    refine (ends_cut hword (byteLength_mark hc).symm hstop).bind ?_
    cases value with
    | nil => simpa using Ends.pure none r
    | cons d value =>
      dsimp only
      cases key.isEmpty <;> cases key.all isKeyChar <;> exact .pure _ _

/-- The key and the value that some tokens are. -/
def pair? : List Token → Option (List Char × List Char)
  | [t] => if t.kind = .word then keyValue? t.text else none
  | _ => none

theorem keyValue_of_pair {key value : List Char} (h : pair? (t :: ts) = some (key, value)) :
    keyValue? t.text = some (key, value) := by
  unfold pair? at h
  split at h
  · next u hu =>
    cases hu
    split at h
    · exact h
    · cases h
  · cases h

theorem plainEntry_eq (t : Token) (ts : List Token) : plainEntry? (t :: ts) =
    ((pair? (t :: ts)).map fun p => keyValueBranch t p.1 p.2).or (nameVersion? (t :: ts)) := by
  rcases ts with _ | ⟨u, us⟩
  · have hnone : nameVersion? [t] = none := rfl
    rw [hnone, Option.or_none, plainEntry?, pair?]
    split <;> rfl
  · rfl

section Below
variable (hs : Placed s toks) (hsource : tree.source = s)
include hs hsource

theorem ends_keyPlaceAt {last : Nat} (h : Between toks i (last + 1) (t :: ts)) :
    Ends (fun _ => keyPlaceAt toks i last) ⟨tree, e, depth⟩
      ((pair? (t :: ts)).map fun p => byteLength p.1) ⟨tree, e, depth⟩ := by
  have hlength := h.add_length
  rw [List.length_cons] at hlength
  rcases ts with _ | ⟨u, us⟩
  · obtain rfl : i = last := Nat.succ.inj hlength
    simp only [keyPlaceAt, if_true]
    refine (ends_tokenAt h.head).bind ?_
    by_cases hword : t.kind = .word
    · simp only [pair?, if_pos hword]
      exact (ends_textAt hs hsource h.head).bind (ends_keyPlace t.text)
    · simp only [pair?, if_neg hword]
      exact .pure _ _
  · have hne : i ≠ last := by
      rw [List.length_cons] at hlength
      omega
    simp only [keyPlaceAt, if_neg hne]
    exact .pure _ _

/-- **A key with its value is hung into the tree as the grammar divides it.** -/
theorem ends_addKeyValue {key value : List Char} {entry : Nat} (ht : toks[i]? = some t)
    (hkv : keyValue? t.text = some (key, value))
    (hplant : plant tree entry (keyValueBranch t key value) = .ok grown) :
    Ends (fun _ => addKeyValue toks entry i (byteLength key)) ⟨tree, e, depth⟩ ()
      ⟨grown, e, depth⟩ := by
  obtain ⟨c, hc, htext⟩ := keyValue_split hkv
  obtain ⟨before, behind, hsplit, hstart⟩ := hs.pieces t (List.mem_of_getElem? ht)
  obtain ⟨t₁, h₁, hbelow⟩ := plant_mk_iff.1 hplant
  obtain ⟨t₂, h₂, hbelow⟩ := plantAll_cons_iff.1 hbelow
  obtain ⟨t₃, h₃, hbelow⟩ := plantAll_cons_iff.1 hbelow
  cases plantAll_nil_iff.1 hbelow
  have h₂ := plant_leaf_iff.1 h₂
  refine (ends_tokenAt ht).bind ((ends_addNode h₁).bind ((ends_addNode h₂).bind ?_))
  have hsource' : t₂.source = s :=
    ((add_eq_ok h₂).2.2.1.trans (add_eq_ok h₁).2.2.1).trans hsource
  have hvalue : s.toList = (before ++ (key ++ [c])) ++ (value ++ behind) := by
    rw [hsplit, htext]
    simp
  refine ends_get.bind ?_
  rw [hsource']
  refine (ends_cut hvalue ?_ (stop_keyValue hkv)).bind ?_
  · rw [byteLength_append, byteLength_mark hc, hstart, Nat.add_assoc]
  · exact (ends_addNode (plant_leaf_iff.1 h₃)).bind (.pure _ _)

omit hs hsource in
theorem nameVersion_eq {v g n : Token} {rest : List Token}
    (hrev : (t :: ts).reverse = v :: g :: n :: rest) : nameVersion? (t :: ts) =
      if (t :: ts).all (fun t => t.kind = .word || t.kind = .space) && v.kind = .word &&
          v.text.head?.any Char.isDigit then
        some (.mk .product t.start v.stop [nameBranch t.start n.stop, versionBranch v])
      else none := by
  simp only [nameVersion?, hrev, List.head?_cons]

omit hs hsource in
theorem nameVersion_cases (t : Token) (ts : List Token) :
    (ts.length < 2 ∧ nameVersion? (t :: ts) = none) ∨
      2 ≤ ts.length ∧ ∃ v g n rest, (t :: ts).reverse = v :: g :: n :: rest := by
  rcases ts with _ | ⟨u, _ | ⟨w, ws⟩⟩
  · exact .inl ⟨Nat.two_pos, rfl⟩
  · exact .inl ⟨Nat.one_lt_two, rfl⟩
  · refine .inr ⟨Nat.le_add_left 2 _, ?_⟩
    rcases hrev : (t :: u :: w :: ws).reverse with _ | ⟨v, _ | ⟨g, _ | ⟨n, rest⟩⟩⟩
    case cons.cons.cons => exact ⟨v, g, n, rest, rfl⟩
    all_goals simpa using congrArg List.length hrev

theorem ends_versionAt {last : Nat} (h : Between toks i (last + 1) (t :: ts)) :
    Ends (fun n => versionAt toks n i last) ⟨tree, e, depth⟩
      (if (nameVersion? (t :: ts)).isSome then some last else none) ⟨tree, e, depth⟩ := by
  have hlength := h.add_length
  rw [List.length_cons] at hlength
  obtain ⟨hshort, hnone⟩ | ⟨hlong, v, g, n, rest, hrev⟩ := nameVersion_cases t ts
  · simp only [versionAt, if_pos (show last < i + 2 by omega), hnone]
    exact .pure _ _
  · obtain ⟨hv, -⟩ := h.behind hrev
    simp only [versionAt, if_neg (show ¬ last < i + 2 by omega)]
    refine (ends_arePlain h).bind ((ends_textAt hs hsource hv).bind ((ends_tokenAt hv).bind ?_))
    rw [nameVersion_eq hrev, Bool.and_right_comm]
    split <;> exact .pure _ _

omit hs hsource in
/-- **A name and a version are hung into the tree as the grammar has them.** -/
theorem ends_addNameVersion {entry last : Nat} {b : Branch}
    (h : Between toks i (last + 1) (t :: ts)) (hb : nameVersion? (t :: ts) = some b)
    (hplant : plant tree entry b = .ok grown) :
    Ends (fun _ => addNameVersion toks entry i last) ⟨tree, e, depth⟩ () ⟨grown, e, depth⟩ := by
  have hlength := h.add_length
  rw [List.length_cons] at hlength
  obtain ⟨-, hnone⟩ | ⟨hlong, v, g, n, rest, hrev⟩ := nameVersion_cases t ts
  · rw [hnone] at hb
    cases hb
  · obtain ⟨hv, hn⟩ := h.behind hrev
    rw [nameVersion_eq hrev] at hb
    split at hb
    · next hall =>
      cases hb
      have hword : v.kind = .word := by
        simp only [Bool.and_eq_true, decide_eq_true_eq] at hall
        exact hall.1.2
      obtain ⟨t₁, h₁, hbelow⟩ := plant_mk_iff.1 hplant
      obtain ⟨t₂, h₂, hbelow⟩ := plantAll_cons_iff.1 hbelow
      obtain ⟨t₃, h₃, hbelow⟩ := plantAll_cons_iff.1 hbelow
      cases plantAll_nil_iff.1 hbelow
      obtain ⟨t₄, h₄, h₂⟩ := plant_wrap_iff.1 h₂
      rw [versionBranch, if_pos hword] at h₃
      obtain ⟨t₅, h₅, h₃⟩ := plant_wrap_iff.1 h₃
      refine (ends_less (by omega)).bind ((ends_spanOf h.head hn).bind ?_)
      refine (ends_spanOf hv hv).bind ((ends_addNode h₁).bind ((ends_addNode h₄).bind ?_))
      exact (ends_addNode h₂).bind ((ends_addNode h₅).bind ((ends_addNode h₃).bind (.pure _ _)))
    · cases hb

/-! ### Entries and blocks -/

/-- The items of a list are read wherever the list stands among the tokens. -/
def ItemsRead (s : String) (toks : List Token) (depth : Nat) (ts : List Token) : Prop :=
  ∀ {i j parent : Nat} {tree grown : SyntaxTree} {e : Bool}, Between toks i j ts → Built tree →
    tree.source = s → plantAll tree parent (items depth ts).1 = .ok grown →
    Ends (fun n => readItems toks n parent i j) ⟨tree, e, depth⟩ ()
      ⟨grown, e || (items depth ts).2, depth⟩

theorem ends_readEntryBelow {last entry : Nat} (htree : Built tree)
    (h : Between toks i (last + 1) (t :: ts)) (hitems : ItemsRead s toks depth (t :: ts))
    (hplant : plantAll tree entry (belowEntry depth (t :: ts)).1 = .ok grown) :
    Ends (fun n => readEntryBelow toks n entry i last) ⟨tree, e, depth⟩ ()
      ⟨grown, e || (belowEntry depth (t :: ts)).2, depth⟩ := by
  unfold belowEntry at hplant ⊢
  rw [plainEntry_eq] at hplant ⊢
  refine .succ ?_
  simp only [readEntryBelow]
  refine (ends_keyPlaceAt hs hsource h).bind ?_
  cases hpair : pair? (t :: ts) with
  | some p =>
    obtain ⟨key, value⟩ := p
    simp only [hpair, Option.map_some, Option.some_or, Bool.or_false] at hplant ⊢
    obtain ⟨v, hv, hplant⟩ := plantAll_cons_iff.1 hplant
    cases plantAll_nil_iff.1 hplant
    exact ends_addKeyValue hs hsource h.head (keyValue_of_pair hpair) hv
  | none =>
    simp only [hpair, Option.map_none, Option.none_or] at hplant ⊢
    refine (ends_versionAt hs hsource h).bind ?_
    cases hb : nameVersion? (t :: ts) with
    | some b =>
      simp only [hb, Option.isSome_some, if_true, Bool.or_false] at hplant ⊢
      obtain ⟨v, hv, hplant⟩ := plantAll_cons_iff.1 hplant
      cases plantAll_nil_iff.1 hplant
      exact ends_addNameVersion h hb hv
    | none =>
      simp only [hb, Option.isSome_none, Bool.false_eq_true, if_false] at hplant ⊢
      exact hitems h htree hsource hplant

/-- **An entry is read as the grammar cuts it off**, and what follows of the block is left. -/
theorem ends_readEntry {ahead rest : List Token} {close : Option Token} {comments : Nat}
    (htree : Built tree) (h : Between toks i j (t :: ahead)) (hgap : isGap t = false)
    (hcut : cutAtClose 0 (t :: ahead) = (t :: ts, close, rest))
    (hitems : ItemsRead s toks depth (entryTokens t ts))
    (hplant : plant tree comments (.mk .commentEntry t.start (lastStop t (entryTokens t ts))
      (belowEntry depth (entryTokens t ts)).1) = .ok grown) :
    ∃ k behind, Ends (fun n => readEntry toks n comments i j) ⟨tree, e, depth⟩ k
        ⟨grown, e || (belowEntry depth (entryTokens t ts)).2, depth⟩ ∧
      Between toks k j behind ∧ cutAtClose 0 behind = (behindEntry t ts, close, rest) := by
  obtain ⟨k, behind, hstop, hown, hbehind, hleft⟩ := ends_entryStop
    (r := ⟨tree, e, depth⟩) h hcut
  rw [cutAtBreak_entry hgap] at hown hleft
  obtain ⟨last, hlast, hentry⟩ := ends_lastSolid (r := ⟨tree, e, depth⟩) hown
  obtain ⟨hpos, z, hz, hzstop⟩ := hentry.last
  rw [Nat.add_sub_cancel] at hz
  have hk : 1 ≤ k := Nat.one_le_of_lt hown.lt
  refine ⟨k, behind, .succ ?_, hbehind, hleft⟩
  simp only [readEntry]
  refine hstop.bind ((ends_less hk).bind (hlast.bind ((ends_spanOf h.head hz).bind ?_)))
  obtain ⟨v, hv, hbelow⟩ := plant_mk_iff.1 hplant
  rw [entryTokens, lastStop_cons, ← hzstop] at hv
  have hbuilt : Built v := .add htree hv
  have hsource' : v.source = s := (add_eq_ok hv).2.2.1.trans hsource
  refine (ends_addNode hv).bind ?_
  exact (ends_readEntryBelow hs hsource' hbuilt hentry hitems hbelow).bind (.pure _ _)

end Below

/-- The entries of a block are read wherever the inside of the block stands among the tokens, and
the end of the block is moved to its parenthesis or to the last token there is. -/
def EntriesRead (s : String) (toks : List Token) (depth : Nat) (inside : List Token) : Prop :=
  ∀ {i j comments start : Nat} {ahead rest : List Token} {close : Option Token} {z : Token}
    {tree grown moved : SyntaxTree} {e : Bool}, Between toks i j ahead →
    cutAtClose 0 ahead = (inside, close, rest) → 0 < j → toks[j - 1]? = some z → Built tree →
    tree.source = s → plantAll tree comments (entries depth inside).1 = .ok grown →
    grown.setStop? comments (close.elim (max z.stop (start + 1)) Token.stop) = .ok moved →
    ∃ k, Ends (fun n => readEntries toks n comments start i j) ⟨tree, e, depth⟩
        (k, close.elim (max z.stop (start + 1)) Token.stop)
        ⟨moved, e || (!close.isSome || (entries depth inside).2), depth⟩ ∧ Between toks k j rest

/-- What is nested too deeply is one text. -/
theorem ends_readBlock_deep (e : Bool) (hdeep : maxBlockDepth ≤ depth)
    (h : Between toks i j (t :: ts))
    (hadd : tree.add? parent .text t.start (lastStop t ts) = .ok grown) :
    Ends (fun n => readBlock toks n parent i j) ⟨tree, e, depth⟩ (j, lastStop t ts)
      ⟨grown, true, depth⟩ := by
  obtain ⟨hpos, z, hz, hzstop⟩ := h.last
  rw [← hzstop] at hadd ⊢
  refine .succ ?_
  simp only [readBlock]
  refine ends_get.bind ?_
  simp only [if_pos hdeep]
  refine ends_markMalformed.bind ((ends_less hpos).bind ((ends_spanOf h.head hz).bind ?_))
  exact (ends_addNode hadd).bind (.pure _ _)

/-- The reader is one block deeper while it reads the entries of a block. -/
theorem ends_readBlock_inside {e e' : Bool} {ends : Nat × Nat} {hung : SyntaxTree}
    (hdeep : ¬ maxBlockDepth ≤ depth) (ht : toks[i]? = some t)
    (hadd : tree.add? parent .comments t.start t.stop = .ok hung)
    (hentries : Ends (fun n => readEntries toks n tree.size t.start (i + 1) j)
      ⟨hung, e, depth + 1⟩ ends ⟨grown, e', depth + 1⟩) :
    Ends (fun n => readBlock toks n parent i j) ⟨tree, e, depth⟩ ends ⟨grown, e', depth⟩ := by
  have hinside := Ends.succ (x := fun n => readInside toks n parent i j) <| by
    simp only [readInside]
    exact (ends_tokenAt ht).bind ((ends_addNode hadd).bind hentries)
  refine .succ ?_
  simp only [readBlock]
  refine ends_get.bind ?_
  simp only [if_neg hdeep]
  refine (ends_setDepth (depth + 1)).bind (hinside.bind (ends_get.bind ?_))
  exact (ends_less (Nat.le_add_left 1 depth)).bind ((ends_setDepth depth).bind (.pure _ _))

/-- **A block is read as the grammar cuts it off.** -/
theorem ends_readBlock (hs : Contiguous s toks) (htree : Built tree) (hsource : tree.source = s)
    (h : Between toks i j (t :: ts))
    (hin : EntriesRead s toks (depth + 1) (Block.cut depth t ts).inside)
    (hplant : plant tree parent (blockBranch depth (Block.cut depth t ts)
      (entries (depth + 1) (Block.cut depth t ts).inside).1) = .ok grown) :
    ∃ k, Ends (fun n => readBlock toks n parent i j) ⟨tree, e, depth⟩
        (k, (Block.cut depth t ts).stop)
        ⟨grown, e || (!(Block.cut depth t ts).isClosed ||
          (entries (depth + 1) (Block.cut depth t ts).inside).2), depth⟩ ∧
      Between toks k j (Block.cut depth t ts).rest := by
  unfold blockBranch at hplant
  by_cases hdeep : maxBlockDepth ≤ depth
  · have hcut : Block.cut depth t ts = ⟨t.start, lastStop t ts, [], [], false⟩ := if_pos hdeep
    rw [if_pos hdeep] at hplant
    rw [hcut] at hplant ⊢
    rw [Bool.not_false, Bool.true_or, Bool.or_true]
    exact ⟨j, ends_readBlock_deep e hdeep h (plant_leaf_iff.1 hplant), .nil⟩
  · rw [if_neg hdeep] at hplant
    obtain ⟨hpos, z, hz, hzstop⟩ := h.last
    have ht : t ∈ toks := List.mem_of_getElem? h.head
    have hspan : IsSpan tree.source t.start t.stop := hsource ▸ hs.isSpan_token ht
    have hlast : max z.stop (t.start + 1) = lastStop t ts := by
      have := (h.contiguous hs).nonempty t List.mem_cons_self
      have := ((h.contiguous hs).within List.mem_cons_self).2
      omega
    rcases hcut : cutAtClose 0 ts with ⟨inside, close, rest⟩
    have hblock : Block.cut depth t ts =
        ⟨t.start, close.elim (lastStop t ts) Token.stop, inside, rest, close.isSome⟩ := by
      rw [Block.cut, if_neg hdeep, hcut]
      cases close <;> rfl
    rw [hblock] at hin hplant ⊢
    obtain ⟨v, w, hv, hw, hmove⟩ := plant_late htree hplant hspan
    rw [← hlast] at hmove ⊢
    have hsource' : v.source = s := (add_eq_ok hv).2.2.1.trans hsource
    obtain ⟨k, hends, hk⟩ := hin h.tail hcut hpos hz (.add htree hv) hsource' hw hmove
    exact ⟨k, ends_readBlock_inside hdeep h.head hv hends, hk⟩

/-! ### Items -/

/-- The blocks behind a product are read wherever they stand among the tokens. -/
def BlocksRead (s : String) (toks : List Token) (depth : Nat) (ts : List Token) : Prop :=
  ∀ {i j product : Nat} (stop : Nat) {tree grown : SyntaxTree} {e : Bool}, Between toks i j ts →
    Built tree → tree.source = s → plantAll tree product (blocks depth ts).1 = .ok grown →
    ∃ k, Ends (fun n => readBlocks toks n product i j stop) ⟨tree, e, depth⟩
        (k, endBehind stop (blocks depth ts).1) ⟨grown, e || (blocks depth ts).2, depth⟩ ∧
      Between toks k j (behindBlocks depth ts)

theorem ends_readItems_cons {k : Nat} {r r' r'' : Reader} (h : Between toks i j (t :: ts))
    (hitem : Ends (fun n => readItem toks n parent i j) r k r')
    (hrest : Ends (fun n => readItems toks n parent k j) r' () r'') :
    Ends (fun n => readItems toks n parent i j) r () r'' := by
  refine .succ ?_
  simp only [readItems, if_pos h.lt]
  exact hitem.bind hrest

/-- What follows some words tells the reader what it tells the grammar. -/
theorem exists_ahead (r : Reader) (h : Between toks i j ts) :
    ∃ block kind, Ends (fun _ => blockAt toks i j) r block r ∧
      Ends (fun _ => kindAt toks i j) r kind r ∧
      (kind ≠ some .slash ∧ block = none ↔ namesProduct ts = false) := by
  have hkind := ends_kindAt (r := r) h 0
  have hslash : ts[0]?.map (·.kind) ≠ some .slash ↔ ts.head?.any (·.kind = .slash) = false := by
    cases ts <;> simp
  cases hnext : nextBlock? ts with
  | none =>
    refine ⟨none, _, ends_blockAt_none h hnext, hkind, ?_⟩
    rw [hslash, namesProduct, hnext]
    simp
  | some p =>
    obtain ⟨t, us⟩ := p
    obtain ⟨-, k, hends, -⟩ := ends_blockAt_some (r := r) h hnext
    refine ⟨some k, _, hends, hkind, ?_⟩
    rw [namesProduct, hnext]
    simp

theorem ends_readWords_text (e : Bool) (depth : Nat) (h : Between toks i j (t :: ts))
    (hnames : namesProduct (moreWords t.stop ts).2 = false)
    (hplant : plant tree parent (.leaf .text t.start (moreWords t.stop ts).1) = .ok grown) :
    ∃ k, Ends (fun n => readWords toks n parent i j) ⟨tree, e, depth⟩ k ⟨grown, e, depth⟩ ∧
      Between toks k j (moreWords t.stop ts).2 := by
  obtain ⟨last, w, hlast, hw, hstop, hbehind⟩ := ends_lastWord (r := ⟨tree, e, depth⟩) h.head rfl
    h.tail
  obtain ⟨block, kind, hblock, hkind, htext⟩ := exists_ahead ⟨tree, e, depth⟩ hbehind
  rw [← hstop] at hplant
  refine ⟨last + 1, .succ ?_, hbehind⟩
  simp only [readWords]
  refine hlast.bind (hblock.bind (hkind.bind ((ends_spanOf h.head hw).bind ?_)))
  simp only [if_pos (htext.2 hnames)]
  exact (ends_addNode (plant_leaf_iff.1 hplant)).bind (.pure _ _)

/-- **A product is read**, and its end is moved behind all that is read of it. -/
theorem ends_readWords_product (hs : Contiguous s toks) (htree : Built tree)
    (hsource : tree.source = s) (h : Between toks i j (t :: ts)) (ht : t.kind = .word)
    (hnames : namesProduct (moreWords t.stop ts).2 = true)
    (hblocks : BlocksRead s toks depth (behindVersions t ts))
    (hplant : plant tree parent (productBranch depth t ts) = .ok grown) :
    ∃ k, Ends (fun n => readWords toks n parent i j) ⟨tree, e, depth⟩ k
        ⟨grown, e || (blocks depth (behindVersions t ts)).2, depth⟩ ∧
      Between toks k j (behindBlocks depth (behindVersions t ts)) := by
  obtain ⟨last, w, hlast, hw, hwstop, hbehind⟩ := ends_lastWord (r := ⟨tree, e, depth⟩) h.head rfl
    h.tail
  obtain ⟨more, hmore, -, hstop⟩ := words_parts ht ts
  have hspan : IsSpan tree.source t.start w.stop := by
    have hplaced := (h.contiguous hs).toPlaced
    rw [hmore, ← List.cons_append] at hplaced
    rw [hsource, hwstop, hstop]
    exact isSpan_tokens (hplaced.sublist (List.sublist_append_left _ _))
  rw [productBranch, stop_around, endBehind_append, ← hwstop] at hplant
  obtain ⟨v, grown', hv, hbelow, hmove⟩ := plant_late htree hplant hspan
  obtain ⟨v₁, hname, hbelow⟩ := plantAll_cons_iff.1 hbelow
  obtain ⟨v₂, hversions, hbelow⟩ := plantAll_append_iff.1 hbelow
  obtain ⟨v₀, hwrap, hname'⟩ := plant_wrap_iff.1 hname
  have hplanted₁ := planted_plant (.add htree hv) _ hname
  have hlt : tree.size < v₁.size := by
    have := size_add hv
    have := hplanted₁.size_le
    omega
  have hplanted₂ := planted_plantAll hplanted₁.built hlt _ hversions
  have hsource₂ : v₂.source = s :=
    hplanted₂.source.trans (hplanted₁.source.trans ((add_eq_ok hv).2.2.1.trans hsource))
  obtain ⟨block, kind, hblock, hkind, htext⟩ := exists_ahead ⟨tree, e, depth⟩ hbehind
  obtain ⟨next, hread, hnext⟩ := ends_readVersions e depth w.stop hbehind hversions
  obtain ⟨k, hends, hk⟩ := hblocks (e := e) (endBehind w.stop _) hnext hplanted₂.built hsource₂
    hbelow
  refine ⟨k, .succ ?_, hk⟩
  simp only [readWords]
  refine hlast.bind (hblock.bind (hkind.bind ((ends_spanOf h.head hw).bind ?_)))
  simp only [if_neg (fun hno => Bool.false_ne_true ((htext.1 hno).symm.trans hnames))]
  refine (ends_addNode hv).bind ((ends_addNode hwrap).bind ((ends_addNode hname').bind ?_))
  exact hread.bind (hends.bind ((ends_moveStop hmove).bind (.pure _ _)))

/-! ### The cases of the grammar -/

theorem itemsRead_nil (depth : Nat) : ItemsRead s toks depth [] := by
  intro i j parent tree grown e h _ _ hplant
  cases h
  rw [items_nil] at hplant ⊢
  cases plantAll_nil_iff.1 hplant
  refine .succ ?_
  simp only [readItems, if_neg (Nat.lt_irrefl _), Bool.or_false]
  exact .pure _ _

theorem itemsRead_skip (ht : isGap t = true ∨ t.kind = .slash) (ih : ItemsRead s toks depth ts) :
    ItemsRead s toks depth (t :: ts) := by
  intro i j parent tree grown e h htree hsource hplant
  rw [items_skip ht] at hplant ⊢
  refine ends_readItems_cons h (.succ ?_) (ih h.tail htree hsource hplant)
  simp only [readItem]
  refine (ends_tokenAt h.head).bind ?_
  have hkind : t.kind = .space ∨ t.kind = .semicolon ∨ t.kind = .comma ∨ t.kind = .slash := by
    simpa [isGap, or_assoc] using ht
  rcases hkind with hk | hk | hk | hk <;> simp only [hk] <;> exact .pure _ _

theorem itemsRead_closing (ht : t.kind = .closing) (ih : ItemsRead s toks depth ts) :
    ItemsRead s toks depth (t :: ts) := by
  intro i j parent tree grown e h htree hsource hplant
  rw [items_closing ht] at hplant ⊢
  have hrest := ih (e := true) h.tail htree hsource hplant
  rw [Bool.true_or] at hrest
  rw [Bool.or_true]
  refine ends_readItems_cons h (.succ ?_) hrest
  simp only [readItem]
  refine (ends_tokenAt h.head).bind ?_
  simp only [ht]
  exact ends_markMalformed.bind (.pure _ _)

theorem itemsRead_opening (hs : Contiguous s toks) (ht : t.kind = .opening)
    (hin : EntriesRead s toks (depth + 1) (Block.cut depth t ts).inside)
    (hrest : ItemsRead s toks depth (Block.cut depth t ts).rest) :
    ItemsRead s toks depth (t :: ts) := by
  intro i j parent tree grown e h htree hsource hplant
  rw [items_opening ht] at hplant ⊢
  obtain ⟨v, hv, hbuilt, hsame, hplant⟩ := plantAll_cons_ok htree hplant
  obtain ⟨k, hends, hk⟩ := ends_readBlock (e := e) hs htree hsource h hin hv
  have hrest := hrest (e := e || (!(Block.cut depth t ts).isClosed ||
    (entries (depth + 1) (Block.cut depth t ts).inside).2)) hk hbuilt
    (hsame.trans hsource) hplant
  rw [Bool.or_assoc] at hrest
  refine ends_readItems_cons h (.succ ?_) hrest
  simp only [readItem]
  refine (ends_tokenAt h.head).bind ?_
  simp only [ht]
  exact hends.bind (.pure _ _)

theorem itemsRead_product (hs : Contiguous s toks) (ht : t.kind = .word)
    (hnames : namesProduct (moreWords t.stop ts).2 = true)
    (hblocks : BlocksRead s toks depth (behindVersions t ts))
    (hrest : ItemsRead s toks depth (behindBlocks depth (behindVersions t ts))) :
    ItemsRead s toks depth (t :: ts) := by
  intro i j parent tree grown e h htree hsource hplant
  rw [items_product ht hnames] at hplant ⊢
  obtain ⟨v, hv, hbuilt, hsame, hplant⟩ := plantAll_cons_ok htree hplant
  obtain ⟨k, hends, hk⟩ := ends_readWords_product (e := e) hs htree hsource h ht hnames hblocks hv
  have hrest := hrest (e := e || (blocks depth (behindVersions t ts)).2) hk hbuilt
    (hsame.trans hsource) hplant
  rw [Bool.or_assoc] at hrest
  refine ends_readItems_cons h (.succ ?_) hrest
  simp only [readItem]
  refine (ends_tokenAt h.head).bind ?_
  simp only [ht]
  exact hends

theorem itemsRead_text (ht : t.kind = .word) (hnames : namesProduct (moreWords t.stop ts).2 = false)
    (ih : ItemsRead s toks depth (moreWords t.stop ts).2) : ItemsRead s toks depth (t :: ts) := by
  intro i j parent tree grown e h htree hsource hplant
  rw [items_text ht hnames] at hplant ⊢
  obtain ⟨v, hv, hbuilt, hsame, hplant⟩ := plantAll_cons_ok htree hplant
  obtain ⟨k, hends, hk⟩ := ends_readWords_text e depth h hnames hv
  have hrest := ih (e := e) hk hbuilt (hsame.trans hsource) hplant
  refine ends_readItems_cons h (.succ ?_) hrest
  simp only [readItem]
  refine (ends_tokenAt h.head).bind ?_
  simp only [ht]
  exact hends

theorem itemsRead_special (ht : isSpecial t = true) (ih : ItemsRead s toks depth ts) :
    ItemsRead s toks depth (t :: ts) := by
  intro i j parent tree grown e h htree hsource hplant
  rw [items_special ht] at hplant ⊢
  obtain ⟨v, hv, hbuilt, hsame, hplant⟩ := plantAll_cons_ok htree hplant
  have hrest := ih (e := e) h.tail hbuilt (hsame.trans hsource) hplant
  refine ends_readItems_cons h (.succ ?_) hrest
  simp only [readItem]
  refine (ends_tokenAt h.head).bind ?_
  unfold isSpecial at ht
  rcases hk : t.kind <;> simp [hk, TokenKind.isValue] at ht <;> simp only [hk] at hv ⊢ <;>
    exact (ends_addNode (plant_leaf_iff.1 hv)).bind (.pure _ _)

theorem blocksRead_none (hnone : nextBlock? ts = none) : BlocksRead s toks depth ts := by
  intro i j product stop tree grown e h _ _ hplant
  rw [blocks_none hnone] at hplant ⊢
  rw [behindBlocks_none hnone]
  cases plantAll_nil_iff.1 hplant
  refine ⟨i, .succ ?_, h⟩
  simp only [readBlocks, Bool.or_false]
  exact (ends_blockAt_none h hnone).bind (.pure _ _)

theorem blocksRead_some {us : List Token} (hs : Contiguous s toks)
    (hnext : nextBlock? ts = some (t, us))
    (hin : EntriesRead s toks (depth + 1) (Block.cut depth t us).inside)
    (hrest : BlocksRead s toks depth (Block.cut depth t us).rest) : BlocksRead s toks depth ts := by
  intro i j product stop tree grown e h htree hsource hplant
  rw [blocks_some hnext] at hplant ⊢
  rw [behindBlocks_some hnext]
  obtain ⟨v, hv, hbuilt, hsame, hplant⟩ := plantAll_cons_ok htree hplant
  obtain ⟨-, opening, hblock, hopening⟩ := ends_blockAt_some (r := ⟨tree, e, depth⟩) h hnext
  obtain ⟨next, hends, hnext⟩ := ends_readBlock (e := e) hs htree hsource hopening hin hv
  obtain ⟨k, hrest, hk⟩ := hrest (e := e || (!(Block.cut depth t us).isClosed ||
    (entries (depth + 1) (Block.cut depth t us).inside).2)) (Block.cut depth t us).stop hnext
    hbuilt (hsame.trans hsource) hplant
  rw [Bool.or_assoc] at hrest
  refine ⟨k, .succ ?_, hk⟩
  simp only [readBlocks]
  refine hblock.bind (hends.bind ?_)
  rw [endBehind_cons, stop_blockBranch]
  exact hrest

theorem entriesRead_nil (depth : Nat) : EntriesRead s toks depth [] := by
  intro i j comments start ahead rest close z tree grown moved e h hcut hpos hz htree hsource
    hplant hmove
  rw [entries_nil] at hplant ⊢
  cases plantAll_nil_iff.1 hplant
  obtain ⟨rfl, rfl, rfl⟩ | ⟨c, rfl, rfl, hc⟩ := cutAtClose_eq_nil hcut
  · refine ⟨i, .succ ?_, h⟩
    simp only [readEntries]
    refine (ends_kindAt h 0).bind (ends_markMalformed.bind ?_)
    simp only [lastEnd, if_pos hpos]
    refine ((ends_less hpos).bind ((ends_tokenAt hz).bind (.pure z.stop _))).bind ?_
    rw [show (e || (!(none : Option Token).isSome || false)) = true from Bool.or_true e]
    exact (ends_moveStop hmove).bind (.pure _ _)
  · refine ⟨i + 1, .succ ?_, h.tail⟩
    simp only [readEntries]
    refine (ends_kindAt h 0).bind ?_
    simp only [List.getElem?_cons_zero, Option.map_some, hc, Option.isSome_some, Bool.not_true,
      Bool.or_false]
    exact (ends_tokenAt h.head).bind ((ends_moveStop hmove).bind (.pure _ _))

theorem entriesRead_gap (ht : isGap t = true) (ih : EntriesRead s toks depth ts) :
    EntriesRead s toks depth (t :: ts) := by
  intro i j comments start ahead rest close z tree grown moved e h hcut hpos hz htree hsource
    hplant hmove
  rw [entries_gap ht] at hplant ⊢
  obtain ⟨more, rfl, -, hmore⟩ := cutAtClose_eq_cons hcut
  have hkind : t.kind = .space ∨ t.kind = .semicolon ∨ t.kind = .comma := by
    simpa [isGap, or_assoc] using ht
  have hdepth : t.depthBehind 0 = 0 := by
    rcases hkind with hk | hk | hk <;> simp [Token.depthBehind, hk]
  rw [hdepth] at hmore
  obtain ⟨k, hends, hk⟩ := ih h.tail hmore hpos hz htree hsource hplant hmove
  refine ⟨k, .succ ?_, hk⟩
  simp only [readEntries]
  refine (ends_kindAt h 0).bind ?_
  simp only [List.getElem?_cons_zero, Option.map_some]
  rcases hkind with hk | hk | hk <;> simpa only [hk] using hends

theorem entriesRead_entry (hs : Contiguous s toks) (ht : isGap t = false)
    (hown : ItemsRead s toks depth (entryTokens t ts))
    (hrest : EntriesRead s toks depth (behindEntry t ts)) :
    EntriesRead s toks depth (t :: ts) := by
  intro i j comments start ahead rest close z tree grown moved e h hcut hpos hz htree hsource
    hplant hmove
  rw [entries_entry ht] at hplant ⊢
  obtain ⟨more, rfl, hclosing, -⟩ := cutAtClose_eq_cons hcut
  obtain ⟨v, hv, hbuilt, hsame, hplant⟩ := plantAll_cons_ok htree hplant
  obtain ⟨next, behind, hends, hnext, hbehind⟩ :=
    ends_readEntry (e := e) hs.toPlaced hsource htree h ht hcut hown hv
  obtain ⟨k, hrest, hk⟩ := hrest (e := e || (belowEntry depth (entryTokens t ts)).2) hnext hbehind
    hpos hz hbuilt (hsame.trans hsource) hplant hmove
  rw [Bool.or_assoc, Bool.or_left_comm (belowEntry depth (entryTokens t ts)).2] at hrest
  refine ⟨k, .succ ?_, hk⟩
  simp only [readEntries]
  refine (ends_kindAt h 0).bind ?_
  simp only [List.getElem?_cons_zero, Option.map_some]
  unfold isGap at ht
  rcases hk : t.kind <;> simp [hk] at ht hclosing <;> exact hends.bind hrest

/-- **Reading by index hangs in what the grammar has branches for.** -/
theorem ends_read (hs : Contiguous s toks) :
    (∀ depth ts, ItemsRead s toks depth ts) ∧ (∀ depth ts, BlocksRead s toks depth ts) ∧
      ∀ depth inside, EntriesRead s toks depth inside := by
  apply forest_induct
  case nil => exact itemsRead_nil
  case skip => exact fun _ _ _ ht => itemsRead_skip ht
  case closing => exact fun _ _ _ ht => itemsRead_closing ht
  case opening => exact fun _ _ _ ht => itemsRead_opening hs ht
  case product => exact fun _ _ _ ht hnames => itemsRead_product hs ht hnames
  case text => exact fun _ _ _ ht hnames => itemsRead_text ht hnames
  case special => exact fun _ _ _ ht => itemsRead_special ht
  case last => exact fun _ _ hnone => blocksRead_none hnone
  case block => exact fun _ _ _ _ hnext => blocksRead_some hs hnext
  case done => exact entriesRead_nil
  case gap => exact fun _ _ _ ht => entriesRead_gap ht
  case entry => exact fun _ _ _ ht => entriesRead_entry hs ht

end Reading

/-- **A reader by index makes the tree of the grammar**, and does not break off if it gets enough
rounds. -/
theorem readTree_eq {text : String} {t : SyntaxTree} (h : parse text = .ok t) :
    ∃ enough, ∀ n, enough ≤ n → readTree n text = .ok t := by
  simp only [parse] at h
  obtain ⟨grown, hplant, hmark⟩ := bind_eq_ok_iff.1 h
  cases hmark
  obtain ⟨enough, hends⟩ := (Reading.ends_read (Token.contiguous_scan text)).1 0 _ (e := false)
    (Between.all _) (.ofSource text) rfl hplant
  refine ⟨enough, fun n hn => ?_⟩
  rw [Bool.false_or] at hends
  simp only [readTree, hends n hn]
  rfl

end AgentRules.Grammar
