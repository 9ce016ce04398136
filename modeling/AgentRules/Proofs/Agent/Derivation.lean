import Mathlib.Logic.Basic
import AgentRules.Proofs.Agent.Contiguous

/-! # Derivations

What the grammar reads, said without saying how far it looks ahead: `Derives depth ts bs` says that
the piece `ts` of the tokens of a text, inside `depth` blocks, reads as the branches `bs`. A branch
covers the tokens it is made of; what is below it is made of the same tokens; and only marks and
blanks make nothing. The functions of the grammar cut their tokens without remainder, so they follow
these rules (`derives_forest`), and what holds of all derivations holds of all texts. -/

namespace AgentRules.Grammar

/-! ### The rules -/

/-- Words with blanks between them. -/
structure IsName (ts : List Token) : Prop where
  plain : ∀ t ∈ ts, t.kind = .word ∨ t.kind = .space
  first : ∀ t ∈ ts.head?, t.kind = .word
  last : ∀ t ∈ ts.getLast?, t.kind = .word

/-- The kinds of the leaves that stand for one value. -/
def valueKinds : List NodeKind := [.version, .url, .email, .uuid, .base64]

/-- The tokens that a leaf of some kind stands for. -/
inductive StandsFor : NodeKind → List Token → Prop
  | text {ts : List Token} : StandsFor .text ts
  | name {ts : List Token} : IsName ts → StandsFor .name ts
  | value {kind : NodeKind} {t : Token} : kind ∈ valueKinds → t.kind.isValue = true →
      StandsFor kind [t]
  | mark {t : Token} : t.kind.isValue = false → StandsFor .separator [t]

/-- The kinds of nodes, but for blocks, that have other nodes below them. -/
def innerKinds : List NodeKind := [.product, .productName, .productVersion, .commentEntry]

/-- A node of some kind inside some blocks, and the number of blocks that what is below it is in. -/
inductive Encloses : NodeKind → Nat → Nat → Prop
  | block {depth : Nat} : depth < maxBlockDepth → Encloses .comments depth (depth + 1)
  | inner {kind : NodeKind} {depth : Nat} : kind ∈ innerKinds → Encloses kind depth depth

/-- The kinds of leaves, but for keys. -/
def leafKinds : List NodeKind := .text :: .name :: .separator :: valueKinds

theorem StandsFor.kind_mem {kind : NodeKind} {ts : List Token} (h : StandsFor kind ts) :
    kind ∈ leafKinds := by
  cases h with
  | text | name | mark => decide
  | value hkind => exact List.mem_append_right [.text, .name, .separator] hkind

theorem Encloses.kind_mem {kind : NodeKind} {depth inner : Nat} (h : Encloses kind depth inner) :
    kind ∈ NodeKind.comments :: innerKinds := by
  cases h with
  | block => exact List.mem_cons_self
  | inner hkind => exact List.mem_cons_of_mem _ hkind

/-- The tokens, inside some blocks, read as the branches. -/
inductive Derives : Nat → List Token → List Branch → Prop
  | nil {depth : Nat} : Derives depth [] []
  | silent {depth : Nat} {t : Token} : t.kind.isValue = false → Derives depth [t] []
  | append {depth : Nat} {ts us : List Token} {bs cs : List Branch} :
      Derives depth ts bs → Derives depth us cs → Derives depth (ts ++ us) (bs ++ cs)
  | leaf {depth : Nat} {kind : NodeKind} {t : Token} {ts : List Token} :
      StandsFor kind (t :: ts) → Derives depth (t :: ts) [.leaf kind t.start (lastStop t ts)]
  | node {depth inner : Nat} {kind : NodeKind} {t : Token} {ts : List Token} {bs : List Branch} :
      Encloses kind depth inner → Derives inner (t :: ts) bs →
      Derives depth (t :: ts) [.mk kind t.start (lastStop t ts) bs]
  | pair {depth : Nat} {t : Token} {key value : List Char} : t.kind = .word →
      keyValue? t.text = some (key, value) →
      Derives depth [t] [.mk .commentEntry t.start t.stop [keyValueBranch t key value]]

section Rules
variable {depth : Nat} {t : Token} {ts us : List Token} {bs cs : List Branch}

theorem Derives.cons (ht : t.kind.isValue = false) (h : Derives depth ts bs) :
    Derives depth (t :: ts) bs :=
  .append (.silent ht) h

theorem not_value_of_skip (h : isGap t = true ∨ t.kind = .slash) : t.kind.isValue = false := by
  rcases hk : t.kind <;> simp [isGap, hk, TokenKind.isValue] at h ⊢

theorem derives_silent (h : ∀ t ∈ ts, t.kind.isValue = false) : Derives depth ts [] := by
  induction ts with
  | nil => exact .nil
  | cons t ts ih =>
    obtain ⟨ht, hts⟩ := List.forall_mem_cons.1 h
    exact .cons ht (ih hts)

theorem derives_name (h : IsName (t :: ts)) :
    Derives depth (t :: ts) [nameBranch t.start (lastStop t ts)] :=
  .node (.inner (by decide)) (.leaf (.name h))

theorem derives_version (h : t.kind.isValue = true) : Derives depth [t] [versionBranch t] := by
  refine .node (.inner (by decide)) (.leaf (.value ?_ h))
  rcases hk : t.kind <;> simp [hk, TokenKind.isValue, specialKind, valueKinds] at h ⊢

theorem derives_special (h : isSpecial t = true) :
    Derives depth [t] [tokenLeaf (specialKind t.kind) t] := by
  have hvalue : t.kind.isValue = true := (Bool.and_eq_true_iff.1 h).1
  refine .leaf (.value ?_ hvalue)
  unfold isSpecial at h
  rcases hk : t.kind <;> simp [hk, TokenKind.isValue, specialKind, valueKinds] at h ⊢

end Rules

/-! ### Where branches end -/

/-- The last of the branches ends where the last of the tokens does. -/
def EndAlike (ts : List Token) (bs : List Branch) : Prop :=
  bs.getLast?.map Branch.stop = ts.getLast?.map Token.stop

theorem EndAlike.append {ts us : List Token} {bs cs : List Branch} (h : EndAlike ts bs)
    (h' : EndAlike us cs) : EndAlike (ts ++ us) (bs ++ cs) := by
  unfold EndAlike at *
  rw [List.getLast?_append, List.getLast?_append, Option.map_or, Option.map_or, h, h']

/-- Tokens in front do not matter if there is a branch. -/
theorem EndAlike.append_left {ts : List Token} {b : Branch} {bs : List Branch}
    (h : EndAlike ts (b :: bs)) (us : List Token) : EndAlike (us ++ ts) (b :: bs) := by
  unfold EndAlike at *
  rw [List.getLast?_append, Option.map_or, ← h, List.getLast?_cons]
  rfl

theorem lastStop_eq (t : Token) (ts : List Token) :
    lastStop t ts = (ts.getLast?.map Token.stop).getD t.stop := by
  unfold lastStop
  cases ts.getLast? <;> rfl

theorem lastStop_cons (t u : Token) (ts : List Token) : lastStop t (u :: ts) = lastStop u ts := by
  unfold lastStop
  rw [List.getLast?_cons, Option.getD_some]

theorem around_eq {t : Token} {ts : List Token} {bs : List Branch} (kind : NodeKind)
    (h : EndAlike (t :: ts) bs) :
    Branch.around kind t.start bs = .mk kind t.start (lastStop t ts) bs := by
  unfold EndAlike at h
  rw [List.getLast?_cons, Option.map_some] at h
  obtain ⟨b, hb, hstop⟩ := Option.map_eq_some_iff.1 h
  unfold Branch.around
  rw [hb, Option.elim_some, hstop]
  rfl

/-! ### Cutting without remainder -/

theorem moreWords_parts (stop : Nat) (ts : List Token) :
    ∃ more, ts = more ++ (moreWords stop ts).2 ∧
      (∀ t ∈ more, t.kind = .word ∨ t.kind = .space) ∧ (∀ t ∈ more.getLast?, t.kind = .word) ∧
      (moreWords stop ts).1 = (more.getLast?.map Token.stop).getD stop := by
  fun_induction moreWords stop ts with
  | case1 stop s w ts h ih =>
    obtain ⟨more, hts, hplain, hlast, hstop⟩ := ih
    refine ⟨s :: w :: more, ?_, ?_, ?_, ?_⟩
    · rw [List.cons_append, List.cons_append, ← hts]
    · simp only [List.forall_mem_cons]
      exact ⟨.inr h.1, .inl h.2, hplain⟩
    · rw [List.getLast?_cons_cons, List.getLast?_cons]
      rintro t ⟨⟩
      cases hm : more.getLast? with
      | none => exact h.2
      | some u => exact hlast u hm
    · rw [hstop, List.getLast?_cons_cons, List.getLast?_cons]
      cases more.getLast? <;> rfl
  | case2 => exact ⟨[], rfl, by simp, by simp, rfl⟩
  | case3 => exact ⟨[], rfl, by simp, by simp, rfl⟩

theorem words_parts {t : Token} (h : t.kind = .word) (ts : List Token) :
    ∃ more, ts = more ++ (moreWords t.stop ts).2 ∧ IsName (t :: more) ∧
      (moreWords t.stop ts).1 = lastStop t more := by
  obtain ⟨more, hts, hplain, hlast, hstop⟩ := moreWords_parts t.stop ts
  refine ⟨more, hts, ⟨List.forall_mem_cons.2 ⟨.inl h, hplain⟩, ?_, ?_⟩, ?_⟩
  · rintro u ⟨⟩
    exact h
  · rw [List.getLast?_cons]
    rintro u ⟨⟩
    cases hm : more.getLast? with
    | none => exact h
    | some u => exact hlast u hm
  · rw [hstop, lastStop_eq]

theorem versions_parts (depth : Nat) (ts : List Token) :
    ∃ own, ts = own ++ (versions ts).2 ∧ Derives depth own (versions ts).1 ∧
      EndAlike own (versions ts).1 := by
  have hslash {s : Token} (h : s.kind = .slash) :
      Derives depth [s] [tokenLeaf .separator s] := .leaf (.mark (by rw [h]; rfl))
  fun_induction versions ts with
  | case1 => exact ⟨[], rfl, .nil, rfl⟩
  | case2 s v ts hs hv bs rest hrec ih =>
    rw [hrec] at ih
    obtain ⟨own, hts, hown, hend⟩ := ih
    have hs : s.kind = .slash := by simpa using hs
    have hends : EndAlike [s, v] [tokenLeaf .separator s, versionBranch v] := rfl
    refine ⟨[s, v] ++ own, ?_, ?_, hends.append hend⟩
    · rw [List.append_assoc, ← hts]
      rfl
    · exact .append (.append (hslash hs) (derives_version hv)) hown
  | case3 s v ts hs hv =>
    have hs : s.kind = .slash := by simpa using hs
    exact ⟨[s], rfl, hslash hs, rfl⟩
  | case4 s hs => exact ⟨[s], rfl, hslash hs, rfl⟩
  | case5 => exact ⟨[], rfl, .nil, rfl⟩
  | case6 => exact ⟨[], rfl, .nil, rfl⟩

theorem cutAtClose_parts (c : Nat) (ts : List Token) :
    ts = (cutAtClose c ts).1 ++ ((cutAtClose c ts).2.1.toList ++ (cutAtClose c ts).2.2) ∧
      (∀ t ∈ (cutAtClose c ts).2.1, t.kind = .closing) ∧
      ((cutAtClose c ts).2.1 = none → (cutAtClose c ts).2.2 = []) := by
  induction ts generalizing c with
  | nil => exact ⟨rfl, by simp [cutAtClose], fun _ => rfl⟩
  | cons t ts ih =>
    obtain ⟨hts, hclose, hrest⟩ := ih (t.depthBehind c)
    rw [cutAtClose]
    split
    · next h =>
      refine ⟨rfl, ?_, by simp⟩
      rintro u ⟨⟩
      exact h.1
    · exact ⟨congrArg (t :: ·) hts, hclose, hrest⟩

theorem cutAtBreak_parts (c : Nat) (ts : List Token) :
    ts = (cutAtBreak c ts).1 ++ (cutAtBreak c ts).2 := by
  induction ts generalizing c with
  | nil => rfl
  | cons t ts ih =>
    rw [cutAtBreak]
    split
    · rfl
    · exact congrArg (t :: ·) (ih (t.depthBehind c))

/-- A block that is not nested too deeply covers its parenthesis, its inside, and the parenthesis that
closes it if there is one. -/
theorem Block.cut_parts {depth : Nat} (hdepth : depth < maxBlockDepth) (t : Token)
    (ts : List Token) :
    (Block.cut depth t ts).start = t.start ∧
      ∃ close, ts = ((Block.cut depth t ts).inside ++ close) ++ (Block.cut depth t ts).rest ∧
        (∀ u ∈ close, u.kind = .closing) ∧
        (Block.cut depth t ts).stop = lastStop t ((Block.cut depth t ts).inside ++ close) := by
  obtain ⟨hts, hclose, hrest⟩ := cutAtClose_parts 0 ts
  rw [Block.cut, if_neg (Nat.not_le.2 hdepth)]
  rcases hcut : cutAtClose 0 ts with ⟨inside, close, rest⟩
  rw [hcut] at hts hclose hrest
  rcases close with _ | close
  · cases hrest rfl
    have hinside : ts = inside := by simpa using hts
    refine ⟨rfl, [], by simpa using hts, by simp, ?_⟩
    rw [List.append_nil, hinside]
  · refine ⟨rfl, [close], by simpa using hts, by simpa using hclose close rfl, ?_⟩
    show close.stop = lastStop t (inside ++ [close])
    rw [lastStop, List.getLast?_append]
    rfl

theorem entry_parts (t : Token) (ts : List Token) :
    ∃ blanks, t :: ts = entryTokens t ts ++ (blanks ++ behindEntry t ts) ∧
      ∀ u ∈ blanks, u.kind = .space := by
  have hcut := cutAtBreak_parts (t.depthBehind 0) ts
  unfold entryTokens behindEntry Text.dropEndWhile
  generalize cutAtBreak (t.depthBehind 0) ts = cut at hcut ⊢
  obtain ⟨entry, rest⟩ := cut
  refine ⟨(entry.reverse.takeWhile (·.kind = .space)).reverse, ?_, fun u hu => ?_⟩
  · rw [List.cons_append, ← List.append_assoc, ← List.reverse_append,
      List.takeWhile_append_dropWhile, List.reverse_reverse, ← hcut]
  · simpa using List.mem_takeWhile_imp (List.mem_reverse.1 hu)

theorem nextBlock_parts {ts us : List Token} {t : Token} (h : nextBlock? ts = some (t, us)) :
    ∃ blanks, ts = blanks ++ t :: us ∧ (∀ u ∈ blanks, u.kind = .space) ∧ t.kind = .opening := by
  unfold nextBlock? at h
  split at h
  · split at h
    · next hk =>
      cases h
      exact ⟨[], rfl, by simp, hk⟩
    · split at h
      · split at h
        · next s _ _ _ _ hk =>
          cases h
          exact ⟨[s], rfl, by simpa using hk.1, hk.2⟩
        · cases h
      · cases h
  · cases h

/-! ### Blocks and entries -/

section Parts
variable {s : String} {depth : Nat} {t : Token} {ts us : List Token} {bs : List Branch}

theorem endAlike_single (kind : NodeKind) :
    EndAlike (t :: ts) [.mk kind t.start (lastStop t ts) bs] := by
  unfold EndAlike
  rw [List.getLast?_singleton, List.getLast?_cons]
  rfl

/-- **A block is derived from the tokens that are cut off for it.** -/
theorem derives_block (ht : t.kind = .opening)
    (hbelow : Derives (depth + 1) (Block.cut depth t ts).inside bs) :
    ∃ own, t :: ts = own ++ (Block.cut depth t ts).rest ∧
      Derives depth own [blockBranch depth (Block.cut depth t ts) bs] ∧
      EndAlike own [blockBranch depth (Block.cut depth t ts) bs] := by
  unfold blockBranch
  by_cases hdeep : maxBlockDepth ≤ depth
  · have hcut : Block.cut depth t ts = ⟨t.start, lastStop t ts, [], [], false⟩ := if_pos hdeep
    rw [if_pos hdeep, hcut]
    exact ⟨t :: ts, (List.append_nil _).symm, .leaf .text, endAlike_single _⟩
  · have hdepth : depth < maxBlockDepth := Nat.not_le.1 hdeep
    obtain ⟨hstart, close, hts, hclose, hstop⟩ := Block.cut_parts hdepth t ts
    have hclose : ∀ u ∈ close, u.kind.isValue = false := fun u hu => by
      rw [hclose u hu]
      rfl
    have hopen : t.kind.isValue = false := by
      rw [ht]
      rfl
    have hown := Derives.cons hopen (hbelow.append (derives_silent hclose))
    rw [List.append_nil] at hown
    rw [if_neg hdeep, hstart, hstop]
    refine ⟨t :: ((Block.cut depth t ts).inside ++ close), ?_, ?_, endAlike_single _⟩
    · rw [List.cons_append, ← hts]
    · exact .node (.block hdepth) hown

/-- Words with a version are a product. In front of the version stands a blank, and in front of this
a word, for neither two values nor two blanks follow each other. -/
theorem derives_nameVersion {b : Branch} (h : Contiguous s (t :: ts)) (ht : isGap t = false)
    (hb : nameVersion? (t :: ts) = some b) : Derives depth (t :: ts) [b] := by
  unfold nameVersion? at hb
  split at hb
  · next first v g n rest hfirst hrev =>
    cases hfirst
    split at hb
    · next hall =>
      cases hb
      simp only [Bool.and_eq_true, List.all_eq_true, Bool.or_eq_true, decide_eq_true_eq] at hall
      obtain ⟨⟨hplain, hv⟩, -⟩ := hall
      have hparts : t :: ts = (rest.reverse ++ [n]) ++ [g, v] := by
        rw [List.reverse_eq_iff.1 hrev]
        simp
      obtain ⟨hnil, -⟩ | ⟨more, hmore, hts⟩ := List.cons_eq_append_iff.1 hparts
      · simp at hnil
      subst hts
      have hlast : (t :: more).getLast? = some n := by
        rw [← hmore]
        exact List.getLast?_concat
      have hstop : lastStop t more = n.stop := by
        rw [List.getLast?_cons, Option.some.injEq] at hlast
        rw [lastStop, hlast]
      have hjoins : [n, g, v].IsChain Token.Joins := by
        have hchain := h.joins
        rw [hparts, List.append_assoc] at hchain
        exact hchain.right_of_append
      rw [List.isChain_cons_cons, List.isChain_cons_cons] at hjoins
      obtain ⟨hng, hgv, -⟩ := hjoins
      have hword : t.kind = .word := by
        refine (hplain t List.mem_cons_self).resolve_right fun hk => ?_
        simp [isGap, hk] at ht
      have hg : g.kind = .space := by
        refine (hplain g (by simp)).resolve_left fun hk => ?_
        have hnot := hgv.not_values (by rw [hk]; rfl)
        rw [hv] at hnot
        cases hnot
      have hn : n.kind = .word := by
        refine (hplain n ?_).resolve_right fun hk => hng.not_blanks hk hg
        exact List.mem_append_left [g, v] (List.mem_of_getLast? hlast)
      have hname : IsName (t :: more) := by
        refine ⟨fun u hu => hplain u (List.mem_append_left [g, v] hu), ?_, ?_⟩
        · rintro u ⟨⟩
          exact hword
        · rw [hlast]
          rintro u ⟨⟩
          exact hn
      have hbelow := (@derives_name depth t more hname).append
        ((derives_version (by rw [hv]; rfl)).cons (by rw [hg]; rfl))
      have hend : lastStop t (more ++ [g, v]) = v.stop := by
        rw [lastStop, List.getLast?_append]
        rfl
      rw [hstop] at hbelow
      rw [← hend]
      exact .node (.inner (by decide)) hbelow
    · cases hb
  · cases hb

theorem contiguous_block (h : Contiguous s (t :: ts)) :
    Contiguous s (Block.cut depth t ts).inside ∧ Contiguous s (Block.cut depth t ts).rest := by
  by_cases hdeep : maxBlockDepth ≤ depth
  · have hcut : Block.cut depth t ts = ⟨t.start, lastStop t ts, [], [], false⟩ := if_pos hdeep
    rw [hcut]
    exact ⟨@Contiguous.left s [] _ h, @Contiguous.left s [] _ h⟩
  · obtain ⟨-, close, hts, -⟩ := Block.cut_parts (Nat.not_le.1 hdeep) t ts
    have htail := h.tail
    rw [hts] at htail
    exact ⟨htail.left.left, htail.right⟩

theorem derives_plainEntry {b : Branch} (h : Contiguous s (t :: ts)) (ht : isGap t = false)
    (hb : plainEntry? (t :: ts) = some b) :
    Derives depth (t :: ts) [.mk .commentEntry t.start (lastStop t ts) [b]] := by
  unfold plainEntry? at hb
  split at hb
  · next u hu =>
    cases hu
    split at hb
    · next hword =>
      obtain ⟨⟨key, value⟩, hkv, rfl⟩ := Option.map_eq_some_iff.1 hb
      exact .pair hword hkv
    · cases hb
  · exact .node (.inner (by decide)) (derives_nameVersion h ht hb)

theorem derives_entry (h : Contiguous s (entryTokens t ts)) (ht : isGap t = false)
    (hitems : Derives depth (entryTokens t ts) (items depth (entryTokens t ts)).1) :
    Derives depth (entryTokens t ts) [.mk .commentEntry t.start (lastStop t (entryTokens t ts))
      (belowEntry depth (entryTokens t ts)).1] := by
  unfold entryTokens at *
  rw [lastStop_cons]
  unfold belowEntry
  split
  · next b hb => exact derives_plainEntry h ht hb
  · exact .node (.inner (by decide)) hitems

/-- **A product is derived** from its words, its versions and its blocks. -/
theorem derives_product (ht : t.kind = .word)
    (hblocks : ∃ own, behindVersions t ts = own ++ us ∧
      Derives depth own (blocks depth (behindVersions t ts)).1 ∧
      EndAlike own (blocks depth (behindVersions t ts)).1) :
    ∃ own, t :: ts = own ++ us ∧ Derives depth own [productBranch depth t ts] := by
  obtain ⟨more, hmore, hname, hstop⟩ := words_parts ht ts
  obtain ⟨ofVersions, hversions, hv, hvend⟩ := versions_parts depth (moreWords t.stop ts).2
  obtain ⟨ofBlocks, hbehind, hb, hbend⟩ := hblocks
  have hnend : EndAlike (t :: more) [nameBranch t.start (lastStop t more)] := endAlike_single _
  have hparts := (@derives_name depth t more hname).append (hv.append hb)
  have hend := hnend.append (hvend.append hbend)
  refine ⟨(t :: more) ++ (ofVersions ++ ofBlocks), ?_, ?_⟩
  · rw [List.append_assoc, List.append_assoc, ← hbehind, behindVersions, ← hversions,
      List.cons_append, ← hmore]
  · rw [productBranch, hstop]
    show Derives depth _ [.around .product t.start
      ([nameBranch t.start (lastStop t more)] ++
        ((versions (moreWords t.stop ts).2).1 ++ (blocks depth (behindVersions t ts)).1))]
    rw [around_eq .product hend]
    exact .node (.inner (by decide)) hparts

end Parts

/-! ### The grammar -/

/-- **What the grammar reads is derived.** -/
theorem derives_forest {s : String} :
    (∀ depth ts, Contiguous s ts → Derives depth ts (items depth ts).1) ∧
    (∀ depth ts, Contiguous s ts → ∃ own, ts = own ++ behindBlocks depth ts ∧
      Derives depth own (blocks depth ts).1 ∧ EndAlike own (blocks depth ts).1) ∧
    (∀ depth ts, Contiguous s ts → Derives depth ts (entries depth ts).1) := by
  apply forest_induct
  case nil =>
    intro depth _
    rw [items_nil]
    exact .nil
  case skip =>
    intro depth t ts ht ih h
    rw [items_skip ht]
    exact .cons (not_value_of_skip ht) (ih h.tail)
  case closing =>
    intro depth t ts ht ih h
    rw [items_closing ht]
    exact .cons (by rw [ht]; rfl) (ih h.tail)
  case opening =>
    intro depth t ts ht hin hrest h
    obtain ⟨hinside, hbehind⟩ := contiguous_block h
    obtain ⟨own, hown, hblock, -⟩ := derives_block ht (hin hinside)
    have hderives := hblock.append (hrest hbehind)
    rw [← hown] at hderives
    rw [items_opening ht]
    exact hderives
  case product =>
    intro depth t ts ht hnames hblocks hrest h
    obtain ⟨more, hmore, -, -⟩ := words_parts ht ts
    obtain ⟨ofVersions, hversions, -, -⟩ := versions_parts depth (moreWords t.stop ts).2
    have hbehind : Contiguous s (behindVersions t ts) := by
      have hts := h.tail
      rw [hmore, hversions] at hts
      exact hts.right.right
    have hparts := hblocks hbehind
    obtain ⟨own, hown, hproduct⟩ := derives_product ht hparts
    have hrest' : Contiguous s (behindBlocks depth (behindVersions t ts)) := by
      rw [hown] at h
      exact h.right
    have hderives := hproduct.append (hrest hrest')
    rw [← hown] at hderives
    rw [items_product ht hnames]
    exact hderives
  case text =>
    intro depth t ts ht hnames ih h
    obtain ⟨more, hmore, -, hstop⟩ := words_parts ht ts
    have hsplit : t :: ts = (t :: more) ++ (moreWords t.stop ts).2 := by
      rw [List.cons_append, ← hmore]
    have hrest : Contiguous s (moreWords t.stop ts).2 := by
      rw [hsplit] at h
      exact h.right
    have hleaf : Derives depth (t :: more) [.leaf .text t.start (lastStop t more)] := .leaf .text
    have hderives := hleaf.append (ih hrest)
    rw [← hsplit] at hderives
    rw [items_text ht hnames, hstop]
    exact hderives
  case special =>
    intro depth t ts ht ih h
    rw [items_special ht]
    exact .append (derives_special ht) (ih h.tail)
  case last =>
    intro depth ts hnone _
    rw [blocks_none hnone, behindBlocks_none hnone]
    exact ⟨[], rfl, .nil, rfl⟩
  case block =>
    intro depth ts t us hnext hin hrest h
    obtain ⟨blanks, rfl, hblanks, ht⟩ := nextBlock_parts hnext
    obtain ⟨hinside, hbehind⟩ := contiguous_block h.right
    obtain ⟨own, hown, hblock, hblockend⟩ := derives_block ht (hin hinside)
    obtain ⟨others, hothers, hderives, hend⟩ := hrest hbehind
    have hsilent : ∀ u ∈ blanks, u.kind.isValue = false := fun u hu => by
      rw [hblanks u hu]
      rfl
    rw [blocks_some hnext, behindBlocks_some hnext]
    refine ⟨blanks ++ (own ++ others), ?_, ?_, ?_⟩
    · rw [List.append_assoc, List.append_assoc, ← hothers, ← hown]
    · exact (derives_silent hsilent).append (hblock.append hderives)
    · exact (hblockend.append hend).append_left blanks
  case done =>
    intro depth _
    rw [entries_nil]
    exact .nil
  case gap =>
    intro depth t ts ht ih h
    rw [entries_gap ht]
    exact .cons (not_value_of_skip (.inl ht)) (ih h.tail)
  case entry =>
    intro depth t ts ht hown hrest h
    obtain ⟨blanks, hparts, hblanks⟩ := entry_parts t ts
    have hsilent : ∀ u ∈ blanks, u.kind.isValue = false := fun u hu => by
      rw [hblanks u hu]
      rfl
    rw [hparts] at h
    have hentry := derives_entry h.left ht (hown h.left)
    have hderives := hentry.append ((derives_silent hsilent).append (hrest h.right.right))
    rw [← hparts] at hderives
    rw [entries_entry ht]
    exact hderives

end AgentRules.Grammar
