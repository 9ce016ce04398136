import AgentRules.Proofs.Agent.Derivation
import AgentRules.Proofs.Agent.Refinement

/-! # How the nodes of a tree lie

In the tree of a text, every node covers a span of the text that lies inside that of its parent, the
children of a node stand one behind the other, and no more than `maxBlockDepth` blocks are nested
(`LaidOut`). All of this is read off derivations: a branch covers the tokens it is derived from, and
these are disjoint for branches side by side (`Derives.along`), and the same for a branch and what is
below it (`Derives.fits`). -/

namespace AgentRules

open Text

/-! ### Branches along tokens -/

namespace Grammar

open Branch

/-- The branches start and end with tokens, and stand one behind the other. -/
structure Along (ts : List Token) (bs : List Branch) : Prop where
  ends : ∀ b ∈ bs, (∃ u ∈ ts, b.start = u.start) ∧ ∃ v ∈ ts, b.stop = v.stop
  ordered : bs.Pairwise fun b c => b.stop ≤ c.start

theorem along_single {kind : NodeKind} {t : Token} {ts : List Token} {bs : List Branch} :
    Along (t :: ts) [.mk kind t.start (lastStop t ts) bs] where
  ends b hb := by
    rw [List.mem_singleton.1 hb]
    exact ⟨⟨t, List.mem_cons_self, rfl⟩, exists_lastStop t ts⟩
  ordered := List.pairwise_singleton _ _

/-- **Branches stand along the tokens they are derived from.** -/
theorem Derives.along {s : String} {depth : Nat} {ts : List Token} {bs : List Branch}
    (h : Derives depth ts bs) (hts : Placed s ts) : Along ts bs := by
  induction h with
  | nil => exact ⟨by simp, .nil⟩
  | silent => exact ⟨by simp, .nil⟩
  | @append depth ts us bs cs _ _ ihb ihc =>
    obtain ⟨hb, hbs⟩ := ihb (hts.sublist (List.sublist_append_left ts us))
    obtain ⟨hc, hcs⟩ := ihc (hts.sublist (List.sublist_append_right ts us))
    refine ⟨fun b hbc => ?_, List.pairwise_append.2 ⟨hbs, hcs, fun b hbmem c hcmem => ?_⟩⟩
    · rcases List.mem_append.1 hbc with hmem | hmem
      · obtain ⟨⟨u, hu, hstart⟩, v, hv, hstop⟩ := hb b hmem
        exact ⟨⟨u, List.mem_append_left us hu, hstart⟩, v, List.mem_append_left us hv, hstop⟩
      · obtain ⟨⟨u, hu, hstart⟩, v, hv, hstop⟩ := hc b hmem
        exact ⟨⟨u, List.mem_append_right ts hu, hstart⟩, v, List.mem_append_right ts hv, hstop⟩
    · obtain ⟨-, v, hv, hstop⟩ := hb b hbmem
      obtain ⟨⟨u, hu, hstart⟩, -⟩ := hc c hcmem
      rw [hstop, hstart]
      exact (List.pairwise_append.1 hts.ordered).2.2 v hv u hu
  | leaf => exact along_single
  | node => exact along_single
  | pair => exact along_single

/-! ### Lineages and rows -/

def blocksIn (lineage : List Extent) : Nat := lineage.countP (·.kind = .comments)

/-- A node lies inside its parent, blocks are not nested too deeply, and children stand one behind
the other. -/
structure Fits (lineage row : List Extent) : Prop where
  inside : ∀ e p above, lineage = e :: p :: above → p.start ≤ e.start ∧ e.stop ≤ p.stop
  nesting : blocksIn lineage ≤ maxBlockDepth
  ordered : row.Pairwise fun a b => a.stop ≤ b.start

theorem pairwise_extent {bs : List Branch} (h : bs.Pairwise fun b c => b.stop ≤ c.start) :
    (bs.map extent).Pairwise fun a b => a.stop ≤ b.start := by
  refine List.pairwise_map.2 (h.imp fun {b c} hle => ?_)
  cases b
  cases c
  exact hle

theorem blocksIn_cons {kind : NodeKind} {start stop : Nat} (above : List Extent)
    (h : kind ≠ .comments) : blocksIn (⟨kind, start, stop⟩ :: above) = blocksIn above :=
  List.countP_cons_of_neg (by simpa using h)

theorem blocksIn_comments {start stop : Nat} (above : List Extent) :
    blocksIn (⟨.comments, start, stop⟩ :: above) = blocksIn above + 1 :=
  List.countP_cons_of_pos rfl

section Node
variable {above : List Extent} {kind : NodeKind} {start stop : Nat} {children : List Branch}

theorem every_fits (hin : ∀ p ∈ above.head?, p.start ≤ start ∧ stop ≤ p.stop)
    (hcount : blocksIn (⟨kind, start, stop⟩ :: above) ≤ maxBlockDepth)
    (hordered : children.Pairwise fun b c => b.stop ≤ c.start)
    (hbelow : ∀ b ∈ children, Every Fits (⟨kind, start, stop⟩ :: above) b) :
    Every Fits above (.mk kind start stop children) := by
  refine .mk ⟨fun e p rest h => ?_, hcount, pairwise_extent hordered⟩ hbelow
  cases h
  exact hin p rfl

theorem every_fits_leaf (hin : ∀ p ∈ above.head?, p.start ≤ start ∧ stop ≤ p.stop)
    (hcount : blocksIn above ≤ maxBlockDepth) (hkind : kind ≠ .comments) :
    Every Fits above (.leaf kind start stop) := by
  refine every_fits hin ?_ .nil (by simp)
  rwa [blocksIn_cons above hkind]

end Node

/-- What is inside of blocks lies between the first and the last of the tokens. -/
theorem span_inside {above : List Extent} {t : Token} {ts : List Token}
    (hin : ∀ p ∈ above.head?, ∀ u ∈ t :: ts, p.start ≤ u.start ∧ u.stop ≤ p.stop) :
    ∀ p ∈ above.head?, p.start ≤ t.start ∧ lastStop t ts ≤ p.stop := by
  intro p hp
  obtain ⟨v, hv, hstop⟩ := exists_lastStop t ts
  rw [hstop]
  exact ⟨(hin p hp t List.mem_cons_self).1, (hin p hp v hv).2⟩

/-- **What is derived inside some blocks fits below nodes around the tokens with as many blocks.** -/
theorem Derives.fits {s : String} {depth : Nat} {ts : List Token} {bs : List Branch}
    (h : Derives depth ts bs) (hts : Placed s ts) (hdepth : depth ≤ maxBlockDepth)
    {above : List Extent} (hcount : blocksIn above ≤ depth)
    (hin : ∀ p ∈ above.head?, ∀ t ∈ ts, p.start ≤ t.start ∧ t.stop ≤ p.stop) :
    ∀ b ∈ bs, Every Fits above b := by
  induction h generalizing above with
  | nil => simp
  | silent => simp
  | @append depth ts us bs cs _ _ ihb ihc =>
    intro b hb
    rcases List.mem_append.1 hb with hb | hb
    · exact ihb (hts.sublist (List.sublist_append_left ts us)) hdepth hcount
        (fun p hp t ht => hin p hp t (List.mem_append_left us ht)) b hb
    · exact ihc (hts.sublist (List.sublist_append_right ts us)) hdepth hcount
        (fun p hp t ht => hin p hp t (List.mem_append_right ts ht)) b hb
  | @leaf depth kind t ts hkind =>
    have hne : kind ≠ .comments := ne_of_mem_of_not_mem hkind.kind_mem (by decide)
    exact List.forall_mem_singleton.2 (every_fits_leaf (span_inside hin) (by omega) hne)
  | @node depth inner kind t ts bs hkind hbelow ih =>
    have hwithin : ∀ p ∈ (⟨kind, t.start, lastStop t ts⟩ :: above : List Extent).head?,
        ∀ u ∈ t :: ts, p.start ≤ u.start ∧ u.stop ≤ p.stop := by
      rintro p ⟨⟩ u hu
      exact hts.within hu
    have hnode : inner ≤ maxBlockDepth ∧
        blocksIn (⟨kind, t.start, lastStop t ts⟩ :: above) ≤ inner := by
      cases hkind with
      | block hlt =>
        rw [blocksIn_comments]
        omega
      | inner hkind =>
        have hne : kind ≠ .comments := ne_of_mem_of_not_mem hkind (by decide)
        rw [blocksIn_cons above hne]
        exact ⟨hdepth, hcount⟩
    obtain ⟨hinner, hcount⟩ := hnode
    refine List.forall_mem_singleton.2 (every_fits (span_inside hin) (by omega) ?_ ?_)
    · exact (hbelow.along hts).ordered
    · exact ih hts hinner hcount hwithin
  | @pair depth t key value hword hkv =>
    -- the key and the value lie inside the word, one behind the other
    have hstop := stop_keyValue hkv
    have hle : t.start ≤ t.stop := Nat.le_add_right _ _
    have hentry : blocksIn (⟨.commentEntry, t.start, t.stop⟩ :: above) ≤ maxBlockDepth := by
      rw [blocksIn_cons above (by decide)]
      omega
    have hpair : blocksIn
        (⟨.keyValue, t.start, t.stop⟩ :: ⟨.commentEntry, t.start, t.stop⟩ :: above) ≤
          maxBlockDepth := by
      rwa [blocksIn_cons _ (by decide)]
    have hvalue : (if value.head?.any Char.isDigit then NodeKind.version else .text) ≠
        .comments := by
      split <;> decide
    refine List.forall_mem_singleton.2 (every_fits (@span_inside above t [] hin) hentry
      (List.pairwise_singleton _ _) (List.forall_mem_singleton.2 (every_fits ?_ hpair ?_ ?_)))
    · rintro p ⟨⟩
      exact ⟨Nat.le_refl _, Nat.le_refl _⟩
    · refine List.pairwise_pair.2 ?_
      exact Nat.le_succ _
    · refine List.forall_mem_cons.2 ⟨every_fits_leaf ?_ hpair (by decide),
        List.forall_mem_singleton.2 (every_fits_leaf ?_ hpair hvalue)⟩
      · rintro p ⟨⟩
        exact ⟨Nat.le_refl _, by dsimp only; omega⟩
      · rintro p ⟨⟩
        exact ⟨by dsimp only; omega, Nat.le_refl _⟩

/-- A branch that stands on the text covers a span of it, and so does all that is below it. -/
theorem every_span {s : String} {b : Branch} (h : Stands s b) {above : List Extent} :
    Every (fun lineage _ => ∀ e ∈ lineage.head?, IsSpan s e.start e.stop) above b := by
  induction h generalizing above with
  | mk hkind hspan hchildren ih =>
    refine .mk ?_ fun b hb => ih b hb
    rintro e ⟨⟩
    exact hspan

theorem span_root {text : String} {ts : List Token} (h : Placed text ts) :
    ∀ p ∈ [rootExtent text].head?, ∀ t ∈ ts, p.start ≤ t.start ∧ t.stop ≤ p.stop := by
  rintro p ⟨⟩ t ht
  obtain ⟨before, behind, htext, hstart⟩ := h.pieces t ht
  have hsize : size text = byteLength before + byteLength t.text + byteLength behind := by
    rw [size, htext, byteLength_append, byteLength_append, Nat.add_assoc]
  have hstop : t.stop = byteLength before + byteLength t.text := by
    rw [Token.stop, hstart]
  dsimp only [rootExtent]
  omega

/-- **Every node of the tree of a text fits, and covers a span of the text.** -/
theorem fits_of_parse {text : String} {t : SyntaxTree} (h : parse text = .ok t) :
    ∀ id < t.size, Fits (t.lineage id) (t.row id) ∧
      ∀ e ∈ (t.lineage id).head?, IsSpan text e.start e.stop := by
  have hscan := Token.contiguous_scan text
  have hderives : Derives 0 (Token.scan text) (forest text) := derives_forest.1 0 _ hscan
  have hfits : Fits [rootExtent text] ((forest text).map extent) := by
    refine ⟨fun e p above hroot => ?_, Nat.zero_le _, ?_⟩
    · cases hroot
    · exact pairwise_extent (hderives.along hscan.toPlaced).ordered
  intro id hid
  constructor
  · refine every_of_parse h hfits (hderives.fits hscan.toPlaced (Nat.zero_le _) ?_ ?_) id hid
    · exact Nat.le_refl 0
    · exact span_root hscan.toPlaced
  · refine every_of_parse (Q := fun lineage _ => ∀ e ∈ lineage.head?, IsSpan text e.start e.stop) h
      ?_ (fun b hb => every_span ?_) id hid
    · rintro e ⟨⟩
      exact isSpan_root text
    · exact hderives.stands hscan.toPlaced b hb

end Grammar

/-! ### Trees -/

/-- The nodes of a tree lie in its source as those of a syntax tree should. -/
structure SyntaxTree.LaidOut (t : SyntaxTree) : Prop where
  /-- Every node covers a span between boundaries of the source. -/
  span : ∀ (id : Nat) (n : Node), t.nodes[id]? = some n → IsSpan t.source n.start n.stop
  /-- The span of a node lies inside that of its parent. -/
  inside : ∀ (id p : Nat) (n : Node), t.nodes[id]? = some n → n.parent = some p →
    ∃ m : Node, t.nodes[p]? = some m ∧ m.start ≤ n.start ∧ n.stop ≤ m.stop
  /-- A child of a node ends before the next one starts. -/
  ordered : ∀ id, (t.children id).Pairwise fun a b =>
    ∃ m n : Node, t.nodes[a]? = some m ∧ t.nodes[b]? = some n ∧ m.stop ≤ n.start
  /-- Blocks are not nested too deeply. -/
  nesting : ∀ id, (t.lineage id).countP (·.kind = .comments) ≤ maxBlockDepth

namespace Grammar

open Branch SyntaxTree

/-- **Every text has a tree, and its nodes lie as they should.** A reader that goes by the indices
of the tokens makes this tree, too: it is never without a token at an index, and the tree never
refuses it a node or an end. -/
theorem exists_laidOut (text : String) :
    ∃ t, parse text = .ok t ∧
      (∃ enough, ∀ rounds, enough ≤ rounds → readTree rounds text = .ok t) ∧
      t.source = text ∧ Built t ∧ LaidOut t := by
  obtain ⟨t, ht, -⟩ := parse_ok text
  have hplanted := planted_of_parse ht
  have hsource : t.source = text := hplanted.source
  have hwf := hplanted.built.wellFormed
  have hfits := fits_of_parse ht
  have hlt {id : Nat} {n : Node} (hn : t.nodes[id]? = some n) : id < t.size :=
    (Array.getElem?_eq_some_iff.1 hn).1
  have hextent {id : Nat} {n : Node} (hn : t.nodes[id]? = some n) :
      t.extentOf id = some n.extent := by
    rw [extentOf, hn]
    rfl
  have hlineage {id : Nat} {n : Node} (hn : t.nodes[id]? = some n) :
      t.lineage id = n.extent :: n.parent.elim [] t.lineage := by
    rw [lineage_eq hwf, hextent hn, parentOf, hn]
    rfl
  refine ⟨t, ht, readTree_eq ht, hsource, hplanted.built, fun id n hn => ?_,
    fun id p n hn hp => ?_, fun id => ?_, fun id => ?_⟩
  · rw [hsource]
    refine (hfits id (hlt hn)).2 n.extent ?_
    rw [hlineage hn]
    rfl
  · have hparent : t.parentOf id = some p := by
      rw [parentOf, hn]
      exact hp
    have hm := Array.getElem?_eq_getElem (Nat.lt_trans (hwf.lt_of_parentOf hparent) (hlt hn))
    have hinside := (hfits id (hlt hn)).1.inside
    rw [hlineage hn, hp, Option.elim_some, hlineage hm] at hinside
    exact ⟨_, hm, hinside _ _ _ rfl⟩
  · by_cases hid : id < t.size
    · have hrow := (hfits id hid).1.ordered
      rw [row, List.pairwise_filterMap] at hrow
      refine hrow.imp_of_mem fun {a b} ha hb hle => ?_
      have hma := Array.getElem?_eq_getElem (hwf.lt_of_mem_children ha).2
      have hmb := Array.getElem?_eq_getElem (hwf.lt_of_mem_children hb).2
      exact ⟨_, _, hma, hmb, hle _ (hextent hma) _ (hextent hmb)⟩
    · have hnone : t.nodes[id]? = none := Array.getElem?_eq_none (Nat.not_lt.1 hid)
      rw [children, hnone]
      exact .nil
  · by_cases hid : id < t.size
    · exact (hfits id hid).1.nesting
    · have hnone : t.nodes[id]? = none := Array.getElem?_eq_none (Nat.not_lt.1 hid)
      rw [lineage_eq hwf, extentOf, parentOf, hnone]
      exact Nat.zero_le _

end Grammar

end AgentRules
