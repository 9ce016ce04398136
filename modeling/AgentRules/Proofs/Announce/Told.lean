import AgentRules.Proofs.Announce.Notices

/-! # Which paths are told

Each node that has a path is told once under that path (`filter_notices`), and no other node is told
(`pathOf_of_mem_notices`). When no range is asked for twice at a path, all paths in the sequence of
notices are distinct even in lower case (`nodup_lower_paths`), where they are plain
(`plain_lower_path`). -/

namespace AgentRules.SyntaxTree

variable {t : SyntaxTree} {ranges : String → List WordRange}

/-! ### Notices of one node -/

theorem mem_rangeNotices {n : Nat} {path : String} {x : Notice}
    (h : x ∈ t.rangeNotices ranges path n) :
    x.node = n ∧ ∃ r ∈ ranges path, x.path = path ++ r.pathForm := by
  unfold rangeNotices at h
  split at h
  · cases h
  · obtain ⟨r, hr, h⟩ := List.mem_filterMap.1 h
    obtain ⟨cut, -, rfl⟩ := Option.map_eq_some_iff.1 h
    exact ⟨rfl, r, hr, rfl⟩

theorem ranged_ne_self (path : String) (r : WordRange) : path ++ r.pathForm ≠ path := fun h => by
  have hl := congrArg String.toList h
  rw [String.toList_append, WordRange.toList_pathForm] at hl
  simp at hl

theorem mem_nodeNotices {n : Nat} {x : Notice} (h : x ∈ t.nodeNotices ranges n) :
    x.node = n ∧ ∃ path, t.pathOf n = some path ∧
      (x = ⟨path, t.text n, n⟩ ∨ ∃ r ∈ ranges path, x.path = path ++ r.pathForm) := by
  unfold nodeNotices at h
  split at h
  · cases h
  · next path hpath =>
    rcases List.mem_cons.1 h with rfl | h
    · exact ⟨rfl, path, hpath, .inl rfl⟩
    · obtain ⟨hnode, hr⟩ := mem_rangeNotices h
      exact ⟨hnode, path, hpath, .inr hr⟩

theorem nodup_paths_nodeNotices (hranges : ∀ path, (ranges path).Nodup) (n : Nat) :
    ((t.nodeNotices ranges n).map (·.path)).Nodup := by
  unfold nodeNotices
  split
  · exact List.nodup_nil
  · next path _ =>
    rw [List.map_cons, List.nodup_cons]
    refine ⟨fun h => ?_, ?_⟩
    · obtain ⟨x, hx, hpath⟩ := List.mem_map.1 h
      obtain ⟨-, r, -, hr⟩ := mem_rangeNotices hx
      exact ranged_ne_self path r (hr.symm.trans hpath)
    · unfold rangeNotices
      split
      · exact List.nodup_nil
      · next s _ =>
        have hmap : ((ranges path).filterMap fun r => (s.range (t.text n) r.first r.last).map
              fun cut => (⟨path ++ r.pathForm, cut, n⟩ : Notice)).map (·.path) =
            ((ranges path).filter fun r => (s.range (t.text n) r.first r.last).isSome).map
              fun r => path ++ r.pathForm := by
          induction ranges path with
          | nil => rfl
          | cons r rs ih =>
            cases hcut : s.range (t.text n) r.first r.last with
            | none => simp [hcut, ih]
            | some cut => simp [hcut, ih]
        rw [hmap]
        refine List.Nodup.map_on ?_ ((hranges path).filter _)
        intro r _ q _ h
        exact (WordRange.ranged_inj h).2

/-! ### Nodes that are told -/

variable (ht : WellFormed t)
include ht

theorem mem_semanticBelow_root {n : Nat} :
    n ∈ t.semanticBelow 0 ↔ 0 < n ∧ ∃ path, Named t n path := by
  rw [semanticBelow_eq ht .root, List.mem_filter, ht.mem_below_root, Option.isSome_iff_exists]
  simp only [ht.pathOf_eq_some]
  refine ⟨fun h => ⟨h.1.1, h.2⟩, fun ⟨h0, path, h⟩ => ⟨⟨h0, ht.lt_size_of_named h⟩, path, h⟩⟩

theorem nodup_semanticBelow_root : (t.semanticBelow 0).Nodup := by
  rw [semanticBelow_eq ht .root]
  exact (ht.nodup_below 0).filter _

theorem filter_nodeNotices {n : Nat} {path : String} (hn : Named t n path) (m : Nat) :
    (t.nodeNotices ranges m).filter (fun x => x.node = n ∧ x.path = path) =
      if m = n then [⟨path, t.text n, n⟩] else [] := by
  by_cases hm : m = n
  · subst hm
    rw [if_pos rfl, nodeNotices, ht.pathOf_eq_some.2 hn]
    dsimp only
    rw [List.filter_cons_of_pos (by simp), List.filter_eq_nil_iff.2]
    intro x hx
    obtain ⟨-, r, -, hr⟩ := mem_rangeNotices hx
    have hne : x.path ≠ path := by
      rw [hr]
      exact ranged_ne_self path r
    simp [hne]
  · rw [if_neg hm, List.filter_eq_nil_iff]
    intro x hx
    simp [(mem_nodeNotices hx).1, hm]

/-- **A node is told once under its own path.** -/
theorem filter_notices {n : Nat} {path : String} (hn : Named t n path) :
    (t.notices ranges).filter (fun x => x.node = n ∧ x.path = path) =
      [⟨path, t.text n, n⟩] := by
  have hbelow := Fold.flatMap_eq_single (nodup_semanticBelow_root ht) (a := n)
    (f := fun m => if m = n then [(⟨path, t.text n, n⟩ : Notice)] else []) fun m _ hm => if_neg hm
  rw [notices, List.filter_cons, List.filter_cons, List.filter_flatMap]
  simp only [filter_nodeNotices ht hn]
  rw [hbelow, if_pos rfl]
  rcases Nat.eq_zero_or_pos n with rfl | h0
  · have hpath : path = NodePath.root := ht.named_unique hn .root
    have hout : 0 ∉ t.semanticBelow 0 := fun h =>
      Nat.lt_irrefl 0 ((mem_semanticBelow_root ht).1 h).1
    rw [if_neg hout, hpath, if_neg (by simp; decide), if_pos (by simp)]
  · rw [if_pos ((mem_semanticBelow_root ht).2 ⟨h0, path, hn⟩), if_neg (by simp; omega),
      if_neg (by simp; omega)]

theorem pathOf_of_mem_notices {x : Notice} (h : x ∈ t.notices ranges) :
    ∃ path, t.pathOf x.node = some path := by
  rw [notices, List.mem_cons, List.mem_cons, List.mem_flatMap] at h
  rcases h with rfl | rfl | ⟨n, hn, hx⟩
  · exact ⟨_, ht.pathOf_eq_some.2 .root⟩
  · exact ⟨_, ht.pathOf_eq_some.2 .root⟩
  · obtain ⟨-, path, hn⟩ := (mem_semanticBelow_root ht).1 hn
    exact ⟨path, by rw [(mem_nodeNotices hx).1]; exact ht.pathOf_eq_some.2 hn⟩

/-! ### Paths that are told -/

theorem plain_of_named {n : Nat} {path : String} (h : Named t n path) : Text.Plain path := by
  induction h with
  | root => exact plain_root
  | child _ hc ih =>
    refine plain_child ih (fun x hx => ?_) _
    exact isPlain_of_isLowerAlnum (ht.isLowerAlnum_of_mem_pathChildren hc x hx)

theorem plain_of_mem_nodeNotices {n : Nat} {x : Notice} (h : x ∈ t.nodeNotices ranges n) :
    Text.Plain x.path := by
  obtain ⟨-, path, hpath, rfl | ⟨r, -, hr⟩⟩ := mem_nodeNotices h
  · exact plain_of_named ht (ht.pathOf_eq_some.1 hpath)
  · rw [hr]
    exact plain_ranged (plain_of_named ht (ht.pathOf_eq_some.1 hpath)) r

theorem plain_lower_path {x : Notice} (h : x ∈ t.notices ranges) :
    Text.Plain (Text.lower x.path) := by
  rw [notices, List.mem_cons, List.mem_cons, List.mem_flatMap] at h
  rcases h with rfl | rfl | ⟨n, -, hx⟩
  · rw [lower_syntaxError]
    decide
  · rw [Text.lower_plain plain_root]
    exact plain_root
  · have hp := plain_of_mem_nodeNotices ht hx
    rwa [Text.lower_plain hp]

theorem paren_mem_path {n : Nat} (hn : n ∈ t.semanticBelow 0) {x : Notice}
    (hx : x ∈ t.nodeNotices ranges n) : ')' ∈ x.path.toList := by
  obtain ⟨h0, path, hnamed⟩ := (mem_semanticBelow_root ht).1 hn
  have hmem : ')' ∈ path.toList := by
    cases hnamed with
    | root => exact absurd h0 (Nat.lt_irrefl 0)
    | child => exact NodePath.paren_mem_child _ _ _
  obtain ⟨-, q, hq, hx⟩ := mem_nodeNotices hx
  rw [ht.named_unique (ht.pathOf_eq_some.1 hq) hnamed] at hx
  rcases hx with rfl | ⟨r, -, hr⟩
  · exact hmem
  · rw [hr, String.toList_append]
    exact List.mem_append_left _ hmem

theorem eq_of_path_eq {m n : Nat} {x y : Notice} (hm : m ∈ t.semanticBelow 0)
    (hn : n ∈ t.semanticBelow 0) (hx : x ∈ t.nodeNotices ranges m)
    (hy : y ∈ t.nodeNotices ranges n) (hpath : x.path = y.path) : m = n := by
  obtain ⟨-, p, hp, hx⟩ := mem_nodeNotices hx
  obtain ⟨-, q, hq, hy⟩ := mem_nodeNotices hy
  have hpm := ht.pathOf_eq_some.1 hp
  have hqn := ht.pathOf_eq_some.1 hq
  have bracket {n : Nat} {path q : String} (hn : n ∈ t.semanticBelow 0) (h : Named t n path)
      (r : WordRange) : q ++ r.pathForm ≠ path := by
    cases h with
    | root => exact absurd ((mem_semanticBelow_root ht).1 hn).1 (Nat.lt_irrefl 0)
    | child _ hc => exact NodePath.ranged_ne (ht.not_mem_name hc (by decide))
  rcases hx with rfl | ⟨r, -, hr⟩ <;> rcases hy with rfl | ⟨s, -, hs⟩
  · have hpath : p = q := hpath
    exact ht.named_inj hpm (hpath ▸ hqn)
  · exact absurd (hs.symm.trans hpath.symm) (bracket hm hpm s)
  · exact absurd (hr.symm.trans hpath) (bracket hn hqn r)
  · obtain ⟨hpq, -⟩ := WordRange.ranged_inj ((hr.symm.trans hpath).trans hs)
    exact ht.named_inj hpm (hpq ▸ hqn)

/-- **All paths that are told are distinct, even in lower case.** -/
theorem nodup_lower_paths (hranges : ∀ path, (ranges path).Nodup) :
    ((t.notices ranges).map fun x => Text.lower x.path).Nodup := by
  have hlower : ((t.semanticBelow 0).flatMap (t.nodeNotices ranges)).map
        (fun x => Text.lower x.path) =
      ((t.semanticBelow 0).flatMap (t.nodeNotices ranges)).map (·.path) := by
    refine List.map_congr_left fun x hx => ?_
    obtain ⟨n, -, hx⟩ := List.mem_flatMap.1 hx
    exact Text.lower_plain (plain_of_mem_nodeNotices ht hx)
  have hparen {p : String} (hp : ')' ∉ p.toList) :
      p ∉ ((t.semanticBelow 0).flatMap (t.nodeNotices ranges)).map (·.path) := fun h => by
    obtain ⟨x, hx, rfl⟩ := List.mem_map.1 h
    obtain ⟨n, hn, hx⟩ := List.mem_flatMap.1 hx
    exact hp (paren_mem_path ht hn hx)
  rw [notices, List.map_cons, List.map_cons, hlower, Text.lower_plain plain_root,
    lower_syntaxError]
  refine List.nodup_cons.2 ⟨fun h => ?_, List.nodup_cons.2 ⟨hparen (by decide), ?_⟩⟩
  · rcases List.mem_cons.1 h with h | h
    · revert h
      decide
    · exact hparen (by decide) h
  · rw [List.map_flatMap, List.nodup_flatMap]
    refine ⟨fun n _ => nodup_paths_nodeNotices hranges n, ?_⟩
    refine (nodup_semanticBelow_root ht).pairwise_of_forall_ne fun m hm n hn hne path hpm hpn => ?_
    obtain ⟨x, hx, hxp⟩ := List.mem_map.1 hpm
    obtain ⟨y, hy, hyp⟩ := List.mem_map.1 hpn
    exact hne (eq_of_path_eq ht hm hn hx hy (hxp.trans hyp.symm))

end AgentRules.SyntaxTree
