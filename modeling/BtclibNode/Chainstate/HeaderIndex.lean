/-
# The header index

`header_index` and its inverse as `_grow_header_index` and
`_extend_header_index` patch them.  The tail a fork replaces is never empty,
because a header above the tip that is not its child has an ancestor that is,
and that ancestor outweighed the tip when its turn came.
-/
import BtclibNode.Chainstate.HeaderTree

namespace BtclibNode.BlockIndex

open HeightTree

/-! ## Positions -/

/-- `d` is the exact inverse of `l`. -/
def PosInverse (l : List Hash) (d : Std.ExtTreeMap Hash ℕ) : Prop :=
  ∀ (h : Hash) (i : ℕ), d[h]? = some i ↔ l[i]? = some h

section Positions

variable {l add rest : List Hash} {d : Std.ExtTreeMap Hash ℕ}

theorem PosInverse.append_singleton {h : Hash} (hd : PosInverse l d) (hh : h ∉ l) :
    PosInverse (l ++ [h]) (d.insert h l.length) := by
  intro x i
  rw [FiniteMap.getElem?_insert, List.getElem?_append]
  by_cases hx : h = x
  · subst hx
    rw [if_pos rfl, Option.some.injEq]
    by_cases hi : i < l.length
    · rw [if_pos hi]
      constructor
      · omega
      · intro hl
        exact absurd (List.mem_of_getElem? hl) hh
    · rw [if_neg hi, List.getElem?_singleton]
      constructor
      · rintro rfl
        rw [if_pos (by omega)]
      · intro hl
        split at hl
        · omega
        · cases hl
  · rw [if_neg hx, hd x i]
    by_cases hi : i < l.length
    · rw [if_pos hi]
    · rw [if_neg hi, List.getElem?_singleton, List.getElem?_eq_none (by omega)]
      constructor
      · intro h0
        cases h0
      · intro hl
        split at hl
        · exact absurd (Option.some.inj hl) hx
        · cases hl

theorem PosInverse.insertPositions (hd : PosInverse l d) (hnodup : (l ++ add).Nodup) :
    PosInverse (l ++ add) (insertPositions l.length add d) := by
  induction add generalizing l d with
  | nil => rwa [List.append_nil]
  | cons h add ih =>
    have hh : h ∉ l := by
      intro hmem
      rw [List.nodup_append] at hnodup
      exact hnodup.2.2 h hmem h List.mem_cons_self rfl
    have hnodup' : (l ++ [h] ++ add).Nodup := by simpa using hnodup
    have hrest := ih (hd.append_singleton hh) hnodup'
    rw [List.length_append, List.length_singleton] at hrest
    simpa [BlockIndex.insertPositions] using hrest

theorem getElem?_deletePositions (hmem : ∀ h ∈ rest, h ∈ d) (hnodup : rest.Nodup) :
    ∃ d', deletePositions rest d = some d' ∧
      ∀ h, d'[h]? = if h ∈ rest then none else d[h]? := by
  induction rest generalizing d with
  | nil => exact ⟨d, rfl, by simp⟩
  | cons x rest ih =>
    rw [List.nodup_cons] at hnodup
    obtain ⟨hx, hrest⟩ := List.forall_mem_cons.mp hmem
    obtain ⟨d', hd', hget⟩ := ih (d := d.erase x) (by
      intro h hh
      rw [Std.ExtTreeMap.mem_erase]
      refine ⟨?_, hrest h hh⟩
      intro hc
      rw [Std.LawfulEqCmp.compare_eq_iff_eq] at hc
      exact hnodup.1 (hc ▸ hh)) hnodup.2
    refine ⟨d', by rw [deletePositions, if_pos hx, hd'], fun h => ?_⟩
    rw [hget, FiniteMap.getElem?_erase]
    by_cases hh : h ∈ rest
    · rw [if_pos hh, if_pos (List.mem_cons_of_mem x hh)]
    · by_cases hxh : x = h
      · rw [if_neg hh, if_pos hxh, if_pos (by simp [hxh])]
      · rw [if_neg hh, if_neg hxh, if_neg (by simp [hh, Ne.symm hxh])]

/-- Deleting the tail of a list leaves the inverse of the rest. -/
theorem PosInverse.deletePositions (hd : PosInverse (l ++ rest) d) (hnodup : (l ++ rest).Nodup) :
    ∃ d', deletePositions rest d = some d' ∧ PosInverse l d' := by
  rw [List.nodup_append] at hnodup
  obtain ⟨d', hd', hget⟩ := getElem?_deletePositions (d := d) (by
    intro h hh
    obtain ⟨i, hi⟩ := List.mem_iff_getElem?.mp (List.mem_append_right l hh)
    exact (FiniteMap.mem_iff_exists d h).mpr ⟨i, (hd h i).mpr hi⟩) hnodup.2.1
  refine ⟨d', hd', fun h i => ?_⟩
  rw [hget]
  by_cases hh : h ∈ rest
  · rw [if_pos hh]
    constructor
    · intro h0
      cases h0
    · intro hl
      exact absurd rfl (hnodup.2.2 h (List.mem_of_getElem? hl) h hh)
  · rw [if_neg hh, hd, List.getElem?_append]
    by_cases hi : i < l.length
    · rw [if_pos hi]
    · have hl : l[i]? = none := List.getElem?_eq_none (by omega)
      rw [if_neg hi, hl]
      constructor
      · intro hr
        exact absurd (List.mem_of_getElem? hr) hh
      · intro h0
        cases h0

theorem posInverse_positions (hnodup : l.Nodup) : PosInverse l (insertPositions 0 l ∅) := by
  have hempty : PosInverse [] (∅ : Std.ExtTreeMap Hash ℕ) := by
    intro h i
    simp
  exact hempty.insertPositions hnodup

end Positions

/-! ## The invariant -/

/-- What is built on an invalid header is invalid. -/
def InvalidClosed (s : BlockIndex) : Prop :=
  ∀ p c, Child s.nodes p c → s.statusOf p = some .invalid → s.statusOf c = some .invalid

/-- `header_index` is the path to `tip`, with its inverse, and no header of it
is invalid. -/
structure HeaderIndexPath (chain : Chain) (s : BlockIndex) (tip : Hash) : Prop where
  path : IsPath chain s s.headerIndex tip
  pos : PosInverse s.headerIndex s.headerIndexPos
  valid : ∀ h ∈ s.headerIndex, s.statusOf h ≠ some .invalid

/-- **`header_index` is the path to a header that no valid one outweighs.** -/
def BestHeaderChain (chain : Chain) (s : BlockIndex) : Prop :=
  ∃ tip, HeaderIndexPath chain s tip ∧
    ∀ h info, s.getBlockInfo h = some info → info.status ≠ .invalid → s.weight h ≤ s.weight tip

section Frame

variable {chain : Chain} {s t : BlockIndex}

/-- The tree is in four of the attributes. -/
theorem HeaderTree.congr (ht : HeaderTree chain s) (hdict : t.headerDict = s.headerDict)
    (hwork : t.chainwork = s.chainwork) (hchildren : t.children = s.children)
    (hskip : t.skip = s.skip) : HeaderTree chain t := by
  have hinfo : t.getBlockInfo = s.getBlockInfo := by
    unfold getBlockInfo
    rw [hdict]
  have hnodes : t.nodes = s.nodes := by
    unfold nodes
    rw [hinfo]
  have hweight : t.weight = s.weight := by
    unfold weight
    rw [hwork]
  have hpath : ∀ l h, IsPath chain t l h ↔ IsPath chain s l h := by
    intro l h
    unfold IsPath
    rw [hnodes]
  constructor
  · rw [hnodes]; exact ht.tree
  · rw [hinfo]; exact ht.hash_eq
  · rw [hinfo, hwork]; exact ht.work_some
  · rw [hnodes, hweight]; exact ht.work_lt
  · rw [hnodes, hchildren]; exact ht.mem_children
  · rw [hchildren]; exact ht.nodup_children
  · intro h target l hs hl
    rw [hskip] at hs
    exact ht.skip_eq hs ((hpath l h).mp hl)
  · rw [hskip, hinfo]; exact ht.skip_known

theorem HeaderTree.withHeaderIndex (ht : HeaderTree chain s) (l : List Hash)
    (d : Std.ExtTreeMap Hash ℕ) :
    HeaderTree chain { s with headerIndex := l, headerIndexPos := d } :=
  ht.congr rfl rfl rfl rfl

theorem InvalidClosed.valid_of_descends {x h : Hash} {info : BlockInfo} (hc : InvalidClosed s)
    (hx : Descends s.nodes x h) (hinfo : s.getBlockInfo h = some info)
    (hvalid : info.status ≠ .invalid) : s.statusOf x ≠ some .invalid := by
  intro hinvalid
  have hh := hx.closed hc hinvalid
  unfold statusOf at hh
  rw [hinfo, Option.map_some, Option.some.injEq] at hh
  exact hvalid hh

end Frame

/-! ## Growth -/

section Growth

variable {chain : Chain} {s : BlockIndex} {tip h : Hash} {info : BlockInfo}

/-- A header joins the index as its new tip, in place of whatever is above the
fork, or stays off it. -/
theorem HeaderIndexPath.grow (hp : HeaderIndexPath chain s tip) (ht : HeaderTree chain s)
    (hc : InvalidClosed s) (hinfo : s.getBlockInfo h = some info)
    (hvalid : info.status ≠ .invalid) (hnot : h ∉ s.headerIndex)
    (hbelow : ∀ x, Descends s.nodes x h → x ≠ h → s.weight x ≤ s.weight tip) :
    ∃ l d tip', s.growHeaderIndex info.header h (s.weight h) =
        some { s with headerIndex := l, headerIndexPos := d } ∧
      HeaderIndexPath chain { s with headerIndex := l, headerIndexPos := d } tip' ∧
      s.weight tip ≤ s.weight tip' ∧ s.weight h ≤ s.weight tip' := by
  obtain ⟨l, hl, hlen⟩ := ht.exists_path hinfo
  have hnodup := hl.nodup ht.tree
  have hne : h ≠ chain.genesis.hash := by
    rintro rfl
    exact hnot (List.mem_of_head? hp.path.head?)
  obtain ⟨tinfo, htinfo, -⟩ := ht.info_of_mem hp.path hp.path.tip_mem
  have hpathValid : ∀ x ∈ l, s.statusOf x ≠ some .invalid := fun x hx =>
    hc.valid_of_descends ((hl.mem_iff_descends ht.tree).mp hx) hinfo hvalid
  have hindex : info.index ≠ 0 := fun h0 =>
    hne (ht.tree.height_zero ((nodes_eq hinfo).trans (by rw [h0])))
  unfold growHeaderIndex
  rw [hp.path.getLast?, Option.bind_eq_bind, Option.bind_some]
  by_cases hparent : info.header.previousBlockHash = tip
  · -- a child of the tip
    rw [if_pos hparent]
    have hchild : Child s.nodes tip h := hparent ▸ (ht.exists_parent hinfo hindex).1
    have hstep : IsPath chain s (s.headerIndex ++ [h]) h := by
      refine .snoc hp.path ?_
      obtain ⟨n, hn⟩ := hchild
      obtain ⟨q, hq⟩ := hp.path.node_tip ht.tree
      obtain ⟨q', hq'⟩ := ht.tree.parent_node hn
      rw [hq, Option.some.injEq, Prod.mk.injEq] at hq'
      have := hp.path.length_pos
      rw [hn]
      congr 2
      omega
    have hlt := ht.work_lt hchild
    refine ⟨_, _, h, rfl, ⟨hstep, hp.pos.append_singleton hnot, ?_⟩, by omega, by omega⟩
    intro x hx
    rcases List.mem_append.mp hx with hx | hx
    · exact hp.valid x hx
    · exact hpathValid x (List.mem_singleton.mp hx ▸ hl.tip_mem)
  · rw [if_neg hparent, ht.work_eq htinfo, Option.bind_eq_bind, Option.bind_some]
    by_cases hmore : s.weight tip < s.weight h
    · rw [if_pos hmore]
      obtain ⟨add, remove, k, hfork, hisFork⟩ := ht.getForkDetails_eq hl hp.path hne
      obtain ⟨rfl, rfl⟩ := And.intro hisFork.add_eq hisFork.remove_eq
      have htake := hisFork.take_eq
      -- something above the fork is there to be replaced
      have hk : k < s.headerIndex.length := by
        refine Nat.lt_of_le_of_ne hisFork.le ?_
        rintro rfl
        obtain ⟨x, hx, hchild⟩ := hisFork.child_of_full hl hp.path
        have hlt := ht.work_lt hchild
        by_cases hxh : x = h
        · obtain ⟨n, hn⟩ := hchild
          rw [hxh, nodes_eq hinfo, Option.some.injEq, Prod.mk.injEq] at hn
          exact hparent hn.1
        · have := hbelow x ((hl.mem_iff_descends ht.tree).mp (List.mem_of_getElem? hx)) hxh
          omega
      have hsplit : PosInverse (s.headerIndex.take k ++ s.headerIndex.drop k) s.headerIndexPos := by
        rw [List.take_append_drop]
        exact hp.pos
      obtain ⟨d, hd, hpos⟩ := hsplit.deletePositions (by
        rw [List.take_append_drop]
        exact hp.path.nodup ht.tree)
      have hkept : pyDropLast s.headerIndex (s.headerIndex.drop k).length
          = s.headerIndex.take k := by
        unfold pyDropLast
        rw [List.length_drop, if_neg (by omega)]
        congr 1
        omega
      have hnew : s.headerIndex.take k ++ l.drop k = l := by
        rw [← htake, List.take_append_drop]
      rw [hfork, Option.bind_eq_bind, Option.bind_some]
      dsimp only
      rw [hd, Option.bind_some, hkept]
      refine ⟨_, _, h, rfl, ⟨?_, ?_, ?_⟩, by omega, Nat.le_refl _⟩
      · show IsPath chain s (s.headerIndex.take k ++ l.drop k) h
        rw [hnew]
        exact hl
      · exact hpos.insertPositions (by rw [hnew]; exact hnodup)
      · show ∀ x ∈ s.headerIndex.take k ++ l.drop k, s.statusOf x ≠ some .invalid
        rw [hnew]
        exact hpathValid
    · rw [if_neg hmore]
      exact ⟨s.headerIndex, s.headerIndexPos, tip, rfl, hp, Nat.le_refl _, by omega⟩

/-! ## Extension -/

/-- The loop of `_extend_header_index` over the rest of the headers, those done
before it lower or level: the tip ends outweighing them all. -/
theorem HeaderIndexPath.extend (hp : HeaderIndexPath chain s tip) (ht : HeaderTree chain s)
    (hc : InvalidClosed s) (done rest : List Hash)
    (hsorted : (done ++ rest).Pairwise fun a b => s.heightOf a ≤ s.heightOf b)
    (hall : ∀ x, x ∈ done ++ rest ↔ ∃ info, s.getBlockInfo x = some info)
    (hdone : ∀ x ∈ done, s.statusOf x ≠ some .invalid → s.weight x ≤ s.weight tip) :
    ∃ l d tip', s.extendHeaderIndex rest =
        some { s with headerIndex := l, headerIndexPos := d } ∧
      HeaderIndexPath chain { s with headerIndex := l, headerIndexPos := d } tip' ∧
      ∀ x ∈ done ++ rest, s.statusOf x ≠ some .invalid → s.weight x ≤ s.weight tip' := by
  induction rest generalizing s tip done with
  | nil => exact ⟨s.headerIndex, s.headerIndexPos, tip, rfl, hp, by rwa [List.append_nil]⟩
  | cons h rest ih =>
    have happend : done ++ h :: rest = done ++ [h] ++ rest := by simp
    obtain ⟨info, hinfo⟩ := (hall h).mp (by simp)
    rw [happend] at hsorted hall
    unfold extendHeaderIndex
    by_cases hon : h ∈ s.headerIndex
    · rw [if_pos hon, happend]
      refine ih hp ht hc (done ++ [h]) hsorted hall fun x hx hvalid => ?_
      rcases List.mem_append.mp hx with hx | hx
      · exact hdone x hx hvalid
      · rw [List.mem_singleton.mp hx]
        exact ht.weight_le hp.path hon
    · rw [if_neg hon, hinfo, Option.bind_eq_bind, Option.bind_some]
      by_cases hinvalid : info.status = .invalid
      · rw [if_pos hinvalid, happend]
        refine ih hp ht hc (done ++ [h]) hsorted hall fun x hx hvalid => ?_
        rcases List.mem_append.mp hx with hx | hx
        · exact hdone x hx hvalid
        · refine absurd ?_ hvalid
          rw [List.mem_singleton.mp hx]
          unfold statusOf
          rw [hinfo, Option.map_some, hinvalid]
      · rw [if_neg hinvalid, ht.work_eq hinfo, Option.bind_eq_bind, Option.bind_some]
        have hbelow : ∀ x, Descends s.nodes x h → x ≠ h → s.weight x ≤ s.weight tip := by
          intro x hx hne
          have hvalid := hc.valid_of_descends hx hinfo hinvalid
          obtain ⟨l, hl, hlen⟩ := ht.exists_path hinfo
          obtain ⟨xinfo, hxinfo, hxl⟩ := ht.info_of_mem hl ((hl.mem_iff_descends ht.tree).mpr hx)
          -- an ancestor is strictly lower, so its turn has come
          have hlow : xinfo.index < info.index := by
            have hlt := (List.getElem?_eq_some_iff.mp hxl).1
            refine Nat.lt_of_le_of_ne (by omega) fun heq => hne ?_
            have htip := hl.tip_getElem?
            rw [hlen, Nat.add_sub_cancel, ← heq, hxl, Option.some.injEq] at htip
            exact htip
          have hmem := (hall x).mpr ⟨xinfo, hxinfo⟩
          rcases List.mem_append.mp hmem with hmem | hmem
          · rcases List.mem_append.mp hmem with hmem | hmem
            · exact hdone x hmem hvalid
            · exact absurd (List.mem_singleton.mp hmem) hne
          · have hle := (List.pairwise_append.mp hsorted).2.2 h (by simp) x hmem
            unfold heightOf at hle
            rw [hinfo, hxinfo] at hle
            exact absurd hle (by simp; omega)
        obtain ⟨l, d, tip', hgrow, hp', hle, hle'⟩ :=
          hp.grow ht hc hinfo hinvalid hon hbelow
        rw [hgrow, Option.bind_eq_bind, Option.bind_some, happend]
        refine ih hp' (ht.withHeaderIndex l d) hc (done ++ [h]) hsorted hall fun x hx hvalid => ?_
        rcases List.mem_append.mp hx with hx | hx
        · exact Nat.le_trans (hdone x hx hvalid) hle
        · rw [List.mem_singleton.mp hx]
          exact hle'

theorem sortedHeaders_pairwise (s : BlockIndex) :
    s.sortedHeaders.Pairwise fun a b => s.heightOf a ≤ s.heightOf b := by
  have : Std.Total fun a b : Hash => s.heightOf a ≤ s.heightOf b :=
    ⟨fun a b => Nat.le_total _ _⟩
  have : IsTrans Hash fun a b => s.heightOf a ≤ s.heightOf b := ⟨fun a b c => Nat.le_trans⟩
  exact List.pairwise_insertionSort _ _

theorem mem_sortedHeaders (s : BlockIndex) (h : Hash) :
    h ∈ s.sortedHeaders ↔ ∃ info, s.getBlockInfo h = some info := by
  unfold sortedHeaders
  rw [List.mem_insertionSort]
  exact s.headerDict.mem_keys_iff h

/-- **A header index rebuilt from the active chain is the best header chain.** -/
theorem HeaderTree.rebuildHeaderIndex (ht : HeaderTree chain s) (hc : InvalidClosed s)
    (hactive : IsPath chain s s.activeChain tip)
    (hvalid : ∀ h ∈ s.activeChain, s.statusOf h ≠ some .invalid) :
    ∃ l d, s.rebuildHeaderIndex = some { s with headerIndex := l, headerIndexPos := d } ∧
      BestHeaderChain chain { s with headerIndex := l, headerIndexPos := d } := by
  have hstart : HeaderIndexPath chain { s with
      headerIndex := s.activeChain
      headerIndexPos := insertPositions 0 s.activeChain ∅ } tip :=
    ⟨hactive, posInverse_positions (hactive.nodup ht.tree), hvalid⟩
  obtain ⟨l, d, tip', heq, hpath, hmax⟩ := hstart.extend (ht.withHeaderIndex _ _) hc [] s.sortedHeaders
    s.sortedHeaders_pairwise s.mem_sortedHeaders
    (fun x hx => by cases hx)
  refine ⟨l, d, heq, tip', hpath, fun h info hinfo hnot => ?_⟩
  refine hmax h ((s.mem_sortedHeaders h).mpr ⟨info, hinfo⟩) ?_
  have hstatus : s.statusOf h = some info.status := congrArg (Option.map BlockInfo.status) hinfo
  show s.statusOf h ≠ some .invalid
  rw [hstatus, ne_eq, Option.some.injEq]
  exact hnot

end Growth

end BtclibNode.BlockIndex
