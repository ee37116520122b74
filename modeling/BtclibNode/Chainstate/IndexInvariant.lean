/-
# What holds of the index between calls

`Consistent` is the invariant of `BlockIndex`: the tree, invalidity closed under
descent, the active chain a path with the active statuses, the header index the
best header chain, and candidates and `best_invalid` that are indexed.  Every
call keeps it and raises no `KeyError`; of the active chain a call here moves
the tip by one block.
-/
import BtclibNode.Chainstate.NewHeaders

namespace BtclibNode.BlockIndex

open HeightTree

/-! ## The invariant -/

/-- What a candidate is: an indexed header above genesis, with its work. -/
structure IsCandidateEntry (chain : Chain) (s : BlockIndex) (c : Hash × ℕ) : Prop where
  known : ∃ info, s.getBlockInfo c.1 = some info
  work : c.2 = s.weight c.1
  ne_genesis : c.1 ≠ chain.genesis.hash

/-- What the index holds beside its header index. -/
structure Sound (chain : Chain) (s : BlockIndex) : Prop where
  headerTree : HeaderTree chain s
  invalidClosed : InvalidClosed s
  active : ∃ tip, IsPath chain s s.activeChain tip
  activeStatus : ∀ h, s.statusOf h = some .inActiveChain ↔ h ∈ s.activeChain
  bestInvalid : ∀ b, s.bestInvalid = some b → ∃ info, s.getBlockInfo b = some info
  candidates : ∀ c ∈ s.blockCandidates, IsCandidateEntry chain s c
  candidatesValid : ∀ c ∈ s.blockCandidates, s.statusOf c.1 ≠ some .invalid

/-- What the index holds between calls. -/
structure Consistent (chain : Chain) (s : BlockIndex) : Prop extends Sound chain s where
  best : BestHeaderChain chain s

section Consistent

variable {chain : Chain} {s t : BlockIndex} {h x : Hash} {info : BlockInfo} {status : BlockStatus}

theorem statusOf_eq (hinfo : s.getBlockInfo h = some info) : s.statusOf h = some info.status :=
  congrArg (Option.map BlockInfo.status) hinfo

theorem statusOf_ne (hinfo : s.getBlockInfo h = some info) :
    s.statusOf h ≠ some status ↔ info.status ≠ status := by
  rw [statusOf_eq hinfo, ne_eq, Option.some.injEq]

theorem exists_info_of_status (hs : s.statusOf h = some status) :
    ∃ info, s.getBlockInfo h = some info ∧ info.status = status := by
  unfold statusOf at hs
  rwa [Option.map_eq_some_iff] at hs

theorem Sound.active_valid (hs : Sound chain s) :
    ∀ h ∈ s.activeChain, s.statusOf h ≠ some .invalid := by
  intro h hh
  rw [(hs.activeStatus h).mpr hh]
  simp

theorem Sound.info_of_active (hs : Sound chain s) (hh : h ∈ s.activeChain) :
    ∃ info, s.getBlockInfo h = some info ∧ s.activeChain[info.index]? = some h := by
  obtain ⟨tip, hpath⟩ := hs.active
  exact hs.headerTree.info_of_mem hpath hh

/-- The active chain holds the ancestors of its blocks. -/
theorem Sound.active_of_descends (hs : Sound chain s) {y : Hash}
    (hx : Descends s.nodes x y) (hy : y ∈ s.activeChain) : x ∈ s.activeChain := by
  obtain ⟨tip, hpath⟩ := hs.active
  rw [hpath.mem_iff_descends hs.headerTree.tree] at hy ⊢
  exact hx.trans hy

theorem Sound.genesis_active (hs : Sound chain s) :
    chain.genesis.hash ∈ s.activeChain := by
  obtain ⟨tip, hpath⟩ := hs.active
  exact List.mem_of_head? hpath.head?

/-- The tip of the active chain, its record and its work. -/
theorem Sound.exists_tip (hs : Sound chain s) :
    ∃ tip info, s.activeChain.getLast? = some tip ∧ s.getBlockInfo tip = some info ∧
      IsPath chain s s.activeChain tip ∧ s.chainwork[tip]? = some (s.weight tip) := by
  obtain ⟨tip, hpath⟩ := hs.active
  obtain ⟨info, hinfo, -⟩ := hs.headerTree.info_of_mem hpath hpath.tip_mem
  exact ⟨tip, info, hpath.getLast?, hinfo, hpath, hs.headerTree.work_eq hinfo⟩

/-! ## Rewritten records -/

/-- `t` has the records, the tree and the header index of `s`. -/
structure SameRecords (s t : BlockIndex) : Prop where
  headerDict : t.headerDict = s.headerDict
  chainwork : t.chainwork = s.chainwork
  skip : t.skip = s.skip
  children : t.children = s.children
  headerIndex : t.headerIndex = s.headerIndex
  headerIndexPos : t.headerIndexPos = s.headerIndexPos

theorem SameRecords.rewrites (h : SameRecords s t) : Rewrites s t := by
  refine ⟨fun x => ?_, ?_, h.chainwork, h.skip, h.children, h.headerIndex, h.headerIndexPos⟩
  · unfold getBlockInfo
    rw [h.headerDict]
  · rw [h.headerDict]

theorem Rewrites.isPath_iff (hr : Rewrites s t) {l : List Hash} :
    IsPath chain t l x ↔ IsPath chain s l x := by
  unfold IsPath
  rw [hr.nodes_eq]

/-- A header index is about the tree and about what is invalid. -/
theorem BestHeaderChain.rewrites (hr : Rewrites s t) (hb : BestHeaderChain chain s)
    (hindex : ∀ x ∈ s.headerIndex, t.statusOf x ≠ some .invalid)
    (hstatus : ∀ x, s.statusOf x = some .invalid → t.statusOf x = some .invalid) :
    BestHeaderChain chain t := by
  obtain ⟨tip, hpath, hmax⟩ := hb
  refine ⟨tip, ⟨?_, ?_, ?_⟩, ?_⟩
  · rw [hr.isPath_iff, hr.headerIndex]
    exact hpath.path
  · rw [hr.headerIndex, hr.headerIndexPos]
    exact hpath.pos
  · rw [hr.headerIndex]
    exact hindex
  · intro x info hinfo hvalid
    obtain ⟨info', hinfo', -⟩ := hr.exists_info' hinfo
    rw [hr.weight_eq]
    refine hmax x info' hinfo' fun h0 => hvalid ?_
    have hinv := hstatus x (by rw [statusOf_eq hinfo', h0])
    rwa [statusOf_eq hinfo, Option.some.injEq] at hinv

theorem IsCandidateEntry.rewrites (hr : Rewrites s t) {c : Hash × ℕ}
    (hc : IsCandidateEntry chain s c) : IsCandidateEntry chain t c := by
  obtain ⟨⟨info, hinfo⟩, hwork, hne⟩ := hc
  obtain ⟨info', hinfo', -⟩ := hr.exists_info hinfo
  exact ⟨⟨info', hinfo'⟩, by rw [hr.weight_eq, hwork], hne⟩

theorem Rewrites.known (hr : Rewrites s t) (hx : ∃ info, s.getBlockInfo x = some info) :
    ∃ info, t.getBlockInfo x = some info := by
  obtain ⟨info, hinfo⟩ := hx
  obtain ⟨info', hinfo', -⟩ := hr.exists_info hinfo
  exact ⟨info', hinfo'⟩

theorem InvalidClosed.rewrites (hr : Rewrites s t) (hc : InvalidClosed s)
    (hstatus : ∀ x, t.statusOf x = some .invalid ↔ s.statusOf x = some .invalid) :
    InvalidClosed t := by
  intro p c hpc hp
  rw [hr.nodes_eq] at hpc
  rw [hstatus] at hp ⊢
  exact hc p c hpc hp

/-- Records rewritten with invalidity closed, and an active chain that is a path
with its statuses. -/
theorem Sound.rewrites (hr : Rewrites s t) (hs : Sound chain s) (hc : InvalidClosed t)
    (hactive : ∃ tip, IsPath chain s t.activeChain tip)
    (hactiveStatus : ∀ h, t.statusOf h = some .inActiveChain ↔ h ∈ t.activeChain)
    (hbest : ∀ b, t.bestInvalid = some b → ∃ info, s.getBlockInfo b = some info)
    (hcands : ∀ c ∈ t.blockCandidates, IsCandidateEntry chain s c)
    (hvalid : ∀ c ∈ t.blockCandidates, t.statusOf c.1 ≠ some .invalid) : Sound chain t where
  headerTree := hr.headerTree hs.headerTree
  invalidClosed := hc
  active := by
    obtain ⟨tip, hpath⟩ := hactive
    exact ⟨tip, hr.isPath_iff.mpr hpath⟩
  activeStatus := hactiveStatus
  bestInvalid := fun b hb => hr.known (hbest b hb)
  candidates := fun c hc => (hcands c hc).rewrites hr
  candidatesValid := hvalid

/-- The same under the same invalid statuses: the header index stands. -/
theorem Consistent.rewrites (hr : Rewrites s t) (hs : Consistent chain s)
    (hinvalid : ∀ x, t.statusOf x = some .invalid ↔ s.statusOf x = some .invalid)
    (hactive : ∃ tip, IsPath chain s t.activeChain tip)
    (hactiveStatus : ∀ h, t.statusOf h = some .inActiveChain ↔ h ∈ t.activeChain)
    (hbest : t.bestInvalid = s.bestInvalid)
    (hcands : ∀ c ∈ t.blockCandidates, IsCandidateEntry chain s c)
    (hvalid : ∀ c ∈ t.blockCandidates, s.statusOf c.1 ≠ some .invalid) : Consistent chain t where
  toSound := hs.toSound.rewrites hr (hs.invalidClosed.rewrites hr hinvalid) hactive hactiveStatus
    (fun b hb => hs.bestInvalid b (hbest ▸ hb)) hcands
    fun c hc h0 => hvalid c hc ((hinvalid c.1).mp h0)
  best := by
    refine hs.best.rewrites hr (fun x hx h0 => ?_) fun x => (hinvalid x).mpr
    obtain ⟨tip, hpath, -⟩ := hs.best
    exact hpath.valid x hx ((hinvalid x).mp h0)

/-- **The header index rebuilt is the best header chain.** -/
theorem Sound.rebuildHeaderIndex (hs : Sound chain s) :
    ∃ l d, s.rebuildHeaderIndex = some { s with headerIndex := l, headerIndexPos := d } ∧
      Consistent chain { s with headerIndex := l, headerIndexPos := d } := by
  obtain ⟨tip, hpath⟩ := hs.active
  obtain ⟨l, d, heq, hbest⟩ :=
    hs.headerTree.rebuildHeaderIndex hs.invalidClosed hpath hs.active_valid
  refine ⟨l, d, heq, ⟨?_, hbest⟩⟩
  refine ⟨hs.headerTree.withHeaderIndex l d, hs.invalidClosed, ⟨tip, hpath⟩, hs.activeStatus,
    hs.bestInvalid, fun c hc => ?_, hs.candidatesValid⟩
  obtain ⟨hknown, hwork, hne⟩ := hs.candidates c hc
  exact ⟨hknown, hwork, hne⟩

/-- An index with the same records, active chain and header index. -/
theorem Consistent.frame (hs : Consistent chain s) (hr : SameRecords s t)
    (hactive : t.activeChain = s.activeChain) (hbest : t.bestInvalid = s.bestInvalid)
    (hcands : ∀ c ∈ t.blockCandidates, IsCandidateEntry chain s c)
    (hvalid : ∀ c ∈ t.blockCandidates, s.statusOf c.1 ≠ some .invalid) : Consistent chain t := by
  have hstatus : t.statusOf = s.statusOf := by
    unfold statusOf getBlockInfo
    rw [hr.headerDict]
  refine hs.rewrites hr.rewrites (fun x => by rw [hstatus]) ?_ (fun x => ?_) hbest hcands
    hvalid
  · rw [hactive]
    exact hs.active
  · rw [hstatus, hactive]
    exact hs.activeStatus x

/-! ## The active chain -/

/-- `stage_status` of a header. -/
structure StatusStaged (status : BlockStatus) (h : Hash) (s t : BlockIndex) : Prop where
  rewrites : Rewrites s t
  info : ∀ x, t.getBlockInfo x =
    if h = x then (s.getBlockInfo x).map (·.withStatus status) else s.getBlockInfo x
  pending : ∀ x, t.pending[x]? = if h = x then t.getBlockInfo x else s.pending[x]?
  others : t = { s with
    headerDict := t.headerDict
    pending := t.pending }

theorem HeaderTree.stageStatus_eq (ht : HeaderTree chain s) (hinfo : s.getBlockInfo h = some info)
    (status : BlockStatus) :
    ∃ t, s.stageStatus h status = some t ∧ StatusStaged status h s t := by
  have hh : (info.withStatus status).header.hash = h :=
    show info.header.hash = h from ht.hash_eq hinfo
  have hget : ∀ x, (s.headerDict.set h (info.withStatus status)).get? x =
      if h = x then (s.getBlockInfo x).map (·.withStatus status) else s.getBlockInfo x := by
    intro x
    rw [Dict.get?_set]
    by_cases hx : h = x
    · rw [if_pos hx, if_pos hx, ← hx, hinfo]
      rfl
    · rw [if_neg hx, if_neg hx]
      rfl
  unfold stageStatus stage
  rw [hinfo, Option.bind_eq_bind, Option.bind_some, recordBlockInfo_eq hinfo hh]
  refine ⟨_, rfl, ⟨fun x => ?_, Dict.keys_set_of_get? _ hinfo, rfl, rfl, rfl, rfl, rfl⟩, hget,
    fun x => ?_, rfl⟩
  · refine (congrArg _ (hget x)).trans ?_
    split
    · rw [Option.map_map]
      rfl
    · rfl
  · show (s.pending.insert _ _)[x]? = if h = x then (s.headerDict.set h _).get? x else _
    rw [hh, FiniteMap.getElem?_insert]
    by_cases hx : h = x
    · rw [if_pos hx, if_pos hx, Dict.get?_set, if_pos hx]
    · rw [if_neg hx, if_neg hx]

theorem StatusStaged.statusOf_eq (hst : StatusStaged status h s t)
    (hinfo : s.getBlockInfo h = some info) (x : Hash) :
    t.statusOf x = if h = x then some status else s.statusOf x := by
  unfold statusOf
  rw [hst.info x]
  by_cases hx : h = x
  · rw [if_pos hx, if_pos hx, ← hx, hinfo]
    rfl
  · rw [if_neg hx, if_neg hx]

/-- A status that is not `invalid`, staged for a header that was not invalid. -/
theorem StatusStaged.invalid_iff (hst : StatusStaged status h s t)
    (hinfo : s.getBlockInfo h = some info) (hvalid : info.status ≠ .invalid)
    (hstatus : status ≠ .invalid) (x : Hash) :
    t.statusOf x = some .invalid ↔ s.statusOf x = some .invalid := by
  rw [hst.statusOf_eq hinfo]
  by_cases hx : h = x
  · rw [if_pos hx, ← hx, BlockIndex.statusOf_eq hinfo]
    simp [hvalid, hstatus]
  · rw [if_neg hx]

/-- The step `_finalize_fork` makes for a block it adds. -/
def connectTip (s : BlockIndex) (h : Hash) : Option BlockIndex :=
  (s.addToActiveChain h).stageStatus h .inActiveChain

/-- The step `_finalize_fork` makes for a block it removes. -/
def disconnectTip (s : BlockIndex) (h : Hash) : Option BlockIndex := do
  let t ← s.removeFromActiveChain h
  t.stageStatus h .valid

/-- A header that can be the next tip: a child of the tip that is not invalid. -/
structure IsNextTip (s : BlockIndex) (h : Hash) : Prop where
  child : ∃ tip, s.activeChain.getLast? = some tip ∧ Child s.nodes tip h
  valid : s.statusOf h ≠ some .invalid

theorem HeaderTree.snoc_child {l : List Hash} {tip : Hash} (ht : HeaderTree chain s)
    (hl : IsPath chain s l tip) (hchild : Child s.nodes tip h) : IsPath chain s (l ++ [h]) h := by
  obtain ⟨n, hn⟩ := hchild
  refine .snoc hl ?_
  obtain ⟨q, hq⟩ := hl.node_tip ht.tree
  obtain ⟨q', hq'⟩ := ht.tree.parent_node hn
  rw [hq, Option.some.injEq, Prod.mk.injEq] at hq'
  have := hl.length_pos
  rw [hn]
  congr 2
  omega

/-- **The active chain takes a child of its tip.** -/
theorem Consistent.connectTip_eq (hs : Consistent chain s) (hnext : IsNextTip s h) :
    ∃ t, s.connectTip h = some t ∧ StatusStaged .inActiveChain h (s.addToActiveChain h) t ∧
      Consistent chain t := by
  obtain ⟨tip, htip, hchild⟩ := hnext.child
  obtain ⟨info, hinfo, -⟩ := exists_info hchild.choose_spec
  have hvalid : info.status ≠ .invalid := (statusOf_ne hinfo).mp hnext.valid
  have ht' : HeaderTree chain (s.addToActiveChain h) := hs.headerTree.congr rfl rfl rfl rfl
  obtain ⟨t, heq, hst⟩ := ht'.stageStatus_eq hinfo .inActiveChain
  have hchain : t.activeChain = s.activeChain ++ [h] := by
    rw [hst.others]
    rfl
  have hr : Rewrites s t := by
    refine .trans (SameRecords.rewrites ?_) hst.rewrites
    exact ⟨rfl, rfl, rfl, rfl, rfl, rfl⟩
  refine ⟨t, heq, hst, hs.rewrites hr (hst.invalid_iff hinfo hvalid (by simp)) ⟨h, ?_⟩ ?_
    (by rw [hst.others]; rfl) (by rw [hst.others]; exact hs.candidates)
    (by rw [hst.others]; exact hs.candidatesValid)⟩
  · obtain ⟨tip', hpath⟩ := hs.active
    rw [hpath.getLast?, Option.some.injEq] at htip
    rw [hchain]
    exact hs.headerTree.snoc_child hpath (htip ▸ hchild)
  · intro x
    rw [hst.statusOf_eq hinfo, hchain, List.mem_append, List.mem_singleton, ← hs.activeStatus]
    by_cases hx : h = x
    · simp [hx]
    · rw [if_neg hx]
      exact ⟨.inl, fun h0 => h0.resolve_right fun h1 => hx h1.symm⟩

/-- **The active chain drops its tip**, where that is not genesis. -/
theorem Consistent.disconnectTip_eq (hs : Consistent chain s) (htip : s.activeChain.getLast? = some h)
    (hne : h ≠ chain.genesis.hash) :
    ∃ t, s.disconnectTip h = some t ∧
      StatusStaged .valid h { s with activeChain := s.activeChain.dropLast } t ∧
      Consistent chain t := by
  obtain ⟨tip, hpath⟩ := hs.active
  obtain rfl : tip = h := by
    rw [hpath.getLast?, Option.some.injEq] at htip
    exact htip
  obtain ⟨info, hinfo, -⟩ := hs.headerTree.info_of_mem hpath hpath.tip_mem
  have hvalid := (statusOf_ne hinfo).mp (hs.active_valid tip hpath.tip_mem)
  have ht' : HeaderTree chain { s with activeChain := s.activeChain.dropLast } :=
    hs.headerTree.congr rfl rfl rfl rfl
  obtain ⟨t, heq, hst⟩ := ht'.stageStatus_eq hinfo .valid
  have hchain : t.activeChain = s.activeChain.dropLast := by rw [hst.others]
  have hr : Rewrites s t := by
    refine .trans (SameRecords.rewrites ?_) hst.rewrites
    exact ⟨rfl, rfl, rfl, rfl, rfl, rfl⟩
  refine ⟨t, ?_, hst, hs.rewrites hr (hst.invalid_iff hinfo hvalid (by simp)) ?_ ?_
    (by rw [hst.others]) (by rw [hst.others]; exact hs.candidates)
    (by rw [hst.others]; exact hs.candidatesValid)⟩
  · unfold disconnectTip removeFromActiveChain
    rw [if_pos htip, Option.bind_eq_bind, Option.bind_some, heq]
  · rw [hchain]
    obtain ⟨parent, hparent, -⟩ := hpath.exists_dropLast hne
    exact ⟨parent, hparent⟩
  · intro x
    have hnodup := hpath.nodup hs.headerTree.tree
    have hsplit : s.activeChain = s.activeChain.dropLast ++ [tip] :=
      (List.dropLast_append_getLast? tip htip).symm
    rw [hst.statusOf_eq hinfo, hchain]
    show (if tip = x then _ else s.statusOf x) = _ ↔ _
    by_cases hx : tip = x
    · subst hx
      rw [hsplit, List.nodup_append] at hnodup
      have hnot : tip ∉ s.activeChain.dropLast := fun hmem =>
        hnodup.2.2 tip hmem tip (List.mem_singleton_self tip) rfl
      simp [hnot]
    · rw [if_neg hx, hs.activeStatus, hsplit, List.mem_append, List.mem_singleton,
        List.dropLast_concat]
      exact ⟨fun h0 => h0.resolve_right fun h1 => hx h1.symm, .inl⟩

end Consistent

end BtclibNode.BlockIndex
