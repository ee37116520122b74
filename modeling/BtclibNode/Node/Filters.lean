/-
# The filters of a node

What every call of a node keeps of its filters: they chain, the tip of the
active chain has one, the locator names a stored one, and every block of the
active chain, and of the chain the store of the chainstate has, is covered in
the filter store or can still be read with its patch.
-/
import BtclibNode.Chainstate.FilterChain
import BtclibNode.Node.NodeRun

namespace BtclibNode

open StateExcept BlockIndex HeightTree FilterIndex

namespace BlockIndex

section Stored

variable {chain : Chain} {db : BlockTable} {main main' : List Hash} {h : Hash}

/-- The records name their active chain. -/
theorem StoredTree.mem_of_mem (hdb : StoredTree chain db main) (hdb' : StoredTree chain db main')
    (hh : h ∈ main') : h ∈ main := by
  obtain ⟨tip, hpath⟩ := hdb'.active
  obtain ⟨p, n, hnode, -⟩ := hpath.node_of_mem hdb.tree hh
  unfold storedNodes at hnode
  rw [Option.map_eq_some_iff] at hnode
  obtain ⟨info, hinfo, -⟩ := hnode
  exact (hdb.activeStatus h info hinfo).mp ((hdb'.activeStatus h info hinfo).mpr hh)

end Stored

end BlockIndex

namespace Node

variable {S : Type} {cfg : NodeConfig S} {env : Env} {n t : Node S}

/-- The block is on the active chain that the store of the chainstate has. -/
def StoredActive (cfg : NodeConfig S) (n : Node S) (h : Hash) : Prop :=
  ∃ main, StoreAgrees cfg.chain main n.blockIndex n.db.records ∧ h ∈ main

/-- Its filter is stored, or the block and its patch are. -/
def Coverable (n : Node S) (h : Hash) : Prop :=
  (n.filterIndex.stored h).isSome ∨ h ∈ n.blockDb.blocks ∧ h ∈ n.blockDb.revPatches

/-- What holds of the filters of a node between calls. -/
structure FilterSound (cfg : NodeConfig S) (n : Node S) : Prop where
  good : Good cfg.filters n.blockIndex.nodes n.filterIndex
  tip : ∀ tip, n.blockIndex.activeChain.getLast? = some tip → (n.filterIndex.entry tip).isSome
  located : n.filterIndex.bestBlock.isSome
  synced : n.filterIndex.synced = true
  headers : ∀ (h : Hash) (block : Block), n.blockDb.blocks[h]? = some block →
    HeaderAgrees cfg.filters n.blockIndex.nodes block
  active : ∀ h ∈ n.blockIndex.activeChain, n.Coverable h
  storedActive : ∀ h, StoredActive cfg n h → n.Coverable h

section Kept

/-- Every block of the active chain has its filter. -/
theorem FilterSound.covered (hf : FilterSound cfg n) (hn : Sound cfg n)
    (hgenesis : cfg.filters.genesisHash = cfg.chain.genesis.hash) {h : Hash}
    (hh : h ∈ n.blockIndex.activeChain) : (n.filterIndex.entry h).isSome := by
  have hs : Consistent cfg.chain n.blockIndex := hn.agrees.consistent
  obtain ⟨tip, hmain⟩ := hs.active
  have hdesc := (hmain.mem_iff_descends hs.headerTree.tree).mp hh
  exact hf.good.entries.ancestor hs.headerTree.tree hgenesis hdesc (hf.tip tip hmain.getLast?)

/-- What the chainstate store says of the active chain before is what it says after. -/
theorem StoredActive.of_indexed {h : Hash} (ht : StoredActive cfg t h)
    (hn : n.indexStore.Agrees cfg.chain) (hi : Indexed cfg n t) : StoredActive cfg n h := by
  obtain ⟨main', ha', hmem⟩ := ht
  obtain ⟨main, ha⟩ := hn.store
  exact ⟨main, ha, (hi.store main ha).stored.mem_of_mem ha'.stored hmem⟩

/-- Calls of the index that leave the active chain alone. -/
theorem FilterSound.of_indexed (hf : FilterSound cfg n) (hn : n.indexStore.Agrees cfg.chain)
    (hi : Indexed cfg n t) (hactive : t.blockIndex.activeChain = n.blockIndex.activeChain)
    (hfilter : t.filterIndex = n.filterIndex) (hblocks : t.blockDb.blocks = n.blockDb.blocks)
    (hpatches : t.blockDb.revPatches = n.blockDb.revPatches) : FilterSound cfg t := by
  have hcover : ∀ h, n.Coverable h → t.Coverable h := by
    intro h hc
    unfold Coverable
    rw [hfilter, hblocks, hpatches]
    exact hc
  refine ⟨?_, ?_, ?_, ?_, ?_, ?_, ?_⟩
  · rw [hfilter]
    exact hf.good.mono hi.nodes
  · rw [hactive, hfilter]
    exact hf.tip
  · rw [hfilter]
    exact hf.located
  · rw [hfilter]
    exact hf.synced
  · rw [hblocks]
    exact fun h block hb => HeaderAgrees.mono (hf.headers h block hb) hi.nodes
  · rw [hactive]
    exact fun h hh => hcover h (hf.active h hh)
  · exact fun h hh => hcover h (hf.storedActive h (hh.of_indexed hn hi))

theorem indexed_requeued (cfg : NodeConfig S) (n : Node S) (queue : List (Hash × ℕ)) :
    Indexed cfg n (n.requeued queue) := ⟨fun _ _ hx => hx, fun _ ha => ha.congr rfl rfl rfl⟩

/-! ## Flushing and pruning -/

theorem FilterSound.flushed (hf : FilterSound cfg n) (hn : Sound cfg n)
    (hgenesis : cfg.filters.genesisHash = cfg.chain.genesis.hash) {tip : Hash}
    (htip : n.blockIndex.activeChain.getLast? = some tip) : FilterSound cfg (n.flushed tip) := by
  have hs : Consistent cfg.chain n.blockIndex := hn.agrees.consistent
  obtain ⟨main, ha⟩ := hn.agrees.store
  have hadvance : n.filterIndex.advance tip = finalize (some tip) n.filterIndex := by
    unfold advance
    rw [hf.synced, if_pos rfl]
  have hnode : ∃ node, n.blockIndex.nodes tip = some node := by
    obtain ⟨tip', info, htip', hinfo, -⟩ := hs.exists_tip
    rw [htip, Option.some.injEq] at htip'
    exact ⟨_, htip' ▸ nodes_eq hinfo⟩
  have hcover : ∀ h ∈ n.blockIndex.activeChain, (n.flushed tip).Coverable h := by
    intro h hh
    left
    show ((n.filterIndex.advance tip).stored h).isSome
    rw [hadvance, stored_finalize]
    exact hf.covered hn hgenesis hh
  refine ⟨?_, ?_, ?_, ?_, hf.headers, hcover, fun h hh => hcover h ?_⟩
  · show Good cfg.filters n.blockIndex.nodes (n.filterIndex.advance tip)
    rw [hadvance]
    refine hf.good.finalize fun b hb => ?_
    cases hb
    exact ⟨hf.tip tip htip, hnode⟩
  · intro tip' htip'
    show ((n.filterIndex.advance tip).entry tip').isSome
    rw [hadvance, entry_finalize]
    exact hf.tip tip' htip'
  · show (n.filterIndex.advance tip).bestBlock.isSome
    rw [hadvance]
    rfl
  · show (n.filterIndex.advance tip).synced = true
    rw [hadvance]
    exact hf.synced
  · obtain ⟨main', ha', hmem⟩ := hh
    exact (ha.finalize hs).stored.mem_of_mem ha'.stored hmem

/-- Pruning erases only blocks whose filters are stored. -/
theorem FilterSound.pruned (hf : FilterSound cfg n) (hn : Sound cfg n)
    (hgenesis : cfg.filters.genesisHash = cfg.chain.genesis.hash)
    (hempty : n.filterIndex.trial.data = ∅) (target : ℕ) :
    FilterSound cfg { n with blockDb := n.blockDb.pruneUpTo target n.blockIndex.activeChain } := by
  unfold BlockStore.pruneUpTo
  split
  · exact hf
  have hcover : ∀ h, n.Coverable h → Coverable { n with
      blockDb := { n.blockDb with
        blocks := ((n.blockIndex.activeChain.take (target + 1)).drop n.blockDb.prunedBelow).foldl
          (fun m h => m.erase h) n.blockDb.blocks
        revPatches := ((n.blockIndex.activeChain.take (target + 1)).drop
          n.blockDb.prunedBelow).foldl (fun m h => m.erase h) n.blockDb.revPatches
        prunedBelow := target + 1 } } h := by
    intro h hc
    by_cases hh : h ∈ n.blockIndex.activeChain
    · have hentry := hf.covered hn hgenesis hh
      left
      have hsame : n.filterIndex.entry h = n.filterIndex.stored h := by
        unfold FilterIndex.entry
        rw [hempty, Std.ExtTreeMap.getElem?_empty, Option.none_or]
        rfl
      rwa [hsame] at hentry
    · have hkept : h ∉ (n.blockIndex.activeChain.take (target + 1)).drop n.blockDb.prunedBelow :=
        fun hmem => hh (List.mem_of_mem_take (List.mem_of_mem_drop hmem))
      rcases hc with hc | ⟨hblock, hpatch⟩
      · exact .inl hc
      · exact .inr ⟨mem_foldl_erase hkept hblock, mem_foldl_erase hkept hpatch⟩
  exact ⟨hf.good, hf.tip, hf.located, hf.synced,
    fun h block hb => hf.headers h block (getElem?_foldl_erase hb),
    fun h hh => hcover h (hf.active h hh), fun h hh => hcover h (hf.storedActive h hh)⟩

/-! ## A trial -/

section Trial

variable {nodes : Nodes Hash}

/-- What a trial has done to the filters. -/
structure Filtered (cfg : NodeConfig S) (nodes : Nodes Hash) (n t : Node S) : Prop where
  chained : Chained cfg.filters nodes t.filterIndex.entry
  adds : Adds n.filterIndex t.filterIndex

theorem connectBlock_filters (hc : Chained cfg.filters nodes n.filterIndex.entry) {h : Hash}
    {block : Block} (hnode : HeaderAgrees cfg.filters nodes block) :
    Sat (connectBlock cfg env h block) n
      (fun _ t => Filtered cfg nodes n t ∧ (t.filterIndex.entry block.header.hash).isSome)
      fun _ _ => True := by
  unfold connectBlock
  rw [sat_bind]
  refine askIndex_sat (fun info _ => ?_) trivial
  rw [sat_bind]
  refine onUtxo_sat ((sat_true _ _).mono ?_ fun _ _ _ => trivial)
  rintro ⟨transactions, rev⟩ u -
  dsimp only
  rw [sat_bind]
  refine check_sat (fun _ _ => ?_) fun _ _ => trivial
  rw [sat_bind]
  refine onBlockDb_sat ?_
  refine onFilter_sat ((addConnectedBlock_sat hc hnode rev).mono ?_ fun _ _ _ => trivial)
  exact fun _ v hv => ⟨⟨hv.1, hv.2.1⟩, hv.2.2⟩

/-- **A trial chains a filter for every block it connects.** -/
theorem connectBlocks_filters (hc : Chained cfg.filters nodes n.filterIndex.entry)
    (toAdd : List (Hash × Block))
    (hadd : ∀ e ∈ toAdd, e.2.header.hash = e.1 ∧ HeaderAgrees cfg.filters nodes e.2) :
    Sat (connectBlocks cfg env toAdd) n
      (fun b t => Filtered cfg nodes n t ∧
        (b = true → ∀ e ∈ toAdd, (t.filterIndex.entry e.1).isSome))
      fun _ _ => True := by
  induction toAdd generalizing n with
  | nil => exact ⟨⟨hc, .refl _⟩, by simp⟩
  | cons entry rest ih =>
    obtain ⟨h, block⟩ := entry
    obtain ⟨⟨hhash, hnode⟩, hrest⟩ := List.forall_mem_cons.mp hadd
    unfold connectBlocks
    rw [sat_bind, sat_get]
    split
    · exact ⟨⟨hc, .refl _⟩, fun h0 => by cases h0⟩
    · rw [sat_bind]
      refine failing_sat ((connectBlock_filters hc hnode).mono ?_ fun _ _ _ => trivial)
      rintro _ m ⟨hm, hblock⟩
      refine (ih hm.chained hrest).mono ?_ fun _ _ _ => trivial
      rintro b t ⟨ht, hall⟩
      refine ⟨⟨ht.chained, hm.adds.trans ht.adds⟩, fun hb => List.forall_mem_cons.mpr ⟨?_, hall hb⟩⟩
      rw [← hhash]
      exact ht.adds.grows.isSome hblock

/-- The filters of a trial that got through. -/
theorem trialOf_filters (hf : FilterSound cfg n) (hn : Sound cfg n) {r : Trial S} {m : Node S}
    (htrial : trialOf cfg env n = some r) (hres : r.result = .ok true m) :
    ∃ queue, InTrial cfg (n.requeued queue) m ∧ m.indexStore.Agrees cfg.chain ∧
      Filtered cfg n.blockIndex.nodes n m ∧ ∀ h ∈ r.toAdd, (m.filterIndex.entry h).isSome := by
  obtain ⟨queue, kept, blocks, revs, hagrees, -, hblocks, -, hresult⟩ := trialOf_eq hn htrial
  obtain ⟨hfst, hhashes⟩ := zip_hashes hn.blockHash hblocks
  rw [hresult] at hres
  have hadd : ∀ e ∈ r.toAdd.zip blocks,
      e.2.header.hash = e.1 ∧ HeaderAgrees cfg.filters n.blockIndex.nodes e.2 := by
    intro e he
    have hblock := List.forall₂_zip hblocks (a := e.1) (b := e.2) he
    exact ⟨hhashes e he, hf.headers e.1 e.2 hblock⟩
  have hin := (inTrial_trial cfg env _ _ _).of_ok hres
  refine ⟨queue, hin, ?_, ?_⟩
  · have hstore : m.indexStore = (n.requeued queue).indexStore := by
      unfold indexStore
      rw [hin.others]
    rw [hstore]
    exact hagrees
  unfold trial at hres
  have hconnect : Sat (failing none (applyRevBlocks cfg env revs) >>= fun _ =>
      connectBlocks cfg env (r.toAdd.zip blocks)) (n.requeued queue)
      (fun b t => Filtered cfg n.blockIndex.nodes n t ∧
        (b = true → ∀ e ∈ r.toAdd.zip blocks, (t.filterIndex.entry e.1).isSome))
      fun _ _ => True := by
    rw [sat_bind]
    refine failing_sat ((applyRevBlocks_sat revs).mono (fun _ u hu => ?_) fun _ _ _ => trivial)
    have hsame : u.filterIndex = n.filterIndex := by
      rw [hu]
      rfl
    refine (connectBlocks_filters (by rw [hsame]; exact hf.good.entries) _ hadd).mono ?_
      fun _ _ _ => trivial
    exact fun b t ht => ⟨⟨ht.1.chained, hsame ▸ ht.1.adds⟩, ht.2⟩
  obtain ⟨hm, hall⟩ := hconnect.of_ok hres
  refine ⟨hm, fun h hh => ?_⟩
  rw [← hfst, List.mem_map] at hh
  obtain ⟨e, he, rfl⟩ := hh
  exact hall rfl e he

end Trial

/-! ## Every call -/

section Calls

variable {queue : List (Hash × ℕ)} {m c : Node S} {b : BlockStore}

/-- A block whose patch is written stays covered. -/
theorem Coverable.written {revs : List RevBlock} {h : Hash} (hc : n.Coverable h)
    (hfilter : t.filterIndex = n.filterIndex) (hb : BlockStore.Written revs n.blockDb b)
    (ht : t.blockDb.blocks = b.blocks ∧ t.blockDb.revPatches = b.revPatches) : t.Coverable h := by
  unfold Coverable at hc ⊢
  rw [hfilter, ht.1, ht.2]
  refine hc.imp_right fun ⟨hblock, hpatch⟩ => ⟨?_, hb.kept h hpatch⟩
  rw [hb.others]
  exact hblock

/-- The staging of a trial that got through. -/
theorem FilterSound.of_trial (hf : FilterSound cfg n) (hn : Sound cfg n)
    (hin : InTrial cfg (n.requeued queue) m) (hm : Filtered cfg n.blockIndex.nodes n m) :
    FilterSound cfg m := by
  have hothers := hin.others
  have hnodes : m.blockIndex.nodes = n.blockIndex.nodes := by
    rw [hothers]
    rfl
  have hactive : m.blockIndex.activeChain = n.blockIndex.activeChain := by
    rw [hothers]
    rfl
  have hblocks : m.blockDb.blocks = n.blockDb.blocks ∧
      m.blockDb.revPatches = n.blockDb.revPatches := by
    rw [hin.blocks]
    exact ⟨rfl, rfl⟩
  have hstored : m.filterIndex.stored = n.filterIndex.stored := by
    rw [hm.adds.others]
    rfl
  have hcover : ∀ h, n.Coverable h → m.Coverable h := by
    intro h hc
    unfold Coverable
    rw [hstored, hblocks.1, hblocks.2]
    exact hc
  have hindexed : Indexed cfg n m := by
    rw [hothers]
    exact ⟨(indexed_requeued cfg n queue).nodes, (indexed_requeued cfg n queue).store⟩
  refine ⟨?_, fun tip htip => ?_, ?_, ?_, ?_, fun h hh => ?_, fun h hh => ?_⟩
  · rw [hnodes]
    exact hf.good.adds hm.adds hm.chained
  · rw [hactive] at htip
    exact hm.adds.grows.isSome (hf.tip tip htip)
  · rw [hm.adds.others]
    exact hf.located
  · rw [hm.adds.others]
    exact hf.synced
  · rw [hnodes, hblocks.1]
    exact hf.headers
  · rw [hactive] at hh
    exact hcover h (hf.active h hh)
  · exact hcover h (hf.storedActive h (hh.of_indexed hn.agrees hindexed))

/-- Patches written, on the way to a commit or in place of it. -/
theorem FilterSound.written {revs : List RevBlock} (hf : FilterSound cfg n)
    (hb : BlockStore.Written revs n.blockDb b) : FilterSound cfg { n with blockDb := b } := by
  have hcover : ∀ h, n.Coverable h → Coverable { n with blockDb := b } h := fun h hc =>
    hc.written rfl hb ⟨rfl, rfl⟩
  refine ⟨hf.good, hf.tip, hf.located, hf.synced, fun h block hblock => ?_,
    fun h hh => hcover h (hf.active h hh), fun h hh => hcover h (hf.storedActive h hh)⟩
  change b.blocks[h]? = some block at hblock
  rw [hb.others] at hblock
  exact hf.headers h block hblock

/-- **A commit of a chain that is covered.** -/
theorem FilterSound.committed (hf : FilterSound cfg n) (hn : n.indexStore.Agrees cfg.chain)
    {chain' : List Hash} (hc : Committed cfg chain' n c)
    (htip : ∀ tip, chain'.getLast? = some tip → (n.filterIndex.entry tip).isSome)
    (hcover : ∀ h ∈ chain', c.Coverable h) : FilterSound cfg c := by
  obtain ⟨u, hwritten, hblockDb, -⟩ := hc.blocks
  have hfilter : c.filterIndex = n.filterIndex := by rw [hc.others]
  have hblocks : c.blockDb.blocks = n.blockDb.blocks := by
    rw [hblockDb, hwritten.others]
  refine ⟨?_, ?_, ?_, ?_, fun h block hb => ?_, ?_, fun h hh => ?_⟩
  · rw [hfilter]
    exact hf.good.mono hc.indexed.nodes
  · rw [hc.active, hfilter]
    exact htip
  · rw [hfilter]
    exact hf.located
  · rw [hfilter]
    exact hf.synced
  · rw [hblocks] at hb
    exact HeaderAgrees.mono (hf.headers h block hb) hc.indexed.nodes
  · rw [hc.active]
    exact hcover
  · have hold := hf.storedActive h (hh.of_indexed hn hc.indexed)
    exact hold.written hfilter hwritten (by rw [hblockDb]; exact ⟨rfl, rfl⟩)

/-- The patch of every block of the fork is written by the commit. -/
theorem mem_written {r : Trial S} {u : BlockStore}
    (hpatches : m.blockDb.pendingRevBlocks.map RevBlock.hash =
      n.blockDb.pendingRevBlocks.map RevBlock.hash ++ newPatches n.blockDb r.toAdd)
    (hrev : m.blockDb.revPatches = n.blockDb.revPatches)
    (hwritten : BlockStore.Written m.blockDb.pendingRevBlocks m.blockDb u)
    (hmem : ∀ rev ∈ m.blockDb.pendingRevBlocks, rev.hash ∈ u.revPatches) {h : Hash}
    (hh : h ∈ r.toAdd) : h ∈ u.revPatches := by
  have hwaits : h ∈ m.blockDb.pendingRevBlocks.map RevBlock.hash → h ∈ u.revPatches := by
    rw [List.mem_map]
    rintro ⟨rev, hrevmem, rfl⟩
    exact hmem rev hrevmem
  rw [hpatches, List.mem_append] at hwaits
  by_cases hheld : n.blockDb.Held h
  · rcases hheld with hstored | hpending
    · exact hwritten.kept h (hrev ▸ hstored)
    · exact hwaits (.inl hpending)
  · refine hwaits (.inr ?_)
    unfold newPatches
    exact List.mem_filter.mpr ⟨hh, by simpa using hheld⟩

/-- A node with its filters in order. -/
structure SoundFilters (cfg : NodeConfig S) (n : Node S) : Prop extends Sound cfg n,
    FilterSound cfg n

theorem SoundFilters.mk' (hn : Sound cfg n) (hf : FilterSound cfg n) : SoundFilters cfg n :=
  { hn, hf with }

theorem pruneInvariant_filters (hgenesis : cfg.filters.genesisHash = cfg.chain.genesis.hash) :
    PruneInvariant cfg (SoundFilters cfg) := by
  have hsound := pruneInvariant_sound cfg
  have hactive := fun n : Node S => pruneInvariant_active cfg n.blockIndex.activeChain
  refine ⟨fun n hn => hn.agrees, fun n tip hn htip => ?_, fun n h s hn hh hs => ?_,
    fun n target hn hempty => ?_⟩
  · exact .mk' (hsound.flushed n tip hn.toSound htip)
      (hn.toFilterSound.flushed hn.toSound hgenesis htip)
  · refine .mk' (hsound.cleared n h s hn.toSound hh hs) ?_
    have hknown : n.blockIndex.allowed cfg.chain (.setDownloaded h false) = true := by
      obtain ⟨info, hinfo, -⟩ := hn.agrees.consistent.info_of_active hh
      exact Option.isSome_iff_exists.mpr ⟨info, hinfo⟩
    exact hn.toFilterSound.of_indexed hn.agrees (indexed_call hn.agrees hknown (by simp) hs)
      ((hactive n).cleared n h s ⟨hn.agrees, rfl⟩ hh hs).2 rfl rfl rfl
  · exact .mk' (hsound.pruned n target hn.toSound hempty)
      (hn.toFilterSound.pruned hn.toSound hgenesis hempty target)

/-- **A pass of `update_chain` keeps the filters in order.** -/
theorem Passed.soundFilters (hgenesis : cfg.filters.genesisHash = cfg.chain.genesis.hash)
    (hn : SoundFilters cfg n) (ht : t.indexStore.Agrees cfg.chain) (hp : Passed cfg env n t) :
    SoundFilters cfg t := by
  refine .mk' (hp.sound hn.toSound ht) ?_
  have hf := hn.toFilterSound
  cases hp with
  | idle queue htrial =>
    exact hf.of_indexed hn.agrees (indexed_requeued cfg n queue) rfl rfl rfl rfl
  | rolledBack queue htrial hresult =>
    exact hf.of_indexed hn.agrees ⟨(indexed_requeued cfg n queue).nodes,
      (indexed_requeued cfg n queue).store⟩ rfl rfl rfl rfl
  | refused queue queue' htrial hresult hcontent hfailed hrefused =>
    rename_i u
    obtain ⟨-, hfilter, hdb, -⟩ := hrefused.moved.parts
    refine hf.of_indexed hn.agrees ?_ hrefused.active hfilter ?_ ?_
    · refine Indexed.trans ⟨?_, ?_⟩ (hrefused.indexed.trans (indexed_requeued cfg u queue'))
      · exact (indexed_requeued cfg n queue).nodes
      · exact (indexed_requeued cfg n queue).store
    · show u.blockDb.blocks = _
      rw [hdb]
      rfl
    · show u.blockDb.revPatches = _
      rw [hdb]
      rfl
  | commitRaised htrial hresult hstopped hwritten =>
    obtain ⟨queue, hin, -, hm, -⟩ := trialOf_filters hf hn.toSound htrial hresult
    exact (hf.of_trial hn.toSound hin hm).written hwritten
  | @committed queue r m c t kept htrial hresult hwritable hactive hcommitted hpruned =>
    have hspec := trialOf_spec hn.toSound htrial
    obtain ⟨queue', hin, hstore, hm, hentries⟩ := trialOf_filters hf hn.toSound htrial hresult
    have hfm := hf.of_trial hn.toSound hin hm
    have hstaged := hspec.staged _ _ hresult
    obtain ⟨u, hwritten, hblockDb, hmem⟩ := hcommitted.blocks
    have hcovered : ∀ h ∈ kept ++ r.toAdd, (m.filterIndex.entry h).isSome := by
      intro h hh
      rcases List.mem_append.mp hh with hkept | hadd
      · refine hm.adds.grows.isSome (hf.covered hn.toSound hgenesis ?_)
        rw [hactive]
        exact List.mem_append_left _ hkept
      · exact hentries h hadd
    have hc : FilterSound cfg c := by
      refine hfm.committed hstore hcommitted
        (fun tip htip => hcovered tip (List.mem_of_getLast? htip)) fun h hh => ?_
      rcases List.mem_append.mp hh with hkept | hadd
      · have hold := hfm.active h (by
          rw [hspec.chain _ _ hresult, hactive]
          exact List.mem_append_left _ hkept)
        exact hold.written (by rw [hcommitted.others]) hwritten (by rw [hblockDb]; exact ⟨rfl, rfl⟩)
      · right
        rw [hblockDb]
        refine ⟨?_, mem_written (hspec.patches m hresult) (by rw [hstaged]) hwritten hmem hadd⟩
        show h ∈ u.blocks
        rw [hwritten.others]
        show h ∈ m.blockDb.blocks
        rw [hstaged]
        exact hspec.held h hadd
    have hsound : Sound cfg c := hn.toSound.written (by rw [hstaged]) (by rw [hstaged]) hwritten
      hcommitted.agrees (by rw [hblockDb])
    have hall := hpruned _ (pruneInvariant_filters hgenesis) (.mk' hsound hc)
    exact hall.toFilterSound.of_indexed hall.agrees (indexed_requeued cfg t queue) rfl rfl rfl rfl

/-- **The filters stay in order**, whatever is called. -/
theorem callInvariant_filters (hgenesis : cfg.filters.genesisHash = cfg.chain.genesis.hash) :
    CallInvariant cfg (fun n block => HeaderAgrees cfg.filters n.blockIndex.nodes block)
      (SoundFilters cfg) := by
  have hsound := callInvariant_sound cfg fun _ _ => True
  refine ⟨pruneInvariant_filters hgenesis, fun n hn => hn.toSound, ?indexed, ?stored, ?passed,
    ?disconnected, ?written, ?utxo, ?terminated⟩
  case indexed =>
    intro n c s hn hallowed hmoves hne hcall
    refine .mk' (hsound.indexed n c s hn.toSound hallowed hmoves hne hcall) ?_
    exact hn.toFilterSound.of_indexed hn.agrees (indexed_call hn.agrees hallowed hne hcall)
      ((hn.agrees.consistent.call_follows hallowed hcall).activeChain hmoves) rfl rfl rfl
  case stored =>
    intro n block hn hstores
    refine .mk' (hn.toSound.addBlock block) ?_
    unfold BlockStore.addBlock
    split
    · exact hn.toFilterSound
    · have hcover : ∀ h, n.Coverable h → Coverable { n with
          blockDb := { n.blockDb with
            blocks := n.blockDb.blocks.insert block.header.hash block } } h := by
        intro h hc
        refine hc.imp_right fun ⟨hblock, hpatch⟩ => ⟨?_, hpatch⟩
        exact Std.ExtTreeMap.mem_insert.mpr (.inr hblock)
      refine ⟨hn.good, hn.tip, hn.located, hn.synced, fun h b hb => ?_,
        fun h hh => hcover h (hn.active h hh), fun h hh => hcover h (hn.storedActive h hh)⟩
      change (n.blockDb.blocks.insert block.header.hash block)[h]? = some b at hb
      rw [FiniteMap.getElem?_insert] at hb
      split at hb
      · cases hb
        exact hstores
      · exact hn.headers h b hb
  case passed => exact fun env n t hn ht hp => hp.soundFilters hgenesis hn ht
  case disconnected =>
    intro n m k hn hk hm
    refine .mk' (hsound.disconnected n m k hn.toSound hk hm) ?_
    obtain ⟨u, hwritten, hblockDb, -⟩ := hm.blocks
    have hactive : ∀ h ∈ n.blockIndex.activeChain.take k, h ∈ n.blockIndex.activeChain :=
      fun h hh => List.mem_of_mem_take hh
    refine hn.toFilterSound.committed hn.agrees hm (fun tip htip => ?_) fun h hh => ?_
    · exact hn.toFilterSound.covered hn.toSound hgenesis (hactive tip (List.mem_of_getLast? htip))
    · exact (hn.active h (hactive h hh)).written (by rw [hm.others]) hwritten
        (by rw [hblockDb]; exact ⟨rfl, rfl⟩)
  case written =>
    exact fun n b hn hb => .mk' (hsound.written n b hn.toSound hb) (hn.toFilterSound.written hb)
  case utxo =>
    intro n u hn
    exact .mk' (hsound.utxo n u hn.toSound)
      (hn.toFilterSound.of_indexed hn.agrees ⟨fun _ _ h => h, fun _ h => h⟩ rfl rfl rfl rfl)
  case terminated =>
    intro n hn
    exact .mk' (hsound.terminated n hn.toSound)
      (hn.toFilterSound.of_indexed hn.agrees ⟨fun _ _ h => h, fun _ h => h⟩ rfl rfl rfl rfl)

end Calls

end Kept

end Node

end BtclibNode
