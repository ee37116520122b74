/-
# Progress of the filter store

A node that is started, called, flushed and closed, and killed: between calls,
between the two batches of a flush, or inside `catch_up`.  In every state the
stored filters chain and the stored locator names a block whose ancestors all
have theirs, and the next start that is let finish stores the filter of every
block of the active chain.
-/
import BtclibNode.Node.Start
import BtclibNode.Node.AllOrNothing

namespace BtclibNode

open StateExcept BlockIndex HeightTree FilterIndex

/-! ## The machine -/

/-- What a datadir is for: the configuration of its nodes, and the genesis block
of its chain. -/
structure Deployment (S : Type) extends NodeConfig S where
  genesisBlock : Block
  genesis_header : genesisBlock.header = chain.genesis
  genesis_filter : filters.genesisHash = chain.genesis.hash

/-- A node that runs, or the stores of one that does not. -/
inductive Process (S : Type) where
  | running (n : Node S)
  | stopped (d : Stores S)

/-- What happens to a process.  The staging may grow to any bound before a call
flushes: a kill inside the flush of a call is the call without its flush, then
`killedInFlush`. -/
inductive ProcessEvent where
  | call (flushBound : ℕ) (c : Node.NodeCall)
  | killed
  | killedInFlush
  | killedInDisconnect (flushBound : ℕ) (env : Env) (h : Hash)
  | closed
  | started (env : StartEnv)

namespace Node

variable {S : Type}

/-- What a kill between the two batches of a flush leaves. -/
def storesInFlush (n : Node S) : Stores S :=
  { n.stores with
    db := {
      records := BlockIndex.writeAll n.db.records n.blockIndex.finalize.1
      coins := UtxoIndex.flushed n.db.coins n.utxoIndex
      coinStats := n.utxoIndex.data.coinStats } }

/-- What a kill in the flush of the disconnect `invalidate_chain` makes leaves. -/
def storesInDisconnect (cfg : NodeConfig S) (env : Env) (h : Hash) (n : Node S) :
    Option (Stores S) := do
  let info ← n.blockIndex.getBlockInfo h
  if info.index ≠ 0 ∧ info.status = .inActiveChain then
    match disconnectChain cfg env (n.blockIndex.activeChain.drop info.index) n with
    | .ok _ t => return t.storesInFlush
    | .error _ _ => none
  else none

/-- A block that is stored has the header that is indexed under its hash, which
commits to it. -/
def storesIndexed (n : Node S) : NodeCall → Bool
  | .storeBlock block => (n.blockIndex.getBlockInfo block.header.hash).any fun info =>
      decide (info.header = block.header)
  | _ => true

end Node

namespace Process

variable {S : Type}

/-- The stores of a datadir that is new. -/
def fresh (cfg : NodeConfig S) : Stores S := ⟨⟨∅, ∅, cfg.stats.empty⟩, ∅, none, ⟨∅, ∅, [], 0⟩⟩

/-- What an event makes of a process, where it can happen. -/
def step (cfg : Deployment S) : Process S → ProcessEvent → Option (Process S)
  | .running n, .call flushBound c =>
    if n.storesIndexed c then
      (Node.step { cfg.toNodeConfig with flushBound } n c).map .running
    else none
  | .running n, .killed => some (.stopped n.stores)
  | .running n, .killedInFlush => some (.stopped n.storesInFlush)
  | .running n, .killedInDisconnect flushBound env h =>
    (Node.storesInDisconnect { cfg.toNodeConfig with flushBound } env h n).map .stopped
  | .running n, .closed => some (.stopped (finalState Node.flush n).stores)
  | .stopped d, .started env =>
    match Node.load cfg.toNodeConfig cfg.genesisBlock env d with
    | .ok n => some (.running n)
    | .error (_, d) => some (.stopped d)
  | _, _ => none

/-- What the process has in its stores. -/
def onDisk : Process S → Stores S
  | .running n => n.stores
  | .stopped d => d

end Process

/-! ## What the stores hold -/

section Stores

variable {S : Type} {cfg : NodeConfig S} {env : Env} {n t : Node S} {d : Stores S}

/-- **The stored filters are in order**: every stored header is built from the
filter beside it and the stored header of the parent, and the locator names a
block that has a filter and a header, as all its ancestors have. -/
structure FiltersInOrder (cfg : NodeConfig S) (d : Stores S) : Prop where
  headers : ∀ (h : Hash) (entry : List UInt8 × Hash), d.filters[h]? = some entry →
    ∃ previous, entry.2 = cfg.filters.header entry.1 previous ∧
      (if h = cfg.chain.genesis.hash then previous = noPreviousFilterHeader
      else ∃ node parent, storedNodes cfg.chain d.db.records h = some node ∧
        d.filters[node.1]? = some parent ∧ parent.2 = previous)
  locator : ∀ b, d.bestBlock = some b →
    ∀ a, Descends (storedNodes cfg.chain d.db.records) a b → a ∈ d.filters
  located : d.bestBlock = none → d.filters = ∅

/-- The stores of a node whose filters are in order, wherever it stopped. -/
structure StoresSound (cfg : NodeConfig S) (d : Stores S) : Prop where
  main : ∃ main, StoredTree cfg.chain d.db.records main ∧
    ∀ h ∈ main, h ≠ cfg.chain.genesis.hash →
      h ∈ d.filters ∨ h ∈ d.blockDb.blocks ∧ h ∈ d.blockDb.revPatches
  closed : StoredClosed cfg.chain d.db.records
  chained : Chained cfg.filters (storedNodes cfg.chain d.db.records) fun h => d.filters[h]?
  locator : ∀ b, d.bestBlock = some b →
    b ∈ d.filters ∧ ∃ node, storedNodes cfg.chain d.db.records b = some node
  located : d.bestBlock = none → d.filters = ∅
  blocks : ∀ (h : Hash) (block : Block), d.blockDb.blocks[h]? = some block →
    block.header.hash = h ∧
      HeaderAgrees cfg.filters (storedNodes cfg.chain d.db.records) block
  patches : ∀ (h : Hash) (rev : RevBlock), d.blockDb.revPatches[h]? = some rev → rev.hash = h

theorem StoresSound.filtersInOrder (hd : StoresSound cfg d)
    (hgenesis : cfg.filters.genesisHash = cfg.chain.genesis.hash) : FiltersInOrder cfg d := by
  obtain ⟨main, htree, -⟩ := hd.main
  refine ⟨fun h entry hentry => ?_, fun b hb a hab => ?_, hd.located⟩
  · obtain ⟨previous, hprev, heq⟩ := hd.chained h entry hentry
    refine ⟨previous, heq, ?_⟩
    unfold previousOf at hprev
    rw [hgenesis] at hprev
    split
    · next hh =>
      rw [if_pos hh, Option.some.injEq] at hprev
      exact hprev.symm
    · next hh =>
      rw [if_neg hh, Option.bind_eq_some_iff] at hprev
      obtain ⟨node, hnode, hmap⟩ := hprev
      obtain ⟨parent, hparent, hsnd⟩ := Option.map_eq_some_iff.mp hmap
      exact ⟨node, parent, hnode, hparent, hsnd⟩
  · rw [Std.ExtTreeMap.mem_iff_isSome_getElem?]
    refine hd.chained.ancestor htree.tree hgenesis hab ?_
    exact Std.ExtTreeMap.mem_iff_isSome_getElem?.mp (hd.locator b hb).1

/-- A new datadir. -/
theorem storesSound_fresh (cfg : NodeConfig S) : StoresSound cfg (Process.fresh cfg) := by
  refine ⟨⟨[cfg.chain.genesis.hash], storedTree_empty _, fun h hh hne => ?_⟩,
    storedClosed_empty _, fun h entry hentry => ?_, fun b hb => ?_, fun _ => rfl,
    fun h block hb => ?_, fun h rev hr => ?_⟩
  · exact absurd (List.mem_singleton.mp hh) hne
  · change (∅ : FilterTable)[h]? = some entry at hentry
    rw [Std.ExtTreeMap.getElem?_empty] at hentry
    cases hentry
  · cases hb
  · change (∅ : Std.ExtTreeMap Hash Block)[h]? = some block at hb
    rw [Std.ExtTreeMap.getElem?_empty] at hb
    cases hb
  · change (∅ : Std.ExtTreeMap Hash RevBlock)[h]? = some rev at hr
    rw [Std.ExtTreeMap.getElem?_empty] at hr
    cases hr

/-- **What a node leaves behind**, its filter index being open. -/
theorem storesSound_of_node (hn : Node.Sound cfg n)
    (ho : Opened cfg.filters n.blockIndex.nodes n.filterIndex)
    (hheaders : ∀ (h : Hash) (block : Block), n.blockDb.blocks[h]? = some block →
      HeaderAgrees cfg.filters n.blockIndex.nodes block)
    (hcover : ∀ h, Node.StoredActive cfg n h → h ≠ cfg.chain.genesis.hash → n.Coverable h) :
    StoresSound cfg n.stores := by
  obtain ⟨main, ha⟩ := hn.agrees.store
  have hnodes : storedNodes cfg.chain n.db.records = n.blockIndex.nodes := ha.nodes_eq
  have hmem : ∀ h, (n.filterIndex.stored h).isSome ↔ h ∈ n.filterIndex.db := fun h =>
    Std.ExtTreeMap.mem_iff_isSome_getElem?.symm
  refine ⟨⟨main, ha.stored, fun h hh hne => ?_⟩, ha.storedClosed hn.agrees.consistent, ?_,
    fun b hb => ?_, fun hnone => ?_, fun h block hb => ⟨hn.blockHash h block hb, ?_⟩, hn.revHash⟩
  · exact (hcover h ⟨main, ha, hh⟩ hne).imp_left (hmem h).mp
  · show Chained cfg.filters (storedNodes cfg.chain n.db.records) n.filterIndex.stored
    rw [hnodes]
    exact ho.good.stored
  · show b ∈ n.filterIndex.db ∧ ∃ node, storedNodes cfg.chain n.db.records b = some node
    rw [hnodes, ← hmem b]
    exact ho.good.locator b hb
  · have hlocated := ho.located
    rw [show n.filterIndex.bestBlock = none from hnone] at hlocated
    cases hlocated
  · show HeaderAgrees cfg.filters (storedNodes cfg.chain n.db.records) block
    rw [hnodes]
    exact hheaders h block hb

/-- A node with its filters in order has an open filter index. -/
theorem Node.SoundFilters.opened (hn : Node.SoundFilters cfg n)
    (hgenesis : cfg.filters.genesisHash = cfg.chain.genesis.hash) :
    Opened cfg.filters n.blockIndex.nodes n.filterIndex := by
  refine ⟨hn.good, hn.located, ?_⟩
  rw [hgenesis]
  exact hn.toFilterSound.covered hn.toSound hgenesis hn.agrees.consistent.genesis_active

/-- A kill between calls. -/
theorem Node.SoundFilters.stores (hn : Node.SoundFilters cfg n)
    (hgenesis : cfg.filters.genesisHash = cfg.chain.genesis.hash) : StoresSound cfg n.stores :=
  storesSound_of_node hn.toSound (hn.opened hgenesis) hn.headers
    fun h hh _ => hn.storedActive h hh

/-- **A kill between the two batches of a flush**: the chainstate has the active
chain, whose blocks can still be read, and the filter store is as it was. -/
theorem Node.SoundFilters.storesInFlush (hn : Node.SoundFilters cfg n)
    (hgenesis : cfg.filters.genesisHash = cfg.chain.genesis.hash) :
    StoresSound cfg n.storesInFlush := by
  obtain ⟨tip, -, -, hagrees⟩ := Node.flush_eq hn.agrees
  obtain ⟨main, ha⟩ := hn.agrees.store
  refine storesSound_of_node (n := { n.flushed tip with filterIndex := n.filterIndex })
    ⟨hagrees, hn.blockHash, hn.revHash⟩ (hn.opened hgenesis) hn.headers fun h hh _ => ?_
  obtain ⟨main', ha', hmem⟩ := hh
  have hactive := (ha.finalize hn.agrees.consistent).stored.mem_of_mem ha'.stored hmem
  exact hn.active h hactive

theorem Node.SoundFilters.withBound (hn : Node.SoundFilters cfg n) (flushBound : ℕ) :
    Node.SoundFilters { cfg with flushBound } n :=
  ⟨⟨hn.agrees, hn.blockHash, hn.revHash⟩,
    ⟨hn.good, hn.tip, hn.located, hn.synced, hn.headers, hn.active, hn.storedActive⟩⟩

theorem Node.SoundFilters.ofBound {flushBound : ℕ}
    (hn : Node.SoundFilters { cfg with flushBound } n) : Node.SoundFilters cfg n :=
  ⟨⟨hn.agrees, hn.blockHash, hn.revHash⟩,
    ⟨hn.good, hn.tip, hn.located, hn.synced, hn.headers, hn.active, hn.storedActive⟩⟩

/-- A kill in the flush of the disconnect that `invalidate_chain` makes. -/
theorem Node.SoundFilters.storesInDisconnect (hn : Node.SoundFilters cfg n)
    (hgenesis : cfg.filters.genesisHash = cfg.chain.genesis.hash) {h : Hash}
    (hd : Node.storesInDisconnect cfg env h n = some d) : StoresSound cfg d := by
  unfold Node.storesInDisconnect at hd
  rw [Option.bind_eq_bind, Option.bind_eq_some_iff] at hd
  obtain ⟨info, -, hd⟩ := hd
  split at hd
  · next hactive =>
    have hdis := (Node.callInvariant_filters hgenesis).keeps_disconnectChain env hn
      (Nat.pos_of_ne_zero hactive.1)
    cases hres : Node.disconnectChain cfg env (n.blockIndex.activeChain.drop info.index) n with
    | ok a t =>
      rw [hres] at hd
      cases hd
      exact (hdis.of_ok hres).1.storesInFlush hgenesis
    | error e t =>
      rw [hres] at hd
      cases hd
  · cases hd

end Stores

/-! ## A start -/

section Start

variable {S : Type} {cfg : NodeConfig S} {env : StartEnv} {n : Node S} {d d' : Stores S}
  {e : StartError} {genesisBlock : Block}

/-- The stores of a start that has read the index: `filters` is what the filter
store held. -/
structure Opening (cfg : NodeConfig S) (db : ChainstateDb S) (filters : FilterMap)
    (index : BlockIndex) (blockDb : BlockStore) : Prop where
  tree : StoredTree cfg.chain db.records index.activeChain
  closed : StoredClosed cfg.chain db.records
  load : initFromDb cfg.chain db.records = some index
  blocks : ∀ (h : Hash) (block : Block), blockDb.blocks[h]? = some block →
    block.header.hash = h ∧ HeaderAgrees cfg.filters index.nodes block
  patches : ∀ (h : Hash) (rev : RevBlock), blockDb.revPatches[h]? = some rev → rev.hash = h
  cover : ∀ h ∈ index.activeChain, h ≠ cfg.chain.genesis.hash →
    (filters h).isSome ∨ h ∈ blockDb.blocks ∧ h ∈ blockDb.revPatches

section Opening

variable {db : ChainstateDb S} {filters : FilterMap} {index : BlockIndex} {blockDb : BlockStore}
  {f : FilterIndex}

theorem Opening.sound (ho : Opening cfg db filters index blockDb) (f : FilterIndex) :
    Node.Sound cfg (Node.openNode db index f blockDb) :=
  Node.sound_openNode ho.tree ho.closed ho.load (fun h block hb => (ho.blocks h block hb).1)
    ho.patches

theorem Opening.coverable (ho : Opening cfg db filters index blockDb)
    (hgrows : Grows filters f.stored) {h : Hash} (hh : h ∈ index.activeChain)
    (hne : h ≠ cfg.chain.genesis.hash) :
    Node.Coverable (Node.openNode db index f blockDb) h :=
  (ho.cover h hh hne).imp_left hgrows.isSome

/-- A start that is killed. -/
theorem Opening.stores (ho : Opening cfg db filters index blockDb)
    (hf : Opened cfg.filters index.nodes f) (hgrows : Grows filters f.stored) :
    StoresSound cfg (Node.openNode db index f blockDb).stores := by
  refine storesSound_of_node (ho.sound f) hf (fun h block hb => (ho.blocks h block hb).2) ?_
  rintro h ⟨main, ha, hmem⟩ hne
  exact ho.coverable hgrows (ho.tree.mem_of_mem ha.stored hmem) hne

/-- A start that raised: what it has built is written as it closes, and the
locator stays. -/
theorem Opening.closes (ho : Opening cfg db filters index blockDb)
    (hf : Opened cfg.filters index.nodes f) (hgrows : Grows filters f.stored)
    (hsync : f.synced = false) :
    StoresSound cfg (finalState Node.flush (Node.openNode db index f blockDb)).stores := by
  have hsound := ho.sound f
  obtain ⟨tip, htip, hflush, -⟩ := Node.flush_eq hsound.agrees
  obtain ⟨main, ha⟩ := hsound.agrees.store
  have hadvance : f.advance tip = FilterIndex.finalize none f := by
    unfold advance
    rw [hsync]
    rfl
  have hfinal : finalState Node.flush (Node.openNode db index f blockDb) =
      (Node.openNode db index f blockDb).flushed tip := by
    unfold finalState
    rw [hflush]
  rw [hfinal]
  refine storesSound_of_node ((Node.pruneInvariant_sound cfg).flushed _ tip hsound htip) ?_
    (fun h block hb => (ho.blocks h block hb).2) fun h hh hne => ?_
  · show Opened cfg.filters index.nodes (f.advance tip)
    rw [hadvance]
    exact hf.finalize fun b hb => by cases hb
  · obtain ⟨main', ha', hmem⟩ := hh
    have hactive := (ha.finalize hsound.agrees.consistent).stored.mem_of_mem ha'.stored hmem
    refine ho.coverable (f := f.advance tip) ?_ hactive hne
    rw [hadvance]
    exact hgrows.trans (hf.good.advances_finalize none).stored

end Opening

/-- What a start comes to: a node with every block of its active chain in the
filter store, or stores in order and an error from outside. -/
def Started (cfg : NodeConfig S) : Except (StartError × Stores S) (Node S) → Prop
  | .ok n => Node.SoundFilters cfg n ∧ ∀ h ∈ n.blockIndex.activeChain, h ∈ n.filterIndex.db
  | .error (e, d) => StoresSound cfg d ∧ Outside cfg.filters e

/-- The genesis block is put among the blocks, if none has been pruned. -/
theorem StoresSound.opening (hd : StoresSound cfg d)
    (hblock : genesisBlock.header.hash = cfg.filters.genesisHash) {index : BlockIndex}
    (hload : initFromDb cfg.chain d.db.records = some index) :
    Opening cfg d.db (fun h => d.filters[h]?) index
      (if d.blockDb.prunedBelow = 0 then d.blockDb.addBlock genesisBlock else d.blockDb) := by
  obtain ⟨main, htree, hcover⟩ := hd.main
  have hloaded := htree.loaded hload
  have hnodes : storedNodes cfg.chain d.db.records = index.nodes := by
    unfold nodes storedNodes
    rw [funext hloaded.info]
  obtain rfl : index.activeChain = main := hloaded.activeChain
  have hold := fun h block hb => hnodes ▸ hd.blocks h block hb
  have hcover' : ∀ h ∈ index.activeChain, h ≠ cfg.chain.genesis.hash →
      (d.filters[h]?).isSome ∨ h ∈ d.blockDb.blocks ∧ h ∈ d.blockDb.revPatches := fun h hh hne =>
    (hcover h hh hne).imp_left Std.ExtTreeMap.mem_iff_isSome_getElem?.mp
  split
  · unfold BlockStore.addBlock
    split
    · exact ⟨htree, hd.closed, hload, hold, hd.patches, hcover'⟩
    · refine ⟨htree, hd.closed, hload, fun h block hb => ?_, hd.patches, fun h hh hne => ?_⟩
      · rw [FiniteMap.getElem?_insert] at hb
        split at hb
        · next heq =>
          cases hb
          exact ⟨heq, fun hne => absurd hblock hne⟩
        · exact hold h block hb
      · refine (hcover' h hh hne).imp_right fun hdata => ⟨?_, hdata.2⟩
        exact Std.ExtTreeMap.mem_insert.mpr (.inr hdata.1)
  · exact ⟨htree, hd.closed, hload, hold, hd.patches, hcover'⟩

/-- **A start over stores in order** covers the active chain, or fails for a
reason outside and leaves them in order. -/
theorem StoresSound.load (hd : StoresSound cfg d)
    (hgenesis : cfg.filters.genesisHash = cfg.chain.genesis.hash)
    (hheader : genesisBlock.header = cfg.chain.genesis) :
    Started cfg (Node.load cfg genesisBlock env d) := by
  obtain ⟨main, htree, -⟩ := hd.main
  obtain ⟨index, hload, hloaded, hcons⟩ := htree.exists_consistent hd.closed
  have hnodes : storedNodes cfg.chain d.db.records = index.nodes := by
    unfold nodes storedNodes
    rw [funext hloaded.info]
  have hblock : genesisBlock.header.hash = cfg.filters.genesisHash := by
    rw [hheader, hgenesis]
  have hopening := hd.opening hblock hload
  obtain ⟨f₀, hf₀⟩ : ∃ f₀ : FilterIndex, f₀ = ⟨d.filters, d.bestBlock, ⟨∅, []⟩, false⟩ := ⟨_, rfl⟩
  have hentry : f₀.entry = fun h => d.filters[h]? := by
    rw [hf₀]
    funext h
    unfold FilterIndex.entry
    rw [Std.ExtTreeMap.getElem?_empty, Option.none_or]
  have hstored : f₀.stored = fun h => d.filters[h]? := by
    rw [hf₀]
    rfl
  have hgood : Good cfg.filters index.nodes f₀ := by
    refine ⟨?_, ?_, ?_, fun b hb => ?_⟩
    · rw [hentry, ← hnodes]
      exact hd.chained
    · rw [hentry, hstored]
      exact .refl _
    · rw [hstored, ← hnodes]
      exact hd.chained
    · rw [hf₀] at hb
      obtain ⟨hmem, hnode⟩ := hd.locator b hb
      rw [hstored, ← hnodes]
      exact ⟨Std.ExtTreeMap.mem_iff_isSome_getElem?.mp hmem, hnode⟩
  have hroot : ∃ node, index.nodes cfg.filters.genesisHash = some node := by
    obtain ⟨p, hp⟩ := hcons.headerTree.tree.root_node
    exact ⟨_, hgenesis ▸ hp⟩
  have hunlocated : f₀.bestBlock = none → f₀.entry cfg.filters.genesisHash = none := by
    intro hnone
    rw [hf₀] at hnone
    rw [hentry, hd.located hnone]
    exact Std.ExtTreeMap.getElem?_empty
  have hbuild : Sat (buildGenesis cfg.filters env genesisBlock) f₀ _ _ :=
    buildGenesis_sat hgood hunlocated hblock hroot
  unfold Node.load
  rw [hload, ← hf₀]
  dsimp only
  cases hb : buildGenesis cfg.filters env genesisBlock f₀ with
  | error e f => exact ⟨hd, hbuild.of_error hb⟩
  | ok writes opened =>
    obtain ⟨hopened, hadv⟩ := hbuild.of_ok hb
    generalize (if d.blockDb.prunedBelow = 0 then d.blockDb.addBlock genesisBlock
      else d.blockDb) = blockDb at hopening ⊢
    rw [← hstored] at hopening
    have hcatch : Sat (catchUp cfg.filters env index blockDb writes) opened _ _ :=
      catchUp_sat hcons (initFromDb_skip hload) hgenesis
      hopening.blocks hopened (fun h hh => by
        by_cases hne : h = cfg.chain.genesis.hash
        · left
          rw [hne, ← hgenesis]
          exact hopened.genesis
        · exact (hopening.coverable hadv.stored hh hne).imp_left
            hopened.good.grows.isSome) writes
    dsimp only
    cases hc : catchUp cfg.filters env index blockDb writes opened with
    | ok built f =>
      obtain ⟨hf, hsync, -, hall⟩ := hcatch.of_ok hc
      refine ⟨.mk' (hopening.sound f) ⟨hf.good, fun tip htip => ?_, hf.located, hsync,
        fun h block hb => (hopening.blocks h block hb).2, fun h hh => .inl (hall h hh),
        fun h hh => ?_⟩, fun h hh => ?_⟩
      · exact hf.good.grows.isSome (hall tip (List.mem_of_getLast? htip))
      · obtain ⟨main', ha', hmem⟩ := hh
        exact .inl (hall h (hopening.tree.mem_of_mem ha'.stored hmem))
      · exact Std.ExtTreeMap.mem_iff_isSome_getElem?.mpr (hall h hh)
    | error e f =>
      obtain ⟨hf, hadvf, he⟩ := hcatch.of_error hc
      have hgrows := (hadv.trans hadvf).stored
      have hsync : f.synced = false := by
        rw [hadvf.synced, hadv.synced, hf₀]
      have hclosed := hopening.closes hf hgrows hsync
      cases e with
      | killed => exact ⟨hopening.stores hf hgrows, he⟩
      | key => exact ⟨hclosed, he⟩
      | unknownLocator => exact ⟨hclosed, he⟩
      | cannotBuild => exact ⟨hclosed, he⟩
      | storage => exact ⟨hclosed, he⟩
      | filter e => exact ⟨hclosed, he⟩

end Start

/-! ## Runs -/

namespace Process

section Runs

variable {S : Type} {cfg : Deployment S} {p q : Process S} {event : ProcessEvent}

/-- What holds of a process between events. -/
def InOrder (cfg : NodeConfig S) : Process S → Prop
  | .running n => Node.SoundFilters cfg n
  | .stopped d => StoresSound cfg d

/-- **Every event keeps a process in order.** -/
theorem InOrder.step (hp : InOrder cfg.toNodeConfig p) (hstep : step cfg p event = some q) :
    InOrder cfg.toNodeConfig q := by
  cases p with
  | stopped d =>
    cases event with
    | started env =>
      have hload : Started cfg.toNodeConfig (Node.load cfg.toNodeConfig cfg.genesisBlock env d) :=
        StoresSound.load hp cfg.genesis_filter cfg.genesis_header
      unfold Process.step at hstep
      dsimp only at hstep
      cases hres : Node.load cfg.toNodeConfig cfg.genesisBlock env d with
      | ok n =>
        rw [hres] at hstep hload
        cases hstep
        exact hload.1
      | error r =>
        rw [hres] at hstep hload
        cases hstep
        exact hload.1
    | call flushBound c => cases hstep
    | killed => cases hstep
    | killedInFlush => cases hstep
    | killedInDisconnect flushBound env h => cases hstep
    | closed => cases hstep
  | running n =>
    have hn : Node.SoundFilters cfg.toNodeConfig n := hp
    cases event with
    | started env => cases hstep
    | killed =>
      cases hstep
      exact hn.stores cfg.genesis_filter
    | killedInFlush =>
      cases hstep
      exact hn.storesInFlush cfg.genesis_filter
    | killedInDisconnect flushBound env h =>
      obtain ⟨d, hd, rfl⟩ := Option.map_eq_some_iff.mp hstep
      have hsound := (hn.withBound flushBound).storesInDisconnect cfg.genesis_filter hd
      exact ⟨hsound.main, hsound.closed, hsound.chained, hsound.locator, hsound.located,
        hsound.blocks, hsound.patches⟩
    | closed =>
      cases hstep
      have hflush := (Node.callInvariant_filters cfg.genesis_filter).keeps_flush n
      exact Node.SoundFilters.stores (Sat.finalState (hflush.mono (fun _ _ h => h hn)
        fun _ _ h => h hn)) cfg.genesis_filter
    | call flushBound c =>
      unfold Process.step at hstep
      dsimp only at hstep
      split at hstep
      · next hindexed =>
        obtain ⟨m, hm, rfl⟩ := Option.map_eq_some_iff.mp hstep
        unfold Node.step at hm
        split at hm
        · next hallowed =>
          cases hm
          have hI : Node.CallInvariant { cfg.toNodeConfig with flushBound } _ _ :=
            Node.callInvariant_filters cfg.genesis_filter
          refine (hI.keeps_call (hn.withBound flushBound) hallowed ?_).finalState.ofBound
          rintro block rfl hne
          unfold Node.storesIndexed at hindexed
          rw [Option.any_eq_true] at hindexed
          obtain ⟨info, hinfo, heq⟩ := hindexed
          rw [decide_eq_true_iff] at heq
          exact ⟨info.index, by rw [nodes_eq hinfo, heq]⟩
        · cases hm
      · cases hstep

theorem InOrder.onDisk (hp : InOrder cfg.toNodeConfig p) :
    FiltersInOrder cfg.toNodeConfig p.onDisk := by
  cases p with
  | stopped d => exact StoresSound.filtersInOrder hp cfg.genesis_filter
  | running n =>
    exact (Node.SoundFilters.stores hp cfg.genesis_filter).filtersInOrder cfg.genesis_filter

/-- **Progress of the filter store.**  In every state of every run from a new
datadir the stored filters are in order; and of a datadir that no node runs on,
the next start gives a node with the filter and the header of every block of its
active chain stored, unless it is killed, a read fails or btclib raises. -/
theorem filterStore_progress {events : List ProcessEvent}
    (hrun : Run.exec (step cfg) (.stopped (fresh cfg.toNodeConfig)) events = some p) :
    FiltersInOrder cfg.toNodeConfig p.onDisk ∧
      ∀ d, p = .stopped d → ∀ env,
        match Node.load cfg.toNodeConfig cfg.genesisBlock env d with
        | .ok n => ∀ h ∈ n.blockIndex.activeChain, h ∈ n.filterIndex.db
        | .error (e, _) => Outside cfg.filters e := by
  have hfresh : InOrder cfg.toNodeConfig (.stopped (fresh cfg.toNodeConfig)) :=
    storesSound_fresh cfg.toNodeConfig
  have hp : InOrder cfg.toNodeConfig p :=
    Run.exec_invariant (fun _ _ _ h hstep => h.step hstep) hfresh hrun
  refine ⟨hp.onDisk, fun d hd env => ?_⟩
  rw [hd] at hp
  have hload : Started cfg.toNodeConfig (Node.load cfg.toNodeConfig cfg.genesisBlock env d) :=
    StoresSound.load hp cfg.genesis_filter cfg.genesis_header
  cases hres : Node.load cfg.toNodeConfig cfg.genesisBlock env d with
  | ok n =>
    rw [hres] at hload
    exact hload.2
  | error r =>
    rw [hres] at hload
    exact hload.2

end Runs

section Light

def lightDeployment : Deployment (ℤ × ℤ) where
  toNodeConfig := Node.lightConfig
  genesisBlock := ⟨lightChain.genesis, []⟩
  genesis_header := rfl
  genesis_filter := rfl

/-- A start that nothing disturbs. -/
def lightStart : StartEnv := ⟨none, fun _ => false, fun _ => false, fun _ => false⟩

/-- A block is connected, and the process is killed between the two batches of
the flush that follows. -/
def lightEvents : List ProcessEvent :=
  .started lightStart :: Node.arrivalCalls.map (.call 10) ++
    [.call 10 (.updateChain (Node.lightEnv none)), .killedInFlush]

/-- What is seen of a datadir no node runs on, and of the next start. -/
def lightView : Process (ℤ × ℤ) → Option (Option Hash × Bool × Option (List Hash))
  | .running _ => none
  | .stopped d =>
    some (d.bestBlock, decide (2 ∈ d.filters),
      match Node.load lightDeployment.toNodeConfig lightDeployment.genesisBlock lightStart d with
      | .ok n => some n.blockIndex.activeChain
      | .error _ => none)

/-- The locator is still at genesis, and the block has no filter; after the next
start it has one. -/
theorem filterStore_progress_killedInFlush : ∃ d n,
    Run.exec (step lightDeployment) (.stopped (fresh lightDeployment.toNodeConfig)) lightEvents =
      some (.stopped d) ∧ d.bestBlock = some 1 ∧ 2 ∉ d.filters ∧
    FiltersInOrder lightDeployment.toNodeConfig d ∧
    Node.load lightDeployment.toNodeConfig lightDeployment.genesisBlock lightStart d = .ok n ∧
    n.blockIndex.activeChain = [1, 2] ∧ ∀ h ∈ n.blockIndex.activeChain, h ∈ n.filterIndex.db := by
  have heval : ((Run.exec (step lightDeployment)
      (.stopped (fresh lightDeployment.toNodeConfig)) lightEvents).bind lightView) =
      some (some 1, false, some [1, 2]) := by decide +kernel
  rw [Option.bind_eq_some_iff] at heval
  obtain ⟨p, hrun, hview⟩ := heval
  obtain ⟨horder, hnext⟩ := filterStore_progress hrun
  cases p with
  | running n => cases hview
  | stopped d =>
    have hload := hnext d rfl lightStart
    unfold lightView at hview
    rw [Option.some.injEq, Prod.mk.injEq, Prod.mk.injEq, decide_eq_false_iff_not] at hview
    obtain ⟨hbest, hnone, hactive⟩ := hview
    cases hres : Node.load lightDeployment.toNodeConfig lightDeployment.genesisBlock
        lightStart d with
    | error r =>
      rw [hres] at hactive
      cases hactive
    | ok n =>
      rw [hres] at hactive hload
      exact ⟨d, n, hrun, hbest, hnone, horder, hres, Option.some.inj hactive, hload⟩

end Light

end Process

end BtclibNode
