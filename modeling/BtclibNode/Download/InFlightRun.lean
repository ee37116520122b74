/-
# Block requests in flight over a run

Every method and handler keeps `Fits`, so every run does: of `block_download`,
`headers_direct_fetch` and the handlers in any order, whatever the messages say,
with connections coming and going and the rest of the node at work between.
-/
import BtclibNode.Chainstate.IndexRun
import BtclibNode.Download.Compact

namespace BtclibNode.DownloadNode

open StateExcept BlockIndex

variable {P S : Type} {rules : DownloadRules P S} {n t : DownloadNode P S}

/-! ## The machine -/

/-- A method of block download, or a handler with the message of the peer `id`. -/
inductive Call where
  | blockDownload
  | headersDirectFetch (id : ℕ) (lastHeader : Hash)
  | headers (id : ℕ) (batch : List BlockHeader)
  | block (id : ℕ) (block : Block)
  | cmpctblock (id : ℕ) (compact : CmpctBlock)
  | blocktxn (id : ℕ) (blockHash : Hash) (transactions : List Tx)

/-- What is called. -/
def Call.run (rules : DownloadRules P S) : Call → Handler P S Unit
  | .blockDownload => DownloadNode.blockDownload rules
  | .headersDirectFetch id lastHeader => DownloadNode.headersDirectFetch rules id lastHeader
  | .headers id batch => DownloadNode.headers rules id batch
  | .block id b => DownloadNode.block rules id b
  | .cmpctblock id compact => DownloadNode.cmpctblock rules id compact
  | .blocktxn id blockHash transactions => DownloadNode.blocktxn rules id blockHash transactions

theorem keeps_run (call : Call) : Keeps rules (call.run rules) := by
  cases call with
  | blockDownload => exact keeps_blockDownload
  | headersDirectFetch id lastHeader => exact keeps_headersDirectFetch id lastHeader
  | headers id batch => exact keeps_headers id batch
  | block id b => exact keeps_block id b
  | cmpctblock id compact => exact keeps_cmpctblock id compact
  | blocktxn id blockHash transactions => exact keeps_blocktxn id blockHash transactions

/-- A connection nothing is asked of. -/
structure Connection.Idle (s : BlockIndex) (c : Connection P S) : Prop where
  queue : c.downloadQueue = []
  partials : c.blockAvailability.partialBlocks = ∅
  orders : c.blockAvailability.requestOrder = ∅
  known : c.blockAvailability.Known s

/-- What the rest of the node does between two calls: no header is forgotten, no
block is stored, the active chain takes in blocks that are held, and of the
connections only what is not about requests changes. -/
structure Outside (rules : DownloadRules P S) (n t : DownloadNode P S) : Prop where
  index : IndexFit rules.chain t.blockIndex
  indexed : ∀ h info, n.blockIndex.getBlockInfo h = some info →
    ∃ info', t.blockIndex.getBlockInfo h = some info'
  held : ∀ h info', t.blockIndex.getBlockInfo h = some info' → info'.downloaded = true →
    ∃ info, n.blockIndex.getBlockInfo h = some info ∧ info.downloaded = true
  active : ∀ h ∈ t.blockIndex.activeChain, h ∈ n.blockIndex.activeChain ∨
    ∃ info, t.blockIndex.getBlockInfo h = some info ∧ info.downloaded = true
  requests : List.Forall₂ Connection.SameRequests n.connections t.connections
  known : ∀ c ∈ t.connections, c.blockAvailability.Known t.blockIndex

/-- A step of the node. -/
inductive Step (rules : DownloadRules P S) (n : DownloadNode P S) : DownloadNode P S → Prop
  -- whichever way the call ends
  | call (call : Call) : Step rules n (finalState (call.run rules) n)
  | outside {t : DownloadNode P S} (h : Outside rules n t) : Step rules n t
  | join {c : Connection P S} (hid : c.id ∉ n.connections.map Connection.id)
      (hidle : Connection.Idle n.blockIndex c) :
      Step rules n { n with connections := n.connections ++ [c] }
  | leave (id : ℕ) :
      Step rules n { n with connections := n.connections.filter fun c => c.id != id }

/-! ## One step -/

theorem Connection.Idle.tidy {s : BlockIndex} {c : Connection P S} (h : Connection.Idle s c) :
    c.Tidy rules where
  nodup := h.queue ▸ List.nodup_nil
  length_le := by
    rw [h.queue]
    exact Nat.zero_le _
  partials := fun x hx => by
    rw [h.partials] at hx
    exact absurd hx Std.ExtTreeMap.not_mem_empty
  orders := fun x hx => by
    rw [h.orders] at hx
    exact absurd hx Std.ExtTreeMap.not_mem_empty
  header := fun x p hx => by
    rw [h.partials] at hx
    cases hx

theorem Outside.wanted {h : Hash} (ho : Outside rules n t) (hw : Wanted n.blockIndex h) :
    Wanted t.blockIndex h := by
  have hmissing : ∀ info', t.blockIndex.getBlockInfo h = some info' →
      info'.downloaded = false := by
    intro info' hinfo'
    by_contra hheld
    rw [Bool.not_eq_false] at hheld
    obtain ⟨info, hinfo, hd⟩ := ho.held h info' hinfo' hheld
    rw [hw.missing info hinfo] at hd
    cases hd
  refine ⟨fun hactive => ?_, hmissing⟩
  rcases ho.active h hactive with hbefore | ⟨info, hinfo, hheld⟩
  · exact hw.off hbefore
  · rw [hmissing info hinfo] at hheld
    cases hheld

theorem Outside.fits (ho : Outside rules n t) (hn : n.Fits rules) : t.Fits rules := by
  have hlessens : List.Forall₂ (Connection.Lessens rules) n.connections t.connections :=
    ho.requests.imp fun _ _ h => h.lessens
  have hof := fun c' (hc' : c' ∈ t.connections) => exists_of_lessens hlessens hc'
  refine ⟨ho.index, ?_, fun c' hc' => ?_, ho.known, fun h => ?_, fun c' hc' h hh => ?_⟩
  · rw [ids_of_lessens hlessens]
    exact hn.ids
  · obtain ⟨c, hc, hcc⟩ := hof c' hc'
    exact hcc.tidy (hn.tidy c hc)
  · exact (holdersOf_le_of_lessens hlessens h).trans (hn.holders h)
  · obtain ⟨c, hc, hcc⟩ := hof c' hc'
    exact ho.wanted (hn.wanted c hc h (hcc.queue h hh))

/-- A new connection has nothing in flight. -/
theorem Fits.join {c : Connection P S} (hn : n.Fits rules)
    (hid : c.id ∉ n.connections.map Connection.id) (hidle : Connection.Idle n.blockIndex c) :
    ({ n with connections := n.connections ++ [c] } : DownloadNode P S).Fits rules := by
  have hmem : ∀ c' ∈ n.connections ++ [c], c' ∈ n.connections ∨ c' = c := by
    intro c' hc'
    rwa [List.mem_append, List.mem_singleton] at hc'
  refine ⟨hn.index, ?_, fun c' hc' => ?_, fun c' hc' => ?_, fun h => ?_, fun c' hc' h hh => ?_⟩
  · rw [List.map_append, List.nodup_append]
    refine ⟨hn.ids, List.nodup_singleton _, fun x hx y hy he => ?_⟩
    rw [List.map_singleton, List.mem_singleton] at hy
    exact hid (hy ▸ he ▸ hx)
  · rcases hmem c' hc' with hc' | rfl
    · exact hn.tidy c' hc'
    · exact hidle.tidy
  · rcases hmem c' hc' with hc' | rfl
    · exact hn.known c' hc'
    · exact hidle.known
  · have hnew : holdersOf [c] h = 0 := holdersOf_eq_zero fun c' hc' _ => by
      rw [List.mem_singleton.mp hc', hidle.queue]
      exact List.not_mem_nil
    show holdersOf (n.connections ++ [c]) h ≤ _
    unfold holdersOf at hnew ⊢
    rw [List.countP_append, hnew]
    exact hn.holders h
  · rcases hmem c' hc' with hc' | rfl
    · exact hn.wanted c' hc' h hh
    · rw [hidle.queue] at hh
      cases hh

/-- A connection that goes takes its requests along. -/
theorem Fits.leave (hn : n.Fits rules) (id : ℕ) :
    ({ n with connections := n.connections.filter fun c => c.id != id } :
      DownloadNode P S).Fits rules where
  index := hn.index
  ids := hn.ids.sublist (List.filter_sublist.map Connection.id)
  tidy := fun c hc => hn.tidy c (List.mem_of_mem_filter hc)
  known := fun c hc => hn.known c (List.mem_of_mem_filter hc)
  holders := fun h => List.filter_sublist.countP_le.trans (hn.holders h)
  wanted := fun c hc => hn.wanted c (List.mem_of_mem_filter hc)

/-- **Every step keeps the invariant.** -/
theorem Fits.step (hn : n.Fits rules) (hstep : Step rules n t) : t.Fits rules := by
  cases hstep with
  | call call => exact ((keeps_run call).sat hn).finalState
  | outside h => exact h.fits hn
  | join hid hidle => exact hn.join hid hidle
  | leave id => exact hn.leave id

/-! ## Runs -/

/-- A node before anything is asked for. -/
structure Idle (rules : DownloadRules P S) (n : DownloadNode P S) : Prop where
  index : IndexFit rules.chain n.blockIndex
  ids : (n.connections.map Connection.id).Nodup
  idle : ∀ c ∈ n.connections, Connection.Idle n.blockIndex c

theorem Idle.fits (h : Idle rules n) : n.Fits rules where
  index := h.index
  ids := h.ids
  tidy := fun c hc => (h.idle c hc).tidy
  known := fun c hc => (h.idle c hc).known
  holders := fun x => by
    rw [holdersOf_eq_zero fun c hc _ => by
      rw [(h.idle c hc).queue]
      exact List.not_mem_nil]
    exact Nat.zero_le _
  wanted := fun c hc x hx => by
    rw [(h.idle c hc).queue] at hx
    cases hx

/-- **Block requests in flight stay consistent**: in every run from a node that
has asked for nothing. -/
theorem in_flight_of_run (hidle : Idle rules n) (hrun : Relation.ReflTransGen (Step rules) n t) :
    (∀ c ∈ t.connections, c.downloadQueue.Nodup ∧
      c.downloadQueue.length ≤ maxBlocksInTransitPerPeer ∧
      (∀ h ∈ c.blockAvailability.partialBlocks, h ∈ c.downloadQueue) ∧
      ∀ h ∈ c.blockAvailability.requestOrder, h ∈ c.downloadQueue) ∧
    (∀ h, holdersOf t.connections h ≤ maxCmpctblocksInflightPerBlock) ∧
    ∀ c ∈ t.connections, ∀ h ∈ c.downloadQueue, ∀ info,
      t.blockIndex.getBlockInfo h = some info → info.downloaded = false := by
  have hfits : t.Fits rules := by
    induction hrun with
    | refl => exact hidle.fits
    | tail _ hstep ih => exact ih.step hstep
  refine ⟨fun c hc => ?_, hfits.holders, fun c hc h hh => (hfits.wanted c hc h hh).missing⟩
  have htidy := hfits.tidy c hc
  exact ⟨htidy.nodup, htidy.length_le, htidy.partials, htidy.orders⟩

/-- Rules that refuse nothing; a partial block is its header and its transactions. -/
def lightRules : DownloadRules (BlockHeader × List (Option Tx)) Unit where
  chain := lightChain
  segwitHeight := 0
  minimumChainWork := 0
  powTargetSpacing := 600
  antiDosWorkThreshold _ _ _ := 0
  isBlockMutated _ _ := false
  passesCheckBlock _ := true
  assertValidBlock _ := .ok ()
  overWeight _ := false
  contextualCheckBlock _ _ _ _ := .ok ()
  addBlockFails _ := false
  headerOf := Prod.fst
  reconstruct compact _ := some (compact.header, compact.shortIds.map fun _ => none)
  partialBlock := Prod.mk
  missingIndexes p := (List.range p.2.length).filter fun i => p.2[i]? = some none
  fill p txs := some ⟨p.1, txs⟩
  newHeadersSync _ _ _ _ := ()
  processNextHeaders s headers _ := (s, ⟨true, false, headers⟩)
  nextHeadersRequestLocator _ := []
  isFinal _ := true
  headerOf_reconstruct _ _ _ h := (Option.some.inj h ▸ rfl)
  headerOf_partialBlock _ _ := rfl
  header_fill _ _ _ h := (Option.some.inj h ▸ rfl)

/-- A peer that sends compact blocks. -/
def lightPeer : Connection (BlockHeader × List (Option Tx)) Unit where
  id := 7
  status := .connected
  versionMessage := some ⟨70016, true, true, true⟩
  inbound := false
  automatic := true
  feeler := false
  addrFetch := false
  noBan := false
  providesCmpctblocks := true
  requestedHbCmpctblocks := false
  bip152HighbandwidthTo := true
  headersSync := none
  downloadQueue := []
  blockAvailability := ⟨none, none, none, none, 0, 0, ∅, ∅⟩
  lastBlockAnnouncement := 0
  lastNovelBlockTime := 0

/-- A node connected to it. -/
def lightNode (s : BlockIndex) : DownloadNode (BlockHeader × List (Option Tx)) Unit where
  connections := [lightPeer]
  blockIndex := s
  blockDb := ∅
  blockSource := ∅
  status := .blockSynced
  isInitialBlockDownload := false
  pool := []
  blockStallingTimeout := 2
  requestOrders := 1
  lastGetheadersTimestamps := ∅
  highestFastAnnounce := 0
  clock n := n
  ticks := 0
  sent := []

theorem indexFit_light {s : BlockIndex} (hload : initFromDb lightChain ∅ = some s) :
    IndexFit lightChain s := by
  have heval : ((initFromDb lightChain ∅).bind fun s => s.activeChain.getLast?.bind fun tip =>
      (s.getBlockInfo tip).map BlockInfo.downloaded) = some true := by decide +kernel
  obtain ⟨s', hload', -, hcons⟩ :=
    (storedTree_empty lightChain).exists_consistent (storedClosed_empty lightChain)
  obtain rfl := Option.some.inj (hload.symm.trans hload')
  refine ⟨hcons, initFromDb_skip hload, fun tip info htip hinfo => ?_⟩
  rw [hload, Option.bind_some, htip, Option.bind_some, hinfo] at heval
  exact Option.some.inj heval

/-- A compact block short of a transaction, of a peer asked for nothing before. -/
theorem in_flight_of_run_light : ∃ s t, initFromDb lightChain ∅ = some s ∧
    t = finalState ((Call.cmpctblock 7 ⟨lightHeader 2 1, [5], []⟩).run lightRules) (lightNode s) ∧
    t.connections.map Connection.downloadQueue = [[2]] ∧
    ∀ h, holdersOf t.connections h ≤ maxCmpctblocksInflightPerBlock := by
  have heval : ((initFromDb lightChain ∅).map fun s => (finalState
      ((Call.cmpctblock 7 ⟨lightHeader 2 1, [5], []⟩).run lightRules)
      (lightNode s)).connections.map Connection.downloadQueue) = some [[2]] := by decide +kernel
  obtain ⟨s, hload, -⟩ :=
    (storedTree_empty lightChain).exists_consistent (storedClosed_empty lightChain)
  rw [hload, Option.map_some, Option.some.injEq] at heval
  have hidle : Idle lightRules (lightNode s) := by
    refine ⟨indexFit_light hload, List.nodup_singleton _, fun c hc => ?_⟩
    rw [List.mem_singleton.mp hc]
    exact ⟨rfl, rfl, rfl, fun h hh => hh.elim nofun nofun⟩
  exact ⟨s, _, hload, rfl, heval, (in_flight_of_run hidle (.single (.call _))).2.1⟩

end BtclibNode.DownloadNode
