/-
# Asking peers for blocks

`DownloadManager.block_download` and `headers_direct_fetch` of `download.py`.  A
method that raises leaves the node as the statements before the raise left it.
The connection a method is given is one of `connections`.  What btclib decides,
and what `main.py` asks of a block through it, are `DownloadRules`.
-/
import BtclibNode.Lib.StateExcept
import BtclibNode.Download.Availability

namespace BtclibNode

/-! ## The node -/

/-- btclib's `CmpctBlock`: the short ids and the prefilled transactions with
their indexes. -/
structure CmpctBlock where
  header : BlockHeader
  shortIds : List ℕ
  prefilledTxns : List (ℕ × Tx)
  deriving DecidableEq, Repr

/-- btclib's `InventoryType`, of what block download asks for. -/
inductive InventoryType where
  | msgBlock
  | msgWitnessBlock
  | msgCmpctBlock
  deriving DecidableEq, Repr

/-- A message this node sends. -/
inductive Payload where
  | getData (items : List (InventoryType × Hash))
  | getBlockTxn (blockHash : Hash) (indexes : List ℕ)
  | getHeaders (locator : List Hash)
  | cmpctBlock (block : Block)

/-- `NodeStatus`, in its order. -/
inductive NodeStatus where
  | starting
  | reindexing
  | syncingHeaders
  | headerSynced
  | blockSynced
  deriving DecidableEq, Repr

/-- What a handler raises: `MisbehavingError`, another `BTClibValueError`, what
the disk raises, a `KeyError` or a failed assertion. -/
inductive HandlerError where
  | misbehaving (reason : String)
  | btclibValue (reason : String)
  | storage
  | key
  deriving DecidableEq, Repr

/-- The result of `HeadersSyncState.process_next_headers`. -/
structure SyncResult where
  success : Bool
  requestMore : Bool
  powValidatedHeaders : List BlockHeader

/-- What is fixed for the life of a node, and what btclib decides. -/
structure DownloadRules (P S : Type) where
  chain : Chain
  segwitHeight : ℕ
  minimumChainWork : ℕ
  powTargetSpacing : ℚ
  antiDosWorkThreshold : ℕ → ℕ → ℕ → ℕ
  -- `main.py` and btclib on a block
  isBlockMutated : Block → Bool → Bool
  passesCheckBlock : Block → Bool
  assertValidBlock : Block → Except String Unit
  overWeight : Block → Bool
  contextualCheckBlock : BlockIndex → Block → ℕ → ℚ → Except String Unit
  addBlockFails : Hash → Bool
  -- btclib on a compact block
  headerOf : P → BlockHeader
  reconstruct : CmpctBlock → List Tx → Option P
  partialBlock : BlockHeader → List (Option Tx) → P
  missingIndexes : P → List ℕ
  fill : P → List Tx → Option Block
  -- btclib on a low-work sync of headers
  newHeadersSync : BlockIndex → Hash → ℕ → ℚ → S
  processNextHeaders : S → List BlockHeader → Bool → S × SyncResult
  nextHeadersRequestLocator : S → List Hash
  isFinal : S → Bool
  -- a partial block has its header from the start, and is filled under it
  headerOf_reconstruct : ∀ compact pool p, reconstruct compact pool = some p →
    headerOf p = compact.header
  headerOf_partialBlock : ∀ header txs, headerOf (partialBlock header txs) = header
  header_fill : ∀ p txs block, fill p txs = some block → block.header = headerOf p

/-- What of `Node` block download reads and writes; `clock` gives the readings of
the clock, one after the other, and `pool` is the mempool with the extra
transactions. -/
structure DownloadNode (P S : Type) where
  connections : List (Connection P S)
  blockIndex : BlockIndex
  blockDb : Std.ExtTreeMap Hash Block
  blockSource : Std.ExtTreeMap Hash (ℕ × Bool)
  status : NodeStatus
  isInitialBlockDownload : Bool
  pool : List Tx
  blockStallingTimeout : ℚ
  requestOrders : ℕ
  lastGetheadersTimestamps : Std.ExtTreeMap ℕ ℚ
  highestFastAnnounce : ℕ
  clock : ℕ → ℚ
  ticks : ℕ
  sent : List (ℕ × Payload)

/-- A method or a handler. -/
abbrev Handler (P S : Type) := EStateM HandlerError (DownloadNode P S)

namespace DownloadNode

variable {P S : Type} (rules : DownloadRules P S)

/-! ## Its parts -/

/-- `clock.now()`. -/
def now : Handler P S ℚ := fun n => .ok (n.clock n.ticks) { n with ticks := n.ticks + 1 }

/-- What a lookup answers, or its `KeyError`. -/
def lookup {α : Type} (x : Option α) : Handler P S α :=
  match x with
  | none => throw .key
  | some a => return a

/-- `if c: x`. -/
def doWhen (c : Bool) (x : Handler P S Unit) : Handler P S Unit := if c then x else return ()

/-- A question to the index. -/
def askIndex {α : Type} (f : BlockIndex → Option α) : Handler P S α := do
  lookup (f (← get).blockIndex)

/-- A call of the index. -/
def onIndex {α : Type} (f : BlockIndex → Option (BlockIndex × α)) : Handler P S α := do
  let (blockIndex, a) ← lookup (f (← get).blockIndex)
  modify fun n => { n with blockIndex }
  return a

/-- The connection a method was given. -/
def conn (id : ℕ) : Handler P S (Connection P S) := do
  lookup ((← get).connections.find? fun c => c.id == id)

/-- A connection changed. -/
def withConn (n : DownloadNode P S) (id : ℕ) (f : Connection P S → Connection P S) :
    DownloadNode P S :=
  { n with connections := n.connections.map fun c => if c.id = id then f c else c }

/-- An assignment to a field of a connection. -/
def onConn (id : ℕ) (f : Connection P S → Connection P S) : Handler P S Unit :=
  modify fun n => n.withConn id f

/-- An assignment to a field of a connection's `block_availability`. -/
def onAvailability (id : ℕ) (f : BlockAvailability P → BlockAvailability P) : Handler P S Unit :=
  onConn id fun c => { c with blockAvailability := f c.blockAvailability }

/-- A call of `block_availability.py` on a connection's state. -/
def callAvailability {α : Type} (id : ℕ)
    (f : BlockIndex → BlockAvailability P → Option (BlockAvailability P × α)) :
    Handler P S α := do
  let c ← conn id
  let (a, result) ← askIndex fun s => f s c.blockAvailability
  onAvailability id fun _ => a
  return result

/-- `conn.send`. -/
def send (id : ℕ) (msg : Payload) : Handler P S Unit :=
  modify fun n => { n with sent := n.sent ++ [(id, msg)] }

/-- `conn.stop`. -/
def stop (id : ℕ) : Handler P S Unit := onConn id fun c => { c with status := .closed }

/-- The tip of the active chain. -/
def activeTip : Handler P S Hash := askIndex fun s => s.activeChain.getLast?

/-- `update_block_availability`. -/
def updateBlockAvailability (id : ℕ) (h : Hash) : Handler P S Unit :=
  callAvailability id fun s a => (a.update s h).map (·, ())

/-- `remove_block_request` over the connections held. -/
def dropBlockRequest (h : Hash) (fromPeer : Option ℕ) : Handler P S Unit := do
  let now ← now
  modify fun n => { n with connections := removeBlockRequest n.connections h now fromPeer }

/-- `block_inventory_type`. -/
def blockInventoryType (c : Connection P S) : InventoryType :=
  if c.canServeWitnesses then .msgWitnessBlock else .msgBlock

/-! ## `DownloadManager` -/

/-- `_POW_TARGET_SPACING`. -/
def powTargetSpacing : ℚ := 10 * 60

/-- `_DIRECT_FETCH_SPACINGS`. -/
def directFetchSpacings : ℚ := 20

/-- `_BLOCK_STALLING_TIMEOUT_MAX`. -/
def blockStallingTimeoutMax : ℚ := 64

/-- `_BLOCK_DOWNLOAD_TIMEOUT_BASE`. -/
def blockDownloadTimeoutBase : ℚ := 1

/-- `_BLOCK_DOWNLOAD_TIMEOUT_PER_PEER`. -/
def blockDownloadTimeoutPerPeer : ℚ := 1 / 2

/-- A connection with some blocks queued, as `_request_blocks` queues them. -/
def queued (blocks : List Hash) (now : ℚ) (c : Connection P S) : Connection P S :=
  { c with
    downloadQueue := c.downloadQueue ++ blocks
    blockAvailability := { c.blockAvailability with
      downloadingSince :=
        if c.downloadQueue = [] then now else c.blockAvailability.downloadingSince } }

/-- `_request_blocks`. -/
def requestBlocks (id : ℕ) (blocks : List Hash) (now : ℚ) (compact : Bool) : Handler P S Unit := do
  onConn id (queued blocks now)
  let c ← conn id
  let fetchType := if compact then .msgCmpctBlock else blockInventoryType c
  send id (.getData (blocks.map (fetchType, ·)))

/-- `_stalling_or_timed_out`. -/
def stallingOrTimedOut (c : Connection P S) (now : ℚ) (downloadingFrom : ℕ) :
    Handler P S Bool := do
  let timeout := (← get).blockStallingTimeout
  let a := c.blockAvailability
  if a.stallingSince ≠ 0 ∧ a.stallingSince < now - timeout then do
    modify fun n => { n with blockStallingTimeout := min (2 * timeout) blockStallingTimeoutMax }
    return true
  else
    return decide (c.downloadQueue ≠ [] ∧
      a.downloadingSince + powTargetSpacing *
        (blockDownloadTimeoutBase + blockDownloadTimeoutPerPeer * (downloadingFrom - 1)) < now)

/-- Whether `block_download` asks `conn` for blocks. -/
def isAsked (n : DownloadNode P S) (c : Connection P S) (preferred : ℕ)
    (blocksInFlight : Bool) : Bool :=
  c.canServeBlocks
    && (c.isSyncPeer preferred blocksInFlight && !c.isLimitedPeer || !n.isInitialBlockDownload)
    && decide (c.downloadQueue.length < maxBlocksInTransitPerPeer)

/-- The peer waited on, where a connection is left with nothing in flight. -/
def markStalling (now : ℚ) (byId : List ℕ) (queue : List Hash) (staller : Option ℕ) :
    Handler P S Unit :=
  match staller with
  | none => return ()
  | some peer =>
    doWhen (queue.isEmpty && byId.contains peer) <|
      onAvailability peer fun b => { b with
        stallingSince := if b.stallingSince = 0 then now else b.stallingSince }

/-- The loop of `block_download`. -/
def blockDownloadFrom (now : ℚ) (preferred : ℕ) (byId : List ℕ) :
    List ℕ → ℕ → Std.ExtTreeMap Hash ℕ → Handler P S Unit
  | [], _, _ => return ()
  | id :: rest, downloadingFrom, inFlight => do
    let c ← conn id
    if ← stallingOrTimedOut c now downloadingFrom then do
      stop id
      blockDownloadFrom now preferred byId rest downloadingFrom inFlight
    else if !isAsked (← get) c preferred (!inFlight.isEmpty) then
      blockDownloadFrom now preferred byId rest downloadingFrom inFlight
    else do
      let (blocks, staller) ← callAvailability id fun s a =>
        a.findNextBlocksToDownload s (maxBlocksInTransitPerPeer - c.downloadQueue.length)
          rules.minimumChainWork rules.segwitHeight inFlight id c.isLimitedPeer c.canServeWitnesses
      if blocks ≠ [] then do
        requestBlocks id blocks now false
        blockDownloadFrom now preferred byId rest
          (if c.downloadQueue = [] then downloadingFrom + 1 else downloadingFrom)
          (blocks.foldl (fun m h => m.insert h id) inFlight)
      else do
        markStalling now byId c.downloadQueue staller
        blockDownloadFrom now preferred byId rest downloadingFrom inFlight

/-- `block_download`. -/
def blockDownload : Handler P S Unit := do
  let connections := (← get).connections.filter fun c => c.status = .connected
  let ids := connections.map Connection.id
  let now ← now
  blockDownloadFrom rules now (connections.countP Connection.isPreferredDownload) ids ids
    (connections.countP fun c => !c.downloadQueue.isEmpty) (firstInFlight connections)

/-- `on_the_active_chain`. -/
def onTheActiveChain (s : BlockIndex) (h : Hash) : Option Bool := do
  let info ← s.getBlockInfo h
  return s.activeChain[info.index]? == some h

/-- The walk back of `headers_direct_fetch`, of at most `fuel` turns: where it
stops, and what it has collected, the lowest block first. -/
def walkBack (s : BlockIndex) (segwitHeight : ℕ) (inFlight : List Hash)
    (canServeWitnesses : Bool) : ℕ → Hash → List Hash → Option (Hash × List Hash)
  | fuel, walk, toFetch => do
    if (← onTheActiveChain s walk) ∨ maxBlocksInTransitPerPeer < toFetch.length then
      return (walk, toFetch)
    else
      match fuel with
      | 0 => none
      | fuel + 1 =>
        let info ← s.getBlockInfo walk
        walkBack s segwitHeight inFlight canServeWitnesses fuel info.header.previousBlockHash
          (if !info.downloaded ∧ walk ∉ inFlight ∧ (canServeWitnesses ∨ info.index < segwitHeight)
            then walk :: toFetch else toFetch)

/-- What `headers_direct_fetch` makes of the blocks up to `last_header`: none
where a gate is shut or the walk is long. -/
def toDirectFetch (n : DownloadNode P S) (c : Connection P S) (lastHeader : Hash) (now : ℚ) :
    Option (List Hash) := do
  let s := n.blockIndex
  let tip ← s.activeChain.getLast?
  let tipInfo ← s.getBlockInfo tip
  if (tipInfo.header.time : ℚ) ≤ now - powTargetSpacing * directFetchSpacings then return []
  else
    let info ← s.getBlockInfo lastHeader
    if info.status = .invalid then return []
    else if (← s.chainwork[lastHeader]?) < (← s.chainwork[tip]?) then return []
    else
      let inFlight := n.connections.flatMap Connection.downloadQueue
      -- each turn goes one height down, and genesis is on the active chain
      let (walk, toFetch) ← walkBack s rules.segwitHeight inFlight c.canServeWitnesses
        (info.index + 1) lastHeader []
      if ← onTheActiveChain s walk then
        return toFetch.take (maxBlocksInTransitPerPeer - c.downloadQueue.length)
      else return []

/-- `headers_direct_fetch`. -/
def headersDirectFetch (id : ℕ) (lastHeader : Hash) : Handler P S Unit := do
  let now₁ ← now
  let c ← conn id
  let n ← get
  let blocks ← lookup (toDirectFetch rules n c lastHeader now₁)
  if blocks = [] then return ()
  else do
    let info ← askIndex fun s => s.getBlockInfo lastHeader
    let parent ← askIndex fun s => s.getBlockInfo info.header.previousBlockHash
    let compact := c.providesCmpctblocks && blocks.length == 1
      && (n.connections.flatMap Connection.downloadQueue).isEmpty
      && (parent.status == .valid || parent.status == .inActiveChain)
    requestBlocks id blocks (← now) compact

end DownloadNode

end BtclibNode
