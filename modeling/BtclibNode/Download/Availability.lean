/-
# What one peer has of the block chain, and is asked for

`p2p/block_availability.py`, with the fields of `Connection` that block download
reads.  Core's `mapBlocksInFlight` is every connection's `download_queue`.  A
missing key or a failed assertion answers `none`.
-/
import BtclibNode.Chainstate.CommonAncestor
import Mathlib.Data.Rat.Defs
import Mathlib.Algebra.Order.Ring.Unbundled.Rat

namespace BtclibNode

/-! ## The connection -/

/-- `BlockAvailability`; `P` is btclib's `PartialBlock`.  A partial block is `none`
once its `blocktxn` was used. -/
structure BlockAvailability (P : Type) where
  bestKnown : Option Hash
  lastUnknown : Option Hash
  lastCommon : Option Hash
  bestHeaderSent : Option Hash
  stallingSince : ℚ
  downloadingSince : ℚ
  partialBlocks : Std.ExtTreeMap Hash (Option P)
  requestOrder : Std.ExtTreeMap Hash ℕ

/-- `P2pConnStatus`. -/
inductive P2pConnStatus where
  | opened
  | connected
  | closed
  deriving DecidableEq, Repr

/-- The `version` message of a peer. -/
structure VersionMessage where
  version : ℕ
  network : Bool
  networkLimited : Bool
  witness : Bool
  deriving DecidableEq, Repr

/-- `Connection`; `S` is btclib's `HeadersSyncState`. -/
structure Connection (P S : Type) where
  id : ℕ
  status : P2pConnStatus
  versionMessage : Option VersionMessage
  inbound : Bool
  automatic : Bool
  feeler : Bool
  addrFetch : Bool
  noBan : Bool
  providesCmpctblocks : Bool
  requestedHbCmpctblocks : Bool
  bip152HighbandwidthTo : Bool
  headersSync : Option S
  downloadQueue : List Hash
  blockAvailability : BlockAvailability P
  lastBlockAnnouncement : ℤ
  lastNovelBlockTime : ℤ

/-- `MAX_BLOCKS_IN_TRANSIT_PER_PEER`. -/
def maxBlocksInTransitPerPeer : ℕ := 16

/-- `MAX_CMPCTBLOCKS_INFLIGHT_PER_BLOCK`. -/
def maxCmpctblocksInflightPerBlock : ℕ := 3

/-- `BLOCK_DOWNLOAD_WINDOW`. -/
def blockDownloadWindow : ℕ := 1024

/-- `MIN_BLOCKS_TO_KEEP`. -/
def minBlocksToKeep : ℕ := 288

/-- `_FETCH_CHUNK`. -/
def fetchChunk : ℕ := 128

namespace Connection

variable {P S : Type}

/-- `_can_serve_blocks`. -/
def canServeBlocks (c : Connection P S) : Bool :=
  c.versionMessage.elim true fun v => v.network || v.networkLimited

/-- `_is_limited_peer`. -/
def isLimitedPeer (c : Connection P S) : Bool :=
  c.versionMessage.elim false fun v => v.networkLimited && !v.network

/-- `_can_serve_witnesses`. -/
def canServeWitnesses (c : Connection P S) : Bool :=
  c.versionMessage.elim false VersionMessage.witness

/-- `_is_preferred_download`. -/
def isPreferredDownload (c : Connection P S) : Bool :=
  (!c.inbound || c.noBan) && !c.addrFetch && c.canServeBlocks

/-- `_is_sync_peer`. -/
def isSyncPeer (c : Connection P S) (preferred : ℕ) (blocksInFlight : Bool) : Bool :=
  c.isPreferredDownload || !c.addrFetch && (preferred == 0 || !blocksInFlight)

/-- `_request_order`. -/
def requestOrder (c : Connection P S) (h : Hash) : ℕ :=
  c.blockAvailability.requestOrder[h]?.getD 0

/-- What `remove_block_request` does to a connection it looks at. -/
def forget (c : Connection P S) (h : Hash) (now : ℚ) : Connection P S :=
  if h ∉ c.downloadQueue then c
  else
    { c with
      downloadQueue := c.downloadQueue.erase h
      blockAvailability := { c.blockAvailability with
        downloadingSince :=
          if c.downloadQueue.head? = some h then max c.blockAvailability.downloadingSince now
          else c.blockAvailability.downloadingSince
        partialBlocks := c.blockAvailability.partialBlocks.erase h
        requestOrder := c.blockAvailability.requestOrder.erase h
        stallingSince := 0 } }

end Connection

section Requests

variable {P S : Type}

/-- `remove_block_request`. -/
def removeBlockRequest (connections : List (Connection P S)) (h : Hash) (now : ℚ)
    (fromPeer : Option ℕ) : List (Connection P S) :=
  connections.map fun c => if fromPeer.all (· == c.id) then c.forget h now else c

/-- `in_flight_from`. -/
def inFlightFrom (connections : List (Connection P S)) (h : Hash) : List (Connection P S) :=
  (connections.filter fun c => decide (h ∈ c.downloadQueue)).insertionSort
    fun a b => a.requestOrder h ≤ b.requestOrder h

/-- The inner loop of `first_in_flight`. -/
def firstInFlightOf (c : Connection P S) (first : Std.ExtTreeMap Hash (Connection P S)) :
    Std.ExtTreeMap Hash (Connection P S) :=
  c.downloadQueue.foldl (fun first h =>
    match first[h]? with
    | none => first.insert h c
    | some held => if c.requestOrder h < held.requestOrder h then first.insert h c else first) first

/-- `first_in_flight`. -/
def firstInFlight (connections : List (Connection P S)) : Std.ExtTreeMap Hash ℕ :=
  (connections.foldl (fun first c => firstInFlightOf c first) ∅).map fun _ c => c.id

end Requests

/-! ## What the peer has -/

namespace BlockAvailability

variable {P : Type}

/-- The better of `best_known` and an indexed block. -/
def betterKnown (s : BlockIndex) (bestKnown : Option Hash) (h : Hash) : Option Hash :=
  match bestKnown with
  | none => some h
  | some best => do
    if (← s.chainwork[best]?) ≤ (← s.chainwork[h]?) then return h else return best

/-- `process_block_availability`. -/
def process (s : BlockIndex) (a : BlockAvailability P) : Option (BlockAvailability P) :=
  match a.lastUnknown with
  | none => some a
  | some h =>
    if (s.getBlockInfo h).isNone then some a
    else do return { a with bestKnown := some (← betterKnown s a.bestKnown h), lastUnknown := none }

/-- `update_block_availability`. -/
def update (s : BlockIndex) (a : BlockAvailability P) (h : Hash) :
    Option (BlockAvailability P) := do
  let a ← process s a
  if (s.getBlockInfo h).isNone then return { a with lastUnknown := some h }
  else return { a with bestKnown := some (← betterKnown s a.bestKnown h) }

/-- Whether `h` is on the chain of a block the peer is known to have. -/
def knownAncestor (s : BlockIndex) (known : Option Hash) (height : ℕ) (h : Hash) : Option Bool :=
  match known with
  | none => some false
  | some k => do return (← s.getAncestor k height) == some h

/-- `peer_has_header`. -/
def peerHasHeader (s : BlockIndex) (a : BlockAvailability P) (h : Hash) : Option Bool := do
  let info ← s.getBlockInfo h
  if ← knownAncestor s a.bestKnown info.index h then return true
  else knownAncestor s a.bestHeaderSent info.index h

/-! ## The walk -/

/-- The `last_common` of `_walk_start`. -/
def resetLastCommon (s : BlockIndex) (best forkPoint : Hash) : Option Hash → Option Hash
  | none => some forkPoint
  | some lastCommon => do
    if (← s.chainwork[lastCommon]?) < (← s.chainwork[forkPoint]?) then return forkPoint
    else
      let info ← s.getBlockInfo lastCommon
      if (← s.getAncestor best info.index) = some lastCommon then return lastCommon
      else return forkPoint

/-- `_walk_start`, past `process_block_availability`: the new `last_common`, and
`best_known` where a walk is due. -/
def walkStart (s : BlockIndex) (a : BlockAvailability P) (minimumChainWork : ℕ) :
    Option (BlockAvailability P × Option Hash) :=
  match a.bestKnown with
  | none => some (a, none)
  | some best => do
    let tip ← s.activeChain.getLast?
    let work ← s.chainwork[best]?
    if work < (← s.chainwork[tip]?) ∨ work < minimumChainWork then return (a, none)
    else
      let forkPoint ← s.lastCommonAncestor best tip
      let lastCommon ← resetLastCommon s best forkPoint a.lastCommon
      return ({ a with lastCommon := some lastCommon }, if lastCommon = best then none else some best)

/-- What the walk asks of each block: the arguments of
`find_next_blocks_to_download` and the heights it reads first. -/
structure WalkArgs where
  count : ℕ
  segwitHeight : ℕ
  inFlight : Std.ExtTreeMap Hash ℕ
  peerId : ℕ
  limited : Bool
  canServeWitnesses : Bool
  bestHeight : ℕ
  windowEnd : ℕ

/-- The walk between two blocks; `ended` holds the staller once it is over. -/
structure Walk where
  lastCommon : Hash
  blocks : List Hash
  waitingFor : Option ℕ
  allHeld : Bool
  ended : Option (Option ℕ)

/-- A turn of the loop of `find_next_blocks_to_download`. -/
def visit (s : BlockIndex) (args : WalkArgs) (w : Walk) (h : Hash) : Option Walk := do
  let info ← s.getBlockInfo h
  if info.status = .invalid ∨ (!args.canServeWitnesses) ∧ args.segwitHeight ≤ info.index then
    return { w with ended := some none }
  else if info.downloaded then
    return { w with lastCommon := if w.allHeld then h else w.lastCommon }
  else
    match args.inFlight[h]? with
    | some peer => return { w with allHeld := false, waitingFor := w.waitingFor.or (some peer) }
    | none =>
      if args.windowEnd < info.index then
        let stalled := w.blocks = [] ∧ w.waitingFor ≠ some args.peerId
        return { w with allHeld := false, ended := some (if stalled then w.waitingFor else none) }
      else if args.limited ∧ minBlocksToKeep - 2 ≤ args.bestHeight - info.index then
        return { w with allHeld := false }
      else
        let blocks := w.blocks ++ [h]
        return { w with
          allHeld := false
          blocks
          ended := if blocks.length = args.count then some none else none }

/-- The loop over some of the blocks. -/
def visitAll (s : BlockIndex) (args : WalkArgs) : List Hash → Walk → Option Walk
  | [], w => some w
  | h :: rest, w => do
    let w ← visit s args w h
    if w.ended.isSome then return w else visitAll s args rest w

/-- The rest of a chunk of `_successors`, `size` blocks down from its lowest so
far; the lowest comes first. -/
def chunkFrom (s : BlockIndex) : ℕ → Hash → List Hash → Option (List Hash)
  | 0, _, chunk => some chunk
  | size + 1, h, chunk => do
    let info ← s.getBlockInfo h
    chunkFrom s size info.header.previousBlockHash (info.header.previousBlockHash :: chunk)

/-- The loop over the chunks of `_successors` above `height` up to `stop`, of at
most `fuel` turns. -/
def visitChunks (s : BlockIndex) (args : WalkArgs) (best : Hash) (stop : ℕ) :
    ℕ → ℕ → Walk → Option Walk
  | 0, _, w => some w
  | fuel + 1, height, w =>
    if stop ≤ height then some w
    else do
      let size := min (stop - height) (max (args.count - w.blocks.length) fetchChunk)
      let top ← (← s.getAncestor best (height + size))
      let chunk ← chunkFrom s (size - 1) top [top]
      let w ← visitAll s args chunk w
      if w.ended.isSome then return w
      else visitChunks s args best stop fuel (height + size) w

/-- The loop of `find_next_blocks_to_download` over `_successors`. -/
def visitSuccessors (s : BlockIndex) (args : WalkArgs) (best : Hash) (start stop : ℕ) (w : Walk) :
    Option Walk :=
  if best ∈ s.headerIndexPos then
    visitAll s args ((s.headerIndex.take (stop + 1)).drop (start + 1)) w
  else visitChunks s args best stop (stop - start) start w

/-- `find_next_blocks_to_download`: the state it leaves, the blocks to ask for and
the peer that stalls. -/
def findNextBlocksToDownload (s : BlockIndex) (a : BlockAvailability P)
    (count minimumChainWork segwitHeight : ℕ) (inFlight : Std.ExtTreeMap Hash ℕ) (peerId : ℕ)
    (limited canServeWitnesses : Bool) :
    Option (BlockAvailability P × List Hash × Option ℕ) := do
  if count = 0 then return (a, [], none)
  else
    match ← walkStart s (← process s a) minimumChainWork with
    | (a, none) => return (a, [], none)
    | (a, some best) =>
      let lastCommon ← a.lastCommon
      let start := (← s.getBlockInfo lastCommon).index
      let bestHeight := (← s.getBlockInfo best).index
      let windowEnd := start + blockDownloadWindow
      let args : WalkArgs :=
        { count, segwitHeight, inFlight, peerId, limited, canServeWitnesses, bestHeight, windowEnd }
      let w ← visitSuccessors s args best start (min bestHeight (windowEnd + 1))
        { lastCommon, blocks := [], waitingFor := none, allHeld := true, ended := none }
      return ({ a with lastCommon := some w.lastCommon }, w.blocks, w.ended.getD none)

end BlockAvailability

end BtclibNode
