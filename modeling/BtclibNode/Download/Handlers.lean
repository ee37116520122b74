/-
# The `headers`, `block`, `cmpctblock` and `blocktxn` handlers

`p2p/callbacks.py`, with `main.new_pow_valid_block` and the checks of `chain_sync.py`
on headers.  A message is what its parse made of it.  A handler that raises leaves the node
as the statements before the raise left it.
-/
import Mathlib
import BtclibNode.Download.Requests

namespace BtclibNode.DownloadNode

variable {P S : Type} (rules : DownloadRules P S)

/-! ## Headers -/

/-- `MAX_HEADERS_RESULTS`. -/
def maxHeadersResults : ℕ := 2000

/-- `_HEADERS_RESPONSE_TIME`. -/
def headersResponseTime : ℚ := 2 * 60

/-- A header the index refuses, as a handler raises it. -/
def ofHeaderError : HeaderError → HandlerError
  | .misbehaving reason => .misbehaving reason
  | .btclibValue reason => .btclibValue reason
  | .lowWork => .btclibValue "too-little-chainwork"

/-- `BlockIndex.add_headers`, with what it raises as a value. -/
def tryHeaders (headers : List BlockHeader) (punishCachedInvalid minPowChecked : Bool) :
    Handler P S (Except HeaderError (Option Hash)) := do
  let now ← now
  onIndex fun s => s.addHeaders rules.chain headers punishCachedInvalid minPowChecked now.floor

/-- `BlockIndex.add_headers`. -/
def addHeaders (headers : List BlockHeader) (punishCachedInvalid : Bool) :
    Handler P S (Option Hash) := do
  match ← tryHeaders rules headers punishCachedInvalid true with
  | .error e => throw (ofHeaderError e)
  | .ok tip => return tip

/-- The heights `locator_entries` reads from `height` down, `have_` of them read. -/
def locatorHeights : ℕ → ℕ → ℕ → ℕ → List ℕ
  | 0, _, _, _ => []
  | fuel + 1, height, step, have_ =>
    if height = 0 then [0]
    else
      height :: locatorHeights fuel (height - step) (if 10 < have_ + 1 then step * 2 else step)
        (have_ + 1)

/-- `get_block_locator_hashes`, over the header index. -/
def getBlockLocatorHashes (s : BlockIndex) : Option (List Hash) :=
  (locatorHeights s.headerIndex.length (s.headerIndex.length - 1) 1 0).mapM fun height =>
    s.headerIndex[height]?

/-- `maybe_send_getheaders`. -/
def maybeSendGetheaders (id : ℕ) (locator : List Hash) : Handler P S Unit := do
  let now ← now
  let timestamps := (← get).lastGetheadersTimestamps
  if headersResponseTime < now - timestamps[id]?.getD 0 then do
    send id (.getHeaders locator)
    modify fun n => { n with lastGetheadersTimestamps := n.lastGetheadersTimestamps.insert id now }
  else return ()

/-- `timestamps.pop(conn.id, None)`. -/
def popTimestamp (id : ℕ) : Handler P S Unit :=
  modify fun n => { n with lastGetheadersTimestamps := n.lastGetheadersTimestamps.erase id }

/-- `_is_continuation_of_low_work_headers_sync`. -/
def isContinuationOfLowWorkHeadersSync (id : ℕ) (headers : List BlockHeader) :
    Handler P S (Bool × List BlockHeader) := do
  match (← conn id).headersSync with
  | none => return (false, headers)
  | some sync => do
    let (sync, result) :=
      rules.processNextHeaders sync headers (headers.length == maxHeadersResults)
    onConn id fun c => { c with headersSync := some sync }
    doWhen result.success (popTimestamp id)
    doWhen result.requestMore (maybeSendGetheaders id (rules.nextHeadersRequestLocator sync))
    doWhen (rules.isFinal sync) (onConn id fun c => { c with headersSync := none })
    if result.success then return (true, result.powValidatedHeaders) else return (false, headers)

/-- `_anti_dos_work_threshold`. -/
def antiDosWorkThreshold (s : BlockIndex) : Option ℕ := do
  let tip ← s.activeChain.getLast?
  let info ← s.getBlockInfo tip
  return rules.antiDosWorkThreshold (← s.chainwork[tip]?) info.header.bits rules.minimumChainWork

/-- `_try_low_work_headers_sync`. -/
def tryLowWorkHeadersSync (id : ℕ) (chainStart : Hash) (headers : List BlockHeader) :
    Handler P S Bool := do
  let work ← askIndex fun s => s.chainwork[chainStart]?
  let threshold ← askIndex (antiDosWorkThreshold rules)
  if threshold ≤ work + (headers.map rules.chain.calculateWork).sum then return false
  else if headers.length = maxHeadersResults then do
    let now ← now
    let s := (← get).blockIndex
    onConn id fun c => { c with headersSync := some (rules.newHeadersSync s chainStart threshold now) }
    let _ ← isContinuationOfLowWorkHeadersSync rules id headers
    return true
  else return true

/-- `disconnect_if_insufficient_work`; the exemption that `protect_if_caught_up`
gives otherwise is not block download's. -/
def disconnectIfInsufficientWork (id : ℕ) : Handler P S Unit := do
  let n ← get
  let c ← conn id
  match c.blockAvailability.bestKnown with
  | none => return ()
  | some best =>
    if !n.isInitialBlockDownload || !(c.automatic && !c.feeler) then return ()
    else do
      let work ← askIndex fun s => s.chainwork[best]?
      if rules.minimumChainWork ≤ work then return () else stop id

/-- `_ask_for_more_headers`. -/
def askForMoreHeaders (id batchSize : ℕ) (tip : Hash) (haveHeadersSync : Bool) :
    Handler P S Unit := do
  if batchSize = maxHeadersResults then
    if haveHeadersSync then return ()
    else do
      let best ← askIndex fun s => s.headerIndex.getLast?
      if tip ≠ best then maybeSendGetheaders id [tip]
      else maybeSendGetheaders id (← askIndex getBlockLocatorHashes)
  else
    modify fun n =>
      { n with status := if n.status = .syncingHeaders then .headerSynced else n.status }

/-- `conn.last_block_announcement`, where a new header has more work than the tip. -/
def announceIfBest (id : ℕ) (receivedNewHeader : Bool) (h : Hash) : Handler P S Unit := do
  let tip ← activeTip
  let work ← askIndex fun s => s.chainwork[h]?
  let tipWork ← askIndex fun s => s.chainwork[tip]?
  if receivedNewHeader ∧ tipWork < work then do
    let now ← now
    onConn id fun c => { c with lastBlockAnnouncement := now.floor }
  else return ()

/-- The end of `_process_headers`, for a batch that connects and has the work. -/
def indexHeaders (id count : ℕ) (headers : List BlockHeader) (last : Hash)
    (haveHeadersSync viaCompactBlock : Bool) : Handler P S Unit := do
  let receivedNewHeader := ((← get).blockIndex.getBlockInfo last).isNone
  let inbound := (← conn id).inbound
  let tip ← lookup (← addHeaders rules headers !(inbound || viaCompactBlock))
  announceIfBest id receivedNewHeader tip
  updateBlockAvailability id tip
  doWhen (count < maxHeadersResults) (disconnectIfInsufficientWork rules id)
  askForMoreHeaders id count tip haveHeadersSync
  headersDirectFetch rules id tip

/-- `_process_headers`. -/
def processHeaders (id : ℕ) (headers : List BlockHeader) (viaCompactBlock : Bool) :
    Handler P S Unit := do
  if headers = [] then do
    onConn id fun c => { c with headersSync := none }
    popTimestamp id
  else
    match rules.chain.checkHeadersPow headers with
    | .error e => throw (ofHeaderError e)
    | .ok _ => do
      let (alreadyValidated, kept) ← isContinuationOfLowWorkHeadersSync rules id headers
      match kept.head?, kept.getLast? with
      | some first, some last => do
        let haveHeadersSync := (← conn id).headersSync.isSome
        let s := (← get).blockIndex
        if (s.getBlockInfo first.previousBlockHash).isNone then do
          maybeSendGetheaders id (← askIndex getBlockLocatorHashes)
          updateBlockAvailability id last.hash
        else do
          popTimestamp id
          let onActive := (s.getBlockInfo last.hash).any fun info =>
            s.activeChain[info.index]? == some last.hash
          let noBan := (← conn id).noBan
          if alreadyValidated || decide (last.hash ∈ s.headerIndexPos) || onActive || noBan then
            indexHeaders rules id headers.length kept last.hash haveHeadersSync viaCompactBlock
          else if ← tryLowWorkHeadersSync rules id first.previousBlockHash kept then return ()
          else indexHeaders rules id headers.length kept last.hash haveHeadersSync viaCompactBlock
      | _, _ => return ()

/-- `headers`, of a message with no more than `MAX_HEADERS_RESULTS` headers. -/
def headers (id : ℕ) (headers : List BlockHeader) : Handler P S Unit := do
  if (← get).status = .reindexing then return () else processHeaders rules id headers false

/-! ## Blocks -/

/-- `_block_refusal`. -/
def blockRefusal (reason : String) (punish : Bool) : HandlerError :=
  if punish then .misbehaving reason else .btclibValue reason

/-- `_segwit_after_parent`. -/
def segwitAfterParent (s : BlockIndex) (header : BlockHeader) : Option Bool := do
  let parent ← s.getBlockInfo header.previousBlockHash
  return decide (rules.segwitHeight ≤ parent.index + 1)

/-- `_min_pow_checked`. -/
def minPowChecked (s : BlockIndex) (header : BlockHeader) : Option Bool :=
  if (s.getBlockInfo header.previousBlockHash).isNone then some false
  else do
    let work ← s.chainwork[header.previousBlockHash]?
    return decide ((← antiDosWorkThreshold rules s) ≤ work + rules.chain.calculateWork header)

/-- `_can_direct_fetch`, at `now`. -/
def canDirectFetch (s : BlockIndex) (now : ℚ) : Option Bool := do
  let info ← s.getBlockInfo (← s.activeChain.getLast?)
  return decide (now - rules.powTargetSpacing * directFetchSpacings < info.header.time)

/-- `_unrequested_block_refused`. -/
def unrequestedBlockRefused (s : BlockIndex) (h : Hash) : Option Bool := do
  let work ← s.chainwork[h]?
  let info ← s.getBlockInfo h
  let tipWork ← s.chainwork[← s.activeChain.getLast?]?
  return decide (work < tipWork ∨ s.activeChain.length - 1 + minBlocksToKeep < info.index
    ∨ work < rules.minimumChainWork)

/-- `_check_block`, of the body alone. -/
def checkBody (block : Block) (viaCompactBlock : Bool) : Handler P S Unit :=
  if rules.passesCheckBlock block then return ()
  else
    match rules.assertValidBlock block with
    | .error reason => throw (blockRefusal reason !viaCompactBlock)
    | .ok _ => return ()

/-- `_check_block`. -/
def checkBlock (block : Block) (id : ℕ) (viaCompactBlock : Bool) : Handler P S Unit := do
  checkBody rules block viaCompactBlock
  let s := (← get).blockIndex
  let inbound := (← conn id).inbound
  -- `is_cached_invalid`
  if (s.getBlockInfo block.header.hash).any (fun info => info.status == .invalid)
      && rules.passesCheckBlock block then
    throw (blockRefusal "duplicate-invalid" !(viaCompactBlock || inbound))
  else return ()

/-- `_refuse_before_indexing`. -/
def refuseBeforeIndexing (block : Block) (id : ℕ) : Handler P S Unit := do
  let s := (← get).blockIndex
  if (s.getBlockInfo block.header.previousBlockHash).any fun parent =>
      rules.isBlockMutated block (decide (rules.segwitHeight ≤ parent.index + 1)) then
    throw (.misbehaving "mutated block")
  else checkBlock rules block id false

/-- `is_block_failed`. -/
def isBlockFailed (block : Block) (checkWitnessRoot : Bool) : Bool :=
  !rules.isBlockMutated block checkWitnessRoot && rules.passesCheckBlock block
    && rules.overWeight block

/-- `_FAILED_CONTEXTUAL_REASONS`. -/
def failedContextualReasons : List String :=
  ["bad-txns-nonfinal", "bad-cb-height", "bad-blk-weight"]

/-- `BlockIndex.invalidate`. -/
def invalidate (h : Hash) : Handler P S Unit := onIndex fun s => (s.invalidate h).map (·, ())

/-- What `new_pow_valid_block` sends one connection. -/
def sendCompactTo (block : Block) (id : ℕ) : Handler P S Unit := do
  let c ← conn id
  if c.status ≠ .connected ∨ c.versionMessage.all (fun v => v.version < 70015) then return ()
  else do
    callAvailability id fun s a => (a.process s).map (·, ())
    let a := (← conn id).blockAvailability
    if !c.requestedHbCmpctblocks then return ()
    else if ← askIndex fun s => a.peerHasHeader s block.header.hash then return ()
    else if ← askIndex fun s => a.peerHasHeader s block.header.previousBlockHash then do
      send id (.cmpctBlock block)
      onAvailability id fun a => { a with bestHeaderSent := some block.header.hash }
    else return ()

/-- The loop of `new_pow_valid_block`. -/
def sendCompact (block : Block) : List ℕ → Handler P S Unit
  | [] => return ()
  | id :: rest => do
    sendCompactTo block id
    sendCompact block rest

/-- `new_pow_valid_block`. -/
def newPowValidBlock (block : Block) : Handler P S Unit := do
  let n ← get
  let tip ← activeTip
  if n.isInitialBlockDownload ∨ block.header.previousBlockHash ≠ tip then return ()
  else do
    let info ← askIndex fun s => s.getBlockInfo block.header.hash
    let now ← now
    match rules.contextualCheckBlock n.blockIndex block info.index now with
    | .error _ => return ()
    | .ok _ =>
      if info.index ≤ n.highestFastAnnounce then return ()
      else do
        modify fun n => { n with highestFastAnnounce := info.index }
        if info.index < rules.segwitHeight then return ()
        else sendCompact block (n.connections.map Connection.id)

/-- `_accept_block` on `assert_valid_block`. -/
def assertValid (block : Block) (viaCompactBlock : Bool) : Handler P S Unit := do
  match rules.assertValidBlock block with
  | .error reason => do
    let segwit ← askIndex fun s => segwitAfterParent rules s block.header
    doWhen (isBlockFailed rules block segwit) (invalidate block.header.hash)
    throw (blockRefusal reason !viaCompactBlock)
  | .ok _ => return ()

/-- `_accept_block` on `contextual_check_block`. -/
def assertContextual (block : Block) (height : ℕ) (viaCompactBlock : Bool) :
    Handler P S Unit := do
  let now ← now
  match rules.contextualCheckBlock (← get).blockIndex block height now with
  | .error reason =>
    -- `mark_contextual_failure`
    if reason ∈ failedContextualReasons then do
      invalidate block.header.hash
      throw (blockRefusal reason !viaCompactBlock)
    else return ()
  | .ok _ => return ()

/-- The end of `_accept_block`, of a block on disk. -/
def holdBlock (block : Block) : Handler P S Unit := do
  onIndex fun s => (s.setDownloaded block.header.hash true).map (·, ())
  newPowValidBlock rules block
  dropBlockRequest block.header.hash none

/-- The rest of `_accept_block`, of a block that passed. -/
def storeBlock (block : Block) (id : ℕ) (viaCompactBlock : Bool) : Handler P S Unit := do
  let h := block.header.hash
  doWhen (rules.addBlockFails h) (throw .storage)
  modify fun n => { n with
    blockDb := n.blockDb.insert h block
    blockSource := if h ∈ n.blockSource then n.blockSource
      else n.blockSource.insert h (id, !viaCompactBlock) }
  let now ← now
  onConn id fun c => { c with lastNovelBlockTime := now.floor }
  holdBlock rules block

/-- `_accept_block`. -/
def acceptBlock (block : Block) (id : ℕ) (requested viaCompactBlock : Bool) :
    Handler P S Unit := do
  let h := block.header.hash
  let info ← askIndex fun s => s.getBlockInfo h
  let refused ← askIndex fun s =>
    if requested then some false else unrequestedBlockRefused rules s h
  if info.downloaded || refused then
    modify fun n => { n with blockSource := n.blockSource.erase h }
  else do
    assertValid rules block viaCompactBlock
    assertContextual rules block info.index viaCompactBlock
    storeBlock rules block id viaCompactBlock

/-- What `block` does with a header not indexed: whether it is now. -/
def indexBlockHeader (header : BlockHeader) : Handler P S Bool := do
  if ((← get).blockIndex.getBlockInfo header.hash).isSome then return true
  else do
    let checked ← askIndex fun s => minPowChecked rules s header
    match ← tryHeaders rules [header] true checked with
    | .error .lowWork => return false
    | .error e => throw (ofHeaderError e)
    | .ok none => throw (.misbehaving "prev block not found")
    | .ok (some _) => return true

/-- `block`. -/
def block (id : ℕ) (block : Block) : Handler P S Unit := do
  let n ← get
  if n.status = .reindexing then return ()
  else do
    let h := block.header.hash
    let requested := n.connections.any fun c => decide (h ∈ c.downloadQueue)
    dropBlockRequest h (some id)
    refuseBeforeIndexing rules block id
    if ← indexBlockHeader rules block.header then acceptBlock rules block id requested false
    else return ()

/-! ## Compact blocks -/

/-- `_ask_full_block`. -/
def askFullBlock (id : ℕ) (h : Hash) : Handler P S Unit := do
  send id (.getData [(blockInventoryType (← conn id), h)])

/-- An assignment to `partial_blocks[h]`. -/
def setPartial (id : ℕ) (h : Hash) (p : Option P) : Handler P S Unit :=
  onAvailability id fun a => { a with partialBlocks := a.partialBlocks.insert h p }

/-- What `_reconstruct` refuses with a `MisbehavingError`. -/
def isInvalidCompact (compact : CmpctBlock) : Bool :=
  compact.shortIds.length + compact.prefilledTxns.length == 0
    || compact.prefilledTxns.zipIdx.any fun x =>
      x.1.2.vin.isEmpty && x.1.2.vout.isEmpty || decide (compact.shortIds.length + x.2 < x.1.1)

/-- `_prefilled_only`. -/
def prefilledOnly (compact : CmpctBlock) : P :=
  rules.partialBlock compact.header
    (compact.prefilledTxns.foldl (fun txs x => txs.set x.1 (some x.2))
      (List.replicate (compact.shortIds.length + compact.prefilledTxns.length) none))

/-- `_index_compact_header`. -/
def indexCompactHeader (id : ℕ) (header : BlockHeader) : Handler P S Bool := do
  let n ← get
  if (n.blockIndex.getBlockInfo header.previousBlockHash).isNone then do
    doWhen (!n.isInitialBlockDownload) do
      maybeSendGetheaders id (← askIndex getBlockLocatorHashes)
    return false
  else if !(← askIndex fun s => minPowChecked rules s header) then return false
  else do
    let receivedNewHeader := (n.blockIndex.getBlockInfo header.hash).isNone
    let _ ← addHeaders rules [header] false
    updateBlockAvailability id header.hash
    announceIfBest id receivedNewHeader header.hash
    let info ← askIndex fun s => s.getBlockInfo header.hash
    return !info.downloaded

/-- `_process_compact_block_txns`. -/
def processCompactBlockTxns (id : ℕ) (h : Hash) (transactions : List Tx) : Handler P S Unit := do
  let n ← get
  let holders := inFlightFrom n.connections h
  let first := holders.head?.all fun c => c.id == id
  let c ← conn id
  if h ∉ c.downloadQueue then return ()
  else
    match c.blockAvailability.partialBlocks[h]? with
    | none => return ()
    | some none => do
      dropBlockRequest h (some id)
      throw (.misbehaving "previous compact block reconstruction attempt failed")
    | some (some p) =>
      match rules.fill p transactions with
      | none => do
        dropBlockRequest h (some id)
        throw (.misbehaving "invalid compact block/non-matching block transactions")
      | some block => do
        setPartial id h none
        let segwit ← askIndex fun s => segwitAfterParent rules s block.header
        if rules.isBlockMutated block segwit then
          if first then askFullBlock id h else dropBlockRequest h (some id)
        else do
          dropBlockRequest h (some id)
          checkBlock rules block id true
          acceptBlock rules block id true true

/-- The stalling clock, started by the first request of an empty queue. -/
def startDownloading (id : ℕ) : Handler P S Unit := do
  doWhen (← conn id).downloadQueue.isEmpty do
    let now ← now
    onAvailability id fun a => { a with downloadingSince := now }

/-- `next(self._request_orders)`, kept in `request_order`. -/
def numberRequest (id : ℕ) (h : Hash) : Handler P S Unit := do
  let order := (← get).requestOrders
  modify fun n => { n with requestOrders := n.requestOrders + 1 }
  onAvailability id fun a => { a with requestOrder := a.requestOrder.insert h order }

/-- Core's `BlockRequested`, of the block of a `cmpctblock`. -/
def queueBlock (id : ℕ) (h : Hash) : Handler P S Unit := do
  startDownloading id
  onConn id fun c => { c with downloadQueue := c.downloadQueue ++ [h] }
  numberRequest id h

/-- `_queue_compact_block` once the block is queued. -/
def rebuildQueued (id : ℕ) (compact : CmpctBlock) (holders : List (Connection P S)) :
    Handler P S Unit := do
  let h := compact.header.hash
  let first := holders.head?.all fun c => c.id == id
  if isInvalidCompact compact then do
    dropBlockRequest h (some id)
    throw (.misbehaving "invalid compact block")
  else
    match rules.reconstruct compact (← get).pool with
    | none =>
      if first then do
        setPartial id h (some (prefilledOnly rules compact))
        askFullBlock id h
      else dropBlockRequest h (some id)
    | some p => do
      setPartial id h (some p)
      let missing := rules.missingIndexes p
      let c ← conn id
      if missing = [] then processCompactBlockTxns rules id h []
      else if first ∨ (c.bip152HighbandwidthTo ∧ (!c.inbound ∨ holders.any (fun c => !c.inbound)
          ∨ holders.length < maxCmpctblocksInflightPerBlock - 1)) then
        send id (.getBlockTxn h missing)
      else dropBlockRequest h (some id)

/-- `_queue_compact_block`. -/
def queueCompactBlock (id : ℕ) (compact : CmpctBlock) (holders : List (Connection P S)) :
    Handler P S Unit := do
  let h := compact.header.hash
  let c ← conn id
  if h ∈ c.downloadQueue then
    if h ∈ c.blockAvailability.partialBlocks then return ()
    else rebuildQueued rules id compact holders
  else do
    queueBlock id h
    rebuildQueued rules id compact holders

/-- `_reconstruct_optimistically`. -/
def reconstructOptimistically (id : ℕ) (compact : CmpctBlock) : Handler P S Unit := do
  if isInvalidCompact compact then return ()
  else
    match rules.reconstruct compact (← get).pool with
    | none => return ()
    | some p =>
      if rules.missingIndexes p ≠ [] then return ()
      else
        match rules.fill p [] with
        | none => throw (.btclibValue "non-matching block transactions")
        | some block => do
          let segwit ← askIndex fun s => segwitAfterParent rules s block.header
          if rules.isBlockMutated block segwit then return ()
          else do
            checkBlock rules block id true
            acceptBlock rules block id true true

/-- `cmpctblock` for a block wanted, with more work than the tip. -/
def takeCompact (id : ℕ) (compact : CmpctBlock) (holders : List (Connection P S))
    (requested : Bool) : Handler P S Unit := do
  let h := compact.header.hash
  let info ← askIndex fun s => s.getBlockInfo h
  let c ← conn id
  if (← get).blockIndex.activeChain.length + 1 < info.index then
    if requested then askFullBlock id h
    else processHeaders rules id [compact.header] true
  else if requested ∨ holders.length < maxCmpctblocksInflightPerBlock
      ∧ c.downloadQueue.length < maxBlocksInTransitPerPeer then
    queueCompactBlock rules id compact holders
  else reconstructOptimistically rules id compact

/-- `holders or _can_direct_fetch(node)`. -/
def mayFetch (holders : List (Connection P S)) : Handler P S Bool :=
  if holders.isEmpty then do
    let now ← now
    askIndex fun s => canDirectFetch rules s now
  else return true

/-- `cmpctblock`. -/
def cmpctblock (id : ℕ) (compact : CmpctBlock) : Handler P S Unit := do
  if (← get).status = .reindexing ∨ !(← conn id).providesCmpctblocks then return ()
  else if !(← indexCompactHeader rules id compact.header) then return ()
  else do
    let h := compact.header.hash
    let holders := inFlightFrom (← get).connections h
    let c ← conn id
    let requested := decide (h ∈ c.downloadQueue)
    if !requested && !c.bip152HighbandwidthTo then return ()
    else do
      let tip ← activeTip
      let work ← askIndex fun s => s.chainwork[h]?
      let tipWork ← askIndex fun s => s.chainwork[tip]?
      if work ≤ tipWork then
        if requested then askFullBlock id h else return ()
      else do
        if ← mayFetch rules holders then takeCompact rules id compact holders requested
        else return ()

/-- `blocktxn`. -/
def blocktxn (id : ℕ) (blockHash : Hash) (transactions : List Tx) : Handler P S Unit := do
  if (← get).status = .reindexing then return ()
  else processCompactBlockTxns rules id blockHash transactions

end BtclibNode.DownloadNode
