/-
# The methods of the mempool

What adds transactions, holds one for a moment, changes a fee or removes what a block, a
replacement, the expiry or the limit takes.  `now` is what the clock says during a call, and a
loop over a Python set takes its members in order.
-/
import BtclibNode.Mempool.Mempool

namespace BtclibNode

/-- `int` of a time: toward zero. -/
def truncateTime (time : ℚ) : ℤ := time.num.tdiv time.den

/-- `RemovedTx`. -/
structure RemovedEntry where
  txid : Txid
  fee : ℤ
  vsize : ℕ
  height : ℕ
  weight : ℕ
  deriving DecidableEq

/-- A member of a package, as `add_package` takes it. -/
structure Member where
  tx : MempoolTx
  fee : ℤ
  vsize : ℕ
  weight : Option ℕ
  deriving DecidableEq

namespace Mempool

variable {γ : Type} (g : ClusterGraph γ)

/-! ## What is removed together -/

/-- `set().union(*(self._descendants(w) for w in ..))`. -/
def unionDescendants : List Txid → MempoolM γ (Std.ExtTreeSet Txid)
  | [] => pure ∅
  | wtxid :: wtxids => do
    let ws ← descendants wtxid
    let rest ← unionDescendants wtxids
    return ws.foldl (fun u w => u.insert w) rest

/-- `_replaced`. -/
def replaced (tx : MempoolTx) : MempoolM γ (Std.ExtTreeSet Txid) := do
  unionDescendants ((← get).directConflicts tx).toList

/-- The sort of `_remove_replaced`: the key of one that is not held is a `KeyError`. -/
def sortReplaced : List Txid → MempoolM γ (List (Txid × Bytes))
  | [] => pure []
  | wtxid :: wtxids => do
    let txid ← walked (← get).txids[wtxid]?
    return (wtxid, txid.internal) :: (← sortReplaced wtxids)

/-- `_remove_replaced`. -/
def removeReplaced (replaced : List Txid) : MempoolM γ Unit := do
  let keyed ← sortReplaced replaced
  popAll g ((sortOctets Prod.snd keyed).map Prod.fst)

/-! ## Expiry and eviction -/

/-- The entries older than `cutoff`. -/
def expired (s : Mempool γ) (cutoff : ℤ) : List Txid :=
  (s.entryTimes.toList.filter fun row => row.2 < (cutoff : ℚ)).map Prod.fst

/-- `min(self.entry_times.values(), default=math.inf)`. -/
def oldest (s : Mempool γ) : WithTop ℚ :=
  s.entryTimes.toList.foldl (fun t row => min t row.2) ⊤

/-- `expire`. -/
def expire (now : ℚ) : MempoolM γ ℕ := do
  let s ← get
  let cutoff := truncateTime now - s.expiry
  if ((cutoff : ℚ) : WithTop ℚ) ≤ s.oldestEntryTime then return 0
  let stage ← unionDescendants (s.expired cutoff)
  popAll g stage.toList
  modify fun s => { s with oldestEntryTime := s.oldest }
  return stage.size

/-- `_track_package_removed`. -/
def trackPackageRemoved (s : Mempool γ) (rate : ℤ) : Mempool γ :=
  if s.rollingMinFeeRate < rate then
    { s with rollingMinFeeRate := rate, blockSinceLastRollingFeeBump := false }
  else s

/-- The loop of `_evict_to_limit`, with a turn for each transaction held. -/
def evictLoop : ℕ → MempoolM γ Unit
  | 0 => pure ()
  | fuel + 1 => do
    let s ← get
    if s.bytesizeLimit < s.bytesize then
      let (chunk, graph) := g.worstChunk s.graph
      set { s with graph := graph }
      match chunk with
      | none => pure ()
      | some (refs, feerate) =>
        let vsize := Int.fdiv (feerate.size + 3) 4
        if vsize = 0 then throw .zeroDivision
        let removed := Int.fdiv (feerate.fee * 1000) vsize + s.incrementalRelayFeerate
        modify fun s => s.trackPackageRemoved removed
        popAll g refs.reverse
        evictLoop fuel

/-- `_evict_to_limit`, and `trim`. -/
def evictToLimit (now : ℚ) : MempoolM γ Unit := do
  let _ ← expire g now
  evictLoop g ((← get).transactions.size + 1)

/-! ## Adding -/

/-- `add_tx`. -/
def addTx (now : ℚ) (tx : MempoolTx) (fee : ℤ) (vsize weight : Option ℕ) (replaced : List Txid)
    (height : ℕ) (trim : Bool) (entryTime : Option ℚ) (bypassLimits : Bool) :
    MempoolM γ Bool := do
  if tx.id ∈ (← get).txidIndex then return false
  removeReplaced g replaced
  let s ← get
  -- a conflict left out of `replaced`
  if tx.vin.any fun vin => decide (vin ∈ s.outpointSpender) then return false
  insert g now tx fee vsize height weight true bypassLimits
  match entryTime with
  | none => pure ()
  | some time => modify fun s => s.setEntryTime tx.hash time
  modify fun s => { s with graph := g.doWork postChangeCost s.graph }
  if trim then evictToLimit g now
  return decide (tx.hash ∈ (← get).transactions)

/-- The loop of `add_package`. -/
def insertMembers (now : ℚ) (height : ℕ) : List Member → MempoolM γ Unit
  | [] => pure ()
  | m :: members => do
    insert g now m.tx m.fee (some m.vsize) height m.weight true false
    insertMembers now height members

/-- `add_package`. -/
def addPackage (now : ℚ) (members : List Member) (height : ℕ) (replaced : List Txid) :
    MempoolM γ (List Bool) := do
  removeReplaced g replaced
  insertMembers g now height members
  modify fun s => { s with graph := g.doWork postChangeCost s.graph }
  evictToLimit g now
  let s ← get
  return members.map fun m => decide (m.tx.hash ∈ s.transactions)

/-- The end of `staged`: `tx` goes, and what `s` had is put back. -/
def unstage (s : Mempool γ) (tx : MempoolTx) : MempoolM γ Unit := do
  let _ ← pop g tx.hash false
  let spenders := tx.vin.filterMap fun vin => s.outpointSpender[vin]?.map (vin, ·)
  modify fun t => { t with
    outpointSpender := spenders.foldl (fun m row => m.insert row.1 row.2) t.outpointSpender
    sequence := s.sequence
    transactionsUpdated := s.transactionsUpdated }

/-- `staged`, around `body`. -/
def staged {α : Type} (now : ℚ) (tx : MempoolTx) (fee : ℤ) (vsize : ℕ) (weight : Option ℕ)
    (body : MempoolM γ α) : MempoolM γ α := do
  let s ← get
  insert g now tx fee (some vsize) 0 weight false false
  try body finally unstage g s tx

/-- `update_transactions_from_block`'s dependencies, the last re-added first. -/
def reorgDependencies (s : Mempool γ) (wtxids : List Txid) : List (Txid × Txid) :=
  (wtxids.reverse.filter fun w => decide (w ∈ s.transactions)).flatMap fun w =>
    match s.txids[w]? with
    | none => []
    | some txid => (s.spenders txid).map (w, ·)

/-- `update_transactions_from_block`. -/
def updateTransactionsFromBlock (wtxids : List Txid) : MempoolM γ Unit := do
  let s ← get
  let (removed, graph) ← walked
    (g.trim (s.reorgDependencies wtxids) clusterLimit clusterWeightLimit s.graph)
  set { s with graph := graph }
  popAll g removed

/-! ## Fee deltas -/

/-- `clear_prioritisation`. -/
def clearPrioritisation (s : Mempool γ) (txid : Txid) : Mempool γ :=
  { s with deltas := s.deltas.erase txid }

/-- `prioritise`. -/
def prioritise (txid : Txid) (feeDelta : ℤ) : MempoolM γ Unit := do
  modify fun s =>
    let delta := saturate (s.delta txid + feeDelta)
    { s with deltas := if delta = 0 then s.deltas.erase txid else s.deltas.insert txid delta }
  let s ← get
  match s.txidIndex[txid]? with
  | none => pure ()
  | some wtxid =>
    let fee ← walked s.modifiedFees[wtxid]?
    let fee := saturate (fee + feeDelta)
    modify fun s => { s with modifiedFees := s.modifiedFees.insert wtxid fee }
    let graph ← walked (g.setFee wtxid fee s.graph)
    modify fun s => { s with graph := graph, transactionsUpdated := s.transactionsUpdated + 1 }

/-! ## Removing -/

/-- `remove_tx`. -/
def removeTx (tx : MempoolTx) : MempoolM γ Unit := do
  match (← get).txidIndex[tx.id]? with
  | none => pure ()
  | some wtxid =>
    let _ ← pop g wtxid true
    return

/-- The first loop of `remove_conflicts`. -/
def clearConflicts : List Txid → MempoolM γ Unit
  | [] => pure ()
  | wtxid :: wtxids => do
    let tx ← walked (← get).transactions[wtxid]?
    modify fun s => s.clearPrioritisation tx.id
    clearConflicts wtxids

/-- `remove_conflicts`. -/
def removeConflicts (tx : MempoolTx) : MempoolM γ Unit := do
  clearConflicts ((← get).directConflicts tx).toList
  let victims ← replaced tx
  popAll g victims.toList

/-- What `remove_for_block` does of one transaction of the block. -/
def removeMined (tx : MempoolTx) : MempoolM γ (Option RemovedEntry) := do
  let s ← get
  let removed ← match s.txidIndex[tx.id]? with
    | none => pure none
    | some wtxid => do
      let fee ← walked s.fees[wtxid]?
      let vsize ← walked s.vsizes[wtxid]?
      let height ← walked s.heights[wtxid]?
      let held ← walked s.transactions[wtxid]?
      let _ ← pop g wtxid false
      pure (some ⟨tx.id, fee, vsize, height, held.weight⟩)
  removeConflicts g tx
  modify fun s => s.clearPrioritisation tx.id
  return removed

/-- The loop of `remove_for_block`. -/
def removeAllMined : List MempoolTx → MempoolM γ (List RemovedEntry)
  | [] => pure []
  | tx :: txs => do
    let removed ← removeMined g tx
    let rest ← removeAllMined txs
    return removed.toList ++ rest

/-- `remove_for_block`. -/
def removeForBlock (transactions : List MempoolTx) : MempoolM γ (List RemovedEntry) := do
  let s ← get
  if s.size = 0 ∧ s.deltas.isEmpty then return []
  let removed ← removeAllMined g transactions
  modify fun s => { s with graph := g.doWork postChangeCost s.graph }
  return removed

/-- `remove_dependents`. -/
def removeDependents (tx : MempoolTx) : MempoolM γ Unit := do
  let s ← get
  let dependents ← walked (Closure.close s.spenders
    (fun w => s.transactions[w]?.map fun tx => [tx.id]) (s.walkFuel 1) ∅ [tx.id])
  popAll g dependents.toList

/-- `remove_with_descendants`. -/
def removeWithDescendants (wtxid : Txid) : MempoolM γ Unit := do
  if wtxid ∈ (← get).transactions then
    let victims ← descendants wtxid
    popAll g victims.toList

/-! ## The unbroadcast set -/

/-- `mark_broadcast_locally`. -/
def markBroadcastLocally (s : Mempool γ) (txid : Txid) : Mempool γ :=
  if txid ∈ s.txidIndex then { s with unbroadcast := s.unbroadcast.insert txid } else s

/-- `mark_broadcast`. -/
def markBroadcast (s : Mempool γ) (txid : Txid) : Mempool γ :=
  { s with unbroadcast := s.unbroadcast.erase txid }

/-- `note_block_connected`, without the time. -/
def noteBlockConnected (s : Mempool γ) : Mempool γ :=
  { s with blockSinceLastRollingFeeBump := true }

/-- `add_transactions_updated`. -/
def addTransactionsUpdated (s : Mempool γ) (count : ℕ) : Mempool γ :=
  { s with transactionsUpdated := s.transactionsUpdated + count }

end Mempool

end BtclibNode
