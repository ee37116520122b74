/-
# The mempool

`Mempool` of `mempool.py`: the held transactions and every index kept beside them, `_insert` and
`_pop`, and the walks over what spends what.  The cluster graph is a parameter, by the methods
that are called of it.
-/
import BtclibNode.Cluster.Diagram
import BtclibNode.Lib.Closure
import BtclibNode.Lib.StateExcept
import BtclibNode.Mempool.Persist
import Mathlib.Algebra.Order.Ring.Rat
import Mathlib.Order.WithBot

namespace BtclibNode

/-! ## Transactions -/

/-- The outpoint an input spends. -/
structure PrevOut where
  txId : Txid
  vout : ℕ
  deriving DecidableEq

namespace PrevOut

instance : Ord PrevOut := ⟨compareLex (compareOn txId) (compareOn vout)⟩

instance : Std.TransOrd PrevOut :=
  inferInstanceAs (Std.TransCmp (compareLex (compareOn txId) (compareOn vout)))

instance : Std.LawfulEqOrd PrevOut where
  eq_of_compare {a b} h := by
    change compareLex (compareOn txId) (compareOn vout) a b = .eq at h
    rw [compareLex_eq_eq] at h
    obtain ⟨hid, hvout⟩ := h
    have hid' : a.txId = b.txId := Std.LawfulEqOrd.eq_of_compare hid
    have hvout' : a.vout = b.vout := Std.LawfulEqOrd.eq_of_compare hvout
    cases a
    cases b
    simp_all

end PrevOut

/-- btclib's `Tx`, as the mempool reads it: `hash` is its wtxid, `id` its txid and `outputs` the
length of its `vout`. -/
structure MempoolTx where
  hash : Txid
  id : Txid
  version : ℕ
  vin : List PrevOut
  weight : ℕ
  outputs : ℕ
  deriving DecidableEq

/-- btclib's `Tx.vsize`. -/
def MempoolTx.vsize (tx : MempoolTx) : ℕ := (tx.weight + 3) / 4

/-- `_weight`. -/
def weightOf (tx : MempoolTx) (vsize : Option ℕ) : ℕ :=
  match vsize with
  | none => tx.weight
  | some vsize => if vsize = (tx.weight + 3) / 4 then tx.weight else 4 * vsize

/-- `_saturate`, at `_INT64_MIN` and `_INT64_MAX`. -/
def saturate (amount : ℤ) : ℤ := min (max amount (-2 ^ 63)) (2 ^ 63 - 1)

/-- `_CLUSTER_LIMIT`. -/
def clusterLimit : ℕ := 64

/-- `_CLUSTER_WEIGHT_LIMIT`. -/
def clusterWeightLimit : ℕ := 101 * 1000 * 4

/-- `POST_CHANGE_COST`. -/
def postChangeCost : ℕ := 5 * 75_000

/-! ## The state -/

/-- The methods of `TxGraph` that are called, with `feerate?` for what it holds of a transaction,
`depends` for what it has a transaction (the second) built on, and `sound` for the states its
methods leave.  A method that raises `KeyError` has no result, and the generator of random numbers
is part of `γ`. -/
structure ClusterGraph (γ : Type) where
  sound : γ → Prop
  empty : γ
  feerate? : γ → Txid → Option FeeFrac
  depends : γ → Txid → Txid → Prop
  linked : γ → Txid → Txid → Bool
  addTransaction : Txid → FeeFrac → Bytes → γ → γ
  addDependency : Txid → Txid → γ → Option γ
  removeTransaction : Txid → γ → Option γ
  setFee : Txid → ℤ → γ → Option γ
  doWork : ℕ → γ → γ
  worstChunk : γ → Option (List Txid × FeeFrac) × γ
  trim : List (Txid × Txid) → ℕ → ℕ → γ → Option (List Txid × γ)
  countDistinctClusters : List Txid → γ → Option ℕ
  stagedDiagrams : List Txid → List (Txid × FeeFrac × Bytes × List Txid) → ℕ → ℕ → γ →
    Option (List FeeFrac × List FeeFrac) × γ

/-- What a method of the mempool, or a check of a candidate for it, raises. -/
inductive MempoolError
  | keyError
  | missingPrevout
  | zeroDivision
  | txRejected (reason details : String)
  deriving DecidableEq, Repr

/-- `Mempool`.  A time is a rational, `_oldest_entry_time` of no entry being `⊤`, and
`removalListener` has the calls made of it, the last one first. -/
structure Mempool (γ : Type) where
  transactions : Std.ExtTreeMap Txid MempoolTx
  txidIndex : Std.ExtTreeMap Txid Txid
  txids : Std.ExtTreeMap Txid Txid
  fees : Std.ExtTreeMap Txid ℤ
  modifiedFees : Std.ExtTreeMap Txid ℤ
  vsizes : Std.ExtTreeMap Txid ℕ
  weights : Std.ExtTreeMap Txid ℕ
  graph : γ
  entryTimes : Std.ExtTreeMap Txid ℚ
  oldestEntryTime : WithTop ℚ
  heights : Std.ExtTreeMap Txid ℕ
  entrySequences : Std.ExtTreeMap Txid ℕ
  unbroadcast : Std.ExtTreeSet Txid
  spentBy : Std.ExtTreeMap Txid (Std.ExtTreeSet Txid)
  outpointSpender : Std.ExtTreeMap PrevOut Txid
  deltas : Std.ExtTreeMap Txid ℤ
  size : ℤ
  bytesize : ℤ
  bytesizeLimit : ℤ
  sequence : ℕ
  transactionsUpdated : ℕ
  incrementalRelayFeerate : ℤ
  expiry : ℤ
  rollingMinFeeRate : ℚ
  blockSinceLastRollingFeeBump : Bool
  removalListener : List Txid

/-- A method of the mempool, which leaves what it did before it raised. -/
abbrev MempoolM (γ : Type) := EStateM MempoolError (Mempool γ)

namespace Mempool

variable {γ : Type} (g : ClusterGraph γ)

/-- `__init__`. -/
def init (incrementalRelayFeerate expiry : ℤ) : Mempool γ where
  transactions := ∅
  txidIndex := ∅
  txids := ∅
  fees := ∅
  modifiedFees := ∅
  vsizes := ∅
  weights := ∅
  graph := g.empty
  entryTimes := ∅
  oldestEntryTime := ⊤
  heights := ∅
  entrySequences := ∅
  unbroadcast := ∅
  spentBy := ∅
  outpointSpender := ∅
  deltas := ∅
  size := 0
  bytesize := 0
  bytesizeLimit := 300 * 1000 ^ 2
  sequence := 1
  transactionsUpdated := 0
  incrementalRelayFeerate := incrementalRelayFeerate
  expiry := expiry
  rollingMinFeeRate := 0
  blockSinceLastRollingFeeBump := false
  removalListener := []

/-! ## Reading -/

/-- `contains_tx`. -/
def containsTx (s : Mempool γ) (tx : MempoolTx) : Bool := tx.hash ∈ s.transactions

/-- `get_tx`. -/
def getTx (s : Mempool γ) (txid : Txid) (wtxid : Bool) : Option MempoolTx :=
  match if wtxid then some txid else s.txidIndex[txid]? with
  | none => none
  | some key => s.transactions[key]?

/-- `delta`. -/
def delta (s : Mempool γ) (txid : Txid) : ℤ := s.deltas[txid]?.getD 0

/-- `_parents`: in input order, each once. -/
def parents (s : Mempool γ) (tx : MempoolTx) : List Txid :=
  (tx.vin.filterMap fun vin => s.txidIndex[vin.txId]?).reverse.dedup.reverse

/-- `direct_conflicts`. -/
def directConflicts (s : Mempool γ) (tx : MempoolTx) : Std.ExtTreeSet Txid :=
  Std.ExtTreeSet.ofList (tx.vin.filterMap fun vin => s.outpointSpender[vin]?)

/-- The spenders of a txid, of none where it has no entry. -/
def spenders (s : Mempool γ) (txid : Txid) : List Txid :=
  match s.spentBy[txid]? with
  | none => []
  | some ws => ws.toList

/-- A number of turns no walk over the held transactions needs more of. -/
def walkFuel (s : Mempool γ) (n : ℕ) : ℕ :=
  s.transactions.size + (s.transactions.toList.map fun row => row.2.vin.length).sum + n

/-- The result of a walk, or its `KeyError`. -/
def walked {α : Type} : Option α → MempoolM γ α
  | some a => pure a
  | none => throw .keyError

/-- `_descendants`. -/
def descendants (wtxid : Txid) : MempoolM γ (Std.ExtTreeSet Txid) := do
  let s ← get
  let root ← walked s.txids[wtxid]?
  walked (Closure.close s.spenders (fun w => s.txids[w]?.map ([·])) (s.walkFuel 1)
    ((∅ : Std.ExtTreeSet Txid).insert wtxid) [root])

/-- `_ancestors`. -/
def ancestors (wtxid : Txid) : MempoolM γ (Std.ExtTreeSet Txid) := do
  let s ← get
  let tx ← walked s.transactions[wtxid]?
  walked (Closure.close (fun vin => s.txidIndex[vin.txId]?.toList)
    (fun w => s.transactions[w]?.map MempoolTx.vin) (s.walkFuel tx.vin.length)
    ((∅ : Std.ExtTreeSet Txid).insert wtxid) tx.vin.reverse)

/-! ## Inserting -/

/-- `set_entry_time`. -/
def setEntryTime (s : Mempool γ) (wtxid : Txid) (entryTime : ℚ) : Mempool γ :=
  { s with
    entryTimes := s.entryTimes.insert wtxid entryTime
    oldestEntryTime := min s.oldestEntryTime entryTime }

/-- `spent_by.setdefault(txid, set()).add(wtxid)`. -/
def addSpender (wtxid : Txid) (m : Std.ExtTreeMap Txid (Std.ExtTreeSet Txid)) (vin : PrevOut) :
    Std.ExtTreeMap Txid (Std.ExtTreeSet Txid) :=
  m.insert vin.txId ((m[vin.txId]?.getD ∅).insert wtxid)

/-- `_insert`, up to the graph.  `now` is what the clock says. -/
def entered (s : Mempool γ) (now : ℚ) (tx : MempoolTx) (fee : ℤ) (vsize : Option ℕ) (height : ℕ)
    (weight : Option ℕ) (bypassLimits : Bool) : Mempool γ :=
  let s := { s with
    outpointSpender := tx.vin.foldl (fun m vin => m.insert vin tx.hash) s.outpointSpender
    transactions := s.transactions.insert tx.hash tx
    txidIndex := s.txidIndex.insert tx.id tx.hash
    txids := s.txids.insert tx.hash tx.id
    fees := s.fees.insert tx.hash fee
    modifiedFees := s.modifiedFees.insert tx.hash (saturate (fee + s.delta tx.id))
    vsizes := s.vsizes.insert tx.hash (vsize.getD tx.vsize)
    weights := s.weights.insert tx.hash (weight.getD (weightOf tx vsize)) }
  let s := s.setEntryTime tx.hash now
  { s with
    heights := s.heights.insert tx.hash height
    entrySequences := s.entrySequences.insert tx.hash (if bypassLimits then 0 else s.sequence)
    spentBy := tx.vin.foldl (addSpender tx.hash) s.spentBy
    size := s.size + 1
    bytesize := s.bytesize + (vsize.getD tx.vsize : ℕ)
    sequence := s.sequence + 1
    transactionsUpdated := s.transactionsUpdated + 1 }

/-- `graph.add_dependency` of each parent. -/
def addDependencies (wtxid : Txid) : List Txid → MempoolM γ Unit
  | [] => pure ()
  | parent :: parents => do
    let graph ← walked (g.addDependency parent wtxid (← get).graph)
    modify fun s => { s with graph := graph }
    addDependencies wtxid parents

/-- `_insert`. -/
def insert (now : ℚ) (tx : MempoolTx) (fee : ℤ) (vsize : Option ℕ) (height : ℕ)
    (weight : Option ℕ) (graph bypassLimits : Bool) : MempoolM γ Unit := do
  modify fun s => s.entered now tx fee vsize height weight bypassLimits
  if graph then
    modify fun s =>
      let feerate : FeeFrac := ⟨saturate (fee + s.delta tx.id), (weight.getD (weightOf tx vsize) : ℕ)⟩
      { s with graph := g.addTransaction tx.hash feerate tx.id.internal s.graph }
    addDependencies g tx.hash ((← get).parents tx)

/-! ## Removing -/

/-- `d.pop(k)`, or `del d[k]`: a key that is not there is a `KeyError`. -/
def popKey {α β : Type} [Ord α] [Std.TransOrd α] (read : Mempool γ → Std.ExtTreeMap α β)
    (write : Std.ExtTreeMap α β → Mempool γ → Mempool γ) (k : α) : MempoolM γ β := do
  let s ← get
  match (read s)[k]? with
  | none => throw .keyError
  | some b =>
    set (write ((read s).erase k) s)
    return b

/-- `del outpoint_spender[..]` of each input. -/
def delOutpoints : List PrevOut → MempoolM γ Unit
  | [] => pure ()
  | vin :: vins => do
    let _ ← popKey (γ := γ) outpointSpender (fun m s => { s with outpointSpender := m }) vin
    delOutpoints vins

/-- A spender less in a set of `spent_by`, which goes with its last one. -/
def dropSpender (wtxid : Txid) (m : Std.ExtTreeMap Txid (Std.ExtTreeSet Txid)) (txid : Txid)
    (ws : Std.ExtTreeSet Txid) : Std.ExtTreeMap Txid (Std.ExtTreeSet Txid) :=
  if (ws.erase wtxid).isEmpty then m.erase txid else m.insert txid (ws.erase wtxid)

/-- The loop over the txids spent. -/
def discardSpender (wtxid : Txid) : List Txid → MempoolM γ Unit
  | [] => pure ()
  | txid :: txids => do
    let ws ← walked (← get).spentBy[txid]?
    modify fun s => { s with spentBy := dropSpender wtxid s.spentBy txid ws }
    discardSpender wtxid txids

/-- `graph.remove_transaction`, of a transaction that is in it. -/
def popGraph (wtxid : Txid) : MempoolM γ Unit := do
  let s ← get
  if (g.feerate? s.graph wtxid).isSome then
    let graph ← walked (g.removeTransaction wtxid s.graph)
    set { s with graph := graph }

/-- `_pop`. -/
def pop (wtxid : Txid) (notify : Bool) : MempoolM γ MempoolTx := do
  let tx ← popKey transactions (fun m s => { s with transactions := m }) wtxid
  let txid ← popKey txids (fun m s => { s with txids := m }) wtxid
  modify fun s => { s with
    txidIndex := s.txidIndex.erase txid
    fees := s.fees.erase wtxid
    modifiedFees := s.modifiedFees.erase wtxid }
  let vsize ← popKey vsizes (fun m s => { s with vsizes := m }) wtxid
  let _ ← popKey weights (fun m s => { s with weights := m }) wtxid
  popGraph g wtxid
  modify fun s => { s with
    entryTimes := s.entryTimes.erase wtxid
    heights := s.heights.erase wtxid }
  let _ ← popKey entrySequences (fun m s => { s with entrySequences := m }) wtxid
  modify fun s => { s with unbroadcast := s.unbroadcast.erase tx.id }
  delOutpoints tx.vin
  discardSpender wtxid (tx.vin.map PrevOut.txId).dedup
  modify fun s => { s with
    size := s.size - 1
    bytesize := s.bytesize - vsize
    sequence := s.sequence + 1
    transactionsUpdated := s.transactionsUpdated + 1
    removalListener := if notify then tx.id :: s.removalListener else s.removalListener }
  return tx

/-- `_pop` of each, told to the listener. -/
def popAll : List Txid → MempoolM γ Unit
  | [] => pure ()
  | wtxid :: wtxids => do
    let _ ← pop g wtxid true
    popAll wtxids

end Mempool

end BtclibNode
