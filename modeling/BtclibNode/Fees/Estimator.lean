/-
# The fee estimator

`fee_estimator.py`: three horizons of moving averages over feerate buckets, and the counts of
the transactions that are still unconfirmed.  A double is its 64 bits, with one NaN; what is
computed with doubles is a parameter.
-/
import Mathlib
import BtclibNode.Lib.Tabulate

namespace BtclibNode.FeeEstimator

open Tabulate

abbrev Bytes := List UInt8

/-! ## Doubles -/

def exponentBits : ℕ := 0x7FF0000000000000
def mantissaBits : ℕ := 0xFFFFFFFFFFFFF
def nanBits : ℕ := 0x7FF8000000000000

/-- Whether the bits are a NaN's. -/
def IsNan (bits : ℕ) : Prop := bits &&& exponentBits = exponentBits ∧ bits &&& mantissaBits ≠ 0

instance (bits : ℕ) : Decidable (IsNan bits) := inferInstanceAs (Decidable (_ ∧ _))

/-- A `float`, of which there is one NaN: no caller tells two apart. -/
structure Double where
  bits : ℕ
  lt : bits < 2 ^ 64
  canonical : IsNan bits → bits = nanBits
  deriving DecidableEq

def Double.zero : Double := ⟨0, by decide, by decide⟩
def Double.one : Double := ⟨0x3FF0000000000000, by decide, by decide⟩

def infFeerate : Double := ⟨0x547D42AEA2879F2E, by decide, by decide⟩
def shortDecay : Double := ⟨0x3FEEC8B439581062, by decide, by decide⟩
def medDecay : Double := ⟨0x3FEFD8ADAB9F559B, by decide, by decide⟩
def longDecay : Double := ⟨0x3FEFFA58F7121AB5, by decide, by decide⟩
def minBucketFeerate : Double := ⟨0x4059000000000000, by decide, by decide⟩
def maxBucketFeerate : Double := ⟨0x416312D000000000, by decide, by decide⟩
def feeSpacing : Double := ⟨0x3FF0CCCCCCCCCCCD, by decide, by decide⟩

def shortBlockPeriods : ℕ := 12
def shortScale : ℕ := 1
def medBlockPeriods : ℕ := 24
def medScale : ℕ := 2
def longBlockPeriods : ℕ := 42
def longScale : ℕ := 24
def oldestEstimateHistory : ℕ := 6 * 1008

/-- The arithmetic of doubles, and Python's `sorted` over them.  `turns` is how often the loop
of `_default_buckets` runs, which is 236 for IEEE's. -/
structure Arithmetic where
  add : Double → Double → Double
  mul : Double → Double → Double
  float : ℤ → Double
  lt : Double → Double → Bool
  le : Double → Double → Bool
  equal : Double → Double → Bool
  sorted : List Double → List Double
  turns : ℕ
  sorted_perm : ∀ l, (sorted l).Perm l
  turn : ∀ i < turns, le ((mul · feeSpacing)^[i] minBucketFeerate) maxBucketFeerate = true
  ended : le ((mul · feeSpacing)^[turns] minBucketFeerate) maxBucketFeerate = false
  turns_pos : 0 < turns
  turns_lt : turns < 1000

section Model

variable (A : Arithmetic)

/-! ## Buckets -/

/-- `_Buckets`: the bounds, and the sorted ones of them with their indices. -/
structure Buckets where
  bounds : List Double
  keys : List Double
  index : List ℕ
  deriving DecidableEq

/-- `index[bound] = i`, of a dictionary that keeps the key it has. -/
def setKey (index : List (Double × ℕ)) (bound : Double) (i : ℕ) : List (Double × ℕ) :=
  if index.any fun p => A.equal p.1 bound then
    index.map fun p => if A.equal p.1 bound then (p.1, i) else p
  else index ++ [(bound, i)]

/-- `_Buckets.__init__`; every key is one of the dictionary's. -/
def Buckets.new (bounds : List Double) : Buckets :=
  let index := bounds.zipIdx.foldl (fun index p => setKey A index p.1 p.2) []
  let keys := A.sorted (index.map (·.1))
  { bounds := bounds
    keys := keys
    index := keys.map fun key => ((index.find? fun p => A.equal p.1 key).map (·.2)).getD 0 }

/-- `bisect_left`, between `lo` and `hi`. -/
def bisectLeft (keys : List Double) (x : Double) (lo hi : ℕ) : ℕ :=
  if lo < hi then
    let mid := (lo + hi) / 2
    if (keys[mid]?.map fun key => A.lt key x).getD false then bisectLeft keys x (mid + 1) hi
    else bisectLeft keys x lo mid
  else lo
termination_by hi - lo

/-- `_Buckets.find`. -/
def Buckets.find (b : Buckets) (feerate : Double) : Option ℕ :=
  b.index[min (bisectLeft A b.keys feerate 0 b.keys.length) (b.keys.length - 1)]?

/-- `_default_buckets`. -/
def defaultBuckets : Buckets :=
  Buckets.new A (((List.range A.turns).map fun i => (A.mul · feeSpacing)^[i] minBucketFeerate) ++
    [infFeerate])

/-! ## A horizon -/

/-- `_TxConfirmStats`. -/
structure TxConfirmStats where
  buckets : Buckets
  decay : Double
  scale : ℕ
  confAvg : List (List Double)
  failAvg : List (List Double)
  txCtAvg : List Double
  feerateAvg : List Double
  unconfTxs : List (List ℕ)
  oldUnconfTxs : List ℕ
  deriving DecidableEq

namespace TxConfirmStats

/-- `max_confirms`. -/
def maxConfirms (s : TxConfirmStats) : ℕ := s.scale * s.confAvg.length

/-- `_resize_in_memory_counters`. -/
def resizeInMemoryCounters (s : TxConfirmStats) (count : ℕ) : TxConfirmStats :=
  { s with
    unconfTxs := List.replicate s.maxConfirms (List.replicate count 0)
    oldUnconfTxs := List.replicate count 0 }

/-- `__init__`. -/
def new (buckets : Buckets) (maxPeriods : ℕ) (decay : Double) (scale : ℕ) : TxConfirmStats :=
  let count := buckets.bounds.length
  resizeInMemoryCounters {
    buckets := buckets
    decay := decay
    scale := scale
    confAvg := List.replicate maxPeriods (List.replicate count Double.zero)
    failAvg := List.replicate maxPeriods (List.replicate count Double.zero)
    txCtAvg := List.replicate count Double.zero
    feerateAvg := List.replicate count Double.zero
    unconfTxs := []
    oldUnconfTxs := [] } count

/-- A turn of the loop of `clear_current`. -/
def clearBucket (counts : List ℕ × List ℕ) (j : ℕ) : Option (List ℕ × List ℕ) := do
  let (old, current) := counts
  let count ← current[j]?
  let old ← modifyAt old j (· + count)
  let current ← setAt current j 0
  some (old, current)

/-- `clear_current`. -/
def clearCurrent (s : TxConfirmStats) (height : ℕ) : Option TxConfirmStats := do
  let slot := height % s.unconfTxs.length
  let current ← s.unconfTxs[slot]?
  let (old, current) ←
    (List.range s.buckets.bounds.length).foldlM clearBucket (s.oldUnconfTxs, current)
  let unconfTxs ← setAt s.unconfTxs slot current
  some { s with unconfTxs := unconfTxs, oldUnconfTxs := old }

/-- `rows[i][bucket] += 1`. -/
def addOne (rows : List (List Double)) (i bucket : ℕ) : Option (List (List Double)) := do
  let row ← rows[i]?
  let row ← modifyAt row bucket (A.add · Double.one)
  setAt rows i row

/-- `record`. -/
def record (s : TxConfirmStats) (blocksToConfirm : ℕ) (feerate : Double) :
    Option TxConfirmStats :=
  if blocksToConfirm < 1 then some s
  else do
    let periods := (blocksToConfirm + s.scale - 1) / s.scale
    let bucket ← s.buckets.find A feerate
    let confAvg ← (List.range' periods (s.confAvg.length + 1 - periods)).foldlM
      (fun rows i => addOne A rows (i - 1) bucket) s.confAvg
    let txCtAvg ← modifyAt s.txCtAvg bucket (A.add · Double.one)
    let feerateAvg ← modifyAt s.feerateAvg bucket (A.add · feerate)
    some { s with confAvg := confAvg, txCtAvg := txCtAvg, feerateAvg := feerateAvg }

/-- `update_moving_averages`. -/
def updateMovingAverages (s : TxConfirmStats) : TxConfirmStats :=
  { s with
    confAvg := s.confAvg.map fun row => row.map (A.mul · s.decay)
    failAvg := s.failAvg.map fun row => row.map (A.mul · s.decay)
    feerateAvg := s.feerateAvg.map (A.mul · s.decay)
    txCtAvg := s.txCtAvg.map (A.mul · s.decay) }

/-- `new_tx`. -/
def newTx (s : TxConfirmStats) (height : ℕ) (feerate : Double) :
    Option (TxConfirmStats × ℕ) := do
  let bucket ← s.buckets.find A feerate
  let slot := height % s.unconfTxs.length
  let row ← s.unconfTxs[slot]?
  let row ← modifyAt row bucket (· + 1)
  let unconfTxs ← setAt s.unconfTxs slot row
  some ({ s with unconfTxs := unconfTxs }, bucket)

/-- `if counts[bucket] > 0: counts[bucket] -= 1`. -/
def decrement (counts : List ℕ) (bucket : ℕ) : Option (List ℕ) := do
  let count ← counts[bucket]?
  if 0 < count then modifyAt counts bucket (· - 1) else some counts

/-- What `remove_tx` does to the counts, `blocksAgo` blocks after the transaction entered. -/
def uncount (s : TxConfirmStats) (entryHeight blocksAgo bucket : ℕ) : Option TxConfirmStats :=
  if s.unconfTxs.length ≤ blocksAgo then do
    let old ← decrement s.oldUnconfTxs bucket
    some { s with oldUnconfTxs := old }
  else do
    let slot := entryHeight % s.unconfTxs.length
    let row ← s.unconfTxs[slot]?
    let row ← decrement row bucket
    let unconfTxs ← setAt s.unconfTxs slot row
    some { s with unconfTxs := unconfTxs }

/-- `remove_tx`. -/
def removeTx (s : TxConfirmStats) (entryHeight bestSeenHeight bucket : ℕ) (inBlock : Bool) :
    Option TxConfirmStats :=
  let blocksAgo : ℤ := if bestSeenHeight = 0 then 0 else (bestSeenHeight : ℤ) - entryHeight
  if blocksAgo < 0 then some s
  else do
    let blocksAgo := blocksAgo.toNat
    let s ← s.uncount entryHeight blocksAgo bucket
    if ¬ inBlock ∧ s.scale ≤ blocksAgo then
      let periodsAgo := blocksAgo / s.scale
      let failAvg ← (List.range (min periodsAgo s.failAvg.length)).foldlM
        (fun rows i => addOne A rows i bucket) s.failAvg
      some { s with failAvg := failAvg }
    else some s

end TxConfirmStats

end Model

/-! ## The estimator -/

/-- `RemovedTx`, without the weight that another estimator reads. -/
structure RemovedTx where
  txid : Bytes
  fee : ℤ
  vsize : ℤ
  height : ℕ

/-- `_fee_per_k`. -/
def feePerK (fee vsize : ℤ) : ℤ := if 0 < vsize then fee * 1000 / vsize else 0

/-- A transaction as the mempool hands it over. -/
structure AcceptedTx where
  txid : Bytes
  fee : ℤ
  vsize : ℤ
  height : ℕ
  limitBypassed : Bool
  inPackage : Bool
  chainCurrent : Bool
  hasNoMempoolParents : Bool

end BtclibNode.FeeEstimator

namespace BtclibNode

open FeeEstimator Tabulate

structure FeeEstimator where
  bestSeenHeight : ℕ
  firstRecordedHeight : ℕ
  historicalFirst : ℕ
  historicalBest : ℕ
  mempoolTxs : List (FeeEstimator.Bytes × ℕ × ℕ)
  trackedTxs : ℕ
  untrackedTxs : ℕ
  buckets : Buckets
  feeStats : TxConfirmStats
  shortStats : TxConfirmStats
  longStats : TxConfirmStats
  deriving DecidableEq

namespace FeeEstimator

variable (A : Arithmetic)

/-- `__init__`, where there is no file to read. -/
def fresh : FeeEstimator :=
  let buckets := defaultBuckets A
  { bestSeenHeight := 0
    firstRecordedHeight := 0
    historicalFirst := 0
    historicalBest := 0
    mempoolTxs := []
    trackedTxs := 0
    untrackedTxs := 0
    buckets := buckets
    feeStats := TxConfirmStats.new buckets medBlockPeriods medDecay medScale
    shortStats := TxConfirmStats.new buckets shortBlockPeriods shortDecay shortScale
    longStats := TxConfirmStats.new buckets longBlockPeriods longDecay longScale }

/-- A change of every horizon, in the order of `_all_stats`. -/
def forAllStats (f : TxConfirmStats → Option TxConfirmStats) (e : FeeEstimator) :
    Option FeeEstimator := do
  let feeStats ← f e.feeStats
  let shortStats ← f e.shortStats
  let longStats ← f e.longStats
  some { e with feeStats := feeStats, shortStats := shortStats, longStats := longStats }

/-- `process_transaction`. -/
def processTransaction (e : FeeEstimator) (tx : AcceptedTx) : Option FeeEstimator :=
  if e.mempoolTxs.any fun p => p.1 = tx.txid then some e
  else if tx.height ≠ e.bestSeenHeight then some e
  else if tx.limitBypassed ∨ tx.inPackage ∨ ¬ tx.chainCurrent ∨ ¬ tx.hasNoMempoolParents then
    some { e with untrackedTxs := e.untrackedTxs + 1 }
  else do
    let feerate := A.float (feePerK tx.fee tx.vsize)
    let (feeStats, _) ← e.feeStats.newTx A tx.height feerate
    let (shortStats, _) ← e.shortStats.newTx A tx.height feerate
    let (longStats, bucket) ← e.longStats.newTx A tx.height feerate
    some { e with
      trackedTxs := e.trackedTxs + 1
      feeStats := feeStats
      shortStats := shortStats
      longStats := longStats
      mempoolTxs := e.mempoolTxs ++ [(tx.txid, tx.height, bucket)] }

/-- `remove_tx`, and whether the transaction was tracked. -/
def removeTx (e : FeeEstimator) (txid : Bytes) (inBlock : Bool) : Option (FeeEstimator × Bool) :=
  match e.mempoolTxs.find? fun p => p.1 = txid with
  | none => some (e, false)
  | some (_, height, bucket) => do
    let e' := { e with mempoolTxs := e.mempoolTxs.eraseP fun p => p.1 = txid }
    let e' ← e'.forAllStats fun s => s.removeTx A height e.bestSeenHeight bucket inBlock
    some (e', true)

/-- `_process_block_tx`. -/
def processBlockTx (height : ℕ) (e : FeeEstimator) (tx : RemovedTx) :
    Option (FeeEstimator × Bool) := do
  let (e, tracked) ← e.removeTx A tx.txid true
  if ¬ tracked then some (e, false)
  else if height ≤ tx.height then some (e, false)
  else do
    let e ← e.forAllStats fun s =>
      s.record A (height - tx.height) (A.float (feePerK tx.fee tx.vsize))
    some (e, true)

/-- The sum of `process_block`, over the transactions the block took. -/
def processBlockTxs (height : ℕ) : FeeEstimator → List RemovedTx → Option (FeeEstimator × ℕ)
  | e, [] => some (e, 0)
  | e, tx :: txs => do
    let (e, counts) ← processBlockTx A height e tx
    let (e, counted) ← processBlockTxs height e txs
    some (e, counts.toNat + counted)

/-- `process_block`. -/
def processBlock (e : FeeEstimator) (removed : List RemovedTx) (height : ℕ) :
    Option FeeEstimator :=
  if height ≤ e.bestSeenHeight then some e
  else do
    let e := { e with bestSeenHeight := height }
    let e ← e.forAllStats fun s => s.clearCurrent height
    let e ← e.forAllStats fun s => some (s.updateMovingAverages A)
    let (e, counted) ← processBlockTxs A height e removed
    let first := if e.firstRecordedHeight = 0 ∧ 0 < counted then height
      else e.firstRecordedHeight
    some { e with firstRecordedHeight := first, trackedTxs := 0, untrackedTxs := 0 }

end FeeEstimator

end BtclibNode
