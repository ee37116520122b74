/-
# Version bits

`versionbits.py`: the state of each unknown bit and of each deployment, cached by the block
that ends a period.  Places in a chain are counted here as the blocks up to them, one more
than the source's index, which is -1 before the genesis block.
-/
import BtclibNode.Lib.Lanes
import Mathlib.Data.List.Sort

namespace BtclibNode.Versionbits

abbrev Bytes := List UInt8

/-- What is read of a `BlockHeader`. -/
structure Header where
  previousBlockHash : Bytes
  version : ℤ
  time : ℕ

/-- `btclib.block.header_context.median_time_past`. -/
abbrev MedianTimePast := Header → ℕ → (Header → Option Header) → Option ℕ

inductive ChainName where
  | mainnet
  | testnet
  | signet
  | regtest
  | testnet4
  deriving DecidableEq, Repr

/-- What is read of a `Chain`. -/
structure Chain where
  name : ChainName
  minBip9WarningHeight : ℕ

def topBits : ℕ := 0x20000000
def topMask : ℕ := 0xE0000000
def numBits : ℕ := 29
def noTimeout : ℕ := 2 ^ 63 - 1

/-- `_State`. -/
inductive State where
  | defined
  | started
  | lockedIn
  | active
  | failed
  deriving DecidableEq, Repr

/-- `_Deployment`. -/
structure Deployment where
  name : String
  bit : ℤ
  startTime : ℕ
  timeout : ℕ
  minActivationHeight : ℕ
  deriving DecidableEq, Repr

/-- `_DEPLOYMENTS`. -/
def deploymentsOf : ChainName → List Deployment
  | .mainnet => [⟨"taproot", 2, 1619222400, 1628640000, 709632⟩]
  | .testnet => [⟨"taproot", 2, 1619222400, 1628640000, 0⟩]
  | .regtest => [⟨"testdummy", 28, 0, noTimeout, 0⟩]
  | _ => []

/-- `_TAPROOT_ALWAYS_ACTIVE`. -/
def taprootAlwaysActive : List ChainName := [.regtest, .signet, .testnet4]

structure DeploymentStatus where
  version : ℕ
  signalling : List (String × ℤ)
  lockedIn : List (String × ℤ)
  active : List String
  deriving DecidableEq, Repr

/-- `_Boundary`. -/
structure Boundary where
  warning : List State
  deployments : List State
  deriving DecidableEq, Repr

/-- `_advance`. -/
def advance (state : State) (count threshold mtp height : ℕ) (deployment : Deployment) :
    State :=
  match state with
  | .defined => if deployment.startTime ≤ mtp then .started else state
  | .started =>
    if threshold ≤ count then .lockedIn
    else if deployment.timeout ≤ mtp then .failed else state
  | .lockedIn => if deployment.minActivationHeight ≤ height + 1 then .active else state
  | _ => state

/-- `_WARNING_DEPLOYMENT`. -/
def warningDeployment : Deployment := ⟨"", -1, 0, noTimeout, 0⟩

/-- What an `UnknownActivations` takes of its chain. -/
structure Rules where
  period : ℕ
  threshold : ℕ
  minHeight : ℕ
  deployments : List Deployment
  alwaysActive : List String
  period_pos : 0 < period
  bit_lt : ∀ d ∈ deployments, 0 ≤ d.bit ∧ d.bit < numBits

/-- `__init__`, but for the cache. -/
def Rules.of (chain : Chain) : Rules :=
  let period := if chain.name = .regtest then 144 else 2016
  { period := period
    threshold := if chain.name = .mainnet then 1815 else period * 3 / 4
    minHeight := chain.minBip9WarningHeight
    deployments := deploymentsOf chain.name
    alwaysActive := if chain.name ∈ taprootAlwaysActive then ["taproot"] else []
    period_pos := by
      change 0 < if chain.name = .regtest then 144 else 2016
      split_ifs <;> decide
    bit_lt := by
      cases chain.name <;> decide }

/-- `_cache`, whose key before the genesis block is `None`. -/
abbrev Cache := Option Bytes → Option Boundary

def Cache.set (cache : Cache) (hash : Option Bytes) (boundary : Boundary) : Cache :=
  fun other => if other = hash then some boundary else cache other

structure UnknownActivations where
  rules : Rules
  cache : Cache

/-- The states before the genesis block. -/
def Rules.initial (r : Rules) : Boundary :=
  ⟨List.replicate numBits .defined, List.replicate r.deployments.length .defined⟩

/-- `__init__`. -/
def UnknownActivations.init (chain : Chain) : UnknownActivations :=
  let rules := Rules.of chain
  ⟨rules, Cache.set (fun _ => none) none rules.initial⟩

/-- `zip` with `strict=True`. -/
def zipStrict {α β : Type} (as : List α) (bs : List β) : Option (List (α × β)) :=
  if as.length = bs.length then some (as.zip bs) else none

/-! ## Signals -/

/-- `counts[bit] += 1`. -/
def increment (counts : List ℕ) (bit : ℕ) : Option (List ℕ) :=
  if bit < counts.length then some (counts.modify bit (· + 1)) else none

/-- The same of a bit that is to be counted. -/
def incrementIf (wanted : Bool) (counts : List ℕ) (bit : ℕ) : Option (List ℕ) :=
  if wanted then increment counts bit else some counts

/-- The loop over the bits a block signals. -/
def countSignals (warned : Bool) (known : List ℤ) (signals : ℕ) (counts : List ℕ × List ℕ) :
    Option (List ℕ × List ℕ) :=
  if _h : signals = 0 then some counts
  else do
    let low := LowestBit.lowBit signals
    let bit := low.size - 1
    let all ← increment counts.1 bit
    let warning ← incrementIf (warned ∧ (bit : ℤ) ∉ known) counts.2 bit
    countSignals warned known (signals ^^^ low) (all, warning)
termination_by signals
decreasing_by exact LowestBit.xor_lowBit_lt _h

/-- `known`: the bits of the deployments a block may signal for. -/
def knownBits (deployments : List (Deployment × State)) : List ℤ :=
  (deployments.filter fun p => p.2 = .started ∨ p.2 = .lockedIn).map fun p => p.1.bit

section Tree

variable (medianTimePast : MedianTimePast) (headers : Bytes → Option Header) (r : Rules)

/-- A turn of the loop over the blocks of a period. -/
def countBlock (known : List ℤ) (activeChain : List Bytes) (counts : List ℕ × List ℕ)
    (height : ℕ) : Option (List ℕ × List ℕ) := do
  let hash ← activeChain[height]?
  let header ← headers hash
  let version := (header.version % 2 ^ 32).toNat
  if version &&& topMask ≠ topBits then some counts
  else
    let signals := (Int.land version (Int.lnot topMask)).toNat
    countSignals (decide (r.minHeight ≤ height)) known signals counts

/-- The counts of `_period_ending_at`, which it leaves at zero where no state reads them. -/
def countPeriod (known : List ℤ) (activeChain : List Bytes) (blocks : ℕ) :
    Option (List ℕ × List ℕ) :=
  let zeros := List.replicate numBits 0
  if r.minHeight ≤ blocks - 1 ∨ known ≠ [] then
    (List.range' (blocks - r.period) r.period).foldlM (countBlock headers r known activeChain)
      (zeros, zeros)
  else some (zeros, zeros)

/-- The key of the cache after a number of blocks. -/
def keyAt (activeChain : List Bytes) : ℕ → Option (Option Bytes)
  | 0 => some none
  | blocks + 1 => activeChain[blocks]?.map some

/-- `_period_ending_at`, of the block that is number `blocks`. -/
def periodEndingAt (cache : Cache) (activeChain : List Bytes) (blocks : ℕ) :
    Option Boundary := do
  let last := blocks - 1
  let previousKey ← keyAt activeChain (blocks - r.period)
  let previous ← cache previousKey
  let hash ← activeChain[last]?
  let header ← headers hash
  let mtp ← medianTimePast header last fun header => headers header.previousBlockHash
  let deployments ← zipStrict r.deployments previous.deployments
  let (counts, warningCounts) ←
    countPeriod headers r (knownBits deployments) activeChain blocks
  let warning ← zipStrict previous.warning warningCounts
  let advanced ← deployments.mapM fun (deployment, state) => do
    let count ← counts[deployment.bit.toNat]?
    some (advance state count r.threshold mtp last deployment)
  some ⟨warning.map fun (state, count) =>
    advance state count r.threshold mtp last warningDeployment, advanced⟩

/-- The walk of `_boundary` back to a cached state. -/
def missing (cache : Cache) (activeChain : List Bytes) (blocks : ℕ) : Option (List ℕ) :=
  if _h : blocks = 0 then some []
  else do
    let hash ← activeChain[blocks - 1]?
    if (cache (some hash)).isSome then some []
    else do
      let rest ← missing cache activeChain (blocks - r.period)
      some (blocks :: rest)
termination_by blocks
decreasing_by
  have := r.period_pos
  omega

/-- The loop of `_boundary` that fills the cache; what it filled before an error stays. -/
def fill (activeChain : List Bytes) : Cache → List ℕ → Cache × Option Unit
  | cache, [] => (cache, some ())
  | cache, blocks :: rest =>
    match activeChain[blocks - 1]?,
      periodEndingAt medianTimePast headers r cache activeChain blocks with
    | some hash, some boundary => fill activeChain (cache.set (some hash) boundary) rest
    | _, _ => (cache, none)

/-- `_boundary`, of the tip where no height is given. -/
def boundary (cache : Cache) (activeChain : List Bytes) (height : Option ℕ) :
    Cache × Option Boundary :=
  let next := (height.map (· + 1)).getD activeChain.length
  let last := next - next % r.period
  match missing r cache activeChain last with
  | none => (cache, none)
  | some missing =>
    let (cache, filled) := fill medianTimePast headers r activeChain cache missing.reverse
    (cache, do
      filled
      cache (← keyAt activeChain last))

end Tree

/-! ## Answers -/

/-- The answer of `check`. -/
def warnings (boundary : Boundary) : List (ℕ × Bool) :=
  (boundary.warning.zipIdx.filter fun (state, _) => state = .active ∨ state = .lockedIn).map
    fun (state, bit) => (bit, state = .active)

/-- The answer of `status`; a table names no deployment twice. -/
def statusOf (r : Rules) (boundary : Boundary) : Option DeploymentStatus := do
  let found ← zipStrict r.deployments boundary.deployments
  let sorted := found.mergeSort fun a b => a.1.name ≤ b.1.name
  let version := sorted.foldl (fun version p =>
    if p.2 = .started ∨ p.2 = .lockedIn then version ||| (1 <<< p.1.bit.toNat) else version) topBits
  let named (wanted : State) : List Deployment := (sorted.filter (·.2 = wanted)).map (·.1)
  some {
    version := version
    signalling := (named .started).map fun deployment => (deployment.name, deployment.bit)
    lockedIn := (named .lockedIn).map fun deployment => (deployment.name, deployment.bit)
    active := (r.alwaysActive ++ (named .active).map (·.name)).mergeSort fun a b => a ≤ b }

/-! ## Calls -/

inductive Call where
  | check (activeChain : List Bytes) (height : Option ℕ)
  | status (activeChain : List Bytes)

inductive Answer where
  | warnings (bits : List (ℕ × Bool))
  | status (status : DeploymentStatus)
  deriving DecidableEq, Repr

section Run

variable (medianTimePast : MedianTimePast) (headers : Bytes → Option Header)

/-- `check` and `status`. -/
def Call.run (u : UnknownActivations) : Call → UnknownActivations × Option Answer
  | .check activeChain height =>
    let (cache, boundary) := boundary medianTimePast headers u.rules u.cache activeChain height
    ({ u with cache := cache }, boundary.map fun boundary => .warnings (warnings boundary))
  | .status activeChain =>
    let (cache, boundary) := boundary medianTimePast headers u.rules u.cache activeChain none
    ({ u with cache := cache }, do
      let boundary ← boundary
      let status ← statusOf u.rules boundary
      some (.status status))

/-- What a sequence of calls leaves. -/
def run (u : UnknownActivations) (calls : List Call) : UnknownActivations :=
  calls.foldl (fun u call => (call.run medianTimePast headers u).1) u

end Run

end BtclibNode.Versionbits
