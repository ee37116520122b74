/-
# `_validate_block`

`main.py`.  The rules a connected block is held to once the UTXO set has given
the coins its inputs spend.  What btclib decides, and what the header tree and
the clock are read for, are parameters; the walk over the transactions, the
inputs' maturity and value, the fees and the cost of the signature operations
are this repository's.
-/
import Mathlib
import BtclibNode.Chainstate.FilterIndex
import BtclibNode.Chainstate.UtxoIndex

namespace BtclibNode

/-- What a step of the node raises: what its indexes raise, a `BTClibValueError`
of a rule, `PrevoutCountMismatchError`, `ChainstateInconsistencyError`, what a
store or a file raises, a `KeyError` or an `IndexError`, and the rest. -/
inductive NodeError where
  | utxo (e : UtxoError)
  | filter (e : FilterError)
  | btclibValue (reason : String)
  | prevoutCount
  | inconsistency
  | storage
  | key
  | other
  deriving DecidableEq, Repr

/-- `isinstance(exc, _CONTENT_FAILURE)`. -/
def NodeError.isContentFailure : NodeError → Bool
  | .utxo .bip30 | .utxo .alreadySpent | .utxo .prevoutNotFound => true
  | .filter (.btclibValue _) => true
  | .btclibValue _ | .prevoutCount => true
  | _ => false

/-- The rules `_validate_block` asks: `contextual_check_block`, which answers
whether BIP113 binds, `assert_sequence_locks`, `sig_op_cost`, `subsidy`,
`assert_coinbase_value` and `check_scripts` past `script_check_reason`. -/
structure BlockRules where
  contextual : Block → ℕ → Except NodeError Bool
  sequenceLocks : Tx → List Coin → ℕ → Except NodeError Unit
  sigOpCost : List TxOut → Tx → ℕ
  subsidy : ℕ → ℤ
  coinbaseValue : Tx → ℤ → ℤ → Except NodeError Unit
  scripts : Block → List (List Coin × Tx) → Except NodeError Unit

/-- `COINBASE_MATURITY`. -/
def coinbaseMaturity : ℕ := 100

/-- `_MAX_MONEY`. -/
def maxMoney : ℤ := 21000000 * 100000000

/-- `MAX_BLOCK_SIGOPS_COST`. -/
def maxBlockSigOpsCost : ℕ := 80000

/-- The value of some outputs. -/
def valueOf (outs : List TxOut) : ℤ := (outs.map TxOut.value).sum

/-- `_check_tx_inputs`. -/
def checkTxInputs (prevoutCoins : List Coin) (tx : Tx) (spendHeight : ℕ) :
    Except NodeError Unit :=
  if prevoutCoins.any fun coin =>
      coin.isCoinbase && decide (spendHeight < coin.height + coinbaseMaturity) then
    throw (.btclibValue "bad-txns-premature-spend-of-coinbase")
  else if valueOf (prevoutCoins.map Coin.txOut) < valueOf tx.vout then
    throw (.btclibValue "bad-txns-in-belowout")
  else return ()

/-- A turn of the loop of `_validate_block` over the transactions: the fees and
the cost so far. -/
def BlockRules.checkTransaction (rules : BlockRules) (bip113Active : Bool) (index : ℕ)
    (prevouts : List Coin) (tx : Tx) (fees : ℤ) (cost : ℕ) : Except NodeError (ℤ × ℕ) := do
  checkTxInputs prevouts tx index
  let txOuts := prevouts.map Coin.txOut
  let fees := fees + (valueOf txOuts - valueOf tx.vout)
  if maxMoney < fees then throw (.btclibValue "bad-txns-accumulated-fee-outofrange")
  else
    if bip113Active then rules.sequenceLocks tx prevouts index else pure ()
    let cost := cost + rules.sigOpCost txOuts tx
    if maxBlockSigOpsCost < cost then throw (.btclibValue "bad-blk-sigops")
    else return (fees, cost)

/-- The loop: the fees. -/
def BlockRules.checkTransactions (rules : BlockRules) (bip113Active : Bool) (index : ℕ) :
    List (List Coin × Tx) → ℤ → ℕ → Except NodeError ℤ
  | [], fees, _ => return fees
  | (prevouts, tx) :: rest, fees, cost => do
    let (fees, cost) ← rules.checkTransaction bip113Active index prevouts tx fees cost
    rules.checkTransactions bip113Active index rest fees cost

/-- `_validate_block`. -/
def BlockRules.validateBlock (rules : BlockRules) (block : Block)
    (transactions : List (List Coin × Tx)) (index : ℕ) : Except NodeError Unit := do
  let bip113Active ← rules.contextual block index
  match block.transactions with
  | [] => throw .key
  | coinbase :: _ => do
    let fees ← rules.checkTransactions bip113Active index transactions 0 (rules.sigOpCost [] coinbase)
    rules.coinbaseValue coinbase (rules.subsidy index) fees
    rules.scripts block transactions

/-! ## Maturity -/

/-- No coin of `coins` is a coinbase's younger than `coinbaseMaturity` at `height`. -/
def Mature (height : ℕ) (coins : List Coin) : Prop :=
  ∀ coin ∈ coins, coin.isCoinbase = true → coin.height + coinbaseMaturity ≤ height

/-- The first half of a sequence that returns has returned. -/
theorem exists_ok_of_bind {α β : Type} {x : Except NodeError α} {f : α → Except NodeError β}
    {b : β} (h : (x >>= f) = .ok b) : ∃ a, x = .ok a ∧ f a = .ok b := by
  cases x with
  | error e => cases h
  | ok a => exact ⟨a, rfl, h⟩

theorem mature_of_checkTxInputs {coins : List Coin} {tx : Tx} {height : ℕ}
    (h : checkTxInputs coins tx height = .ok ()) : Mature height coins := by
  intro coin hcoin hcb
  unfold checkTxInputs at h
  split at h
  · cases h
  · next hany =>
    by_contra hlt
    apply hany
    rw [List.any_eq_true]
    refine ⟨coin, hcoin, ?_⟩
    rw [hcb, Bool.true_and, decide_eq_true_iff]
    omega

theorem BlockRules.mature_of_checkTransactions {rules : BlockRules} {bip113 : Bool} {index : ℕ}
    {transactions : List (List Coin × Tx)} {fees fees' : ℤ} {cost : ℕ}
    (h : rules.checkTransactions bip113 index transactions fees cost = .ok fees') :
    ∀ row ∈ transactions, Mature index row.1 := by
  induction transactions generalizing fees cost with
  | nil => simp
  | cons row rest ih =>
    unfold checkTransactions at h
    obtain ⟨⟨fees₁, cost₁⟩, hturn, hrest⟩ := exists_ok_of_bind h
    unfold checkTransaction at hturn
    obtain ⟨⟨⟩, hinputs, -⟩ := exists_ok_of_bind hturn
    exact List.forall_mem_cons.mpr ⟨mature_of_checkTxInputs hinputs, ih hrest⟩

/-- **A block that passes spends no immature coinbase.** -/
theorem BlockRules.mature_of_validateBlock {rules : BlockRules} {block : Block}
    {transactions : List (List Coin × Tx)} {index : ℕ}
    (h : rules.validateBlock block transactions index = .ok ()) :
    ∀ row ∈ transactions, Mature index row.1 := by
  unfold validateBlock at h
  obtain ⟨bip113, -, hrest⟩ := exists_ok_of_bind h
  cases htxs : block.transactions with
  | nil =>
    rw [htxs] at hrest
    cases hrest
  | cons coinbase rest =>
    rw [htxs] at hrest
    obtain ⟨fees, hcheck, -⟩ := exists_ok_of_bind hrest
    exact rules.mature_of_checkTransactions hcheck

end BtclibNode
