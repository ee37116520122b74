/-
# Blocks, transactions and coins

The data the chainstate works on, with the fields its methods read.  A hash is
its 32 octets read as one number, in display order, so that the order of hashes
is the order of the store's keys.
-/
import Std.Data.ExtTreeMap
import Std.Data.ExtTreeSet
import Mathlib.Data.Int.Notation
import Mathlib.Tactic.Common

namespace BtclibNode

/-- A block hash or a txid. -/
abbrev Hash := ℕ

/-- The octets of a script. -/
abbrev Script := List UInt8

/-! ## Outpoints -/

/-- `btclib.tx.out_point.OutPoint`.  Its serialization is 36 octets and
injective, so an outpoint stands for its own key. -/
structure OutPoint where
  txid : Hash
  vout : ℕ
  deriving DecidableEq, Repr

namespace OutPoint

/-- The prevout of a coinbase input. -/
def null : OutPoint := ⟨0, 0xFFFFFFFF⟩

instance : Ord OutPoint := ⟨compareLex (compareOn txid) (compareOn vout)⟩

instance : Std.TransOrd OutPoint :=
  inferInstanceAs (Std.TransCmp (compareLex (compareOn txid) (compareOn vout)))

instance : Std.LawfulEqOrd OutPoint where
  eq_of_compare {a b} h := by
    change compareLex (compareOn txid) (compareOn vout) a b = .eq at h
    rw [compareLex_eq_eq] at h
    obtain ⟨hid, hvout⟩ := h
    have hid' : a.txid = b.txid := Std.LawfulEqOrd.eq_of_compare hid
    have hvout' : a.vout = b.vout := Std.LawfulEqOrd.eq_of_compare hvout
    cases a
    cases b
    simp_all

end OutPoint

/-! ## Coins -/

/-- `btclib.tx.tx_out.TxOut`. -/
structure TxOut where
  value : ℤ
  script : Script
  deriving DecidableEq, Repr

/-- `Coin`, one row of the UTXO set. -/
structure Coin where
  txOut : TxOut
  height : ℕ
  isCoinbase : Bool
  deriving DecidableEq, Repr

/-! ## Transactions and blocks -/

/-- A transaction: its id, the prevout of each input and its outputs. -/
structure Tx where
  id : Hash
  vin : List OutPoint
  vout : List TxOut
  deriving DecidableEq, Repr

namespace Tx

/-- btclib's `Tx.is_coinbase`: one input, of the null prevout. -/
def isCoinbase (tx : Tx) : Bool := tx.vin == [OutPoint.null]

/-- The outpoint of every output. -/
def outPoints (tx : Tx) : List OutPoint :=
  (List.range tx.vout.length).map (OutPoint.mk tx.id)

theorem mem_outPoints {tx : Tx} {o : OutPoint} :
    o ∈ tx.outPoints ↔ o.txid = tx.id ∧ o.vout < tx.vout.length := by
  unfold outPoints
  rw [List.mem_map]
  constructor
  · rintro ⟨i, hi, rfl⟩
    exact ⟨rfl, List.mem_range.mp hi⟩
  · rintro ⟨hid, hi⟩
    refine ⟨o.vout, List.mem_range.mpr hi, ?_⟩
    rw [← hid]

end Tx

/-- btclib's `BlockHeader`. -/
structure BlockHeader where
  hash : Hash
  previousBlockHash : Hash
  version : ℤ
  time : ℤ
  bits : ℕ
  deriving DecidableEq, Repr

/-- btclib's `Block`. -/
structure Block where
  header : BlockHeader
  transactions : List Tx
  deriving DecidableEq, Repr

/-- A block past `CheckBlock`, as every block that reaches the UTXO set is: its
first transaction is the one coinbase and every other has an input.  Of the
hash it asks only that two transactions of one id have the same inputs. -/
structure CheckedBlock extends Block where
  coinbase : Tx
  spends : List Tx
  transactions_eq : transactions = coinbase :: spends
  coinbase_isCoinbase : coinbase.isCoinbase = true
  spends_not_coinbase : ∀ tx ∈ spends, tx.isCoinbase = false
  spends_vin : ∀ tx ∈ spends, tx.vin ≠ []
  id_commits : ∀ tx ∈ coinbase :: spends, ∀ tx' ∈ coinbase :: spends,
    tx.id = tx'.id → tx.vin = tx'.vin

/-- `RevBlock`, the undo data of one block: the coin each spent input consumed
and every outpoint the block created. -/
structure RevBlock where
  hash : Hash
  toAdd : List (OutPoint × Coin)
  toRemove : List OutPoint
  deriving DecidableEq, Repr

end BtclibNode
