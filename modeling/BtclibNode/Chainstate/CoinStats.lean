/-
# The commitment to the UTXO set

btclib's `CoinStats`, the running MuHash with its counters, is outside this
repository, and so is its gate `is_unspendable`.  The chainstate relies on
`insert` and `remove` being exact inverses that commute, and on both skipping
a provably unspendable output (`muhash.py`).  `commitment` is what inserting
each coin of a set once gives.
-/
import BtclibNode.Lib.FiniteMap
import BtclibNode.Chainstate.Block

namespace BtclibNode

/-- An accumulator `S` with the operations of `CoinStats`, and `is_unspendable`. -/
structure CoinStats (S : Type) where
  empty : S
  insert : OutPoint → Coin → S → S
  remove : OutPoint → Coin → S → S
  isUnspendable : Script → Bool
  remove_insert : ∀ o c s, remove o c (insert o c s) = s
  insert_remove : ∀ o c s, insert o c (remove o c s) = s
  insert_comm : ∀ o c o' c' s, insert o c (insert o' c' s) = insert o' c' (insert o c s)
  insert_unspendable : ∀ o c s, isUnspendable c.txOut.script = true → insert o c s = s

/-- Two of the running counters of `CoinStats`, the number of coins and their
amount, over scripts that are unspendable by `OP_RETURN` or by their size. -/
def CoinStats.counters : CoinStats (ℤ × ℤ) where
  empty := (0, 0)
  insert _ c s := if isUnspendable c.txOut.script then s else (s.1 + 1, s.2 + c.txOut.value)
  remove _ c s := if isUnspendable c.txOut.script then s else (s.1 - 1, s.2 - c.txOut.value)
  isUnspendable := isUnspendable
  remove_insert _ c s := by cases isUnspendable c.txOut.script <;> simp
  insert_remove _ c s := by cases isUnspendable c.txOut.script <;> simp
  insert_comm _ c _ c' s := by
    cases isUnspendable c.txOut.script <;> cases isUnspendable c'.txOut.script <;> simp
    omega
  insert_unspendable _ c s h := by simp [h]
where
  isUnspendable (script : Script) : Bool := script.head? == some 0x6a || 10000 < script.length

/-- `_BIP30_UNSPENDABLE_ORIGINALS`, the two blocks whose coinbase was duplicated
by a later one before it was spent. -/
def bip30UnspendableOriginals : List (ℕ × Hash) :=
  [(91722, 0x00000000000271a2dc26e7667f8419f2e15416dc6955e5a6c6cdf3f2574dd08e),
   (91812, 0x00000000000af0aed4792b1acee3d966af36cf5def14935db8de83d6f9306f2f)]

/-- `is_bip30_unspendable`. -/
def isBip30Unspendable (height : ℕ) (blockHash : Hash) : Bool :=
  (height, blockHash) ∈ bip30UnspendableOriginals

/-! ## Sets of coins -/

/-- A set of unspent outputs. -/
abbrev UtxoSet := Std.ExtTreeMap OutPoint Coin

namespace CoinStats

variable {S : Type} (C : CoinStats S)

/-- Insert every row. -/
def insertAll (rows : List (OutPoint × Coin)) (s : S) : S :=
  rows.foldl (fun s row => C.insert row.1 row.2 s) s

/-- Remove every row. -/
def removeAll (rows : List (OutPoint × Coin)) (s : S) : S :=
  rows.foldl (fun s row => C.remove row.1 row.2 s) s

/-- The accumulator into which every coin of `m` was inserted once. -/
def commitment (m : UtxoSet) : S := C.insertAll m.toList C.empty

@[simp] theorem insertAll_nil (s : S) : C.insertAll [] s = s := rfl

@[simp] theorem removeAll_nil (s : S) : C.removeAll [] s = s := rfl

theorem insertAll_cons (row : OutPoint × Coin) (rows : List (OutPoint × Coin)) (s : S) :
    C.insertAll (row :: rows) s = C.insertAll rows (C.insert row.1 row.2 s) := rfl

theorem removeAll_cons (row : OutPoint × Coin) (rows : List (OutPoint × Coin)) (s : S) :
    C.removeAll (row :: rows) s = C.removeAll rows (C.remove row.1 row.2 s) := rfl

/-! ## The operations commute -/

theorem remove_insert_comm (o : OutPoint) (c : Coin) (o' : OutPoint) (c' : Coin) (s : S) :
    C.remove o c (C.insert o' c' s) = C.insert o' c' (C.remove o c s) := by
  have h := C.insert_comm o' c' o c (C.remove o c s)
  rw [C.insert_remove] at h
  rw [h, C.remove_insert]

theorem insertAll_insert (rows : List (OutPoint × Coin)) (o : OutPoint) (c : Coin) (s : S) :
    C.insertAll rows (C.insert o c s) = C.insert o c (C.insertAll rows s) := by
  induction rows generalizing s with
  | nil => rfl
  | cons row rows ih => rw [insertAll_cons, insertAll_cons, ← ih, C.insert_comm]

theorem remove_insertAll (rows : List (OutPoint × Coin)) (o : OutPoint) (c : Coin) (s : S) :
    C.remove o c (C.insertAll rows s) = C.insertAll rows (C.remove o c s) := by
  induction rows generalizing s with
  | nil => rfl
  | cons row rows ih => rw [insertAll_cons, insertAll_cons, ih, C.remove_insert_comm]

theorem removeAll_insert (rows : List (OutPoint × Coin)) (o : OutPoint) (c : Coin) (s : S) :
    C.removeAll rows (C.insert o c s) = C.insert o c (C.removeAll rows s) := by
  induction rows generalizing s with
  | nil => rfl
  | cons row rows ih => rw [removeAll_cons, removeAll_cons, C.remove_insert_comm, ih]

theorem insertAll_append (rows rows' : List (OutPoint × Coin)) (s : S) :
    C.insertAll (rows ++ rows') s = C.insertAll rows' (C.insertAll rows s) :=
  List.foldl_append

theorem removeAll_append (rows rows' : List (OutPoint × Coin)) (s : S) :
    C.removeAll (rows ++ rows') s = C.removeAll rows' (C.removeAll rows s) :=
  List.foldl_append

theorem removeAll_insertAll_comm (rows rows' : List (OutPoint × Coin)) (s : S) :
    C.removeAll rows (C.insertAll rows' s) = C.insertAll rows' (C.removeAll rows s) := by
  induction rows' generalizing s with
  | nil => rfl
  | cons row rows' ih => rw [insertAll_cons, insertAll_cons, ih, removeAll_insert]

theorem removeAll_insertAll (rows : List (OutPoint × Coin)) (s : S) :
    C.removeAll rows (C.insertAll rows s) = s := by
  induction rows generalizing s with
  | nil => rfl
  | cons row rows ih =>
    rw [insertAll_cons, insertAll_insert, removeAll_cons, C.remove_insert, ih]

theorem insertAll_removeAll (rows : List (OutPoint × Coin)) (s : S) :
    C.insertAll rows (C.removeAll rows s) = s := by
  rw [← removeAll_insertAll_comm, removeAll_insertAll]

theorem insertAll_perm {rows rows' : List (OutPoint × Coin)} (h : rows.Perm rows') (s : S) :
    C.insertAll rows s = C.insertAll rows' s :=
  haveI : RightCommutative fun (s : S) (row : OutPoint × Coin) => C.insert row.1 row.2 s :=
    ⟨fun s a b => C.insert_comm b.1 b.2 a.1 a.2 s⟩
  h.foldl_eq s

/-! ## The commitment of a set -/

@[simp] theorem commitment_empty : C.commitment ∅ = C.empty := rfl

/-- A coin that was not in the set enters the commitment by one insert. -/
theorem commitment_insert {m : UtxoSet} {o : OutPoint} (c : Coin) (h : m[o]? = none) :
    C.commitment (m.insert o c) = C.insert o c (C.commitment m) := by
  unfold commitment
  rw [C.insertAll_perm (FiniteMap.toList_insert_perm c h), insertAll_cons, insertAll_insert]

/-- A coin of the set leaves the commitment by one remove. -/
theorem commitment_erase {m : UtxoSet} {o : OutPoint} {c : Coin} (h : m[o]? = some c) :
    C.commitment (m.erase o) = C.remove o c (C.commitment m) := by
  have hins := C.commitment_insert c (Std.ExtTreeMap.getElem?_erase_self (t := m) (k := o))
  rw [FiniteMap.insert_erase h] at hins
  rw [hins, C.remove_insert]

end CoinStats

end BtclibNode
