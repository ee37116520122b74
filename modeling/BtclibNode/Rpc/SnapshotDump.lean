/-
# A dumped snapshot is the replayed set

Whatever the chain becomes at the yields, a dump that answers holds the coins of
the blocks up to its base and counts those blocks' transactions.  The coins of one
txid go by their index, and not by their key, in which the index is little-endian.
-/
import Mathlib
import BtclibNode.Rpc.SnapshotRun

namespace BtclibNode.Snapshot

open Overlay StateExcept

variable {S : Type} {C : CoinStats S} {b : ChainBlocks} {env : SnapshotEnv S}
  {rules : SnapshotRules S}

/-- **A dump, to a file or to a pipe, is the set of the blocks up to its base.** -/
theorem dump_is_replayed_set (hworlds : ∀ k, (env.worlds k).Consistent C b)
    (target : Option ℕ) (options : List (String × Json)) (s : DumpState) (hfile : s.file = []) :
    Sat (dumpToFile rules env target options) s (Dumped C b env rules target) (Ended env) ∧
      Sat (dumpToPipe rules env target options) s
        (Dumped C b env rules (pipeTarget (chainAt env s.resumes) target)) (Ended env) :=
  ⟨sat_dumpToFile hworlds hfile, sat_dumpToPipe hworlds hfile⟩

/-! ## A chain whose coins are rolled back -/

/-- A coinbase of 257 outputs, all but two of them unspendable. -/
def longCoinbase : Tx :=
  ⟨7, [OutPoint.null],
    (List.range 257).map fun i => ⟨50, if i = 1 ∨ i = 256 then [] else [0x6a]⟩⟩

/-- The coin of an output of `longCoinbase`. -/
def longCoin : Coin := ⟨⟨50, []⟩, 1, true⟩

/-- A coinbase with no output. -/
def emptyCoinbase (id : Hash) : Tx := ⟨id, [OutPoint.null], []⟩

theorem no_spends_coinbase : ∀ tx ∈ ([] : List Tx), tx.isCoinbase = false := by simp

/-- A block with nothing but its coinbase. -/
def coinbaseBlock (hash previous : Hash) (tx : Tx) (h : tx.isCoinbase = true) : CheckedBlock where
  header := ⟨hash, previous, 1, 0, 0⟩
  transactions := [tx]
  coinbase := tx
  spends := []
  transactions_eq := rfl
  coinbase_isCoinbase := h
  spends_not_coinbase := no_spends_coinbase
  spends_vin := by simp
  id_commits := by simp

/-- A block that spends one of the coins of `longCoinbase`. -/
def spendingBlock : CheckedBlock where
  header := ⟨3, 2, 1, 0, 0⟩
  transactions := [emptyCoinbase 8, ⟨9, [⟨7, 1⟩], []⟩]
  coinbase := emptyCoinbase 8
  spends := [⟨9, [⟨7, 1⟩], []⟩]
  transactions_eq := rfl
  coinbase_isCoinbase := rfl
  spends_not_coinbase := by decide
  spends_vin := by decide
  id_commits := by decide

/-- The chain of genesis and the two blocks. -/
def longBlocks : ChainBlocks where
  genesis := 1
  block h :=
    if h = 2 then coinbaseBlock 2 1 longCoinbase rfl
    else if h = 3 then spendingBlock
    else coinbaseBlock 1 0 (emptyCoinbase 6) rfl
  id_lt := by
    intro h tx htx
    split at htx
    · obtain rfl := List.mem_singleton.mp htx
      decide
    · split at htx
      · revert tx
        decide
      · obtain rfl := List.mem_singleton.mp htx
        decide
  vout_le := by
    intro h tx htx
    split at htx
    · obtain rfl := List.mem_singleton.mp htx
      rw [longCoinbase, List.length_map, List.length_range]
      decide
    · split at htx
      · revert tx
        decide
      · obtain rfl := List.mem_singleton.mp htx
        decide

/-- The encodings of the small numbers of the sample, and no hash. -/
def smallRules : SnapshotRules (ℤ × ℤ) where
  magic := [0, 0, 0, 0]
  varInt n := if n < 253 then some [n.toUInt8] else some (253 :: LittleEndian.encode 2 n)
  varint n _ := if n < 128 then some [n.toUInt8] else none
  compressAmount v := if v = 50 then some 42 else none
  scriptOctets s := if s.length < 122 then some ((s.length + 6).toUInt8 :: s) else none
  txOutSer o _ := o
  sha256 x := x
  transactionOutputCount s := s.1.toNat

/-- The undo data of `spendingBlock`. -/
def spendingRev : RevBlock := ⟨3, [(⟨7, 1⟩, longCoin)], []⟩

/-- The node with the two blocks connected and flushed. -/
def longWorld : SnapshotWorld (ℤ × ℤ) where
  activeChain := [1, 2, 3]
  db := (∅ : CoinTable).insert ⟨7, 256⟩ (.coin longCoin)
  utxoIndex := UtxoIndex.init (1, 50)
  txCount h := some (longBlocks.block h).transactions.length
  revBlock h := if h = 3 then some spendingRev else none
  prunedUpTo := 0

/-- The store before `spendingBlock`. -/
def longStore : CoinTable :=
  ((∅ : CoinTable).insert ⟨7, 1⟩ (.coin longCoin)).insert ⟨7, 256⟩ (.coin longCoin)

/-- The node before `spendingBlock`. -/
def earlierWorld : SnapshotWorld (ℤ × ℤ) where
  activeChain := [1, 2]
  db := longStore
  utxoIndex := UtxoIndex.init (2, 100)
  txCount h := some (longBlocks.block h).transactions.length
  revBlock _ := none
  prunedUpTo := 0

/-- A node at rest, and a disk that works. -/
def quietEnv (w : SnapshotWorld (ℤ × ℤ)) : SnapshotEnv (ℤ × ℤ) where
  worlds _ := w
  stopping _ := false
  diskFails _ := false
  pipe _ := .takes 100
  opens _ := .opened
  patience := 10

/-- The call at its start. -/
def dumpStart : DumpState := ⟨0, 0, 0, 0, 0, []⟩

theorem isChain_longBlocks : longBlocks.IsChain [1, 2, 3] := by
  refine ⟨rfl, fun i h p hi hp => ?_⟩
  match i, hi, hp with
  | 0, hi, hp =>
    cases hi
    cases hp
    rfl
  | 1, hi, hp =>
    cases hi
    cases hp
    rfl
  | i + 2, hi, _ => cases hi

theorem replay_earlier : longBlocks.replay CoinStats.counters [1, 2] = longStore.coins := by
  decide +kernel

theorem fits_longStore : ∀ o ∈ longStore, o.Fits := by
  intro o ho
  rcases Std.ExtTreeMap.mem_insert.mp ho with h | h
  · obtain rfl := Std.LawfulEqOrd.eq_of_compare h
    constructor <;> decide
  · rcases Std.ExtTreeMap.mem_insert.mp h with h | h
    · obtain rfl := Std.LawfulEqOrd.eq_of_compare h
      constructor <;> decide
    · exact absurd h Std.ExtTreeMap.not_mem_empty

theorem consistent_earlierWorld : earlierWorld.Consistent CoinStats.counters longBlocks where
  chain := by
    refine ⟨rfl, fun i h p hi hp => ?_⟩
    match i, hi, hp with
    | 0, hi, hp => exact isChain_longBlocks.2 0 h p hi hp
    | i + 1, hi, _ => cases hi
  agrees := by
    show UtxoIndex.Agrees _ _ (longBlocks.replay CoinStats.counters [1, 2])
    rw [replay_earlier]
    exact UtxoIndex.agrees_init _ _
  keys := fits_longStore
  patches := nofun
  txCounts := fun _ _ h => (Option.some.inj h).symm

theorem consistent_longWorld : longWorld.Consistent CoinStats.counters longBlocks where
  chain := isChain_longBlocks
  agrees := by
    have hcoins : longBlocks.replay CoinStats.counters longWorld.activeChain =
        longWorld.db.coins := by
      decide +kernel
    rw [hcoins]
    exact UtxoIndex.agrees_init _ _
  keys := by
    intro o ho
    rcases Std.ExtTreeMap.mem_insert.mp ho with h | h
    · obtain rfl := Std.LawfulEqOrd.eq_of_compare h
      constructor <;> decide
    · exact absurd h Std.ExtTreeMap.not_mem_empty
  patches := by
    intro i h rev hi hne hrev
    obtain ⟨rfl, rfl⟩ : h = 3 ∧ spendingRev = rev := by
      unfold longWorld at hrev
      dsimp only at hrev
      split at hrev
      · next h3 => exact ⟨h3, Option.some.inj hrev⟩
      · cases hrev
    match i, hi with
    | 0, hi => cases hi
    | 1, hi => cases hi
    | i + 3, hi => cases hi
    | 2, _ =>
      refine fun _ => ⟨longStore, longStore.read, UtxoIndex.init (2, 100), ?_⟩
      have hrun : (match UtxoIndex.addBlock CoinStats.counters longStore.read
          (longBlocks.block 3).toBlock 2 true (UtxoIndex.init (2, 100)) with
        | .ok r _ => some r.2
        | .error _ _ => none) = some spendingRev := by decide +kernel
      split at hrun
      · next r t heq =>
        obtain ⟨txs, rev⟩ := r
        cases hrun
        refine ⟨t, txs, longStore.faithful_read, ?_, heq⟩
        show UtxoIndex.Agrees _ _ (longBlocks.replay CoinStats.counters [1, 2])
        rw [replay_earlier]
        exact UtxoIndex.agrees_init _ _
      · cases hrun
  txCounts := fun _ _ h => (Option.some.inj h).symm

/-- A dump of the block below the tip, rolled back in memory. -/
theorem dump_is_replayed_set_below :
    (∀ k, ((quietEnv longWorld).worlds k).Consistent CoinStats.counters longBlocks) ∧
      Sat (dumpToFile smallRules (quietEnv longWorld) (some 1) [("in_memory", .bool true)])
        dumpStart (Dumped CoinStats.counters longBlocks (quietEnv longWorld) smallRules (some 1))
        (Ended (quietEnv longWorld)) :=
  ⟨fun _ => consistent_longWorld,
    (dump_is_replayed_set (fun _ => consistent_longWorld) _ _ dumpStart rfl).1⟩

/-- **The coins are not in the order of their keys**: output 1 of a transaction is
written before its output 256, whose key is the lesser. -/
theorem dump_not_in_key_order : ∃ answer t metadata coins,
    (∀ k, ((quietEnv earlierWorld).worlds k).Consistent CoinStats.counters longBlocks) ∧
      dumpToFile smallRules (quietEnv earlierWorld) none [] dumpStart
        = .ok answer t ∧
      serializeMetadata smallRules 2 2 = some metadata ∧
      serializeTxCoins smallRules (txidOctets 7) [(1, longCoin), (256, longCoin)] = some coins ∧
      t.file = metadata ++ coins ∧ compare (utxoKey ⟨7, 256⟩) (utxoKey ⟨7, 1⟩) = .lt := by
  have hrun : (match dumpToFile smallRules (quietEnv earlierWorld) none []
      dumpStart with
    | .ok _ t => some t.file
    | .error _ _ => none) = (do
      let metadata ← serializeMetadata smallRules 2 2
      let coins ← serializeTxCoins smallRules (txidOctets 7) [(1, longCoin), (256, longCoin)]
      return metadata ++ coins) := by decide +kernel
  have hmetadata : (serializeMetadata smallRules 2 2).isSome = true := by decide +kernel
  have hcoins : (serializeTxCoins smallRules (txidOctets 7)
      [(1, longCoin), (256, longCoin)]).isSome = true := by decide +kernel
  obtain ⟨metadata, hm⟩ := Option.isSome_iff_exists.mp hmetadata
  obtain ⟨coins, hc⟩ := Option.isSome_iff_exists.mp hcoins
  rw [hm, hc] at hrun
  split at hrun
  · next answer t heq =>
    exact ⟨answer, t, metadata, coins, fun _ => consistent_earlierWorld, heq, hm, hc,
      Option.some.inj hrun, by decide +kernel⟩
  · cases hrun

end BtclibNode.Snapshot
