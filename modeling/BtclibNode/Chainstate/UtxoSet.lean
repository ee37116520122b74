/-
# The UTXO set as a plain map

What the staged index stands for: a map from outpoint to coin that a block
updates by deleting the prevout of every non-coinbase input and inserting every
output that is not provably unspendable, in block order, and that a reverse
patch takes back.  Nothing here knows of a store, a staging or a flush.
-/
import BtclibNode.Chainstate.CoinStats

namespace BtclibNode

namespace UtxoSet

/-- Delete every outpoint of a list. -/
def spend (m : UtxoSet) (os : List OutPoint) : UtxoSet := os.foldl (fun m o => m.erase o) m

/-- Insert every row of a list. -/
def create (m : UtxoSet) (rows : List (OutPoint × Coin)) : UtxoSet :=
  rows.foldl (fun m row => m.insert row.1 row.2) m

theorem spend_cons (m : UtxoSet) (o : OutPoint) (os : List OutPoint) :
    m.spend (o :: os) = spend (m.erase o) os := rfl

theorem create_cons (m : UtxoSet) (row : OutPoint × Coin) (rows : List (OutPoint × Coin)) :
    m.create (row :: rows) = create (m.insert row.1 row.2) rows := rfl

theorem create_append (m : UtxoSet) (rows rows' : List (OutPoint × Coin)) :
    m.create (rows ++ rows') = (m.create rows).create rows' := List.foldl_append

/-! ## Lookups -/

theorem getElem?_spend (m : UtxoSet) (os : List OutPoint) (p : OutPoint) :
    (m.spend os)[p]? = if p ∈ os then none else m[p]? := by
  induction os generalizing m with
  | nil => simp [spend]
  | cons o os ih =>
    rw [spend_cons, ih, FiniteMap.getElem?_erase]
    by_cases hp : p ∈ os
    · rw [if_pos hp, if_pos (List.mem_cons_of_mem o hp)]
    · rw [if_neg hp]
      by_cases ho : o = p
      · rw [if_pos ho, if_pos (by simp [ho])]
      · rw [if_neg ho, if_neg (by simp [hp, Ne.symm ho])]

theorem getElem?_create_of_notMem {m : UtxoSet} {rows : List (OutPoint × Coin)} {p : OutPoint}
    (h : p ∉ rows.map Prod.fst) : (m.create rows)[p]? = m[p]? := by
  induction rows generalizing m with
  | nil => rfl
  | cons row rows ih =>
    rw [List.map_cons, List.mem_cons, not_or] at h
    rw [create_cons, ih h.2, FiniteMap.getElem?_insert_ne m row.2 (Ne.symm h.1)]

theorem getElem?_create_of_mem {m : UtxoSet} {rows : List (OutPoint × Coin)} {p : OutPoint}
    {c : Coin} (hnodup : (rows.map Prod.fst).Nodup) (h : (p, c) ∈ rows) :
    (m.create rows)[p]? = some c := by
  induction rows generalizing m with
  | nil => simp at h
  | cons row rows ih =>
    rw [List.map_cons, List.nodup_cons] at hnodup
    rw [create_cons]
    rcases List.mem_cons.mp h with rfl | htl
    · rw [getElem?_create_of_notMem hnodup.1]
      exact Std.ExtTreeMap.getElem?_insert_self
    · exact ih hnodup.2 htl

end UtxoSet

/-! ## What a block creates -/

section Created

variable {S : Type} (C : CoinStats S)

/-- The coins of the outputs from `i` on, provably unspendable ones left out. -/
def spendableRows (txid : Hash) (height : ℕ) (isCoinbase : Bool) :
    ℕ → List TxOut → List (OutPoint × Coin)
  | _, [] => []
  | i, txOut :: rest =>
    if C.isUnspendable txOut.script then spendableRows txid height isCoinbase (i + 1) rest
    else (⟨txid, i⟩, ⟨txOut, height, isCoinbase⟩)
      :: spendableRows txid height isCoinbase (i + 1) rest

/-- The coins one transaction creates. -/
def Tx.createdRows (tx : Tx) (height : ℕ) (isCoinbase : Bool) : List (OutPoint × Coin) :=
  spendableRows C tx.id height isCoinbase 0 tx.vout

theorem mem_spendableRows {txid : Hash} {height : ℕ} {isCoinbase : Bool} {i : ℕ}
    {vout : List TxOut} {row : OutPoint × Coin}
    (h : row ∈ spendableRows C txid height isCoinbase i vout) :
    row.1.txid = txid ∧ i ≤ row.1.vout ∧ row.1.vout < i + vout.length := by
  induction vout generalizing i with
  | nil => simp [spendableRows] at h
  | cons txOut rest ih =>
    rw [spendableRows] at h
    have hrest : row ∈ spendableRows C txid height isCoinbase (i + 1) rest →
        row.1.txid = txid ∧ i ≤ row.1.vout ∧ row.1.vout < i + (txOut :: rest).length := by
      intro hmem
      obtain ⟨hid, hle, hlt⟩ := ih hmem
      rw [List.length_cons]
      exact ⟨hid, by omega, by omega⟩
    split at h
    · exact hrest h
    · rcases List.mem_cons.mp h with rfl | hmem
      · exact ⟨rfl, Nat.le_refl i, by simp⟩
      · exact hrest hmem

theorem mem_createdRows {tx : Tx} {height : ℕ} {isCoinbase : Bool} {row : OutPoint × Coin}
    (h : row ∈ tx.createdRows C height isCoinbase) : row.1 ∈ tx.outPoints := by
  obtain ⟨hid, -, hlt⟩ := mem_spendableRows C h
  exact Tx.mem_outPoints.mpr ⟨hid, by omega⟩

theorem nodup_spendableRows (txid : Hash) (height : ℕ) (isCoinbase : Bool) (i : ℕ)
    (vout : List TxOut) :
    ((spendableRows C txid height isCoinbase i vout).map Prod.fst).Nodup := by
  induction vout generalizing i with
  | nil => exact List.nodup_nil
  | cons txOut rest ih =>
    rw [spendableRows]
    split
    · exact ih (i + 1)
    · rw [List.map_cons, List.nodup_cons]
      refine ⟨?_, ih (i + 1)⟩
      intro hmem
      obtain ⟨row, hrow, hfst⟩ := List.mem_map.mp hmem
      obtain ⟨-, hle, -⟩ := mem_spendableRows C hrow
      rw [hfst] at hle
      exact absurd hle (by simp)

theorem nodup_createdRows (tx : Tx) (height : ℕ) (isCoinbase : Bool) :
    ((tx.createdRows C height isCoinbase).map Prod.fst).Nodup :=
  nodup_spendableRows C _ _ _ _ _

/-- The coins a block creates, in block order. -/
def Block.createdRows (block : Block) (height : ℕ) : List (OutPoint × Coin) :=
  match block.transactions with
  | [] => []
  | coinbase :: rest =>
    coinbase.createdRows C height true ++ rest.flatMap (fun tx => tx.createdRows C height false)

theorem CheckedBlock.createdRows_eq (block : CheckedBlock) (height : ℕ) :
    block.createdRows C height = block.coinbase.createdRows C height true
      ++ block.spends.flatMap fun tx => tx.createdRows C height false := by
  unfold Block.createdRows
  rw [block.transactions_eq]

/-! ## What a block does to the set -/

/-- A non-coinbase transaction deletes its prevouts and inserts its outputs. -/
def UtxoSet.connectTx (height : ℕ) (m : UtxoSet) (tx : Tx) : UtxoSet :=
  (m.spend tx.vin).create (tx.createdRows C height false)

/-- A block inserts its coinbase's outputs, then connects its other transactions. -/
def UtxoSet.connect (height : ℕ) (m : UtxoSet) (block : Block) : UtxoSet :=
  match block.transactions with
  | [] => m
  | coinbase :: rest =>
    rest.foldl (UtxoSet.connectTx C height) (m.create (coinbase.createdRows C height true))

end Created

/-! ## A block connected half-way -/

/-- The rows `removed` are the prevouts `os`, each spent once, with the coins
`m` holds there. -/
structure UtxoSet.Takes (m : UtxoSet) (os : List OutPoint) (removed : List (OutPoint × Coin)) :
    Prop where
  fst_eq : removed.map Prod.fst = os
  nodup : os.Nodup
  held : ∀ row ∈ removed, m[row.1]? = some row.2

theorem UtxoSet.Takes.nil (m : UtxoSet) : m.Takes [] [] := ⟨rfl, List.nodup_nil, by simp⟩

theorem UtxoSet.Takes.cons {m : UtxoSet} {o : OutPoint} {c : Coin} {os : List OutPoint}
    {removed : List (OutPoint × Coin)} (hm : m[o]? = some c)
    (h : UtxoSet.Takes (m.erase o) os removed) : m.Takes (o :: os) ((o, c) :: removed) := by
  have hne : ∀ row ∈ removed, o ≠ row.1 := by
    intro row hrow heq
    have hheld := h.held row hrow
    rw [← heq, Std.ExtTreeMap.getElem?_erase_self] at hheld
    cases hheld
  refine ⟨by rw [List.map_cons, h.fst_eq], List.nodup_cons.mpr ⟨?_, h.nodup⟩, ?_⟩
  · intro hmem
    rw [← h.fst_eq, List.mem_map] at hmem
    obtain ⟨row, hrow, hfst⟩ := hmem
    exact hne row hrow hfst.symm
  · intro row hrow
    rcases List.mem_cons.mp hrow with rfl | htl
    · exact hm
    · rw [← h.held row htl, FiniteMap.getElem?_erase_ne m (hne row htl)]

theorem UtxoSet.Takes.exists_held {m : UtxoSet} {os : List OutPoint}
    {removed : List (OutPoint × Coin)} (h : m.Takes os removed) {o : OutPoint} (ho : o ∈ os) :
    ∃ c, m[o]? = some c := by
  rw [← h.fst_eq, List.mem_map] at ho
  obtain ⟨row, hrow, rfl⟩ := ho
  exact ⟨row.2, h.held row hrow⟩

/-- The transactions `done` of `block` have taken `m₀` to `m`, spending `removed`
and creating `created`. -/
structure Progress (block : CheckedBlock) (m₀ : UtxoSet) (done : List Tx)
    (removed created : List (OutPoint × Coin)) (m : UtxoSet) : Prop where
  map_eq : m = (m₀.create created).spend (removed.map Prod.fst)
  done_block : ∀ tx ∈ done, tx ∈ block.coinbase :: block.spends
  ids_nodup : (done.map Tx.id).Nodup
  created_block : ∀ row ∈ created, ∃ tx ∈ done, row.1 ∈ tx.outPoints
  created_nodup : (created.map Prod.fst).Nodup
  removed_nodup : (removed.map Prod.fst).Nodup
  removed_held : ∀ row ∈ removed, (m₀.create created)[row.1]? = some row.2
  vin_removed : ∀ tx ∈ done, tx.isCoinbase = false → ∀ o ∈ tx.vin, o ∈ removed.map Prod.fst

section Progress

variable {S : Type} {C : CoinStats S} {block : CheckedBlock} {m₀ m : UtxoSet} {done : List Tx}
  {removed created : List (OutPoint × Coin)} {height : ℕ} {tx : Tx}
  {rows : List (OutPoint × Coin)}

/-- The outpoints the block names are free before it, as its BIP30 check asks. -/
def CheckedBlock.Free (block : CheckedBlock) (m₀ : UtxoSet) : Prop :=
  ∀ tx ∈ block.coinbase :: block.spends, ∀ o ∈ tx.outPoints, m₀[o]? = none

/-- After the coinbase. -/
theorem Progress.coinbase :
    Progress block m₀ [block.coinbase] [] (block.coinbase.createdRows C height true)
      (m₀.create (block.coinbase.createdRows C height true)) where
  map_eq := rfl
  done_block := by simp
  ids_nodup := by simp
  created_block row hrow := ⟨block.coinbase, by simp, mem_createdRows C hrow⟩
  created_nodup := nodup_createdRows C _ _ _
  removed_nodup := List.nodup_nil
  removed_held := by simp
  vin_removed tx htx hcb := by
    rw [List.mem_singleton] at htx
    rw [htx, block.coinbase_isCoinbase] at hcb
    cases hcb

/-- A transaction whose prevouts are there has an id no earlier one has: one of
the same id would have spent them. -/
theorem Progress.id_fresh (h : Progress block m₀ done removed created m)
    (htx : tx ∈ block.spends) (htakes : m.Takes tx.vin rows) : tx.id ∉ done.map Tx.id := by
  intro hid
  obtain ⟨tx', htx', hid'⟩ := List.mem_map.mp hid
  have hvin : tx'.vin = tx.vin :=
    block.id_commits tx' (h.done_block tx' htx') tx (List.mem_cons_of_mem _ htx) hid'
  have hcb : tx'.isCoinbase = false := by
    rw [← block.spends_not_coinbase tx htx]
    unfold Tx.isCoinbase
    rw [hvin]
  obtain ⟨o, ho⟩ := List.exists_mem_of_ne_nil _ (block.spends_vin tx htx)
  obtain ⟨c, hc⟩ := htakes.exists_held ho
  rw [h.map_eq, UtxoSet.getElem?_spend, if_pos (h.vin_removed tx' htx' hcb o (hvin ▸ ho))] at hc
  cases hc

/-- The outpoints of a transaction of a new id are free. -/
theorem Progress.outPoints_free (h : Progress block m₀ done removed created m)
    (hfree : block.Free m₀) (htx : tx ∈ block.spends) (hid : tx.id ∉ done.map Tx.id)
    {o : OutPoint} (ho : o ∈ tx.outPoints) : (m₀.create created)[o]? = none := by
  rw [UtxoSet.getElem?_create_of_notMem, hfree tx (List.mem_cons_of_mem _ htx) o ho]
  intro hmem
  obtain ⟨row, hrow, rfl⟩ := List.mem_map.mp hmem
  obtain ⟨tx', htx', hrow'⟩ := h.created_block row hrow
  refine hid (List.mem_map.mpr ⟨tx', htx', ?_⟩)
  rw [← (Tx.mem_outPoints.mp ho).1, ← (Tx.mem_outPoints.mp hrow').1]

/-- What the set holds was there before the block or was created by it. -/
theorem Progress.getElem?_eq_none (h : Progress block m₀ done removed created m) {o : OutPoint}
    (ho : (m₀.create created)[o]? = none) : m[o]? = none := by
  rw [h.map_eq, UtxoSet.getElem?_spend, ho, ite_self]

/-- **One more transaction.** -/
theorem Progress.step (h : Progress block m₀ done removed created m) (hfree : block.Free m₀)
    (htx : tx ∈ block.spends) (htakes : m.Takes tx.vin rows) :
    Progress block m₀ (done ++ [tx]) (removed ++ rows) (created ++ tx.createdRows C height false)
      (m.connectTx C height tx) := by
  have hid := h.id_fresh htx htakes
  have hnew : ∀ row ∈ tx.createdRows C height false, (m₀.create created)[row.1]? = none :=
    fun row hrow => h.outPoints_free hfree htx hid (mem_createdRows C hrow)
  have hheld : ∀ row ∈ removed ++ rows, (m₀.create created)[row.1]? = some row.2 := by
    intro row hrow
    rcases List.mem_append.mp hrow with hold | hnow
    · exact h.removed_held row hold
    · have hm := htakes.held row hnow
      rw [h.map_eq, UtxoSet.getElem?_spend] at hm
      split at hm
      · cases hm
      · exact hm
  -- a created outpoint was free before, a spent one held a coin
  have hdisj : ∀ row ∈ tx.createdRows C height false,
      row.1 ∉ (removed ++ rows).map Prod.fst := by
    intro row hrow hmem
    obtain ⟨row', hrow', hfst⟩ := List.mem_map.mp hmem
    have hsome := hheld row' hrow'
    rw [hfst, hnew row hrow] at hsome
    cases hsome
  have hnodup := nodup_createdRows C tx height false
  constructor
  case map_eq =>
    apply Std.ExtTreeMap.ext_getElem?
    intro o
    unfold UtxoSet.connectTx
    rw [UtxoSet.create_append, UtxoSet.getElem?_spend]
    by_cases ho : o ∈ (tx.createdRows C height false).map Prod.fst
    · obtain ⟨row, hrow, rfl⟩ := List.mem_map.mp ho
      rw [if_neg (hdisj row hrow), UtxoSet.getElem?_create_of_mem hnodup hrow,
        UtxoSet.getElem?_create_of_mem hnodup hrow]
    · rw [UtxoSet.getElem?_create_of_notMem ho, UtxoSet.getElem?_create_of_notMem ho,
        UtxoSet.getElem?_spend, h.map_eq, UtxoSet.getElem?_spend, List.map_append,
        htakes.fst_eq]
      by_cases hvin : o ∈ tx.vin
      · rw [if_pos hvin, if_pos (List.mem_append_right _ hvin)]
      · by_cases hold : o ∈ removed.map Prod.fst
        · rw [if_neg hvin, if_pos hold, if_pos (List.mem_append_left _ hold)]
        · rw [if_neg hvin, if_neg hold, if_neg (by simp only [List.mem_append, hvin, hold, or_self,
            not_false_eq_true])]
  case done_block =>
    intro tx' htx'
    rcases List.mem_append.mp htx' with hold | hnow
    · exact h.done_block tx' hold
    · rw [List.mem_singleton.mp hnow]
      exact List.mem_cons_of_mem _ htx
  case ids_nodup =>
    rw [List.map_append, List.map_singleton, List.nodup_append]
    refine ⟨h.ids_nodup, List.nodup_singleton _, ?_⟩
    rintro id hold id' hnow rfl
    exact hid (List.mem_singleton.mp hnow ▸ hold)
  case created_block =>
    intro row hrow
    rcases List.mem_append.mp hrow with hold | hnow
    · obtain ⟨tx', htx', ho⟩ := h.created_block row hold
      exact ⟨tx', List.mem_append_left _ htx', ho⟩
    · exact ⟨tx, by simp, mem_createdRows C hnow⟩
  case created_nodup =>
    rw [List.map_append, List.nodup_append]
    refine ⟨h.created_nodup, hnodup, ?_⟩
    rintro o hold o' hnow rfl
    obtain ⟨row, hrow, hfst⟩ := List.mem_map.mp hnow
    obtain ⟨row', hrow', hfst'⟩ := List.mem_map.mp hold
    have hsome := UtxoSet.getElem?_create_of_mem (m := m₀) h.created_nodup hrow'
    rw [hfst', ← hfst, hnew row hrow] at hsome
    cases hsome
  case removed_nodup =>
    rw [List.map_append, htakes.fst_eq, List.nodup_append]
    refine ⟨h.removed_nodup, htakes.nodup, ?_⟩
    rintro o hold o' hnow rfl
    obtain ⟨c, hc⟩ := htakes.exists_held hnow
    rw [h.map_eq, UtxoSet.getElem?_spend, if_pos hold] at hc
    cases hc
  case removed_held =>
    intro row hrow
    rw [UtxoSet.create_append, UtxoSet.getElem?_create_of_notMem, hheld row hrow]
    intro hmem
    obtain ⟨row', hrow', hfst⟩ := List.mem_map.mp hmem
    exact hdisj row' hrow' (hfst ▸ List.mem_map_of_mem hrow)
  case vin_removed =>
    intro tx' htx' hcb o ho
    rw [List.map_append]
    rcases List.mem_append.mp htx' with hold | hnow
    · exact List.mem_append_left _ (h.vin_removed tx' hold hcb o ho)
    · rw [List.mem_singleton.mp hnow, ← htakes.fst_eq] at ho
      exact List.mem_append_right _ ho

end Progress

/-! ## The commitment of a block's coins -/

/-- Coins created at free outpoints enter the commitment by one insert each. -/
theorem CoinStats.commitment_create {S : Type} (C : CoinStats S) {m : UtxoSet}
    {rows : List (OutPoint × Coin)} (hnodup : (rows.map Prod.fst).Nodup)
    (hfree : ∀ row ∈ rows, m[row.1]? = none) :
    C.commitment (m.create rows) = C.insertAll rows (C.commitment m) := by
  induction rows generalizing m with
  | nil => rfl
  | cons row rest ih =>
    obtain ⟨hm, hrest⟩ := List.forall_mem_cons.mp hfree
    rw [List.map_cons, List.nodup_cons] at hnodup
    rw [UtxoSet.create_cons, C.insertAll_cons, ← C.commitment_insert row.2 hm]
    refine ih hnodup.2 fun row' hrow' => ?_
    rw [FiniteMap.getElem?_insert_ne, hrest row' hrow']
    intro heq
    exact hnodup.1 (List.mem_map.mpr ⟨row', hrow', heq.symm⟩)

/-- Spent coins leave the commitment by one remove each. -/
theorem CoinStats.commitment_spend {S : Type} (C : CoinStats S) {m : UtxoSet}
    {rows : List (OutPoint × Coin)} (hnodup : (rows.map Prod.fst).Nodup)
    (hheld : ∀ row ∈ rows, m[row.1]? = some row.2) :
    C.commitment (m.spend (rows.map Prod.fst)) = C.removeAll rows (C.commitment m) := by
  induction rows generalizing m with
  | nil => rfl
  | cons row rest ih =>
    obtain ⟨hm, hrest⟩ := List.forall_mem_cons.mp hheld
    rw [List.map_cons, List.nodup_cons] at hnodup
    rw [List.map_cons, UtxoSet.spend_cons, C.removeAll_cons, ← C.commitment_erase hm]
    refine ih hnodup.2 fun row' hrow' => ?_
    rw [FiniteMap.getElem?_erase_ne, hrest row' hrow']
    intro heq
    exact hnodup.1 (List.mem_map.mpr ⟨row', hrow', heq.symm⟩)

/-! ## What a reverse patch does to the set -/

/-- The patch `rev` of a block that created the coins `created` takes `m` back
to `m₀`: every prevout it restores is absent from `m`, every outpoint it drops
is there once the prevouts are, and both together give `m₀`. -/
structure RevBlock.Undoes (rev : RevBlock) (created : List (OutPoint × Coin))
    (m₀ m : UtxoSet) : Prop where
  toRemove_eq : rev.toRemove = created.map Prod.fst
  toAdd_nodup : (rev.toAdd.map Prod.fst).Nodup
  created_nodup : (created.map Prod.fst).Nodup
  toAdd_absent : ∀ row ∈ rev.toAdd, m[row.1]? = none
  created_held : ∀ row ∈ created, m[row.1]? = some row.2 ∨ row ∈ rev.toAdd
  restores : (m.create rev.toAdd).spend rev.toRemove = m₀

/-- The coin a created outpoint holds once the prevouts are restored. -/
theorem RevBlock.Undoes.getElem?_create {rev : RevBlock} {created : List (OutPoint × Coin)}
    {m₀ m : UtxoSet} (h : rev.Undoes created m₀ m) {row : OutPoint × Coin}
    (hrow : row ∈ created) : (m.create rev.toAdd)[row.1]? = some row.2 := by
  rcases h.created_held row hrow with hm | hadd
  · rw [UtxoSet.getElem?_create_of_notMem ?_, hm]
    intro hmem
    obtain ⟨row', hrow', hfst⟩ := List.mem_map.mp hmem
    rw [← hfst, h.toAdd_absent row' hrow'] at hm
    cases hm
  · exact UtxoSet.getElem?_create_of_mem h.toAdd_nodup hadd

/-- **The spent coins and the created outpoints of a connected block take it back.** -/
theorem Progress.undoes {block : CheckedBlock} {m₀ m : UtxoSet} {done : List Tx}
    {removed created : List (OutPoint × Coin)} (h : Progress block m₀ done removed created m)
    (hfree : block.Free m₀) (hash : Hash) :
    RevBlock.Undoes ⟨hash, removed, created.map Prod.fst⟩ created m₀ m := by
  have hcreated : ∀ o ∈ created.map Prod.fst, m₀[o]? = none := by
    intro o ho
    obtain ⟨row, hrow, rfl⟩ := List.mem_map.mp ho
    obtain ⟨tx, htx, hout⟩ := h.created_block row hrow
    exact hfree tx (h.done_block tx htx) _ hout
  constructor
  case toRemove_eq => rfl
  case toAdd_nodup => exact h.removed_nodup
  case created_nodup => exact h.created_nodup
  case toAdd_absent =>
    intro row hrow
    rw [h.map_eq, UtxoSet.getElem?_spend, if_pos (List.mem_map_of_mem hrow)]
  case created_held =>
    intro row hrow
    have hsome := UtxoSet.getElem?_create_of_mem (m := m₀) h.created_nodup hrow
    rw [h.map_eq, UtxoSet.getElem?_spend]
    by_cases hspent : row.1 ∈ removed.map Prod.fst
    · obtain ⟨row', hrow', hfst⟩ := List.mem_map.mp hspent
      have heq : row' = row := by
        have hheld := h.removed_held row' hrow'
        rw [hfst, hsome, Option.some.injEq] at hheld
        exact Prod.ext hfst hheld.symm
      exact .inr (heq ▸ hrow')
    · rw [if_neg hspent]
      exact .inl hsome
  case restores =>
    apply Std.ExtTreeMap.ext_getElem?
    intro o
    rw [UtxoSet.getElem?_spend]
    by_cases ho : o ∈ created.map Prod.fst
    · rw [if_pos ho, hcreated o ho]
    · rw [if_neg ho]
      by_cases hspent : o ∈ removed.map Prod.fst
      · obtain ⟨row, hrow, rfl⟩ := List.mem_map.mp hspent
        rw [UtxoSet.getElem?_create_of_mem h.removed_nodup hrow, ← h.removed_held row hrow,
          UtxoSet.getElem?_create_of_notMem ho]
      · rw [UtxoSet.getElem?_create_of_notMem hspent, h.map_eq, UtxoSet.getElem?_spend,
          if_neg hspent, UtxoSet.getElem?_create_of_notMem ho]

end BtclibNode
