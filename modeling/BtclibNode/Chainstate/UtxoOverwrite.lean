/-
# A coin written over another

`_stage_creation` and `_spend_staged` of `chainstate/utxo_index.py`, by what the overlays say of
one outpoint: a coin put where another is unspent, as the two exemptions from BIP30 do, and taken
out again.
-/
import BtclibNode.Lib.Run
import BtclibNode.Chainstate.UtxoRefinement

namespace BtclibNode

open StateExcept

/-- The prevouts that the transactions of a block name, past its coinbase. -/
def Block.prevouts (block : Block) : List OutPoint :=
  block.transactions.tail.flatMap Tx.vin

namespace UtxoIndex

variable {S : Type} {C : CoinStats S}

/-! ## One outpoint -/

/-- What the overlays say of an outpoint. -/
structure Cell where
  updated : Option Coin
  removed : Bool
  stored : Bool
  deriving DecidableEq, Repr

/-- The cell of an outpoint. -/
def cell (s : UtxoIndex S) (o : OutPoint) : Cell :=
  ⟨s.data.updatedUtxoSet[o]?, decide (o ∈ s.data.removedUtxos), decide (o ∈ s.data.storedUtxos)⟩

namespace Cell

/-- A coin is put at the outpoint. -/
def put (x : Cell) (c : Coin) : Cell := ⟨some c, false, x.stored || x.removed⟩

/-- The coin at the outpoint is taken out; `record` is what the store holds there. -/
def take (record : Option CoinRecord) (x : Cell) : Option Cell :=
  if x.removed then none
  else
    match x.updated, record with
    | some _, _ => some ⟨none, x.stored, false⟩
    | none, some (.coin _) => some { x with removed := true }
    | none, _ => none

/-- Coins are taken out one after another. -/
def takes (record : Option CoinRecord) : ℕ → Cell → Option Cell
  | 0, x => some x
  | n + 1, x => (x.take record).bind (takes record n)

/-- The coins of the rows of an outpoint are put one after another. -/
def puts (o : OutPoint) (rows : List (OutPoint × Coin)) (x : Cell) : Cell :=
  rows.foldl (fun x row => if row.1 = o then x.put row.2 else x) x

/-- The coin that the outpoint resolves to. -/
def coin (record : Option CoinRecord) (x : Cell) : Option Coin :=
  x.updated.or (if x.removed then none else record.bind CoinRecord.coin?)

variable {record : Option CoinRecord} {o : OutPoint} {x y : Cell}

theorem takes_add (m n : ℕ) (x : Cell) :
    x.takes record (m + n) = (x.takes record m).bind (takes record n) := by
  induction m generalizing x with
  | zero =>
    rw [Nat.zero_add]
    rfl
  | succ m ih =>
    rw [Nat.add_right_comm, takes, takes, Option.bind_assoc]
    congr 1
    funext y
    exact ih y

theorem puts_cons (row : OutPoint × Coin) (rows : List (OutPoint × Coin)) (x : Cell) :
    puts o (row :: rows) x = puts o rows (if row.1 = o then x.put row.2 else x) := rfl

theorem puts_append (rows rows' : List (OutPoint × Coin)) (x : Cell) :
    puts o (rows ++ rows') x = puts o rows' (puts o rows x) := List.foldl_append

theorem puts_of_notMem {rows : List (OutPoint × Coin)} (h : o ∉ rows.map Prod.fst) :
    puts o rows x = x := by
  induction rows with
  | nil => rfl
  | cons row rows ih =>
    rw [List.map_cons, List.mem_cons, not_or] at h
    rw [puts_cons, if_neg (Ne.symm h.1), ih h.2]

/-- However many are put, the outpoint holds one, and where it was removed the store is known to
hold a record. -/
theorem puts_of_mem {rows : List (OutPoint × Coin)} (h : o ∈ rows.map Prod.fst) :
    ∃ c, puts o rows x = ⟨some c, false, x.stored || x.removed⟩ := by
  induction rows generalizing x with
  | nil => cases h
  | cons row rows ih =>
    rw [puts_cons]
    by_cases hrest : o ∈ rows.map Prod.fst
    · obtain ⟨c, hc⟩ := ih (x := if row.1 = o then x.put row.2 else x) hrest
      refine ⟨c, hc.trans ?_⟩
      split
      · unfold put
        rw [Bool.or_false]
      · rfl
    · have hrow : row.1 = o := by
        rcases List.mem_cons.mp h with heq | hmem
        · exact heq.symm
        · exact absurd hmem hrest
      rw [puts_of_notMem hrest, if_pos hrow]
      exact ⟨row.2, rfl⟩

/-- A coin that is taken out was staged, or stored and not removed. -/
theorem take_some (h : x.take record = some y) : x.removed = false ∧
    ((x.updated ≠ none ∧ y = ⟨none, x.stored, false⟩) ∨
      x.updated = none ∧ y = ⟨none, true, x.stored⟩) := by
  unfold take at h
  split at h
  · cases h
  · rename_i hremoved
    refine ⟨eq_false_of_ne_true hremoved, ?_⟩
    split at h
    · rename_i hupdated
      left
      rw [hupdated]
      exact ⟨nofun, (Option.some.inj h).symm⟩
    · rename_i hupdated
      right
      rw [← Option.some.inj h, hupdated]
      exact ⟨rfl, rfl⟩
    · cases h

theorem coin_of_removed (h : x.updated = none) (hremoved : x.removed = true) :
    x.coin record = none := by
  unfold coin
  rw [h, hremoved]
  rfl

/-- A coin taken out twice was taken from the store the second time. -/
theorem takes_two {n : ℕ} (h : x.takes record (n + 2) = some y) : y.coin record = none := by
  obtain ⟨x₁, hfirst, hrest⟩ := Option.bind_eq_some_iff.mp h
  obtain ⟨x₂, hsecond, hmore⟩ := Option.bind_eq_some_iff.mp hrest
  have hnone : x₁.updated = none := by
    rcases (take_some hfirst).2 with ⟨-, rfl⟩ | ⟨-, rfl⟩ <;> rfl
  have hx₂ : x₂ = ⟨none, true, x₁.stored⟩ := by
    rcases (take_some hsecond).2 with ⟨hsome, -⟩ | ⟨-, heq⟩
    · exact absurd hnone hsome
    · exact heq
  rw [hx₂] at hmore
  rcases n with _ | n
  · rw [← Option.some.inj hmore]
    exact coin_of_removed rfl rfl
  · cases hmore

/-- **What is left where a coin was taken out**: nothing, but for a record of the store that no
overlay told of. -/
theorem coin_takes {n : ℕ} (h : x.takes record (n + 1) = some y) : y.coin record = none ↔
    x.updated = none ∨ x.stored = true ∨ record.bind CoinRecord.coin? = none ∨ 0 < n := by
  rcases n with _ | n
  · obtain ⟨x₁, htake, heq⟩ := Option.bind_eq_some_iff.mp h
    obtain rfl : x₁ = y := Option.some.inj heq
    rcases (take_some htake).2 with ⟨hsome, rfl⟩ | ⟨hnone, rfl⟩
    · unfold coin
      rw [Option.none_or]
      dsimp only
      split
      · rename_i hstored
        exact iff_of_true rfl (.inr (.inl hstored))
      · rename_i hstored
        constructor
        · exact fun hrecord => .inr (.inr (.inl hrecord))
        · rintro (hnone | hs | hrecord | hlt)
          · exact absurd hnone hsome
          · exact absurd hs hstored
          · exact hrecord
          · exact absurd hlt (Nat.lt_irrefl 0)
    · exact iff_of_true (coin_of_removed rfl rfl) (.inl hnone)
  · exact iff_of_true (takes_two h) (.inr (.inr (.inr (Nat.succ_pos n))))

end Cell

/-! ## What the methods do to a cell -/

section Methods

variable {db : CoinTable} {read : CoinRead} {s : UtxoIndex S} {o p : OutPoint} {c : Coin}

theorem getCoin_eq_cell (db : CoinTable) (s : UtxoIndex S) (o : OutPoint) :
    getCoin db s o = (s.cell o).coin db[o]? := by
  unfold getCoin Cell.coin cell
  dsimp only
  cases s.data.updatedUtxoSet[o]? with
  | some c => rfl
  | none =>
    rw [Option.none_or]
    by_cases hremoved : o ∈ s.data.removedUtxos
    · rw [if_pos hremoved, if_pos (decide_eq_true hremoved)]
    · rw [if_neg hremoved, if_neg (by simp [hremoved])]
      rcases db[o]? with _ | (c | _) <;> rfl

/-- **`finalize`** changes nothing of what the outpoint resolves to. -/
theorem getCoin_finalize (db : CoinTable) (s : UtxoIndex S) (o : OutPoint) :
    getCoin (flushed db s) s.finalize o = getCoin db s o := by
  rw [getCoin_eq_cell, getCoin_eq_cell, getElem?_flushed]
  unfold Cell.coin cell finalize init
  dsimp only
  rw [if_neg (by simp), Std.ExtTreeMap.getElem?_empty, Option.none_or]
  cases s.data.updatedUtxoSet[o]? with
  | some c => rfl
  | none =>
    rw [Option.map_none, Option.none_or, Option.none_or]
    by_cases hremoved : o ∈ s.data.removedUtxos
    · rw [if_pos hremoved, if_pos (decide_eq_true hremoved)]
      rfl
    · rw [if_neg hremoved, if_neg (by simp [hremoved])]

theorem cell_unmark_put (s : UtxoIndex S) (p o : OutPoint) (c : Coin) :
    Sat (do unmarkRemoved p; put p c) s
      (fun _ t => t.cell o = if p = o then (s.cell o).put c else s.cell o) fun _ _ => False := by
  unfold unmarkRemoved put logAndSetStored setRemoved
  simp only [sat_bind, sat_modify, sat_get]
  by_cases hr : p ∈ s.data.removedUtxos
  · rw [if_pos hr, sat_bind, sat_modify, sat_modify]
    by_cases hp : p = o
    · subst hp
      rw [if_pos rfl]
      simp [cell, Cell.put, mem_setMember, hr]
    · rw [if_neg hp]
      simp [cell, mem_setMember, hp, FiniteMap.getElem?_insert_ne]
  · rw [if_neg hr, sat_modify]
    by_cases hp : p = o
    · subst hp
      rw [if_pos rfl]
      simp [cell, Cell.put, mem_setMember, hr]
    · rw [if_neg hp]
      simp [cell, mem_setMember, hp, FiniteMap.getElem?_insert_ne]

theorem cell_spendStaged (hu : s.data.updatedUtxoSet[p]? = some c) (hr : p ∉ s.data.removedUtxos)
    (o : OutPoint) (record : Option CoinRecord) :
    Sat (spendStaged p c) s
      (fun _ t => (s.cell o).takes record ([p].count o) = some (t.cell o)) fun _ _ => False := by
  unfold spendStaged pop logAndSetStored markRemoved setRemoved
  simp only [sat_bind, sat_modify, sat_get]
  by_cases ht : p ∈ s.data.storedUtxos
  · rw [if_pos ht, sat_bind, sat_modify, sat_modify]
    by_cases hp : p = o
    · subst hp
      simp [cell, Cell.takes, Cell.take, mem_setMember, hu, hr, ht]
    · simp [cell, Cell.takes, mem_setMember, hp, FiniteMap.getElem?_erase_ne]
  · rw [if_neg ht]
    by_cases hp : p = o
    · subst hp
      simp [cell, Cell.takes, Cell.take, hu, hr, ht, sat_pure]
    · simp [cell, Cell.takes, hp, FiniteMap.getElem?_erase_ne, sat_pure]

/-- A stored coin is marked. -/
theorem cell_markRemoved (hu : s.data.updatedUtxoSet[p]? = none) (hr : p ∉ s.data.removedUtxos)
    (hdb : db[p]? = some (.coin c)) (o : OutPoint) :
    Sat (markRemoved p) s
      (fun _ t => (s.cell o).takes db[o]? ([p].count o) = some (t.cell o)) fun _ _ => False := by
  unfold markRemoved setRemoved
  rw [sat_modify]
  by_cases hp : p = o
  · subst hp
    simp [cell, Cell.takes, Cell.take, mem_setMember, hu, hr, hdb]
  · simp [cell, Cell.takes, mem_setMember, hp]

theorem cell_hashRemove (C : CoinStats S) (s : UtxoIndex S) (p : OutPoint) (c : Coin) :
    Sat (hashRemove C p c) s (fun _ t => ∀ o, t.cell o = s.cell o) fun _ _ => False :=
  fun _ => rfl

theorem cell_hashInsert (C : CoinStats S) (s : UtxoIndex S) (p : OutPoint) (c : Coin) :
    Sat (hashInsert C p c) s (fun _ t => ∀ o, t.cell o = s.cell o) fun _ _ => False :=
  fun _ => rfl

theorem cell_spendInput (hread : Faithful read db) (s : UtxoIndex S) (p o : OutPoint) :
    Sat (spendInput C read p) s
      (fun _ t => (s.cell o).takes db[o]? ([p].count o) = some (t.cell o)) fun _ _ => True := by
  unfold spendInput
  rw [sat_bind, sat_get]
  by_cases hr : p ∈ s.data.removedUtxos
  · rw [if_pos hr]
    trivial
  · rw [if_neg hr]
    cases hu : s.data.updatedUtxoSet[p]? with
    | some coin =>
      dsimp only
      rw [sat_bind]
      refine (cell_spendStaged hu hr o db[o]?).mono ?_ fun _ _ h => h.elim
      intro _ t ht
      rw [sat_bind]
      refine (cell_hashRemove C t p coin).mono ?_ fun _ _ h => h.elim
      intro _ r hr
      rw [sat_pure, hr o]
      exact ht
    | none =>
      dsimp only
      unfold storedPrevout
      rw [sat_bind, sat_bind]
      refine (sat_dbGet hread).mono ?_ fun _ _ _ => trivial
      rintro record t ⟨rfl, rfl⟩
      rcases hdb : db[p]? with _ | (coin | _)
      · trivial
      · dsimp only
        rw [sat_pure, sat_bind]
        refine (cell_markRemoved hu hr hdb o).mono ?_ fun _ _ h => h.elim
        intro _ u ht
        rw [sat_bind]
        refine (cell_hashRemove C u p coin).mono ?_ fun _ _ h => h.elim
        intro _ r hr
        rw [sat_pure, hr o]
        exact ht
      · trivial

theorem cell_spendInputs (hread : Faithful read db) (os : List OutPoint) (s : UtxoIndex S)
    (o : OutPoint) :
    Sat (spendInputs C read os) s
      (fun removed t => removed.map Prod.fst = os ∧
        (s.cell o).takes db[o]? (os.count o) = some (t.cell o)) fun _ _ => True := by
  induction os generalizing s with
  | nil => exact ⟨rfl, rfl⟩
  | cons p os ih =>
    unfold spendInputs
    rw [sat_bind]
    refine (cell_spendInput hread s p o).mono ?_ fun _ _ h => h
    intro coin t ht
    rw [sat_bind]
    refine (ih t).mono ?_ fun _ _ h => h
    rintro removed r ⟨hfst, hr⟩
    rw [sat_pure]
    refine ⟨?_, ?_⟩
    · rw [List.map_cons, hfst]
    · rw [← List.singleton_append, List.count_append, Cell.takes_add, ht]
      exact hr

theorem cell_stageCreation (hashIt : Bool) (hspendable : ¬ C.isUnspendable c.txOut.script = true)
    (s : UtxoIndex S) (p o : OutPoint) :
    Sat (stageCreation C p c hashIt) s
      (fun staged t => staged = true ∧
        t.cell o = if p = o then (s.cell o).put c else s.cell o) fun _ _ => False := by
  unfold stageCreation
  rw [if_neg hspendable]
  have hput := cell_unmark_put s p o c
  rw [sat_bind] at hput ⊢
  refine hput.mono (fun _ t ht => ?_) fun _ _ h => h
  rw [sat_bind]
  refine ht.mono ?_ fun _ _ h => h
  intro _ u hu
  cases hashIt with
  | true => exact ⟨rfl, hu⟩
  | false => exact ⟨rfl, hu⟩

theorem cell_createOutputs (txid : Hash) (height : ℕ) (isCoinbase hashIt : Bool) (i : ℕ)
    (vout : List TxOut) (s : UtxoIndex S) (o : OutPoint) :
    Sat (createOutputs C txid height isCoinbase hashIt i vout) s
      (fun added t =>
        added = (spendableRows C txid height isCoinbase i vout).map Prod.fst ∧
          t.cell o = (s.cell o).puts o (spendableRows C txid height isCoinbase i vout))
      fun _ _ => False := by
  induction vout generalizing i s with
  | nil => exact ⟨rfl, rfl⟩
  | cons txOut rest ih =>
    unfold createOutputs spendableRows
    rw [sat_bind]
    by_cases hu : C.isUnspendable txOut.script = true
    · unfold stageCreation
      rw [if_pos hu, if_pos hu, sat_pure, sat_bind]
      refine (ih (i + 1) s).mono ?_ fun _ _ h => h
      rintro added t ⟨rfl, ht⟩
      exact ⟨rfl, ht⟩
    · rw [if_neg hu]
      refine (cell_stageCreation (c := ⟨txOut, height, isCoinbase⟩) hashIt hu s ⟨txid, i⟩ o).mono ?_
        fun _ _ h => h
      rintro staged t ⟨rfl, ht⟩
      rw [sat_bind]
      refine (ih (i + 1) t).mono ?_ fun _ _ h => h
      rintro added r ⟨rfl, hr⟩
      rw [sat_pure, if_pos rfl, List.map_cons, Cell.puts_cons]
      refine ⟨rfl, ?_⟩
      rw [hr, ht]

/-- The cell after the transactions of a block. -/
def connectCell (C : CoinStats S) (o : OutPoint) (record : Option CoinRecord) (height : ℕ) :
    List Tx → Cell → Option Cell
  | [], x => some x
  | tx :: txs, x => (x.takes record (tx.vin.count o)).bind fun y =>
      connectCell C o record height txs (y.puts o (tx.createdRows C height false))

theorem cell_connectTxs (hread : Faithful read db) (height : ℕ) (txs : List Tx) (s : UtxoIndex S)
    (o : OutPoint) :
    Sat (connectTxs C read height txs) s
      (fun r t => r.2.1.map Prod.fst = txs.flatMap Tx.vin ∧
        r.2.2 = (txs.flatMap fun tx => tx.createdRows C height false).map Prod.fst ∧
          connectCell C o db[o]? height txs (s.cell o) = some (t.cell o)) fun _ _ => True := by
  induction txs generalizing s with
  | nil => exact ⟨rfl, rfl, rfl⟩
  | cons tx txs ih =>
    unfold connectTxs
    rw [sat_bind]
    refine (cell_spendInputs hread tx.vin s o).mono ?_ fun _ _ h => h
    rintro removed t ⟨hremoved, ht⟩
    rw [sat_bind]
    refine (cell_createOutputs tx.id height false true 0 tx.vout t o).mono ?_ fun _ _ h => h.elim
    rintro added u ⟨hadded, hu⟩
    rw [sat_bind]
    refine (ih u).mono ?_ fun _ _ h => h
    rintro ⟨complete, removed', added'⟩ r ⟨hremoved', hadded', hr⟩
    refine ⟨?_, ?_, ?_⟩
    · rw [List.map_append, hremoved, hremoved', List.flatMap_cons]
    · dsimp only at hadded' ⊢
      rw [hadded, hadded', List.flatMap_cons, List.map_append]
      rfl
    · unfold connectCell
      rw [ht, Option.bind_some]
      rw [hu] at hr
      exact hr

/-- Transactions that spend the outpoint and do not create it. -/
theorem connectCell_of_notCreated {record : Option CoinRecord} {height : ℕ} {txs : List Tx}
    (h : o ∉ (txs.flatMap fun tx => tx.createdRows C height false).map Prod.fst) (x : Cell) :
    connectCell C o record height txs x = x.takes record ((txs.flatMap Tx.vin).count o) := by
  induction txs generalizing x with
  | nil => rfl
  | cons tx txs ih =>
    rw [List.flatMap_cons, List.map_append, List.mem_append, not_or] at h
    rw [connectCell, List.flatMap_cons, List.count_append, Cell.takes_add]
    congr 1
    funext y
    rw [Cell.puts_of_notMem h.1, ih h.2]

/-- Transactions that create the outpoint and do not spend it. -/
theorem connectCell_of_notSpent {record : Option CoinRecord} {height : ℕ} {txs : List Tx}
    (h : o ∉ txs.flatMap Tx.vin) (x : Cell) :
    connectCell C o record height txs x =
      some (x.puts o (txs.flatMap fun tx => tx.createdRows C height false)) := by
  induction txs generalizing x with
  | nil => rfl
  | cons tx txs ih =>
    rw [List.flatMap_cons, List.mem_append, not_or] at h
    rw [connectCell, List.count_eq_zero.mpr h.1, Cell.takes, Option.bind_some, ih h.2,
      List.flatMap_cons, Cell.puts_append]

theorem checkBip30_same (read : CoinRead) (os : List OutPoint) (s : UtxoIndex S) :
    Sat (checkBip30 read os) s (fun _ t => t = s) fun _ _ => True := by
  induction os with
  | nil => rfl
  | cons p os ih =>
    have hviolation : Sat (bip30Violation read p) s (fun _ t => t = s) fun _ _ => True := by
      unfold bip30Violation
      rw [sat_bind, sat_get]
      split
      · rfl
      · split
        · rfl
        · rw [sat_bind]
          unfold dbGet
          split
          · rfl
          · trivial
    unfold checkBip30
    rw [sat_bind]
    refine hviolation.mono ?_ fun _ _ h => h
    rintro violation t rfl
    cases violation with
    | true => trivial
    | false => exact ih

/-- **`add_block`** on a cell: the coins of the coinbase are put, then the transactions connected;
the reverse patch names what was spent and what was created. -/
theorem cell_addBlock (hread : Faithful read db) (block : Block) (height : ℕ) (check : Bool)
    (s : UtxoIndex S) (o : OutPoint) :
    Sat (addBlock C read block height check) s
      (fun r t => r.2.toAdd.map Prod.fst = block.prevouts ∧
        r.2.toRemove = (block.createdRows C height).map Prod.fst ∧
          ∃ coinbase txs, block.transactions = coinbase :: txs ∧
            connectCell C o db[o]? height txs
              ((s.cell o).puts o (coinbase.createdRows C height true)) = some (t.cell o))
      fun _ _ => True := by
  have hstage : Sat (stageBlock C read block height) s
      (fun r t => r.2.toAdd.map Prod.fst = block.prevouts ∧
        r.2.toRemove = (block.createdRows C height).map Prod.fst ∧
          ∃ coinbase txs, block.transactions = coinbase :: txs ∧
            connectCell C o db[o]? height txs
              ((s.cell o).puts o (coinbase.createdRows C height true)) = some (t.cell o))
      fun _ _ => True := by
    unfold stageBlock Block.prevouts Block.createdRows
    cases htxs : block.transactions with
    | nil => trivial
    | cons coinbase txs =>
      dsimp only
      rw [sat_bind]
      refine (cell_createOutputs coinbase.id height true _ 0 coinbase.vout s o).mono ?_
        fun _ _ h => h.elim
      rintro created t ⟨hcreated, ht⟩
      rw [sat_bind]
      refine (cell_connectTxs hread height txs t o).mono ?_ fun _ _ h => h
      rintro ⟨complete, removed, added⟩ r ⟨hremoved, hadded, hr⟩
      refine ⟨hremoved, ?_, coinbase, txs, rfl, ?_⟩
      · dsimp only at hadded ⊢
        rw [hcreated, hadded, List.map_append]
        rfl
      · rw [ht] at hr
        exact hr
  unfold addBlock
  split
  · rw [sat_bind]
    refine (checkBip30_same read _ s).mono ?_ fun _ _ h => h
    rintro _ t rfl
    exact hstage
  · exact hstage

theorem cell_restorePrevouts (blockHash : Hash) (rows : List (OutPoint × Coin)) (s : UtxoIndex S)
    (o : OutPoint) :
    Sat (restorePrevouts C blockHash rows) s (fun _ t => t.cell o = (s.cell o).puts o rows)
      fun _ _ => False := by
  induction rows generalizing s with
  | nil => rfl
  | cons row rows ih =>
    have hput := cell_unmark_put s row.1 o row.2
    unfold restorePrevouts
    rw [sat_bind] at hput ⊢
    refine hput.mono (fun _ t ht => ?_) fun _ _ h => h
    rw [sat_bind]
    refine ht.mono ?_ fun _ _ h => h
    intro _ u hu
    rw [Cell.puts_cons, ← hu]
    by_cases hhashed : isHashed blockHash row.2 = true
    · rw [if_pos hhashed, sat_bind]
      refine (cell_hashInsert C u row.1 row.2).mono ?_ fun _ _ h => h
      intro _ r hr
      rw [← hr o]
      exact ih r
    · rw [if_neg hhashed]
      exact ih u

theorem cell_removeCreated (hread : Faithful read db) (s : UtxoIndex S) (p o : OutPoint) :
    Sat (removeCreated read p) s
      (fun _ t => (s.cell o).takes db[o]? ([p].count o) = some (t.cell o)) fun _ _ => True := by
  unfold removeCreated
  rw [sat_bind, sat_get]
  by_cases hr : p ∈ s.data.removedUtxos
  · rw [if_pos hr]
    trivial
  · rw [if_neg hr]
    cases hu : s.data.updatedUtxoSet[p]? with
    | some coin =>
      dsimp only
      rw [sat_bind]
      refine (cell_spendStaged hu hr o db[o]?).mono ?_ fun _ _ h => h.elim
      exact fun _ t ht => ht
    | none =>
      dsimp only
      rw [sat_bind]
      refine (sat_dbGet hread).mono ?_ fun _ _ _ => trivial
      rintro record t ⟨rfl, rfl⟩
      rcases hdb : db[p]? with _ | (coin | _)
      · trivial
      · dsimp only
        rw [sat_bind]
        refine (cell_markRemoved hu hr hdb o).mono ?_ fun _ _ h => h.elim
        exact fun _ t ht => ht
      · trivial

theorem cell_removeCreations (hread : Faithful read db) (blockHash : Hash) (os : List OutPoint)
    (s : UtxoIndex S) (o : OutPoint) :
    Sat (removeCreations C read blockHash os) s
      (fun _ t => (s.cell o).takes db[o]? (os.count o) = some (t.cell o)) fun _ _ => True := by
  induction os generalizing s with
  | nil => rfl
  | cons p os ih =>
    unfold removeCreations
    rw [sat_bind]
    refine (cell_removeCreated hread s p o).mono ?_ fun _ _ h => h
    intro coin t ht
    rw [← List.singleton_append, List.count_append, Cell.takes_add, ht]
    show Sat _ t (fun _ r => (t.cell o).takes db[o]? (os.count o) = some (r.cell o)) _
    by_cases hhashed : isHashed blockHash coin = true
    · rw [if_pos hhashed, sat_bind]
      refine (cell_hashRemove C t p coin).mono ?_ fun _ _ h => h.elim
      intro _ r hr
      rw [← hr o]
      exact ih r
    · rw [if_neg hhashed]
      exact ih t

/-- **`apply_rev_block`** on a cell: what was spent is put, then what was created is taken out. -/
theorem cell_applyRevBlock (hread : Faithful read db) (rev : RevBlock) (s : UtxoIndex S)
    (o : OutPoint) :
    Sat (applyRevBlock C read rev) s
      (fun _ t => ((s.cell o).puts o rev.toAdd).takes db[o]? (rev.toRemove.count o) =
        some (t.cell o)) fun _ _ => True := by
  unfold applyRevBlock
  rw [sat_bind]
  refine (cell_restorePrevouts rev.hash rev.toAdd s o).mono ?_ fun _ _ h => h.elim
  intro _ t ht
  rw [← ht]
  exact cell_removeCreations hread rev.hash rev.toRemove t o

end Methods

/-! ## From one coin to the other -/

/-- A call on the staged coins, or the write of what is staged. -/
inductive StagingCall where
  | addBlock (block : Block) (height : ℕ) (check : Bool)
  | applyRevBlock (rev : RevBlock)
  | finalize
  deriving DecidableEq

namespace StagingCall

/-- The store and the staging after a call that returns. -/
def step (C : CoinStats S) (r : CoinTable × UtxoIndex S) :
    StagingCall → Option (CoinTable × UtxoIndex S)
  | .addBlock block height check =>
    match UtxoIndex.addBlock C r.1.read block height check r.2 with
    | .ok _ s => some (r.1, s)
    | .error _ _ => none
  | .applyRevBlock rev =>
    match UtxoIndex.applyRevBlock C r.1.read rev r.2 with
    | .ok _ s => some (r.1, s)
    | .error _ _ => none
  | .finalize => some (flushed r.1 r.2, r.2.finalize)

/-- A call spends, creates, restores or removes the outpoint. -/
def Names (C : CoinStats S) (o : OutPoint) : StagingCall → Prop
  | .addBlock block height _ => o ∈ block.prevouts ∨ o ∈ (block.createdRows C height).map Prod.fst
  | .applyRevBlock rev => o ∈ rev.toAdd.map Prod.fst ∨ o ∈ rev.toRemove
  | .finalize => False

end StagingCall

section Between

variable {db db' : CoinTable} {s s' : UtxoIndex S} {o : OutPoint} {call : StagingCall}

/-- A block that connects, and does not create the outpoint, takes it out as often as it is
named. -/
theorem step_addBlock {block : Block} {height : ℕ} {check : Bool}
    (h : StagingCall.step C (db, s) (.addBlock block height check) = some (db', s'))
    (ho : o ∉ (block.createdRows C height).map Prod.fst) :
    db' = db ∧ (s.cell o).takes db[o]? (block.prevouts.count o) = some (s'.cell o) := by
  unfold StagingCall.step at h
  dsimp only at h
  split at h
  · rename_i r t hok
    obtain ⟨rfl, rfl⟩ := Prod.mk.inj (Option.some.inj h)
    obtain ⟨-, -, coinbase, txs, htxs, hcell⟩ :=
      (cell_addBlock db.faithful_read block height check s o).of_ok hok
    unfold Block.createdRows at ho
    unfold Block.prevouts
    rw [htxs] at ho ⊢
    rw [List.map_append, List.mem_append, not_or] at ho
    rw [Cell.puts_of_notMem ho.1, connectCell_of_notCreated ho.2] at hcell
    exact ⟨rfl, hcell⟩
  · cases h

theorem step_applyRevBlock {rev : RevBlock}
    (h : StagingCall.step C (db, s) (.applyRevBlock rev) = some (db', s'))
    (ho : o ∉ rev.toAdd.map Prod.fst) :
    db' = db ∧ (s.cell o).takes db[o]? (rev.toRemove.count o) = some (s'.cell o) := by
  unfold StagingCall.step at h
  dsimp only at h
  split at h
  · rename_i r t hok
    obtain ⟨rfl, rfl⟩ := Prod.mk.inj (Option.some.inj h)
    have hcell := (cell_applyRevBlock db.faithful_read rev s o).of_ok hok
    rw [Cell.puts_of_notMem ho] at hcell
    exact ⟨rfl, hcell⟩
  · cases h

/-- A call that does not name the outpoint leaves it, but for `finalize`, which empties the
staging. -/
theorem step_of_not_names (h : StagingCall.step C (db, s) call = some (db', s'))
    (hnames : ¬ call.Names C o) :
    if call = .finalize then s'.cell o = ⟨none, false, false⟩
    else db' = db ∧ s'.cell o = s.cell o := by
  cases call with
  | addBlock block height check =>
    obtain ⟨hspent, hcreated⟩ := not_or.mp hnames
    obtain ⟨hdb, hcell⟩ := step_addBlock h hcreated
    rw [List.count_eq_zero.mpr hspent] at hcell
    rw [if_neg nofun]
    exact ⟨hdb, (Option.some.inj hcell).symm⟩
  | applyRevBlock rev =>
    obtain ⟨hadd, hremove⟩ := not_or.mp hnames
    obtain ⟨hdb, hcell⟩ := step_applyRevBlock h hadd
    rw [List.count_eq_zero.mpr hremove] at hcell
    rw [if_neg nofun]
    exact ⟨hdb, (Option.some.inj hcell).symm⟩
  | finalize =>
    obtain ⟨rfl, rfl⟩ := Prod.mk.inj (Option.some.inj h)
    rw [if_pos rfl]
    simp [cell, finalize, init]

/-- Calls that do not name the outpoint leave it as it was, or, where one of them writes the
staging, with nothing staged. -/
theorem exec_of_not_names {calls : List StagingCall} {r r' : CoinTable × UtxoIndex S}
    (h : Run.exec (StagingCall.step C) r calls = some r')
    (hnames : ∀ call ∈ calls, ¬ call.Names C o) :
    if .finalize ∈ calls then (r'.2.cell o).updated = none
    else r'.1 = r.1 ∧ r'.2.cell o = r.2.cell o := by
  induction calls generalizing r with
  | nil =>
    obtain rfl := Option.some.inj h
    rw [if_neg List.not_mem_nil]
    exact ⟨rfl, rfl⟩
  | cons call calls ih =>
    obtain ⟨hcall, hcalls⟩ := List.forall_mem_cons.mp hnames
    obtain ⟨r₁, hstep, hrest⟩ := Run.exec_cons.mp h
    have hfirst := step_of_not_names hstep hcall
    have hlater := ih hrest hcalls
    by_cases hfinal : .finalize ∈ calls
    · rw [if_pos hfinal] at hlater
      rw [if_pos (List.mem_cons_of_mem _ hfinal)]
      exact hlater
    · rw [if_neg hfinal] at hlater
      by_cases heq : call = .finalize
      · rw [if_pos heq] at hfirst
        rw [if_pos (by rw [heq]; exact List.mem_cons_self), hlater.2, hfirst]
      · rw [if_neg heq] at hfirst
        rw [if_neg]
        · exact ⟨hlater.1.trans hfirst.1, hlater.2.trans hfirst.2⟩
        · rintro hmem
          rcases List.mem_cons.mp hmem with hhead | htail
          · exact heq hhead.symm
          · exact hfinal htail

/-- A block that connects and creates the outpoint leaves a coin staged there; the store is known
to hold a record where it was before, or where the coin there was removed. -/
theorem addBlock_creates {block : Block} {height : ℕ} {check : Bool}
    {r : List (List Coin × Tx) × RevBlock} (h : addBlock C db.read block height check s = .ok r s')
    (hcreated : o ∈ (block.createdRows C height).map Prod.fst) (hspent : o ∉ block.prevouts) :
    (∃ c, s'.cell o = ⟨some c, false, (s.cell o).stored || (s.cell o).removed⟩) ∧
      r.2.toAdd.map Prod.fst = block.prevouts ∧
        r.2.toRemove = (block.createdRows C height).map Prod.fst := by
  obtain ⟨hadd, hremove, coinbase, txs, htxs, hcell⟩ :=
    (cell_addBlock db.faithful_read block height check s o).of_ok h
  refine ⟨?_, hadd, hremove⟩
  unfold Block.createdRows at hcreated
  unfold Block.prevouts at hspent
  rw [htxs] at hcreated hspent
  rw [List.tail_cons] at hspent
  rw [connectCell_of_notSpent hspent, ← Cell.puts_append, Option.some.injEq] at hcell
  obtain ⟨c, hc⟩ := Cell.puts_of_mem (x := s.cell o) hcreated
  exact ⟨c, hcell.symm.trans hc⟩

end Between

/-- How a coin comes out again: a block spends it, or the block that created it is undone. -/
inductive Ending where
  | spend (block : Block) (height : ℕ) (check : Bool)
  | undo

namespace Ending

def call (rev : RevBlock) : Ending → StagingCall
  | .spend block height check => .addBlock block height check
  | .undo => .applyRevBlock rev

/-- The block that spends the outpoint does not create it again. -/
def Takes (C : CoinStats S) (o : OutPoint) : Ending → Prop
  | .spend block height _ =>
    o ∈ block.prevouts ∧ o ∉ (block.createdRows C height).map Prod.fst
  | .undo => True

/-- How often the outpoint is taken out, `created` being what the block undone creates. -/
def times (o : OutPoint) (created : List OutPoint) : Ending → ℕ
  | .spend block _ _ => block.prevouts.count o
  | .undo => created.count o

end Ending

/-- **When an overwritten coin does not come back.** A block connected with no check of BIP30
creates an outpoint that it does not spend, and after calls that do not name it the outpoint is
spent, or the block undone.  Nothing is left there, before `finalize` and after it, just where the
staging was written in between, or the store held no coin there, or it was known to hold one, or
the outpoint is taken out twice. -/
theorem overwritten_gone_iff (C : CoinStats S) (db db₂ db₃ : CoinTable) (s s₁ s₂ s₃ : UtxoIndex S)
    (block : Block) (height : ℕ) (o : OutPoint) (r : List (List Coin × Tx) × RevBlock)
    (calls : List StagingCall) (ending : Ending)
    (hconnect : addBlock C db.read block height false s = .ok r s₁)
    (hcreated : o ∈ (block.createdRows C height).map Prod.fst) (hspent : o ∉ block.prevouts)
    (hbetween : Run.exec (StagingCall.step C) (db, s₁) calls = some (db₂, s₂))
    (hnames : ∀ call ∈ calls, ¬ call.Names C o) (htakes : ending.Takes C o)
    (hlast : StagingCall.step C (db₂, s₂) (ending.call r.2) = some (db₃, s₃)) :
    (getCoin db₃ s₃ o = none ∧ getCoin (flushed db₃ s₃) s₃.finalize o = none) ↔
      .finalize ∈ calls ∨ db[o]?.bind CoinRecord.coin? = none ∨ o ∈ s.data.storedUtxos ∨
        o ∈ s.data.removedUtxos ∨
          1 < ending.times o ((block.createdRows C height).map Prod.fst) := by
  obtain ⟨⟨c, hcell₁⟩, hadd, hremove⟩ := addBlock_creates hconnect hcreated hspent
  have hmiddle := exec_of_not_names hbetween hnames
  dsimp only at hmiddle
  -- the coin is taken out at least once
  obtain ⟨n, htimes, hdb, hcell⟩ : ∃ n,
      ending.times o ((block.createdRows C height).map Prod.fst) = n + 1 ∧ db₃ = db₂ ∧
        (s₂.cell o).takes db₂[o]? (n + 1) = some (s₃.cell o) := by
    cases ending with
    | spend block' height' check =>
      obtain ⟨hmem, hnot⟩ := htakes
      obtain ⟨n, hn⟩ := Nat.exists_eq_add_of_lt (List.count_pos_iff.mpr hmem)
      obtain ⟨hdb, hcell⟩ := step_addBlock hlast hnot
      rw [Nat.zero_add] at hn
      rw [hn] at hcell
      exact ⟨n, hn, hdb, hcell⟩
    | undo =>
      obtain ⟨n, hn⟩ := Nat.exists_eq_add_of_lt (List.count_pos_iff.mpr hcreated)
      obtain ⟨hdb, hcell⟩ := step_applyRevBlock (o := o) hlast (by rw [hadd]; exact hspent)
      rw [Nat.zero_add] at hn
      rw [hremove, hn] at hcell
      exact ⟨n, hn, hdb, hcell⟩
  rw [getCoin_finalize, and_self, getCoin_eq_cell, hdb, Cell.coin_takes hcell, htimes]
  by_cases hfinal : .finalize ∈ calls
  · rw [if_pos hfinal] at hmiddle
    exact iff_of_true (.inl hmiddle) (.inl hfinal)
  · rw [if_neg hfinal] at hmiddle
    rw [hmiddle.1, hmiddle.2, hcell₁]
    unfold cell
    dsimp only
    rw [Bool.or_eq_true, decide_eq_true_eq, decide_eq_true_eq]
    have hsome : ¬ (some c = none) := nofun
    have hn : 1 < n + 1 ↔ 0 < n := by omega
    tauto

/-! ## Two coinbases of one id -/

/-- The coinbase that two blocks share. -/
def sharedCoinbase : Tx := ⟨7, [OutPoint.null], [⟨50, []⟩]⟩

/-- A block of that coinbase. -/
def sharedBlock : Block := ⟨⟨2, 1, 1, 0, 0⟩, [sharedCoinbase]⟩

/-- A block that spends its output. -/
def spendingBlock : Block := ⟨⟨3, 2, 1, 0, 0⟩, [⟨8, [OutPoint.null], []⟩, ⟨9, [⟨7, 0⟩], []⟩]⟩

/-- A store that holds the output as an earlier block created it. -/
def sharedStore : CoinTable :=
  (∅ : CoinTable).insert ⟨7, 0⟩ (CoinRecord.coin ⟨⟨50, []⟩, 1, true⟩)

/-- The coin that was overwritten and is not staged comes back when the one written over it is
spent. -/
theorem overwritten_comes_back : ∃ r s₁ s₂,
    addBlock CoinStats.counters sharedStore.read sharedBlock 2 false (init (0, 0)) = .ok r s₁ ∧
      StagingCall.step CoinStats.counters (sharedStore, s₁) (.addBlock spendingBlock 3 true) =
        some (sharedStore, s₂) ∧
      getCoin sharedStore s₂ ⟨7, 0⟩ = some ⟨⟨50, []⟩, 1, true⟩ ∧
        getCoin (flushed sharedStore s₂) s₂.finalize ⟨7, 0⟩ = some ⟨⟨50, []⟩, 1, true⟩ :=
  ⟨_, _, _, rfl, rfl, rfl, (getCoin_finalize ..).trans rfl⟩

/-- Where the staging is written between the two, nothing comes back. -/
theorem overwritten_gone_iff_flushed : ∃ r s₁ s₃,
    addBlock CoinStats.counters sharedStore.read sharedBlock 2 false (init (0, 0)) = .ok r s₁ ∧
      StagingCall.step CoinStats.counters (flushed sharedStore s₁, s₁.finalize)
        (.addBlock spendingBlock 3 true) = some (flushed sharedStore s₁, s₃) ∧
      getCoin (flushed sharedStore s₁) s₃ ⟨7, 0⟩ = none ∧
        getCoin (flushed (flushed sharedStore s₁) s₃) s₃.finalize ⟨7, 0⟩ = none :=
  ⟨_, _, _, rfl, rfl, (overwritten_gone_iff CoinStats.counters sharedStore _ _ (init (0, 0)) _ _ _
    sharedBlock 2 ⟨7, 0⟩ _ [.finalize] (.spend spendingBlock 3 true) rfl (by decide) (by decide) rfl
    (by simp [StagingCall.Names]) ⟨by decide, by decide⟩ rfl).mpr (.inl (by decide))⟩

end UtxoIndex

end BtclibNode
