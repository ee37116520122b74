/-
# The staged index stands for a plain map

`Agrees db d m` ties the three overlays `d` over the records `db` to the plain
map `m`, one outpoint at a time: an outpoint is staged, removed or untouched,
and in each case the overlays and the record say which coin is visible.  Every
method takes agreement to agreement with what it does to the plain map.
-/
import BtclibNode.Chainstate.UtxoRollback
import BtclibNode.Chainstate.UtxoSet

namespace BtclibNode

/-! ## Agreement -/

/-- The coin a record parses to. -/
def CoinRecord.coin? : CoinRecord → Option Coin
  | .coin c => some c
  | .unreadable => none

/-- The coins the records parse to. -/
def CoinTable.coins (db : CoinTable) : UtxoSet := db.filterMap fun _ record => record.coin?

theorem CoinTable.getElem?_coins (db : CoinTable) (o : OutPoint) :
    db.coins[o]? = db[o]?.bind CoinRecord.coin? := by
  unfold coins
  rw [Std.ExtTreeMap.getElem?_filterMap]
  cases db[o]? <;> rfl

/-- A `get` that answers what is stored, where it answers. -/
def Faithful (read : CoinRead) (db : CoinTable) : Prop := ∀ o r, read o = .ok r → r = db[o]?

theorem CoinTable.faithful_read (db : CoinTable) : Faithful db.read db :=
  fun _ _ h => (Except.ok.inj h).symm

/-- Some record cannot be read. -/
def ReadFails (read : CoinRead) : Prop := ∃ o e, read o = .error e

theorem CoinTable.not_readFails (db : CoinTable) : ¬ ReadFails db.read := by
  rintro ⟨o, e, h⟩
  cases h

namespace UtxoIndex

open StateExcept

variable {S : Type} {C : CoinStats S}

/-- What the overlays and the record at `o` say of the coin the plain map holds
there.  `storedUtxos` answers for a staged coin whether there is a record to
erase. -/
inductive AgreesAt (db : CoinTable) (d : Staging S) (m : UtxoSet) (o : OutPoint) : Prop
  | staged (c : Coin) (notRemoved : o ∉ d.removedUtxos) (updated : d.updatedUtxoSet[o]? = some c)
      (stored : o ∈ d.storedUtxos ↔ db[o]? ≠ none) (readable : db[o]? ≠ some .unreadable)
      (holds : m[o]? = some c)
  | removed (c : Coin) (isRemoved : o ∈ d.removedUtxos) (notUpdated : d.updatedUtxoSet[o]? = none)
      (notStored : o ∉ d.storedUtxos) (record : db[o]? = some (.coin c)) (holds : m[o]? = none)
  | untouched (notRemoved : o ∉ d.removedUtxos) (notUpdated : d.updatedUtxoSet[o]? = none)
      (notStored : o ∉ d.storedUtxos) (holds : m[o]? = db[o]?.bind CoinRecord.coin?)

/-- **The overlays `d` over `db` stand for the plain map `m`.** -/
def Agrees (db : CoinTable) (d : Staging S) (m : UtxoSet) : Prop := ∀ o, AgreesAt db d m o

section AgreesAt

variable {db : CoinTable} {d d' : Staging S} {m m' : UtxoSet} {o p : OutPoint} {c : Coin}

/-- Agreement at an outpoint is about that outpoint's entries only. -/
theorem AgreesAt.congr (h : AgreesAt db d m p)
    (hr : p ∈ d'.removedUtxos ↔ p ∈ d.removedUtxos)
    (hu : d'.updatedUtxoSet[p]? = d.updatedUtxoSet[p]?)
    (ht : p ∈ d'.storedUtxos ↔ p ∈ d.storedUtxos) (hm : m'[p]? = m[p]?) :
    AgreesAt db d' m' p := by
  cases h with
  | staged c notRemoved updated stored readable holds =>
    exact .staged c (hr.not.mpr notRemoved) (hu.trans updated) (ht.trans stored) readable
      (hm.trans holds)
  | removed c isRemoved notUpdated notStored record holds =>
    exact .removed c (hr.mpr isRemoved) (hu.trans notUpdated) (ht.not.mpr notStored) record
      (hm.trans holds)
  | untouched notRemoved notUpdated notStored holds =>
    exact .untouched (hr.not.mpr notRemoved) (hu.trans notUpdated) (ht.not.mpr notStored)
      (hm.trans holds)

/-- What `get_coin` answers. -/
theorem AgreesAt.getCoin_eq (h : AgreesAt db d m o) (log : List UndoEntry) :
    getCoin db ⟨d, log⟩ o = m[o]? := by
  unfold getCoin
  cases h with
  | staged c notRemoved updated stored readable holds => rw [updated, holds]
  | removed c isRemoved notUpdated notStored record holds =>
    simp only [notUpdated, if_pos isRemoved, holds]
  | untouched notRemoved notUpdated notStored holds =>
    simp only [notUpdated, if_neg notRemoved, holds]
    rcases db[o]? with _ | (_ | _) <;> rfl

theorem Agrees.getCoin_eq {s : UtxoIndex S} (h : Agrees db s.data m) (o : OutPoint) :
    getCoin db s o = m[o]? := (h o).getCoin_eq s.log

/-- **`removed_utxos` and `updated_utxo_set` are disjoint.** -/
theorem Agrees.disjoint (h : Agrees db d m) (hr : o ∈ d.removedUtxos) :
    o ∉ d.updatedUtxoSet := by
  rw [FiniteMap.notMem_iff]
  cases h o with
  | staged c notRemoved => exact absurd hr notRemoved
  | removed c isRemoved notUpdated => exact notUpdated
  | untouched notRemoved => exact absurd hr notRemoved

/-- A coin of the map is staged, or it is what an untouched record parses to. -/
theorem AgreesAt.of_some (h : AgreesAt db d m o) (hm : m[o]? = some c) :
    o ∉ d.removedUtxos ∧ (d.updatedUtxoSet[o]? = some c ∨
      d.updatedUtxoSet[o]? = none ∧ db[o]? = some (.coin c)) := by
  cases h with
  | staged c' notRemoved updated stored readable holds =>
    rw [hm, Option.some.injEq] at holds
    exact ⟨notRemoved, .inl (holds ▸ updated)⟩
  | removed c' isRemoved notUpdated notStored record holds => simp [hm] at holds
  | untouched notRemoved notUpdated notStored holds =>
    refine ⟨notRemoved, .inr ⟨notUpdated, ?_⟩⟩
    rw [hm] at holds
    rcases hdb : db[o]? with _ | (c' | _) <;> simp_all [CoinRecord.coin?]

/-- The record of a coin the map holds parses. -/
theorem AgreesAt.readable (h : AgreesAt db d m o) (hm : m[o]? = some c) :
    db[o]? ≠ some .unreadable := by
  cases h with
  | staged c' notRemoved updated stored readable holds => exact readable
  | removed c' isRemoved notUpdated notStored record holds => simp [record]
  | untouched notRemoved notUpdated notStored holds =>
    intro hdb
    rw [hm, hdb] at holds
    cases holds

end AgreesAt

/-! ## The three moves of the overlays -/

section Moves

variable {db : CoinTable} {d : Staging S} {m : UtxoSet} {o : OutPoint} {c : Coin}

/-- Taking a staged coin out, with the record it was restored over. -/
theorem Agrees.spendStaged (h : Agrees db d m) (hu : d.updatedUtxoSet[o]? = some c)
    {s : UtxoIndex S} (hs : s.data = d) :
    Sat (UtxoIndex.spendStaged o c) s
      (fun _ t => Agrees db t.data (m.erase o) ∧ t.data.coinStats = d.coinStats)
      fun _ _ => False := by
  subst hs
  unfold UtxoIndex.spendStaged UtxoIndex.pop logAndSetStored markRemoved setRemoved
  simp only [sat_bind, sat_modify, sat_get]
  have herase : (s.data.updatedUtxoSet.erase o)[o]? = none :=
    Std.ExtTreeMap.getElem?_erase_self
  have hmerase : (m.erase o)[o]? = none := Std.ExtTreeMap.getElem?_erase_self
  cases h o with
  | removed c' isRemoved notUpdated => simp [hu] at notUpdated
  | untouched notRemoved notUpdated => simp [hu] at notUpdated
  | staged c' notRemoved updated stored readable holds =>
    by_cases ht : o ∈ s.data.storedUtxos
    · -- the coin had been restored over its record: the record goes too
      rw [if_pos ht]
      refine ⟨fun p => ?_, rfl⟩
      by_cases hp : o = p
      · subst hp
        rcases hdb : db[o]? with _ | (c' | _)
        · exact absurd hdb (stored.mp ht)
        · exact .removed c' (by simp [mem_setMember]) herase (by simp [mem_setMember]) hdb hmerase
        · exact absurd hdb readable
      · exact (h p).congr (by simp [mem_setMember, hp])
          (FiniteMap.getElem?_erase_ne _ hp) (by simp [mem_setMember, hp])
          (FiniteMap.getElem?_erase_ne _ hp)
    · rw [if_neg ht]
      refine ⟨fun p => ?_, rfl⟩
      by_cases hp : o = p
      · subst hp
        have hdb : db[o]? = none := not_not.mp fun hne => ht (stored.mpr hne)
        exact .untouched notRemoved herase ht (by rw [hmerase, hdb]; rfl)
      · exact (h p).congr Iff.rfl (FiniteMap.getElem?_erase_ne _ hp) Iff.rfl
          (FiniteMap.getElem?_erase_ne _ hp)

/-- Taking a stored coin out. -/
theorem Agrees.markRemoved (h : Agrees db d m) (hr : o ∉ d.removedUtxos)
    (hu : d.updatedUtxoSet[o]? = none) (hdb : db[o]? = some (.coin c)) :
    Agrees db { d with removedUtxos := setMember d.removedUtxos o true } (m.erase o) := by
  intro p
  by_cases hp : o = p
  · subst hp
    have hstored : o ∉ d.storedUtxos := by
      cases h o with
      | staged c' notRemoved updated => simp [hu] at updated
      | removed c' isRemoved => exact absurd isRemoved hr
      | untouched notRemoved notUpdated notStored => exact notStored
    exact .removed c (by simp [mem_setMember]) hu hstored hdb
      Std.ExtTreeMap.getElem?_erase_self
  · exact (h p).congr (by simp [mem_setMember, hp]) rfl Iff.rfl (FiniteMap.getElem?_erase_ne _ hp)

/-- Staging a coin at an outpoint the map does not hold. -/
theorem Agrees.unmark_put (h : Agrees db d m) (hm : m[o]? = none)
    (hdb : db[o]? ≠ some .unreadable) {s : UtxoIndex S} (hs : s.data = d) :
    Sat (do unmarkRemoved o; UtxoIndex.put o c) s
      (fun _ t => Agrees db t.data (m.insert o c) ∧ t.data.coinStats = d.coinStats)
      fun _ _ => False := by
  subst hs
  unfold unmarkRemoved UtxoIndex.put logAndSetStored setRemoved
  simp only [sat_bind, sat_modify, sat_get]
  have hinsert : (s.data.updatedUtxoSet.insert o c)[o]? = some c :=
    Std.ExtTreeMap.getElem?_insert_self
  have hminsert : (m.insert o c)[o]? = some c := Std.ExtTreeMap.getElem?_insert_self
  by_cases hr : o ∈ s.data.removedUtxos
  · -- the record of the coin removed before is still there
    rw [if_pos hr]
    refine ⟨fun p => ?_, rfl⟩
    by_cases hp : o = p
    · subst hp
      refine .staged c (by simp [mem_setMember]) hinsert ?_ hdb hminsert
      cases h o with
      | removed c' isRemoved notUpdated notStored record => simp [mem_setMember, record]
      | staged c' notRemoved => exact absurd hr notRemoved
      | untouched notRemoved => exact absurd hr notRemoved
    · exact (h p).congr (by simp [mem_setMember, hp]) (FiniteMap.getElem?_insert_ne _ c hp)
        (by simp [mem_setMember, hp]) (FiniteMap.getElem?_insert_ne _ c hp)
  · rw [if_neg hr]
    refine ⟨fun p => ?_, rfl⟩
    by_cases hp : o = p
    · subst hp
      refine .staged c (by simp [mem_setMember]) hinsert ?_ hdb hminsert
      cases h o with
      | removed c' isRemoved => exact absurd isRemoved hr
      | staged c' notRemoved updated stored readable holds => simp [hm] at holds
      | untouched notRemoved notUpdated notStored holds =>
        rcases hrec : db[o]? with _ | (c' | _)
        · simpa using notStored
        · simp [hm, hrec, CoinRecord.coin?] at holds
        · exact absurd hrec hdb
    · exact (h p).congr (by simp [mem_setMember, hp]) (FiniteMap.getElem?_insert_ne _ c hp) Iff.rfl
        (FiniteMap.getElem?_insert_ne _ c hp)

end Moves

/-! ## `add_block` -/

section Methods

variable {db : CoinTable} {read : CoinRead} {m : UtxoSet} {s : UtxoIndex S} {o : OutPoint}
  {c : Coin}

/-- The commitment is no part of the agreement. -/
theorem Agrees.withStats {d : Staging S} (h : Agrees db d m) (stats : S) :
    Agrees db { d with coinStats := stats } m :=
  fun p => (h p).congr Iff.rfl rfl Iff.rfl rfl

theorem sat_dbGet (hread : Faithful read db) :
    Sat (dbGet (S := S) read o) s (fun r t => t = s ∧ r = db[o]?)
      fun _ t => t = s ∧ ReadFails read := by
  unfold dbGet
  cases hr : read o with
  | ok r => exact ⟨rfl, hread o r hr⟩
  | error e => exact ⟨rfl, o, e, hr⟩

/-- `_check_bip30` passes where no outpoint of the list holds a coin. -/
theorem Agrees.checkBip30 (hread : Faithful read db) (h : Agrees db s.data m)
    (os : List OutPoint) :
    Sat (UtxoIndex.checkBip30 read os) s
      (fun _ t => t = s ∧ ∀ o ∈ os, m[o]? = none ∧ db[o]? ≠ some .unreadable)
      fun _ _ => True := by
  induction os with
  | nil => exact ⟨rfl, by simp⟩
  | cons o os ih =>
    unfold UtxoIndex.checkBip30 bip30Violation
    simp only [sat_bind, sat_get]
    by_cases hr : o ∈ s.data.removedUtxos
    · rw [if_pos hr]
      refine ih.mono (fun _ t ht => ⟨ht.1, ?_⟩) fun _ _ _ => trivial
      refine List.forall_mem_cons.mpr ⟨?_, ht.2⟩
      cases h o with
      | staged c notRemoved => exact absurd hr notRemoved
      | removed c isRemoved notUpdated notStored record holds => exact ⟨holds, by simp [record]⟩
      | untouched notRemoved => exact absurd hr notRemoved
    · rw [if_neg hr]
      by_cases hu : o ∈ s.data.updatedUtxoSet
      · rw [if_pos hu]
        trivial
      · rw [if_neg hu, sat_bind]
        refine (sat_dbGet hread).mono ?_ fun _ _ _ => trivial
        rintro r t ⟨rfl, hrec⟩
        cases hdb : db[o]? with
        | some record =>
          rw [hrec, hdb]
          trivial
        | none =>
          rw [hrec, hdb]
          refine ih.mono (fun _ t ht => ⟨ht.1, ?_⟩) fun _ _ _ => trivial
          refine List.forall_mem_cons.mpr ⟨?_, ht.2⟩
          refine ⟨?_, by simp [hdb]⟩
          cases h o with
          | staged c notRemoved updated => simp [FiniteMap.notMem_iff, updated] at hu
          | removed c isRemoved => exact absurd isRemoved hr
          | untouched notRemoved notUpdated notStored holds => rw [holds, hdb]; rfl

/-- An input takes the coin the map holds at its prevout. -/
theorem Agrees.spendInput (hread : Faithful read db) (h : Agrees db s.data m) :
    Sat (UtxoIndex.spendInput C read o) s
      (fun c t => m[o]? = some c ∧ Agrees db t.data (m.erase o) ∧
        t.data.coinStats = C.remove o c s.data.coinStats)
      fun _ _ => True := by
  unfold UtxoIndex.spendInput hashRemove
  rw [sat_bind, sat_get]
  by_cases hr : o ∈ s.data.removedUtxos
  · rw [if_pos hr]
    trivial
  · rw [if_neg hr]
    cases hu : s.data.updatedUtxoSet[o]? with
    | some c =>
      rw [sat_bind]
      refine (h.spendStaged hu rfl).mono ?_ fun _ _ _ => trivial
      rintro _ t ⟨ht, hstats⟩
      refine ⟨?_, ht.withStats _, congrArg (C.remove o c) hstats⟩
      cases h o with
      | staged c' notRemoved updated stored readable holds =>
        rw [holds, ← updated, hu]
      | removed c' isRemoved notUpdated => simp [hu] at notUpdated
      | untouched notRemoved notUpdated => simp [hu] at notUpdated
    | none =>
      unfold storedPrevout UtxoIndex.markRemoved setRemoved
      simp only [sat_bind]
      refine (sat_dbGet hread).mono ?_ fun _ _ _ => trivial
      rintro r t ⟨rfl, hrec⟩
      cases hdb : db[o]? with
      | none =>
        rw [hrec, hdb]
        trivial
      | some record =>
        cases record with
        | unreadable =>
          rw [hrec, hdb]
          trivial
        | coin c =>
          rw [hrec, hdb]
          refine ⟨?_, (h.markRemoved hr hu hdb).withStats _, rfl⟩
          cases h o with
          | staged c' notRemoved updated => simp [hu] at updated
          | removed c' isRemoved => exact absurd isRemoved hr
          | untouched notRemoved notUpdated notStored holds => rw [holds, hdb]; rfl

/-- The inputs of a transaction take distinct coins of the map. -/
theorem Agrees.spendInputs (hread : Faithful read db) (os : List OutPoint)
    (h : Agrees db s.data m) :
    Sat (UtxoIndex.spendInputs C read os) s
      (fun removed t => m.Takes os removed ∧ Agrees db t.data (m.spend os) ∧
        t.data.coinStats = C.removeAll removed s.data.coinStats)
      fun _ _ => True := by
  induction os generalizing s m with
  | nil => exact ⟨UtxoSet.Takes.nil m, h, rfl⟩
  | cons o os ih =>
    unfold UtxoIndex.spendInputs
    simp only [sat_bind]
    refine (h.spendInput hread).mono ?_ fun _ _ _ => trivial
    rintro c t ⟨hm, ht, hstats⟩
    refine (ih ht).mono ?_ fun _ _ _ => trivial
    rintro removed u ⟨htakes, hu, hstats'⟩
    exact ⟨htakes.cons hm, hu, by rw [hstats', hstats]; rfl⟩

/-- A spendable output enters the map, at an outpoint the map does not hold. -/
theorem Agrees.stageCreation (hashIt : Bool) (h : Agrees db s.data m)
    (hspendable : ¬ C.isUnspendable c.txOut.script = true) (hm : m[o]? = none)
    (hdb : db[o]? ≠ some .unreadable) :
    Sat (UtxoIndex.stageCreation C o c hashIt) s
      (fun staged t => staged = true ∧ Agrees db t.data (m.insert o c) ∧
        t.data.coinStats = if hashIt then C.insert o c s.data.coinStats else s.data.coinStats)
      fun _ _ => False := by
  unfold UtxoIndex.stageCreation
  rw [if_neg hspendable]
  have hput := h.unmark_put (c := c) hm hdb rfl
  rw [sat_bind] at hput ⊢
  refine hput.mono (fun _ t ht => ?_) fun _ _ hf => hf
  rw [sat_bind]
  refine ht.mono ?_ fun _ _ hf => hf
  rintro _ u ⟨hu, hstats⟩
  cases hashIt with
  | true => exact ⟨rfl, hu.withStats _, congrArg (C.insert o c) hstats⟩
  | false => exact ⟨rfl, hu, hstats⟩

/-- A creation loop inserts the rows of its outputs. -/
theorem Agrees.createOutputs (txid : Hash) (height : ℕ) (isCoinbase hashIt : Bool) (i : ℕ)
    (vout : List TxOut) (h : Agrees db s.data m)
    (hfree : ∀ row ∈ spendableRows C txid height isCoinbase i vout,
      m[row.1]? = none ∧ db[row.1]? ≠ some .unreadable) :
    Sat (UtxoIndex.createOutputs C txid height isCoinbase hashIt i vout) s
      (fun added t => added = (spendableRows C txid height isCoinbase i vout).map Prod.fst ∧
        Agrees db t.data (m.create (spendableRows C txid height isCoinbase i vout)) ∧
        t.data.coinStats = if hashIt then
          C.insertAll (spendableRows C txid height isCoinbase i vout) s.data.coinStats
          else s.data.coinStats)
      fun _ _ => False := by
  induction vout generalizing i s m with
  | nil => exact ⟨rfl, h, by simp [spendableRows]⟩
  | cons txOut rest ih =>
    unfold UtxoIndex.createOutputs
    rw [sat_bind]
    rw [spendableRows] at hfree ⊢
    by_cases hu : C.isUnspendable txOut.script = true
    · simp only [if_pos hu] at hfree ⊢
      unfold UtxoIndex.stageCreation
      simp only [if_pos hu, sat_pure, sat_bind]
      exact (ih (i + 1) h hfree).mono (fun _ _ ht => ht) fun _ _ hf => hf
    · simp only [if_neg hu] at hfree ⊢
      obtain ⟨⟨hm, hdb⟩, hrest⟩ := List.forall_mem_cons.mp hfree
      have hnodup := nodup_spendableRows C txid height isCoinbase i (txOut :: rest)
      rw [spendableRows, if_neg hu, List.map_cons, List.nodup_cons] at hnodup
      refine (h.stageCreation hashIt hu hm hdb).mono ?_ fun _ _ hf => hf
      rintro _ t ⟨rfl, ht, hstats⟩
      have hrest' : ∀ row ∈ spendableRows C txid height isCoinbase (i + 1) rest,
          (m.insert ⟨txid, i⟩ ⟨txOut, height, isCoinbase⟩)[row.1]? = none ∧
            db[row.1]? ≠ some .unreadable := by
        intro row hrow
        refine ⟨?_, (hrest row hrow).2⟩
        rw [FiniteMap.getElem?_insert_ne, (hrest row hrow).1]
        intro heq
        exact hnodup.1 (List.mem_map.mpr ⟨row, hrow, heq.symm⟩)
      rw [sat_bind]
      refine (ih (i + 1) ht hrest').mono ?_ fun _ _ hf => hf
      rintro added u ⟨hadded, hu', hstats'⟩
      refine ⟨by rw [if_pos rfl, hadded, List.map_cons], hu', ?_⟩
      rw [hstats', hstats]
      cases hashIt <;> rfl

/-- The transaction loop connects each transaction to the map, keeping `Progress`. -/
theorem Agrees.connectTxs {block : CheckedBlock} {m₀ : UtxoSet} {height : ℕ}
    (hread : Faithful read db) (hfree : block.Free m₀)
    (hreadable : ∀ tx ∈ block.spends, ∀ o ∈ tx.outPoints, db[o]? ≠ some .unreadable)
    (txs : List Tx) (hsub : ∀ tx ∈ txs, tx ∈ block.spends) {done : List Tx}
    {removed created : List (OutPoint × Coin)} (h : Agrees db s.data m)
    (hprogress : Progress block m₀ done removed created m) :
    Sat (UtxoIndex.connectTxs C read height txs) s
      (fun r t => Progress block m₀ (done ++ txs) (removed ++ r.2.1)
          (created ++ txs.flatMap fun tx => tx.createdRows C height false)
          (txs.foldl (UtxoSet.connectTx C height) m) ∧
        r.2.2 = (txs.flatMap fun tx => tx.createdRows C height false).map Prod.fst ∧
        Agrees db t.data (txs.foldl (UtxoSet.connectTx C height) m) ∧
        t.data.coinStats = C.removeAll r.2.1
          (C.insertAll (txs.flatMap fun tx => tx.createdRows C height false) s.data.coinStats))
      fun _ _ => True := by
  induction txs generalizing s m done removed created with
  | nil => exact ⟨by simpa using hprogress, rfl, h, rfl⟩
  | cons tx rest ih =>
    obtain ⟨htx, hrest⟩ := List.forall_mem_cons.mp hsub
    unfold UtxoIndex.connectTxs
    simp only [sat_bind]
    refine (h.spendInputs hread tx.vin).mono ?_ fun _ _ _ => trivial
    rintro rows t ⟨htakes, ht, hstats⟩
    have hrows : ∀ row ∈ tx.createdRows C height false,
        (m.spend tx.vin)[row.1]? = none ∧ db[row.1]? ≠ some .unreadable := by
      intro row hrow
      have hout := mem_createdRows C hrow
      have hid := hprogress.id_fresh htx htakes
      refine ⟨?_, hreadable tx htx _ hout⟩
      rw [UtxoSet.getElem?_spend,
        hprogress.getElem?_eq_none (hprogress.outPoints_free hfree htx hid hout), ite_self]
    refine (ht.createOutputs tx.id height false true 0 tx.vout hrows).mono ?_
      fun _ _ hf => hf.elim
    rintro added u ⟨hadded, hu, hstats'⟩
    refine (ih (m := m.connectTx C height tx) hrest hu
      (hprogress.step hfree htx htakes)).mono ?_ fun _ _ _ => trivial
    rintro ⟨complete, removed', added'⟩ v ⟨hprogress', hadded', hv, hstats''⟩
    refine ⟨?_, ?_, hv, ?_⟩
    · simpa only [List.append_assoc, List.cons_append, List.nil_append, List.flatMap_cons,
        List.foldl_cons] using hprogress'
    · show added ++ added' = _
      rw [List.flatMap_cons, List.map_append, hadded, ← hadded']
      rfl
    · show v.data.coinStats = C.removeAll (rows ++ removed') _
      rw [hstats'', hstats', if_pos rfl, hstats, List.flatMap_cons, C.insertAll_append,
        C.removeAll_append, ← C.removeAll_insertAll_comm, ← C.removeAll_insertAll_comm]
      rfl

/-- The coins of a block the commitment counts. -/
def hashedRows (C : CoinStats S) (block : CheckedBlock) (height : ℕ) : List (OutPoint × Coin) :=
  (if isBip30Unspendable height block.header.hash then []
    else block.coinbase.createdRows C height true)
    ++ block.spends.flatMap fun tx => tx.createdRows C height false

/-- **`add_block` that returns has connected the block to the plain map**, and
the patch it returns takes it back. -/
theorem Agrees.addBlock (hread : Faithful read db) (h : Agrees db s.data m)
    (block : CheckedBlock) (height : ℕ) :
    Sat (UtxoIndex.addBlock C read block.toBlock height true) s
      (fun r t => Agrees db t.data (m.connect C height block.toBlock) ∧
        r.2.hash = block.header.hash ∧
        r.2.Undoes (block.createdRows C height) m (m.connect C height block.toBlock) ∧
        (∀ row ∈ r.2.toAdd, db[row.1]? ≠ some .unreadable) ∧
        t.data.coinStats =
          C.removeAll r.2.toAdd (C.insertAll (hashedRows C block height) s.data.coinStats))
      fun _ _ => True := by
  unfold UtxoIndex.addBlock stageBlock UtxoSet.connect
  rw [if_pos rfl, sat_bind, block.transactions_eq]
  refine (h.checkBip30 hread _).mono ?_ fun _ _ _ => trivial
  rintro _ t ⟨rfl, hbip30⟩
  have hout : ∀ tx ∈ block.coinbase :: block.spends, ∀ o ∈ tx.outPoints,
      m[o]? = none ∧ db[o]? ≠ some .unreadable :=
    fun tx htx o ho => hbip30 o (List.mem_flatMap.mpr ⟨tx, htx, ho⟩)
  have hfree : block.Free m := fun tx htx o ho => (hout tx htx o ho).1
  have hcoinbase : ∀ row ∈ block.coinbase.createdRows C height true,
      m[row.1]? = none ∧ db[row.1]? ≠ some .unreadable :=
    fun row hrow => hout _ List.mem_cons_self _ (mem_createdRows C hrow)
  simp only [sat_bind]
  refine (h.createOutputs block.coinbase.id height true _ 0 block.coinbase.vout hcoinbase).mono ?_
    fun _ _ hf => hf.elim
  rintro created u ⟨hcreated, hu, hstats⟩
  refine (hu.connectTxs hread hfree
    (fun tx htx o ho => (hout tx (List.mem_cons_of_mem _ htx) o ho).2) block.spends
    (fun _ htx => htx) Progress.coinbase).mono ?_ fun _ _ _ => trivial
  rintro ⟨complete, removed, added⟩ v ⟨hprogress, hadded, hv, hstats'⟩
  have hundoes := hprogress.undoes hfree block.header.hash
  have hrev : created ++ added = (block.createdRows C height).map Prod.fst := by
    rw [block.createdRows_eq C, List.map_append, hcreated, ← hadded]
    rfl
  refine ⟨hv, rfl, ?_, ?_, ?_⟩
  · rw [hrev, block.createdRows_eq C]
    exact hundoes
  · -- a spent coin was in the map before the block or is one of the block's own
    intro row hrow
    have hheld := hprogress.removed_held row hrow
    by_cases hmem : row.1 ∈ (block.createdRows C height).map Prod.fst
    · rw [block.createdRows_eq C] at hmem
      obtain ⟨row', hrow', hfst⟩ := List.mem_map.mp hmem
      obtain ⟨tx, htx, ho⟩ := hprogress.created_block row' hrow'
      rw [← hfst]
      exact (hout tx (hprogress.done_block tx htx) _ ho).2
    · rw [block.createdRows_eq C] at hmem
      rw [UtxoSet.getElem?_create_of_notMem hmem] at hheld
      exact (h row.1).readable hheld
  · show v.data.coinStats = C.removeAll removed _
    rw [hstats', hstats, hashedRows, C.insertAll_append]
    cases isBip30Unspendable height block.header.hash <;> rfl

/-! ## `apply_rev_block` -/

/-- The `to_add` loop inserts its rows. -/
theorem Agrees.restorePrevouts (blockHash : Hash) (rows : List (OutPoint × Coin))
    (h : Agrees db s.data m) (hnodup : (rows.map Prod.fst).Nodup)
    (hfree : ∀ row ∈ rows, m[row.1]? = none ∧ db[row.1]? ≠ some .unreadable) :
    Sat (UtxoIndex.restorePrevouts C blockHash rows) s
      (fun _ t => Agrees db t.data (m.create rows) ∧ t.data.coinStats =
        C.insertAll (rows.filter fun row => isHashed blockHash row.2) s.data.coinStats)
      fun _ _ => False := by
  induction rows generalizing s m with
  | nil => exact ⟨h, rfl⟩
  | cons row rest ih =>
    obtain ⟨o, c⟩ := row
    obtain ⟨⟨hm, hdb⟩, hrest⟩ := List.forall_mem_cons.mp hfree
    rw [List.map_cons, List.nodup_cons] at hnodup
    have hput := h.unmark_put (c := c) hm hdb rfl
    unfold UtxoIndex.restorePrevouts
    rw [sat_bind] at hput ⊢
    refine hput.mono (fun _ t ht => ?_) fun _ _ hf => hf
    rw [sat_bind]
    refine ht.mono ?_ fun _ _ hf => hf
    rintro _ u ⟨hu, hstats⟩
    have hrest' : ∀ row ∈ rest, (m.insert o c)[row.1]? = none ∧ db[row.1]? ≠ some .unreadable := by
      intro row hrow
      refine ⟨?_, (hrest row hrow).2⟩
      rw [FiniteMap.getElem?_insert_ne, (hrest row hrow).1]
      intro heq
      exact hnodup.1 (List.mem_map.mpr ⟨row, hrow, heq.symm⟩)
    by_cases hhashed : isHashed blockHash c = true
    · simp only [List.filter_cons, if_pos hhashed]
      refine (ih (hu.withStats (C.insert o c u.data.coinStats)) hnodup.2 hrest').mono ?_
        fun _ _ hf => hf
      rintro _ v ⟨hv, hstats'⟩
      exact ⟨hv, hstats'.trans (congrArg (fun st => C.insertAll _ (C.insert o c st)) hstats)⟩
    · simp only [List.filter_cons, if_neg hhashed]
      refine (ih hu hnodup.2 hrest').mono ?_ fun _ _ hf => hf
      rintro _ v ⟨hv, hstats'⟩
      exact ⟨hv, hstats'.trans (congrArg _ hstats)⟩

/-- One turn of the `to_remove` loop takes the coin the map holds. -/
theorem Agrees.removeCreated (hread : Faithful read db) (h : Agrees db s.data m)
    (hm : m[o]? = some c) :
    Sat (UtxoIndex.removeCreated read o) s
      (fun c' t => c' = c ∧ Agrees db t.data (m.erase o) ∧
        t.data.coinStats = s.data.coinStats)
      fun _ _ => ReadFails read := by
  unfold UtxoIndex.removeCreated UtxoIndex.markRemoved setRemoved
  obtain ⟨hr, hu | ⟨hu, hdb⟩⟩ := (h o).of_some hm
  · rw [sat_bind, sat_get, if_neg hr]
    simp only [hu, sat_bind]
    exact (h.spendStaged hu rfl).mono (fun _ t ht => ⟨rfl, ht⟩) fun _ _ hf => hf.elim
  · rw [sat_bind, sat_get, if_neg hr]
    simp only [hu, sat_bind]
    refine (sat_dbGet hread).mono ?_ fun _ t ht => ht.2
    rintro r t ⟨rfl, hrec⟩
    rw [hrec, hdb]
    exact ⟨rfl, h.markRemoved hr hu hdb, rfl⟩

/-- The `to_remove` loop deletes the outpoints of its rows. -/
theorem Agrees.removeCreations (hread : Faithful read db) (blockHash : Hash)
    (rows : List (OutPoint × Coin)) (h : Agrees db s.data m)
    (hnodup : (rows.map Prod.fst).Nodup) (hheld : ∀ row ∈ rows, m[row.1]? = some row.2) :
    Sat (UtxoIndex.removeCreations C read blockHash (rows.map Prod.fst)) s
      (fun _ t => Agrees db t.data (m.spend (rows.map Prod.fst)) ∧ t.data.coinStats =
        C.removeAll (rows.filter fun row => isHashed blockHash row.2) s.data.coinStats)
      fun _ _ => ReadFails read := by
  induction rows generalizing s m with
  | nil => exact ⟨h, rfl⟩
  | cons row rest ih =>
    obtain ⟨o, c⟩ := row
    obtain ⟨hm, hrest⟩ := List.forall_mem_cons.mp hheld
    rw [List.map_cons, List.nodup_cons] at hnodup
    rw [List.map_cons]
    unfold UtxoIndex.removeCreations
    rw [sat_bind]
    refine (h.removeCreated hread hm).mono ?_ fun _ _ hf => hf
    rintro c' t ⟨rfl, ht, hstats⟩
    have hrest' : ∀ row ∈ rest, (m.erase o)[row.1]? = some row.2 := by
      intro row hrow
      rw [FiniteMap.getElem?_erase_ne, hrest row hrow]
      intro heq
      exact hnodup.1 (List.mem_map.mpr ⟨row, hrow, heq.symm⟩)
    by_cases hhashed : isHashed blockHash c' = true
    · simp only [List.filter_cons, if_pos hhashed]
      refine (ih (ht.withStats (C.remove o c' t.data.coinStats)) hnodup.2 hrest').mono ?_
        fun _ _ hf => hf
      rintro _ v ⟨hv, hstats'⟩
      exact ⟨hv, hstats'.trans (congrArg (fun st => C.removeAll _ (C.remove o c' st)) hstats)⟩
    · simp only [List.filter_cons, if_neg hhashed]
      refine (ih ht hnodup.2 hrest').mono ?_ fun _ _ hf => hf
      rintro _ v ⟨hv, hstats'⟩
      exact ⟨hv, hstats'.trans (congrArg _ hstats)⟩

/-- **`apply_rev_block` takes the map back**, and raises only where the store does. -/
theorem Agrees.applyRevBlock {m₀ : UtxoSet} {created : List (OutPoint × Coin)} {rev : RevBlock}
    (hread : Faithful read db) (h : Agrees db s.data m) (hundoes : rev.Undoes created m₀ m)
    (hreadable : ∀ row ∈ rev.toAdd, db[row.1]? ≠ some .unreadable) :
    Sat (UtxoIndex.applyRevBlock C read rev) s
      (fun _ t => Agrees db t.data m₀ ∧ t.data.coinStats =
        C.removeAll (created.filter fun row => isHashed rev.hash row.2)
          (C.insertAll (rev.toAdd.filter fun row => isHashed rev.hash row.2) s.data.coinStats))
      fun _ _ => ReadFails read := by
  unfold UtxoIndex.applyRevBlock
  rw [sat_bind]
  refine (h.restorePrevouts rev.hash rev.toAdd hundoes.toAdd_nodup fun row hrow =>
    ⟨hundoes.toAdd_absent row hrow, hreadable row hrow⟩).mono ?_ fun _ _ hf => hf.elim
  rintro _ t ⟨ht, hstats⟩
  rw [hundoes.toRemove_eq]
  refine (ht.removeCreations hread rev.hash created hundoes.created_nodup
    fun row hrow => hundoes.getElem?_create hrow).mono ?_ fun _ _ hf => hf
  rintro _ u ⟨hu, hstats'⟩
  rw [← hundoes.toRemove_eq, hundoes.restores] at hu
  exact ⟨hu, by rw [hstats', hstats]⟩

end Methods

/-! ## `finalize` -/

section Finalize

variable {db : CoinTable} {m : UtxoSet} {s : UtxoIndex S}

theorem getElem?_flushed (db : CoinTable) (s : UtxoIndex S) (o : OutPoint) :
    (flushed db s)[o]? = (s.data.updatedUtxoSet[o]?.map .coin).or
      (if o ∈ s.data.removedUtxos then none else db[o]?) := by
  unfold flushed
  rw [FiniteMap.getElem?_foldl_insert, FiniteMap.getElem?_foldl_erase]

/-- **`finalize` writes what was visible**: the emptied overlays stand for the
same map over the new records. -/
theorem Agrees.finalize (h : Agrees db s.data m) :
    Agrees (flushed db s) s.finalize.data m := by
  intro o
  refine .untouched Std.ExtTreeSet.not_mem_empty Std.ExtTreeMap.getElem?_empty
    Std.ExtTreeSet.not_mem_empty ?_
  rw [getElem?_flushed]
  cases h o with
  | staged c notRemoved updated stored readable holds => rw [holds, updated]; rfl
  | removed c isRemoved notUpdated notStored record holds =>
    rw [holds, notUpdated, if_pos isRemoved]; rfl
  | untouched notRemoved notUpdated notStored holds =>
    rw [holds, notUpdated, if_neg notRemoved]; rfl

/-- `finalize` makes no record unreadable. -/
theorem readable_flushed {o : OutPoint} (hdb : db[o]? ≠ some .unreadable) :
    (flushed db s)[o]? ≠ some .unreadable := by
  rw [getElem?_flushed]
  cases s.data.updatedUtxoSet[o]? with
  | some c => simp
  | none =>
    by_cases hr : o ∈ s.data.removedUtxos
    · simp [hr]
    · simpa [hr] using hdb

end Finalize

/-- A freshly loaded index stands for the stored coins. -/
theorem agrees_init (db : CoinTable) (coinStats : S) :
    Agrees db (init coinStats).data db.coins :=
  fun o => .untouched Std.ExtTreeSet.not_mem_empty Std.ExtTreeMap.getElem?_empty
    Std.ExtTreeSet.not_mem_empty (CoinTable.getElem?_coins db o)

end UtxoIndex

end BtclibNode
