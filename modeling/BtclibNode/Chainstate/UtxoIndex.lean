/-
# `UtxoIndex`, the staged UTXO set

`chainstate/utxo_index.py`.  The staging is three overlays over the stored
`utxo-` records, with the running commitment beside them, and an undo log of
every mutation.  The methods read the store through `read`, which may raise,
and never write it: `finalize` is the one write, into the caller's batch.
-/
import BtclibNode.Lib.StateExcept
import BtclibNode.Lib.UndoLog
import BtclibNode.Chainstate.CoinStats

namespace BtclibNode

/-! ## What is stored -/

/-- A stored `utxo-` record: the coin it parses to, or bytes `Coin.parse` cannot
read.  An empty value is no record to any of the methods here. -/
inductive CoinRecord where
  | coin (c : Coin)
  | unreadable
  deriving DecidableEq, Repr

/-- The `utxo-` records of the store. -/
abbrev CoinTable := Std.ExtTreeMap OutPoint CoinRecord

/-- What the methods here raise.  The first three are `InvalidBlockInputError`,
`noTransactions` is the `IndexError` of `block.transactions[0]`, the next three
are `ChainstateInconsistencyError`, and `storage` is what the store's own `get`
raises. -/
inductive UtxoError where
  | bip30
  | alreadySpent
  | prevoutNotFound
  | noTransactions
  | outputAlreadyRemoved
  | outputNotFound
  | recordUnparsable
  | storage
  deriving DecidableEq, Repr

/-- The store's `get`, which answers a record, no record, or raises. -/
abbrev CoinRead := OutPoint → Except UtxoError (Option CoinRecord)

/-- A `get` that never raises. -/
def CoinTable.read (db : CoinTable) : CoinRead := fun o => .ok db[o]?

/-! ## The staging and its undo log -/

/-- `removed_utxos`, `updated_utxo_set`, `_stored_utxos` and `coin_stats`. -/
structure Staging (S : Type) where
  removedUtxos : Std.ExtTreeSet OutPoint
  updatedUtxoSet : Std.ExtTreeMap OutPoint Coin
  storedUtxos : Std.ExtTreeSet OutPoint
  coinStats : S

/-- An entry of `_undo_log`: the prior value of a key of one of the three
overlays (`none` is `_UNSET`), or a coin hashed in or out. -/
inductive UndoEntry where
  | updated (o : OutPoint) (prior : Option Coin)
  | removed (o : OutPoint) (prior : Bool)
  | stored (o : OutPoint) (prior : Bool)
  | hashed (wasInsert : Bool) (o : OutPoint) (c : Coin)
  deriving DecidableEq, Repr

/-- The staging with its undo log. -/
abbrev UtxoIndex (S : Type) := Logged (Staging S) UndoEntry

/-- A method of `UtxoIndex`. -/
abbrev UtxoM (S : Type) := EStateM UtxoError (UtxoIndex S)

/-- `UtxoIndex.__init__`: nothing staged, the commitment as stored. -/
def UtxoIndex.init {S : Type} (coinStats : S) : UtxoIndex S :=
  ⟨⟨∅, ∅, ∅, coinStats⟩, []⟩

/-- Add a key to a set or discard it. -/
def setMember (s : Std.ExtTreeSet OutPoint) (o : OutPoint) (present : Bool) :
    Std.ExtTreeSet OutPoint :=
  if present then s.insert o else s.erase o

namespace UtxoIndex

variable {S : Type} (C : CoinStats S)

/-- What `rollback` does with one entry of the log. -/
def undo : UndoEntry → Staging S → Staging S
  | .updated o none, d => { d with updatedUtxoSet := d.updatedUtxoSet.erase o }
  | .updated o (some c), d => { d with updatedUtxoSet := d.updatedUtxoSet.insert o c }
  | .removed o prior, d => { d with removedUtxos := setMember d.removedUtxos o prior }
  | .stored o prior, d => { d with storedUtxos := setMember d.storedUtxos o prior }
  | .hashed true o c, d => { d with coinStats := C.remove o c d.coinStats }
  | .hashed false o c, d => { d with coinStats := C.insert o c d.coinStats }

/-- `trial_mark`. -/
def trialMark (s : UtxoIndex S) : ℕ := s.mark

/-- `rollback`. -/
def rollback (mark : ℕ) (s : UtxoIndex S) : UtxoIndex S := Logged.rollback (undo C) mark s

/-! ## The logged mutations -/

/-- `_put`. -/
def put (o : OutPoint) (coin : Coin) : UtxoM S Unit :=
  modify fun s =>
    ⟨{ s.data with updatedUtxoSet := s.data.updatedUtxoSet.insert o coin },
      .updated o s.data.updatedUtxoSet[o]? :: s.log⟩

/-- `_pop` of a key that holds `coin`. -/
def pop (o : OutPoint) (coin : Coin) : UtxoM S Unit :=
  modify fun s =>
    ⟨{ s.data with updatedUtxoSet := s.data.updatedUtxoSet.erase o },
      .updated o (some coin) :: s.log⟩

/-- `_mark_removed`, and the last two statements of `_unmark_removed`. -/
def setRemoved (o : OutPoint) (present : Bool) : UtxoM S Unit :=
  modify fun s =>
    ⟨{ s.data with removedUtxos := setMember s.data.removedUtxos o present },
      .removed o (decide (o ∈ s.data.removedUtxos)) :: s.log⟩

/-- `_log_and_set_stored`. -/
def logAndSetStored (o : OutPoint) (present : Bool) : UtxoM S Unit :=
  modify fun s =>
    ⟨{ s.data with storedUtxos := setMember s.data.storedUtxos o present },
      .stored o (decide (o ∈ s.data.storedUtxos)) :: s.log⟩

/-- `_mark_removed`. -/
def markRemoved (o : OutPoint) : UtxoM S Unit := setRemoved o true

/-- `_unmark_removed`. -/
def unmarkRemoved (o : OutPoint) : UtxoM S Unit := do
  let s ← get
  if o ∈ s.data.removedUtxos then
    logAndSetStored o true
  setRemoved o false

/-- `_spend_staged` of a key that holds `coin`. -/
def spendStaged (o : OutPoint) (coin : Coin) : UtxoM S Unit := do
  pop o coin
  let s ← get
  if o ∈ s.data.storedUtxos then
    logAndSetStored o false
    markRemoved o

/-- `_hash_insert`. -/
def hashInsert (o : OutPoint) (coin : Coin) : UtxoM S Unit :=
  modify fun s =>
    ⟨{ s.data with coinStats := C.insert o coin s.data.coinStats }, .hashed true o coin :: s.log⟩

/-- `_hash_remove`. -/
def hashRemove (o : OutPoint) (coin : Coin) : UtxoM S Unit :=
  modify fun s =>
    ⟨{ s.data with coinStats := C.remove o coin s.data.coinStats }, .hashed false o coin :: s.log⟩

/-! ## `add_block` -/

/-- `self.db.get`. -/
def dbGet (read : CoinRead) (o : OutPoint) : UtxoM S (Option CoinRecord) :=
  match read o with
  | .ok record => pure record
  | .error e => throw e

/-- `_bip30_violation`. -/
def bip30Violation (read : CoinRead) (o : OutPoint) : UtxoM S Bool := do
  let s ← get
  if o ∈ s.data.removedUtxos then
    return false
  else if o ∈ s.data.updatedUtxoSet then
    return true
  else
    let record ← dbGet read o
    return record.isSome

/-- `_check_bip30`, over the outpoints the block is about to create. -/
def checkBip30 (read : CoinRead) : List OutPoint → UtxoM S Unit
  | [] => pure ()
  | o :: os => do
    let violation ← bip30Violation read o
    if violation then
      throw .bip30
    checkBip30 read os

/-- `_stored_prevout`: a record that does not parse is absent. -/
def storedPrevout (read : CoinRead) (o : OutPoint) : UtxoM S (Option Coin) := do
  let record ← dbGet read o
  match record with
  | some (.coin c) => return some c
  | _ => return none

/-- One turn of the input loop of `add_block`: the coin the input spends. -/
def spendInput (read : CoinRead) (prevout : OutPoint) : UtxoM S Coin := do
  let s ← get
  if prevout ∈ s.data.removedUtxos then
    throw .alreadySpent
  else
    match s.data.updatedUtxoSet[prevout]? with
    | some coin => do
      spendStaged prevout coin
      hashRemove C prevout coin
      return coin
    | none => do
      match ← storedPrevout read prevout with
      | none => throw .prevoutNotFound
      | some coin => do
        markRemoved prevout
        hashRemove C prevout coin
        return coin

/-- The input loop of `add_block`, with what it appends to `removed`. -/
def spendInputs (read : CoinRead) : List OutPoint → UtxoM S (List (OutPoint × Coin))
  | [] => return []
  | prevout :: rest => do
    let coin ← spendInput C read prevout
    let removed ← spendInputs read rest
    return (prevout, coin) :: removed

/-- `_stage_creation`. -/
def stageCreation (o : OutPoint) (coin : Coin) (hashIt : Bool) : UtxoM S Bool :=
  if C.isUnspendable coin.txOut.script then
    return false
  else do
    unmarkRemoved o
    put o coin
    if hashIt then
      hashInsert C o coin
    return true

/-- A creation loop of `add_block` from output `i` on, with what `_stage_added`
appends to `added`. -/
def createOutputs (txid : Hash) (height : ℕ) (isCoinbase hashIt : Bool) :
    ℕ → List TxOut → UtxoM S (List OutPoint)
  | _, [] => return []
  | i, txOut :: rest => do
    let staged ← stageCreation C ⟨txid, i⟩ ⟨txOut, height, isCoinbase⟩ hashIt
    let added ← createOutputs txid height isCoinbase hashIt (i + 1) rest
    return if staged then ⟨txid, i⟩ :: added else added

/-- The transaction loop of `add_block`: what it appends to
`complete_transactions`, `removed` and `added`. -/
def connectTxs (read : CoinRead) (height : ℕ) :
    List Tx → UtxoM S (List (List Coin × Tx) × List (OutPoint × Coin) × List OutPoint)
  | [] => return ([], [], [])
  | tx :: rest => do
    let removed ← spendInputs C read tx.vin
    let added ← createOutputs C tx.id height false true 0 tx.vout
    let (complete, removed', added') ← connectTxs read height rest
    return ((removed.map Prod.snd, tx) :: complete, removed ++ removed', added ++ added')

/-- The two loops of `add_block`, past its BIP30 check. -/
def stageBlock (read : CoinRead) (block : Block) (height : ℕ) :
    UtxoM S (List (List Coin × Tx) × RevBlock) :=
  match block.transactions with
  | [] => throw .noTransactions
  | coinbase :: rest => do
    let hashIt := !isBip30Unspendable height block.header.hash
    let created ← createOutputs C coinbase.id height true hashIt 0 coinbase.vout
    let (complete, removed, added) ← connectTxs C read height rest
    return (complete, ⟨block.header.hash, removed, created ++ added⟩)

/-- `add_block`, `check` being its `check_bip30`. -/
def addBlock (read : CoinRead) (block : Block) (height : ℕ) (check : Bool) :
    UtxoM S (List (List Coin × Tx) × RevBlock) := do
  if check then
    checkBip30 read (block.transactions.flatMap Tx.outPoints)
  stageBlock C read block height

/-! ## `apply_rev_block` -/

/-- The gate of `apply_rev_block` on `coin_stats`. -/
def isHashed (blockHash : Hash) (coin : Coin) : Bool :=
  !(coin.isCoinbase && isBip30Unspendable coin.height blockHash)

/-- The `to_add` loop of `apply_rev_block`. -/
def restorePrevouts (blockHash : Hash) : List (OutPoint × Coin) → UtxoM S Unit
  | [] => return ()
  | (o, coin) :: rest => do
    unmarkRemoved o
    put o coin
    if isHashed blockHash coin then
      hashInsert C o coin
    restorePrevouts blockHash rest

/-- The coin one turn of the `to_remove` loop takes out. -/
def removeCreated (read : CoinRead) (o : OutPoint) : UtxoM S Coin := do
  let s ← get
  if o ∈ s.data.removedUtxos then
    throw .outputAlreadyRemoved
  else
    match s.data.updatedUtxoSet[o]? with
    | some coin => do
      spendStaged o coin
      return coin
    | none => do
      match ← dbGet read o with
      | none => throw .outputNotFound
      | some .unreadable => throw .recordUnparsable
      | some (.coin coin) => do
        markRemoved o
        return coin

/-- The `to_remove` loop of `apply_rev_block`. -/
def removeCreations (read : CoinRead) (blockHash : Hash) : List OutPoint → UtxoM S Unit
  | [] => return ()
  | o :: rest => do
    let coin ← removeCreated read o
    if isHashed blockHash coin then
      hashRemove C o coin
    removeCreations read blockHash rest

/-- `apply_rev_block`. -/
def applyRevBlock (read : CoinRead) (rev : RevBlock) : UtxoM S Unit := do
  restorePrevouts C rev.hash rev.toAdd
  removeCreations C read rev.hash rev.toRemove

/-! ## `get_coin` and `finalize` -/

/-- `get_coin`, over the records `db`. -/
def getCoin (db : CoinTable) (s : UtxoIndex S) (o : OutPoint) : Option Coin :=
  match s.data.updatedUtxoSet[o]? with
  | some coin => some coin
  | none =>
    if o ∈ s.data.removedUtxos then none
    else
      match db[o]? with
      | some (.coin coin) => some coin
      | _ => none

/-- The records after the deletes and puts of `finalize`. -/
def flushed (db : CoinTable) (s : UtxoIndex S) : CoinTable :=
  s.data.updatedUtxoSet.foldl (fun db o coin => db.insert o (.coin coin))
    (s.data.removedUtxos.foldl (fun db o => db.erase o) db)

/-- The index after `finalize`. -/
def finalize (s : UtxoIndex S) : UtxoIndex S := init s.data.coinStats

/-- `should_flush`, with `_FLUSH_BOUND` a parameter. -/
def shouldFlush (bound : ℕ) (s : UtxoIndex S) : Bool :=
  bound ≤ s.data.removedUtxos.size + s.data.updatedUtxoSet.size

end UtxoIndex

end BtclibNode
