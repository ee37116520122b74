/-
# Dumping the UTXO set

`rpc/snapshot.py`, with `cursor` and `by_txid` of the UTXO index and the file
format of `snapshot.py`.  The dump is a generator: what it finds at each resume,
and what the disk, the reader of a pipe and the stop flag answer each time they
are asked, is in `SnapshotEnv`.  The key of an outpoint is `utxo-` with btclib's
serialization, the txid's octets from the last to the first and the index in four,
little-endian; an empty value is `none`.
-/
import Mathlib
import BtclibNode.Lib.Dict
import BtclibNode.Lib.LittleEndian
import BtclibNode.Lib.Overlay
import BtclibNode.Lib.StateExcept
import BtclibNode.Chainstate.UtxoIndex
import BtclibNode.Rpc.JsonRpc

namespace BtclibNode

open Overlay

/-! ## The node and its surroundings -/

/-- What the dump raises: an `RpcError`, btclib's refusal to serialize, an
`IndexError` or what the disk raises.  `waiting` is no exception: the call is still
waiting when `patience` is at its end. -/
inductive SnapshotError where
  | rpc (error : RpcError)
  | btclib
  | index
  | storage
  | waiting

/-- What btclib serializes and hashes, the chain's magic, and the number of coins
in a commitment. -/
structure SnapshotRules (S : Type) where
  magic : Bytes
  varInt : ℕ → Option Bytes
  varint : ℕ → Option ℕ → Option Bytes
  compressAmount : ℤ → Option ℕ
  scriptOctets : Script → Option Bytes
  txOutSer : Bytes → Coin → Bytes
  sha256 : Bytes → Bytes
  transactionOutputCount : S → ℕ

/-- What the dump reads of the node: the chain, the UTXO index over its store and
what `block_db` holds. -/
structure SnapshotWorld (S : Type) where
  activeChain : List Hash
  db : CoinTable
  utxoIndex : UtxoIndex S
  txCount : Hash → Option ℕ
  revBlock : Hash → Option RevBlock
  prunedUpTo : ℤ

/-- What a write to a pipe comes to: some of the octets taken, none, or no reader. -/
inductive PipeReply where
  | takes (n : ℕ)
  | full
  | broken

/-- What opening a pipe comes to. -/
inductive OpenReply where
  | noReader
  | failed
  | notFifo
  | opened

/-- The node at each resume, and the answers of all that is asked, in order;
`patience` is how often a loop that waits goes round. -/
structure SnapshotEnv (S : Type) where
  worlds : ℕ → SnapshotWorld S
  stopping : ℕ → Bool
  diskFails : ℕ → Bool
  pipe : ℕ → PipeReply
  opens : ℕ → OpenReply
  patience : ℕ

/-- How often each was asked, and the file so far. -/
structure DumpState where
  resumes : ℕ
  looks : ℕ
  accesses : ℕ
  writes : ℕ
  tries : ℕ
  file : Bytes

/-- A part of the dump. -/
abbrev Dump (α : Type) := EStateM SnapshotError DumpState α

namespace Snapshot

variable {S : Type}

/-- `_STEP`. -/
def step : ℕ := 1024

/-- A value, or the error where there is none. -/
def orRaise {α : Type} (e : SnapshotError) (x : Option α) : Dump α :=
  match x with
  | some a => return a
  | none => throw e

/-- An `RpcError`. -/
def refuse {α : Type} (code : ℤ) (message : String) : Dump α := throw (.rpc ⟨code, message⟩)

section Env

variable (env : SnapshotEnv S)

/-- The node, as it is now. -/
def world : Dump (SnapshotWorld S) := do return env.worlds (← get).resumes

/-- `yield`: the loop goes on, and the node may be another after it. -/
def pause : Dump Unit := modify fun t => { t with resumes := t.resumes + 1 }

/-- An access of the disk. -/
def access : Dump Unit := do
  let t ← get
  set { t with accesses := t.accesses + 1 }
  if env.diskFails t.accesses then throw .storage else return ()

/-- `_interruption_point`. -/
def interruptionPoint : Dump Unit := do
  let t ← get
  set { t with looks := t.looks + 1 }
  if env.stopping t.looks then refuse RPCErrorCode.clientNotConnected "Shutting down"
  else return ()

/-- A look at the stop flag and a yield, each `_STEP`. -/
def pauseWhen (c : Bool) : Dump Unit :=
  if c then do
    interruptionPoint env
    pause
  else return ()

/-! ## Counting transactions -/

/-- What `_chain_tx_count` says of a block that is not held. -/
def countRefusal : String :=
  "Could not count the transactions of the chain: block data is already pruned."

/-- The blocks of `_chain_tx_count`, from the `number`-th. -/
def txCounts : ℕ → List Hash → Dump ℕ
  | _, [] => return 0
  | number, block :: rest => do
    access env
    let count ← orRaise (.rpc ⟨RPCErrorCode.miscError, countRefusal⟩) ((← world env).txCount block)
    pauseWhen env (number % step == step - 1)
    return count + (← txCounts (number + 1) rest)

/-- `_chain_tx_count`. -/
def chainTxCount (first last : ℕ) : Dump ℕ := do
  let chain := (← world env).activeChain
  txCounts env 0 ((chain.take (last + 1)).drop first)

/-- `_require_block`. -/
def requireBlock (height : ℕ) (block : Hash) : Dump Unit := do
  if (← world env).activeChain[height]? ≠ some block then
    refuse RPCErrorCode.miscError "Block is not in the active chain"
  else return ()

/-- The loop of `_counted` for the tip. -/
def countedTip : ℕ → ℕ → ℕ → Dump (ℕ × ℕ)
  | 0, _, _ => throw .waiting
  | fuel + 1, counted, total => do
    let chain := (← world env).activeChain
    let tip := chain.length - 1
    let pinned ← orRaise .index chain[tip]?
    let more ← chainTxCount env counted tip
    let after := (← world env).activeChain
    if after[tip]? ≠ some pinned then countedTip fuel 0 0
    else if after.length - 1 = tip then return (total + more, tip)
    else countedTip fuel (tip + 1) (total + more)

/-- `_counted`. -/
def counted : Option ℕ → Dump (ℕ × ℕ)
  | some target => do
    let pinned ← orRaise .index (← world env).activeChain[target]?
    let count ← chainTxCount env 0 target
    requireBlock env target pinned
    return (count, target)
  | none => countedTip env env.patience 0 0

/-! ## The coins -/

/-- `OutPoint.serialize`. -/
def serializeOutPoint (o : OutPoint) : Bytes :=
  LittleEndian.encode 32 o.txid ++ LittleEndian.encode 4 o.vout

/-- The key of a coin. -/
def utxoKey (o : OutPoint) : Bytes := ascii "utxo-" ++ serializeOutPoint o

/-- `UtxoIndex.cursor`, of a store that holds `db`. -/
def cursor (db : CoinTable) : List (Bytes × CoinRecord) :=
  sortKeys (db.toList.map fun row => (utxoKey row.1, row.2))

/-- `_merged`. -/
def merged (stored : List (Bytes × CoinRecord)) (changes : List (Bytes × Option CoinRecord)) :
    List (Bytes × CoinRecord) :=
  (overlay changes (stored.map fun row => (row.1, some row.2))).filterMap fun row =>
    row.2.map fun record => (row.1, record)

/-- What one block changed: the coins it spent, then no coin where it created one. -/
def patchChanges (rev : RevBlock) : Dict Bytes (Option CoinRecord) :=
  rev.toRemove.foldl (fun changes o => changes.set (utxoKey o) none)
    (rev.toAdd.foldl (fun changes row => changes.set (utxoKey row.1) (some (.coin row.2)))
      Dict.empty)

/-- `dict.items`. -/
def items {β : Type} (d : Dict Bytes β) : List (Bytes × β) :=
  d.keys.filterMap fun key => (d.get? key).map fun value => (key, value)

/-- `_disconnect`, of the blocks at `heights`, into the changes `σ` that `put` adds to. -/
def disconnect {σ : Type} (w : SnapshotWorld S) (put : σ → List (Bytes × Option CoinRecord) → Dump σ) :
    List ℕ → σ → Dump σ
  | [], changes => return changes
  | height :: heights, changes => do
    interruptionPoint env
    let block ← orRaise .index w.activeChain[height]?
    access env
    match w.revBlock block with
    | none => refuse RPCErrorCode.internalError s!"Failed to roll back block at height {height}"
    | some rev =>
      if rev.hash ≠ block then
        refuse RPCErrorCode.internalError s!"Failed to roll back block at height {height}"
      else do
        let changes ← put changes (items (patchChanges rev))
        disconnect w put heights changes

/-- The heights above `height`, the tip's first. -/
def heightsAbove (chain : List Hash) (height : ℕ) : List ℕ :=
  ((List.range chain.length).drop (height + 1)).reverse

/-- `_disconnect` into memory: the changes in the order of their keys. -/
def disconnectInMemory (w : SnapshotWorld S) (height : ℕ) :
    Dump (List (Bytes × Option CoinRecord)) := do
  let changes ← disconnect env w (fun changes rows => pure (rows.foldl
    (fun changes row => Dict.set changes row.1 row.2) changes)) (heightsAbove w.activeChain height)
    Dict.empty
  return sortKeys (items changes)

/-- `_disconnect` into the temporary store, and its scan. -/
def disconnectToStore (w : SnapshotWorld S) (height : ℕ) :
    Dump (List (Bytes × Option CoinRecord)) := do
  access env
  let store ← disconnect env w (fun store rows => do
    access env
    return rows.foldl (fun store row => Std.ExtTreeMap.insert store row.1 row.2) store)
    (heightsAbove w.activeChain height) (∅ : Std.ExtTreeMap Bytes (Option CoinRecord))
  access env
  return store.toList

/-- The changes above `height`, in the order of their keys. -/
def disconnected (w : SnapshotWorld S) (height : ℕ) (inMemory : Bool) :
    Dump (List (Bytes × Option CoinRecord)) :=
  if inMemory then disconnectInMemory env w height else disconnectToStore env w height

/-- `_count_coins`, from the `count`-th on. -/
def countRows : ℕ → List (Bytes × CoinRecord) → Dump ℕ
  | count, [] => return count
  | count, _ :: rows => do
    pauseWhen env ((count + 1) % step == 0)
    countRows (count + 1) rows

/-- `_count_coins`, which is asked for none of a file that can seek. -/
def countCoins (seekable : Bool) (rows : List (Bytes × CoinRecord)) : Dump (Option ℕ) :=
  if seekable then return none
  else do return some (← countRows env 0 rows)

end Env

/-! ## The rows of one txid -/

/-- `sorted` of the rows of one txid, no two of one index. -/
def sortRows (rows : List (ℕ × Bytes × CoinRecord)) : List (ℕ × Bytes × CoinRecord) :=
  sortKeys rows

/-- `UtxoIndex.by_txid`, with the txid before and its rows. -/
def byTxidFrom (txid : Bytes) (rows : List (ℕ × Bytes × CoinRecord)) :
    List (Bytes × CoinRecord) → List (List (ℕ × Bytes × CoinRecord))
  | [] => if rows.isEmpty then [] else [sortRows rows]
  | (key, value) :: rest =>
    let outPoint := key.drop 5
    let row := (LittleEndian.decode (outPoint.drop 32), outPoint, value)
    if outPoint.take 32 ≠ txid ∧ !rows.isEmpty then
      sortRows rows :: byTxidFrom (outPoint.take 32) [row] rest
    else byTxidFrom (outPoint.take 32) (rows ++ [row]) rest

/-- `UtxoIndex.by_txid`. -/
def byTxid (rows : List (Bytes × CoinRecord)) : List (List (ℕ × Bytes × CoinRecord)) :=
  byTxidFrom [] [] rows

/-- The coins of a txid's rows, where every value parses. -/
def parseRows (rows : List (ℕ × Bytes × CoinRecord)) : Option (List (ℕ × Bytes × Coin)) :=
  rows.mapM fun row =>
    match row.2.2 with
    | .coin coin => some (row.1, row.2.1, coin)
    | .unreadable => none

/-! ## The file -/

section File

variable (rules : SnapshotRules S)

/-- `serialize_coin`. -/
def serializeCoin (coin : Coin) : Option Bytes := do
  let code ← rules.varint (coin.height * 2 + if coin.isCoinbase then 1 else 0) (some 32)
  let amount ← rules.varint (← rules.compressAmount coin.txOut.value) none
  return code ++ amount ++ (← rules.scriptOctets coin.txOut.script)

/-- `serialize_tx_coins`. -/
def serializeTxCoins (txid : Bytes) (coins : List (ℕ × Coin)) : Option Bytes := do
  let rows ← coins.mapM fun row => do return (← rules.varInt row.1) ++ (← serializeCoin rules row.2)
  return txid ++ (← rules.varInt rows.length) ++ rows.flatten

/-- `serialize_metadata`. -/
def serializeMetadata (baseHash : Hash) (coinsCount : ℕ) : Option Bytes :=
  if coinsCount < 2 ^ 64 then
    some (ascii "utxo" ++ [255] ++ LittleEndian.encode 2 2 ++ rules.magic
      ++ LittleEndian.encode 32 baseHash ++ LittleEndian.encode 8 coinsCount)
  else none

variable (env : SnapshotEnv S)

/-- `_put` to a pipe. -/
def putPipe : ℕ → Bytes → Dump Unit
  | _, [] => return ()
  | 0, _ :: _ => throw .waiting
  | fuel + 1, rest => do
    let t ← get
    set { t with writes := t.writes + 1 }
    match env.pipe t.writes with
    | .broken => refuse RPCErrorCode.miscError "AutoFile::write: write failed: iostream error"
    | .full => do
      interruptionPoint env
      pause
      putPipe fuel rest
    | .takes n => do
      modify fun t => { t with file := t.file ++ rest.take n }
      putPipe fuel (rest.drop n)

/-- `_put`: a file that can seek takes everything. -/
def put (seekable : Bool) (data : Bytes) : Dump Unit :=
  if seekable then do
    access env
    modify fun t => { t with file := t.file ++ data }
  else putPipe env env.patience data

/-- The answer of a write. -/
structure Written where
  coinsWritten : ℕ
  baseHash : Hash
  baseHeight : ℕ
  txoutsetHash : Bytes

/-- The coins of `_write`: what was hashed, and how many were written. -/
def writeGroups (seekable : Bool) :
    List (List (ℕ × Bytes × CoinRecord)) → Bytes → ℕ → Dump (Bytes × ℕ)
  | [], hashed, written => return (hashed, written)
  | rows :: groups, hashed, written => do
    access env
    let coins ← orRaise (.rpc ⟨RPCErrorCode.internalError, "Unable to read UTXO set"⟩)
      (parseRows rows)
    let txid := (coins.head?.elim [] fun row => row.2.1).take 32
    put env seekable (← orRaise .btclib (serializeTxCoins rules txid
      (coins.map fun row => (row.1, row.2.2))))
    let total := written + coins.length
    pauseWhen env (total / step != written / step)
    writeGroups seekable groups
      (hashed ++ coins.flatMap fun row => rules.txOutSer row.2.1 row.2.2) total

/-- The count in the metadata of a file that can seek, once the coins are in. -/
def rewriteMetadata (baseHash : Hash) (written : ℕ) : Dump Unit := do
  let metadata ← orRaise .btclib (serializeMetadata rules baseHash written)
  access env
  modify fun t => { t with file := metadata ++ t.file.drop metadata.length }

/-- What `_write` does with the count once the coins are in. -/
def closeCount (baseHash : Hash) (written : ℕ) : Option ℕ → Dump Unit
  | none => rewriteMetadata rules env baseHash written
  | some count =>
    if written ≠ count then refuse RPCErrorCode.internalError "Unable to read UTXO set"
    else return ()

/-- `_write`. -/
def write (seekable : Bool) (baseHash : Hash) (baseHeight : ℕ) (rows : List (Bytes × CoinRecord))
    (coinsCount : Option ℕ) : Dump Written := do
  put env seekable (← orRaise .btclib (serializeMetadata rules baseHash (coinsCount.getD 0)))
  let (hashed, written) ← writeGroups rules env seekable (byTxid rows) [] 0
  closeCount rules env baseHash written coinsCount
  access env
  return ⟨written, baseHash, baseHeight, (rules.sha256 (rules.sha256 hashed)).reverse⟩

/-- `options["in_memory"]`. -/
def inMemory (options : List (String × Json)) : Dump Bool :=
  match (options.lookup "in_memory").getD (.bool false) with
  | .bool b => return b
  | value => refuse RPCErrorCode.typeError
    s!"JSON value of type {value.typeName} is not of expected type bool"

/-- `_rolled_back_write`. -/
def rolledBackWrite (seekable : Bool) (height : ℕ) (options : List (String × Json)) :
    Dump Written := do
  access env
  let w ← world env
  -- what `flush` leaves in the store
  let stored := cursor (UtxoIndex.flushed w.db w.utxoIndex)
  if height = w.activeChain.length - 1 then do
    let baseHash ← orRaise .index w.activeChain[height]?
    write rules env seekable baseHash height stored
      (some (rules.transactionOutputCount w.utxoIndex.data.coinStats))
  else if (height : ℤ) ≤ w.prunedUpTo then
    refuse RPCErrorCode.miscError
      "Could not roll back to requested height since necessary block data is already pruned."
  else do
    let inMemory ← inMemory options
    let baseHash ← orRaise .index w.activeChain[height]?
    let changes ← disconnected env w height inMemory
    let rows := merged stored changes
    let count ← countCoins env seekable rows
    write rules env seekable baseHash height rows count

/-! ## The call -/

/-- The answer of `dumptxoutset`. -/
structure Answer extends Written where
  nchaintx : ℕ

/-- `dump_tx_out_set` to a regular file, of the block at `target` or of the tip. -/
def dumpToFile (target : Option ℕ) (options : List (String × Json)) : Dump Answer := do
  let (nchaintx, height) ← counted env target
  access env
  let result ← rolledBackWrite rules env true height options
  access env
  return { result with nchaintx }

/-- `_open_pipe`. -/
def openPipe : ℕ → Dump Unit
  | 0 => throw .waiting
  | fuel + 1 => do
    interruptionPoint env
    let t ← get
    set { t with tries := t.tries + 1 }
    match env.opens t.tries with
    | .noReader => do
      pause
      openPipe fuel
    | .failed => refuse RPCErrorCode.invalidParameter "Couldn't open file for writing."
    | .notFifo => refuse RPCErrorCode.invalidParameter "already exists"
    | .opened => return ()

/-- The target a pipe is opened for: none where it is the tip. -/
def pipeTarget (chain : List Hash) (target : Option ℕ) : Option ℕ :=
  if target = some (chain.length - 1) then none else target

/-- `_dump_to_pipe`. -/
def dumpToPipe (target : Option ℕ) (options : List (String × Json)) : Dump Answer := do
  let chain := (← world env).activeChain
  match pipeTarget chain target with
  | none => do
    openPipe env env.patience
    let (nchaintx, height) ← counted env none
    let result ← rolledBackWrite rules env false height options
    return { result with nchaintx }
  | some target => do
    let block ← orRaise .index chain[target]?
    openPipe env env.patience
    requireBlock env target block
    let (nchaintx, height) ← counted env (some target)
    let result ← rolledBackWrite rules env false height options
    return { result with nchaintx }

end File

end Snapshot

end BtclibNode
