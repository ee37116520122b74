/-
# Answering a `getdata`

`advance_getdata` with what serves one item, `getdata` and `resume_getdata`.  The
node may be another at each item, and `pause_send` another at each read: both are in
`Env`.  What answers a block, and whether it may be, is read off the node as
it is then.
-/
import BtclibNode.Chainstate.Block
import BtclibNode.Download.Availability

namespace BtclibNode.Getdata

/-! ## Items and answers -/

/-- btclib's `InventoryType`, and the codes that are none of its. -/
inductive InventoryType where
  | msgTx
  | msgBlock
  | msgFilteredBlock
  | msgCmpctBlock
  | msgWtx
  | msgWitnessTx
  | msgWitnessBlock
  | other (code : ℕ)
  deriving DecidableEq, Repr

/-- btclib's `Inventory`. -/
structure Inventory where
  typeCode : InventoryType
  hash : Hash
  deriving DecidableEq, Repr

namespace Inventory

/-- `_GETDATA_TX_TYPES`. -/
def isTx (item : Inventory) : Bool :=
  match item.typeCode with
  | .msgTx | .msgWtx | .msgWitnessTx => true
  | _ => false

/-- `_GETDATA_BLOCK_TYPES`. -/
def isBlock (item : Inventory) : Bool :=
  match item.typeCode with
  | .msgBlock | .msgWitnessBlock | .msgCmpctBlock | .msgFilteredBlock => true
  | _ => false

end Inventory

/-- A message sent in answer; `B` is what answers a block. -/
inductive Msg (B : Type) where
  | tx (tx : Tx) (includeWitness : Bool)
  | block (answer : B)
  | inv (items : List Inventory)
  | notFound (items : List Inventory)
  deriving DecidableEq

/-- What is read of the node and of the connection while one item is served:
`entries` holds the mempool's entry sequences and transactions by wtxid, and an
answer that raises `BTClibValueError` is `none`. -/
structure World (B : Type) where
  txidIndex : Hash → Option Hash
  entries : Hash → Option (ℕ × Tx)
  mostRecentTxs : Option (Bool → Hash → Option Tx)
  lastInvSequence : ℕ
  indexed : Hash → Bool
  blockRequestAllowed : Hash → Bool
  pruned : Bool
  belowPruneThreshold : Hash → Bool
  blockAnswer : Inventory → Option (Option B)
  tip : Hash

/-- The node while the `n`-th item is served, and `pause_send` at the `n`-th read. -/
structure Env (B : Type) where
  worlds : ℕ → World B
  pauseSend : ℕ → Bool

/-- A connection with its `getdata`: what was sent, the txids that were marked
broadcast, its entry on `pending_getdata`, and how many items were taken and how
often `pause_send` was read. -/
structure Conn (B : Type) where
  status : P2pConnStatus
  relayTx : Bool
  noBan : Bool
  continuationBlock : Option Hash
  sent : List (Msg B)
  broadcast : List Hash
  pending : Option (List Inventory)
  taken : ℕ
  reads : ℕ

variable {B : Type}

/-- `Connection.send`. -/
def send (c : Conn B) (message : Msg B) : Conn B :=
  { c with sent := c.sent ++ [message] }

/-- `Connection.stop`. -/
def stop (c : Conn B) : Conn B := { c with status := .closed }

/-! ## One item -/

/-- `get_tx_for_relay`. -/
def getTxForRelay (w : World B) (h : Hash) (wtxid : Bool) : Option Tx := do
  let key ← if wtxid then some h else w.txidIndex h
  let (sequence, tx) ← w.entries key
  if w.lastInvSequence ≤ sequence then none else some tx

/-- `_find_tx_for_getdata`. -/
def findTxForGetdata (w : World B) (h : Hash) (wtxid : Bool) : Option Tx :=
  (getTxForRelay w h wtxid).or (w.mostRecentTxs.bind fun txs => txs wtxid h)

/-- `_serve_getdata_tx`. -/
def serveGetdataTx (w : World B) (item : Inventory) (c : Conn B)
    (notFound : List Inventory) : Conn B × List Inventory :=
  if !c.relayTx then (c, notFound)
  else
    match findTxForGetdata w item.hash (item.typeCode == .msgWtx) with
    | some tx =>
      let includeWitness := item.typeCode == .msgWitnessTx || item.typeCode == .msgWtx
      ({ send c (.tx tx includeWitness) with broadcast := c.broadcast ++ [tx.id] }, notFound)
    | none => (c, notFound ++ [item])

/-- `_serve_getdata_block`. -/
def serveGetdataBlock (w : World B) (item : Inventory) (c : Conn B) :
    Conn B :=
  if item.typeCode = .msgFilteredBlock then stop c
  else if !w.indexed item.hash then c
  else if !w.blockRequestAllowed item.hash then c
  else if w.pruned && !c.noBan && w.belowPruneThreshold item.hash then stop c
  else
    match w.blockAnswer item with
    | none => stop c
    | some none => c
    | some (some answer) =>
      let c := send c (.block answer)
      if c.continuationBlock = some item.hash then
        { send c (.inv [⟨.msgBlock, w.tip⟩]) with continuationBlock := none }
      else c

/-! ## One call -/

variable (env : Env B)

/-- A read of `pause_send`. -/
def read (c : Conn B) : Conn B := { c with reads := c.reads + 1 }

/-- `popleft`. -/
def take (c : Conn B) : Conn B := { c with taken := c.taken + 1 }

/-- What the loop over the transactions leaves: whether it found the connection
closed, the items, the connection and the misses. -/
structure Serving (B : Type) where
  closed : Bool
  items : List Inventory
  conn : Conn B
  notFound : List Inventory

/-- The loop of `advance_getdata` over the transactions in front. -/
def serveTxs : List Inventory → Conn B → List Inventory → Serving B
  | [], c, notFound => ⟨false, [], c, notFound⟩
  | item :: rest, c, notFound =>
    if !item.isTx then ⟨false, item :: rest, c, notFound⟩
    else if c.status = .closed then ⟨true, item :: rest, c, notFound⟩
    else if env.pauseSend c.reads then ⟨false, item :: rest, read c, notFound⟩
    else
      let (c, notFound) := serveGetdataTx (env.worlds c.taken) item (take (read c)) notFound
      serveTxs rest c notFound

/-- The one item after the loop. -/
def serveOne : List Inventory → Conn B → List Inventory × Conn B
  | [], c => ([], c)
  | item :: rest, c =>
    if env.pauseSend c.reads then (item :: rest, read c)
    else if item.isBlock then (rest, serveGetdataBlock (env.worlds c.taken) item (take (read c)))
    else (rest, take (read c))

/-- The `notfound` of a call. -/
def sendNotFound (notFound : List Inventory) (c : Conn B) : Conn B :=
  if notFound = [] then c else send c (.notFound notFound)

/-- `advance_getdata`: its answer, with the items and the connection it leaves. -/
def advanceGetdata (items : List Inventory) (c : Conn B) :
    Bool × List Inventory × Conn B :=
  let loop := serveTxs env items c []
  if loop.closed then (true, loop.items, loop.conn)
  else
    let (items, c) := serveOne env loop.items loop.conn
    (items.isEmpty, items, sendNotFound loop.notFound c)

/-- What a call leaves on `pending_getdata`. -/
def callGetdata (items : List Inventory) (c : Conn B) : Conn B :=
  let (done, items, c) := advanceGetdata env items c
  { c with pending := if done then none else some items }

/-- `getdata`, its items parsed. -/
def getdata (items : List Inventory) (c : Conn B) : Conn B := callGetdata env items c

/-- A turn of `resume_getdata`, for the connection of one entry. -/
def resumeOne (c : Conn B) : Conn B :=
  match c.pending with
  | none => c
  | some items => if c.status = .closed then { c with pending := none } else callGetdata env items c

/-- `resume_getdata`, over every connection. -/
def resumeGetdata (envs : ℕ → Env B) (conns : List (Conn B)) :
    List (Conn B) := conns.mapIdx fun i c => resumeOne (envs i) c

/-- A connection after its `getdata` and `n` calls of `resume_getdata`. -/
def afterCalls (items : List Inventory) (c : Conn B) : ℕ → Conn B
  | 0 => getdata env items c
  | n + 1 => resumeOne env (afterCalls items c n)

/-- **A connection's answer is its own**, whatever the others do. -/
theorem getElem?_resumeGetdata (envs : ℕ → Env B) (conns : List (Conn B))
    (i : ℕ) : (resumeGetdata envs conns)[i]? = conns[i]?.map (resumeOne (envs i)) := by
  rw [resumeGetdata, List.getElem?_mapIdx]

/-! ## Plain service -/

/-- One item served, its miss kept. -/
def serveItem (p : Conn B × List Inventory) (item : Inventory) :
    Conn B × List Inventory :=
  if item.isTx then serveGetdataTx (env.worlds p.1.taken) item (take p.1) p.2
  else if item.isBlock then (serveGetdataBlock (env.worlds p.1.taken) item (take p.1), p.2)
  else (take p.1, p.2)

/-- Every item served in turn. -/
def serveAll (items : List Inventory) (p : Conn B × List Inventory) :
    Conn B × List Inventory := items.foldl (serveItem env) p

variable {env}

/-- The messages that are no `notfound`. -/
def answers (c : Conn B) : List (Msg B) :=
  c.sent.filter fun | .notFound _ => false | _ => true

/-- The items of every `notfound`. -/
def missed (c : Conn B) : List Inventory :=
  c.sent.flatMap fun | .notFound items => items | _ => []

/-- The same but for `pause_send`'s reads and how the misses are grouped. -/
structure SameReplies (p q : Conn B × List Inventory) : Prop where
  status : p.1.status = q.1.status
  relayTx : p.1.relayTx = q.1.relayTx
  noBan : p.1.noBan = q.1.noBan
  continuationBlock : p.1.continuationBlock = q.1.continuationBlock
  answers : answers p.1 = answers q.1
  missed : missed p.1 ++ p.2 = missed q.1 ++ q.2
  broadcast : p.1.broadcast = q.1.broadcast
  taken : p.1.taken = q.1.taken

end BtclibNode.Getdata
