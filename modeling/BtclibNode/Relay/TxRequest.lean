/-
# `TxRequestTracker`

`txrequest.py`: which peer is asked for an announced transaction.  An
announcement is an object held by the table of its `txhash`; the table of its
peer and the events refer to it by its two keys and its sequence, and an event
whose announcement is gone or was made again refers to nothing.  The heap is
the list of its entries in order, and a time is of any linear order.
-/
import Mathlib
import BtclibNode.Lib.Dict
import BtclibNode.Chainstate.Block

namespace BtclibNode

/-- The id of a connection. -/
abbrev PeerId := ℤ

/-- `_State`. -/
inductive RequestState where
  | delayed
  | ready
  | best
  | requested
  | completed
  deriving DecidableEq, Repr

namespace RequestState

/-- `_WAITING`. -/
def waiting : RequestState → Bool
  | .delayed | .requested => true
  | _ => false

/-- `state in (_State.BEST, _State.REQUESTED)`. -/
def selected : RequestState → Bool
  | .best | .requested => true
  | _ => false

/-- `state in (_State.READY, _State.BEST)`. -/
def candidate : RequestState → Bool
  | .ready | .best => true
  | _ => false

/-- `state in (_State.REQUESTED, _State.COMPLETED)`. -/
def asked : RequestState → Bool
  | .requested | .completed => true
  | _ => false

end RequestState

/-- `_Announcement`: what one peer announced of one `txhash`. -/
structure Announcement (T : Type) where
  txhash : Hash
  peer : PeerId
  preferred : Bool
  sequence : ℕ
  time : T
  state : RequestState
  txid : Bool

/-- `_Peer`: the keys of its two tables, and its counts. -/
structure PeerRequests where
  announcements : List Hash
  best : List Hash
  requested : ℤ
  completed : ℤ

/-- An entry of the heap, with what its announcement is found by. -/
structure RequestEvent (T : Type) where
  time : T
  tie : ℕ
  txhash : Hash
  peer : PeerId
  sequence : ℕ

/-- The order of the heap's entries. -/
def RequestEvent.le {T : Type} [LinearOrder T] (e f : RequestEvent T) : Prop :=
  e.time < f.time ∨ e.time = f.time ∧ e.tie ≤ f.tie

instance {T : Type} [LinearOrder T] (e f : RequestEvent T) : Decidable (e.le f) :=
  inferInstanceAs (Decidable (_ ∨ _))

/-- `TxRequestTracker`. -/
structure TxRequestTracker (T : Type) where
  sequence : ℕ
  peers : Dict PeerId PeerRequests
  byHash : Dict Hash (Dict PeerId (Announcement T))
  events : List (RequestEvent T)
  waiting : ℤ
  tie : ℕ
  lastNow : WithBot T

namespace TxRequestTracker

variable {T : Type}

/-- `__init__`. -/
def init : TxRequestTracker T where
  sequence := 0
  peers := .empty
  byHash := .empty
  events := []
  waiting := 0
  tie := 0
  lastNow := ⊥

/-- The announcement of a `txhash` by a peer. -/
def get (s : TxRequestTracker T) (h : Hash) (p : PeerId) : Option (Announcement T) :=
  (s.byHash.get? h).bind fun holders => holders.get? p

/-- `_by_hash.get(txhash, {}).values()`. -/
def holders (s : TxRequestTracker T) (h : Hash) : List (Announcement T) :=
  ((s.byHash.get? h).map Dict.values).getD []

/-- The keys of every announcement, peer by peer. -/
def refs (s : TxRequestTracker T) : List (Hash × PeerId) :=
  s.peers.keys.flatMap fun p =>
    (((s.peers.get? p).map PeerRequests.announcements).getD []).map fun h => (h, p)

/-! ## The priority -/

/-- `compute_priority`, `siphash` being keyed and of a `txhash` with the 64 bits of a peer. -/
def computePriority (siphash : Hash → ℕ → ℕ) (h : Hash) (p : PeerId) (preferred : Bool) : ℕ :=
  (siphash h (p % 2 ^ 64).toNat >>> 1) ||| (if preferred then 1 <<< 63 else 0)

/-- `_priority`. -/
def priority (siphash : Hash → ℕ → ℕ) (a : Announcement T) : ℕ :=
  computePriority siphash a.txhash a.peer a.preferred

/-! ## The events -/

section Events

variable [LinearOrder T]

/-- The entry of an announcement. -/
def eventOf (a : Announcement T) (tie : ℕ) : RequestEvent T :=
  ⟨a.time, tie, a.txhash, a.peer, a.sequence⟩

/-- `_COMPACT_SLACK`. -/
def compactSlack : ℤ := 64

/-- `_compact`. -/
def compact (s : TxRequestTracker T) : TxRequestTracker T :=
  if s.events.length ≤ 2 * s.waiting + compactSlack then s
  else
    let live := (s.refs.filterMap fun ref => s.get ref.1 ref.2).filter fun a => a.state.waiting
    { s with
      events := ((live.zipIdx s.tie).map fun entry => eventOf entry.1 entry.2).insertionSort
        RequestEvent.le
      tie := s.tie + live.length }

/-- `_schedule`. -/
def schedule (a : Announcement T) (s : TxRequestTracker T) : TxRequestTracker T :=
  compact { s with
    events := s.events.orderedInsert RequestEvent.le (eventOf a s.tie)
    tie := s.tie + 1 }

end Events

/-! ## Changing an announcement -/

/-- `_selected`. -/
def selected (s : TxRequestTracker T) (h : Hash) : Option (Announcement T) :=
  (s.holders h).find? fun a => a.state.selected

/-- `announcement` in the table of its `txhash` is changed. -/
def write (a : Announcement T) (s : TxRequestTracker T) : Option (TxRequestTracker T) := do
  let holders ← s.byHash.get? a.txhash
  return { s with byHash := s.byHash.set a.txhash (holders.set a.peer a) }

/-- `table[h] = …` on the keys of a table. -/
def addKey (keys : List Hash) (h : Hash) : List Hash := if h ∈ keys then keys else keys ++ [h]

/-- `del table[h]` on the keys of a table. -/
def delKey (keys : List Hash) (h : Hash) : Option (List Hash) :=
  if h ∈ keys then some (keys.erase h) else none

/-- `del peer.best[announcement.txhash]` of a `BEST` announcement. -/
def delBest (a : Announcement T) (best : List Hash) : Option (List Hash) :=
  if a.state = .best then delKey best a.txhash else some best

/-- `1` for a true condition. -/
def ofBool (b : Bool) : ℤ := if b then 1 else 0

/-- `_set_state`. -/
def setState (a : Announcement T) (state : RequestState) (s : TxRequestTracker T) :
    Option (TxRequestTracker T) := do
  let peer ← s.peers.get? a.peer
  let best ← delBest a peer.best
  let requested := peer.requested - ofBool (a.state = .requested)
  let peer := { peer with
    best := if state = .best then addKey best a.txhash else best
    requested := requested + ofBool (state = .requested)
    completed := peer.completed + ofBool (state = .completed) }
  write { a with state } { s with
    waiting := s.waiting + (ofBool state.waiting - ofBool a.state.waiting)
    peers := s.peers.set a.peer peer }

/-- `_erase`. -/
def erase (a : Announcement T) (s : TxRequestTracker T) : Option (TxRequestTracker T) := do
  let peer ← s.peers.get? a.peer
  let best ← delBest a peer.best
  let announcements ← delKey peer.announcements a.txhash
  let holders ← s.byHash.get? a.txhash
  let peer := { peer with
    announcements
    best
    requested := peer.requested - ofBool (a.state = .requested)
    completed := peer.completed - ofBool (a.state = .completed) }
  let holders := holders.erase a.peer
  return { s with
    waiting := s.waiting - ofBool a.state.waiting
    peers := if announcements = [] then s.peers.erase a.peer else s.peers.set a.peer peer
    byHash :=
      if holders.keys = [] then s.byHash.erase a.txhash else s.byHash.set a.txhash holders }

/-- `_erase` of each of some announcements. -/
def eraseAll : List (Announcement T) → TxRequestTracker T → Option (TxRequestTracker T)
  | [], s => some s
  | a :: rest, s => do eraseAll rest (← erase a s)

/-- `forget_tx_hash`. -/
def forgetTxHash (h : Hash) (s : TxRequestTracker T) : Option (TxRequestTracker T) :=
  eraseAll (s.holders h) s

variable (siphash : Hash → ℕ → ℕ)

/-- `_promote`. -/
def promote (a : Announcement T) (s : TxRequestTracker T) : Option (TxRequestTracker T) := do
  let s ← setState a .ready s
  let a := { a with state := .ready }
  match s.selected a.txhash with
  | none => setState a .best s
  | some b =>
    if b.state = .best ∧ priority siphash b < priority siphash a then
      setState a .best (← setState b .ready s)
    else return s

/-- `_change_and_reselect`. -/
def changeAndReselect (a : Announcement T) (state : RequestState) (s : TxRequestTracker T) :
    Option (TxRequestTracker T) := do
  let ready := (s.holders a.txhash).filter fun b => b.state = .ready
  match if a.state.selected then ready.argmax (priority siphash) else none with
  | none => setState a state s
  | some b => setState a state (← setState b .best s)

/-- `_make_completed`: the tracker, and whether the announcement still exists. -/
def makeCompleted (a : Announcement T) (s : TxRequestTracker T) :
    Option (TxRequestTracker T × Bool) := do
  if a.state = .completed then return (s, true)
  let holders ← s.byHash.get? a.txhash
  if holders.values.all fun b => b.peer = a.peer || b.state = .completed then
    return (← forgetTxHash a.txhash s, false)
  else return (← changeAndReselect siphash a .completed s, true)

/-! ## Time -/

section Time

variable [LinearOrder T]

/-- The loop of `_set_time_point` over the announcements, where time went back. -/
def rewind (now : T) : List (Hash × PeerId) → TxRequestTracker T → Option (TxRequestTracker T)
  | [], s => some s
  | ref :: rest, s => do
    let a ← s.get ref.1 ref.2
    if a.state.candidate ∧ now < a.time then
      let s ← changeAndReselect siphash a .delayed s
      rewind now rest (schedule { a with state := .delayed } s)
    else rewind now rest s

/-- What the loop of `_set_time_point` does with an entry popped off the heap. -/
def fire (e : RequestEvent T) (s : TxRequestTracker T) :
    Option (TxRequestTracker T × List (PeerId × Hash)) :=
  match (s.get e.txhash e.peer).filter fun a => a.sequence = e.sequence ∧ a.time = e.time with
  | none => some (s, [])
  | some a =>
    match a.state with
    | .delayed => do return (← promote siphash a s, [])
    | .requested => do return ((← makeCompleted siphash a s).1, [(a.peer, a.txhash)])
    | _ => some (s, [])

/-- The loop of `_set_time_point` over the heap, of at most `fuel` turns. -/
def drain (now : T) : ℕ → TxRequestTracker T →
    Option (TxRequestTracker T × List (PeerId × Hash))
  | fuel, s =>
    match s.events with
    | [] => some (s, [])
    | e :: rest =>
      if e.time ≤ now then
        match fuel with
        | 0 => none
        | fuel + 1 => do
          let (s, expired) ← fire siphash e { s with events := rest }
          let (s, others) ← drain now fuel s
          return (s, expired ++ others)
      else some (s, [])

/-- The first half of `_set_time_point`. -/
def rewound (now : T) (s : TxRequestTracker T) : Option (TxRequestTracker T) :=
  if (now : WithBot T) < s.lastNow then rewind siphash now s.refs s else some s

/-- `_set_time_point`.  The loop over the heap pops an entry at each turn. -/
def setTimePoint (now : T) (s : TxRequestTracker T) :
    Option (TxRequestTracker T × List (PeerId × Hash)) := do
  let s ← rewound siphash now s
  let (s, expired) ← drain siphash now s.events.length { s with lastNow := now }
  return (compact s, expired)

/-! ## The calls -/

/-- `received_inv`. -/
def receivedInv (p : PeerId) (h : Hash) (preferred : Bool) (reqtime : T) (txid : Bool)
    (s : TxRequestTracker T) : TxRequestTracker T :=
  if ((s.peers.get? p).map fun known => decide (h ∈ known.announcements)).getD false then s
  else
    let a : Announcement T := ⟨h, p, preferred, s.sequence, reqtime, .delayed, txid⟩
    let known := (s.peers.get? p).getD ⟨[], [], 0, 0⟩
    let holders := (s.byHash.get? h).getD .empty
    schedule a { s with
      sequence := s.sequence + 1
      peers := s.peers.set p { known with announcements := addKey known.announcements h }
      waiting := s.waiting + 1
      byHash := s.byHash.set h (holders.set p a) }

/-- The loop of `disconnected_peer` over the announcements of the peer. -/
def disconnectAll (p : PeerId) : List Hash → TxRequestTracker T → Option (TxRequestTracker T)
  | [], s => some s
  | h :: rest, s => do
    let a ← s.get h p
    let (s, remains) ← makeCompleted siphash a s
    if remains then
      let a ← s.get h p
      disconnectAll p rest (← erase a s)
    else disconnectAll p rest s

/-- `disconnected_peer`. -/
def disconnectedPeer (p : PeerId) (s : TxRequestTracker T) : Option (TxRequestTracker T) :=
  match s.peers.get? p with
  | none => some s
  | some known => disconnectAll siphash p known.announcements s

/-- `get_requestable`. -/
def getRequestable (p : PeerId) (now : T) (s : TxRequestTracker T) :
    Option (TxRequestTracker T × List Hash × List (PeerId × Hash)) := do
  let (s, expired) ← setTimePoint siphash now s
  match s.peers.get? p with
  | none => return (s, [], expired)
  | some known =>
    let best := (known.best.filterMap fun h => s.get h p).insertionSort
      fun a b => a.sequence ≤ b.sequence
    return (s, best.map Announcement.txhash, expired)

/-- What `requested_tx` does with the one selected for the `txhash`, where that is not
the announcement itself. -/
def unselect (a : Announcement T) (s : TxRequestTracker T) : Option (TxRequestTracker T) :=
  match if a.state = .best then none else s.selected a.txhash with
  | none => some s
  | some b => setState b (if b.state = .best then .ready else .completed) s

/-- `requested_tx`. -/
def requestedTx (p : PeerId) (h : Hash) (expiry : T) (s : TxRequestTracker T) :
    Option (TxRequestTracker T) :=
  match s.get h p with
  | none => some s
  | some a =>
    if a.state.asked then some s
    else do
      let s ← setState a .requested (← unselect a s)
      let a := { a with state := .requested, time := expiry }
      return schedule a (← write a s)

/-- `received_response`. -/
def receivedResponse (p : PeerId) (h : Hash) (s : TxRequestTracker T) :
    Option (TxRequestTracker T) :=
  match s.get h p with
  | none => some s
  | some a => do return (← makeCompleted siphash a s).1

end Time

/-! ## The counts -/

/-- `count`. -/
def count (s : TxRequestTracker T) (p : PeerId) : ℤ :=
  ((s.peers.get? p).map fun known => (known.announcements.length : ℤ)).getD 0

/-- `count_in_flight`. -/
def countInFlight (s : TxRequestTracker T) (p : PeerId) : ℤ :=
  ((s.peers.get? p).map PeerRequests.requested).getD 0

/-- `count_candidates`. -/
def countCandidates (s : TxRequestTracker T) (p : PeerId) : ℤ :=
  ((s.peers.get? p).map fun known =>
    (known.announcements.length : ℤ) - known.requested - known.completed).getD 0

end TxRequestTracker

end BtclibNode
