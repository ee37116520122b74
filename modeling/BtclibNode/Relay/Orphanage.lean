/-
# `TxOrphanage`

`orphanage.py`: the transactions kept while their inputs are not found.  An
announcement is an object held by the table of its wtxid; the table of its peer
refers to it by its wtxid.  A function that may raise is partial, and one that
evicts returns what `_limit_orphans` did beside what it answers.
-/
import Mathlib.Algebra.Order.Field.Rat
import Mathlib.Data.Prod.Lex
import Mathlib.Data.List.MinMax
import Mathlib.Data.List.Sort
import BtclibNode.Lib.Dict
import BtclibNode.Relay.TxRequest

namespace BtclibNode

/-- A transaction, with the wtxid and the weight the orphanage reads of it. -/
structure OrphanTx extends Tx where
  hash : Hash
  weight : ℕ
  deriving DecidableEq, Repr

/-- The latency score of an announcement: one plus one per ten inputs. -/
def OrphanTx.latencyScore (tx : OrphanTx) : ℕ := 1 + tx.vin.length / 10

/-- `_Announcement`. -/
structure OrphanAnnouncement where
  tx : OrphanTx
  wtxid : Hash
  announcer : PeerId
  sequence : ℕ
  reconsider : Bool
  deriving DecidableEq, Repr

namespace OrphanAnnouncement

def weight (a : OrphanAnnouncement) : ℕ := a.tx.weight

def latencyScore (a : OrphanAnnouncement) : ℕ := a.tx.latencyScore

end OrphanAnnouncement

/-- `_Score`: a ratio of use over share, and the share negated. -/
abbrev OrphanScore := ℚ ×ₗ ℤ

/-- `_PeerUse`. -/
structure PeerUse where
  weight : ℤ
  count : ℤ
  latencyScore : ℤ
  deriving DecidableEq, Repr

/-- `Fraction(use, share)` and the share negated; a zero share raises. -/
def ratio (use share : ℤ) : Option OrphanScore :=
  if share = 0 then none else some (toLex ((use : ℚ) / share, -share))

/-- `dos_score`. -/
def PeerUse.dosScore (use : PeerUse) (maxLatencyScore maxWeight : ℤ) : Option OrphanScore := do
  let latency ← ratio use.latencyScore maxLatencyScore
  let weight ← ratio use.weight maxWeight
  return max latency weight

/-- The two limits a `TxOrphanage` is made with, and btclib's `MAX_STANDARD_TX_WEIGHT`. -/
structure OrphanLimits where
  maxGlobalLatencyScore : ℕ
  reservedPeerWeight : ℕ
  maxStandardTxWeight : ℕ

/-- `TxOrphanage`. -/
structure TxOrphanage where
  sequence : ℕ
  byWtxid : Dict Hash (Dict PeerId OrphanAnnouncement)
  byPeer : Dict PeerId (List Hash)
  spenders : Std.ExtTreeMap OutPoint (Std.ExtTreeSet Hash)
  reconsiderable : Dict Hash PeerId
  use : Dict PeerId PeerUse
  announcements : ℤ
  uniqueWeight : ℤ
  uniqueInputScores : ℤ

/-- What `_limit_orphans` did: the orphanage it started from and what it erased, in order. -/
structure Trim where
  start : TxOrphanage
  evicted : List OrphanAnnouncement

namespace TxOrphanage

/-- `__init__`. -/
def init : TxOrphanage where
  sequence := 0
  byWtxid := .empty
  byPeer := .empty
  spenders := ∅
  reconsiderable := .empty
  use := .empty
  announcements := 0
  uniqueWeight := 0
  uniqueInputScores := 0

/-- `have_tx`. -/
def haveTx (s : TxOrphanage) (w : Hash) : Bool := (s.byWtxid.get? w).isSome

/-- The announcement of a wtxid by a peer. -/
def get (s : TxOrphanage) (w : Hash) (p : PeerId) : Option OrphanAnnouncement :=
  (s.byWtxid.get? w).bind fun announcers => announcers.get? p

/-- `get_tx`: the one of the first announcement; an empty table raises. -/
def getTx (s : TxOrphanage) (w : Hash) : Option (Option OrphanTx) :=
  match s.byWtxid.get? w with
  | none => some none
  | some announcers => (announcers.values.head?).map fun a => some a.tx

/-- `_spenders.get(key, ())`. -/
def spendersOf (s : TxOrphanage) (o : OutPoint) : Std.ExtTreeSet Hash := (s.spenders[o]?).getD ∅

/-- `_by_peer.get(peer, {}).values()`. -/
def announcementsOf (s : TxOrphanage) (p : PeerId) : List OrphanAnnouncement :=
  ((s.byPeer.get? p).getD []).filterMap fun w => s.get w p

/-! ## One announcement -/

/-- `_announce`: `none` where it is recorded. -/
def announce (tx : OrphanTx) (w : Hash) (p : PeerId) (s : TxOrphanage) : Option TxOrphanage :=
  let announcers := (s.byWtxid.get? w).getD .empty
  match announcers.get? p with
  | some _ => none
  | none =>
    let a : OrphanAnnouncement := ⟨tx, w, p, s.sequence, false⟩
    let use := (s.use.get? p).getD ⟨0, 0, 0⟩
    some { s with
      sequence := s.sequence + 1
      byWtxid := s.byWtxid.set w (announcers.set p a)
      byPeer := s.byPeer.set p ((s.byPeer.get? p).getD [] ++ [w])
      use := s.use.set p
        ⟨use.weight + a.weight, use.count + 1, use.latencyScore + a.latencyScore⟩
      announcements := s.announcements + 1 }

/-- `_spenders[key].discard(wtxid)` for each input, and `del` of an emptied set. -/
def discardSpends (w : Hash) :
    List OutPoint → Std.ExtTreeMap OutPoint (Std.ExtTreeSet Hash) →
      Option (Std.ExtTreeMap OutPoint (Std.ExtTreeSet Hash))
  | [], m => some m
  | o :: vin, m => do
    let wtxids := (← m[o]?).erase w
    discardSpends w vin (if wtxids.isEmpty then m.erase o else m.insert o wtxids)

/-- The part of `_erase` for the last announcement of a wtxid. -/
def forgetTx (a : OrphanAnnouncement) (s : TxOrphanage) : Option TxOrphanage := do
  let spenders ← discardSpends a.wtxid a.tx.vin s.spenders
  return { s with
    byWtxid := s.byWtxid.erase a.wtxid
    uniqueWeight := s.uniqueWeight - a.weight
    uniqueInputScores := s.uniqueInputScores - (a.latencyScore - 1)
    spenders }

/-- `del _reconsiderable[wtxid]` of a marked announcement. -/
def unmark (a : OrphanAnnouncement) (s : TxOrphanage) : Option TxOrphanage :=
  if a.reconsider then do
    let _ ← s.reconsiderable.get? a.wtxid
    return { s with reconsiderable := s.reconsiderable.erase a.wtxid }
  else some s

/-- `_erase`. -/
def erase (a : OrphanAnnouncement) (s : TxOrphanage) : Option TxOrphanage := do
  let use ← s.use.get? a.announcer
  let use : PeerUse :=
    ⟨use.weight - a.weight, use.count - 1, use.latencyScore - a.latencyScore⟩
  let wtxids ← s.byPeer.get? a.announcer
  let wtxids ← if a.wtxid ∈ wtxids then some (wtxids.erase a.wtxid) else none
  let announcers ← s.byWtxid.get? a.wtxid
  let _ ← announcers.get? a.announcer
  let announcers := announcers.erase a.announcer
  let s := { s with
    announcements := s.announcements - 1
    use := if use.count = 0 then s.use.erase a.announcer else s.use.set a.announcer use
    byPeer :=
      if wtxids = [] then s.byPeer.erase a.announcer else s.byPeer.set a.announcer wtxids
    byWtxid := s.byWtxid.set a.wtxid announcers }
  unmark a (← if announcers.keys = [] then forgetTx a s else some s)

/-- `_erase` of each of some announcements. -/
def eraseAll : List OrphanAnnouncement → TxOrphanage → Option TxOrphanage
  | [], s => some s
  | a :: rest, s => do eraseAll rest (← erase a s)

/-- `_erase_wtxid`. -/
def eraseWtxid (w : Hash) (s : TxOrphanage) : Option (TxOrphanage × Bool) :=
  match s.byWtxid.get? w with
  | none => some (s, false)
  | some announcers => do return (← eraseAll announcers.values s, true)

/-! ## The limits -/

variable (lim : OrphanLimits)

/-- `_max_peer_latency_score`. -/
def maxPeerLatencyScore (s : TxOrphanage) : ℤ :=
  (lim.maxGlobalLatencyScore : ℤ) / max s.use.keys.length 1

/-- `_needs_trim`. -/
def needsTrim (s : TxOrphanage) : Bool :=
  let latencyScore := s.uniqueInputScores + s.announcements
  let maxWeight : ℤ := lim.reservedPeerWeight * max s.use.keys.length 1
  decide (lim.maxGlobalLatencyScore < latencyScore) || decide (maxWeight < s.uniqueWeight)

/-- The loop that fills `over`. -/
def scoresOver (maxLatencyScore maxWeight : ℤ) :
    List (PeerId × PeerUse) → Option (List (PeerId × OrphanScore))
  | [] => some []
  | (p, use) :: rest => do
    let score ← use.dosScore maxLatencyScore maxWeight
    let overShare ← scoresOver maxLatencyScore maxWeight rest
    return if 1 < (ofLex score).1 then (p, score) :: overShare else overShare

/-- The inner loop of `_limit_orphans` over `oldest_first`: the orphanage, the score the
worst peer is put back in `over` with, if it is, and what was erased. -/
def trimPeer (maxLatencyScore maxWeight : ℤ) (threshold : OrphanScore) (worst : PeerId) :
    List OrphanAnnouncement → TxOrphanage →
      Option (TxOrphanage × Option OrphanScore × List OrphanAnnouncement)
  | oldestFirst, s =>
    if s.needsTrim lim then
      match oldestFirst with
      | [] => none
      | a :: rest => do
        let s ← erase a s
        match s.use.get? worst with
        | none => return (s, none, [a])
        | some remaining =>
          let score ← remaining.dosScore maxLatencyScore maxWeight
          if score ≤ threshold then return (s, some score, [a])
          else
            let (s, back, evicted) ←
              trimPeer maxLatencyScore maxWeight threshold worst rest s
            return (s, back, a :: evicted)
    else some (s, none, [])

/-- The order of `oldest_first`: what waits to be reconsidered last, then by sequence. -/
def evictedBefore (a b : OrphanAnnouncement) : Prop :=
  toLex (a.reconsider, a.sequence) ≤ toLex (b.reconsider, b.sequence)

instance : DecidableRel evictedBefore := fun a b =>
  inferInstanceAs (Decidable (toLex (a.reconsider, a.sequence) ≤ toLex (b.reconsider, b.sequence)))

/-- The order of `(over[peer], peer)`. -/
def worseThan (e f : PeerId × OrphanScore) : Bool :=
  decide (f.2 < e.2) || decide (f.2 = e.2) && decide (f.1 < e.1)

/-- The highest score, the newer peer on a tie; an empty table raises. -/
def worstOf : List (PeerId × OrphanScore) → Option (PeerId × OrphanScore)
  | [] => none
  | e :: rest =>
    match worstOf rest with
    | none => some e
    | some f => if worseThan f e then some f else some e

/-- The outer loop of `_limit_orphans`, of at most `fuel` turns. -/
def limitLoop (maxLatencyScore maxWeight : ℤ) :
    ℕ → List (PeerId × OrphanScore) → TxOrphanage →
      Option (TxOrphanage × List OrphanAnnouncement)
  | fuel, overShare, s =>
    if s.needsTrim lim then
      match fuel with
      | 0 => none
      | fuel + 1 => do
        let (worst, _) ← worstOf overShare
        let others := overShare.filter fun e => e.1 ≠ worst
        let threshold := ((others.map Prod.snd).max?).getD (toLex (1, -1))
        let _ ← s.byPeer.get? worst
        let oldestFirst := (s.announcementsOf worst).insertionSort evictedBefore
        let (s, back, evicted) ←
          trimPeer lim maxLatencyScore maxWeight threshold worst oldestFirst s
        let overShare := others ++ (back.map fun score => (worst, score)).toList
        let (s, later) ← limitLoop maxLatencyScore maxWeight fuel overShare s
        return (s, evicted ++ later)
    else some (s, [])

/-- `_use.items()`. -/
def uses (s : TxOrphanage) : List (PeerId × PeerUse) :=
  s.use.keys.filterMap fun p => (s.use.get? p).map fun use => (p, use)

/-- `_limit_orphans`.  Each turn of its loop erases an announcement. -/
def limitOrphans (s : TxOrphanage) : Option (TxOrphanage × Trim) := do
  let maxLatencyScore := s.maxPeerLatencyScore lim
  let maxWeight : ℤ := lim.reservedPeerWeight
  let overShare ← scoresOver maxLatencyScore maxWeight s.uses
  let (t, evicted) ← limitLoop lim maxLatencyScore maxWeight s.announcements.toNat overShare s
  return (t, ⟨s, evicted⟩)

/-! ## The calls -/

/-- `_spenders.setdefault(key, set()).add(wtxid)` for each input. -/
def addSpends (w : Hash) (vin : List OutPoint)
    (m : Std.ExtTreeMap OutPoint (Std.ExtTreeSet Hash)) :
    Std.ExtTreeMap OutPoint (Std.ExtTreeSet Hash) :=
  vin.foldl (fun m o => m.insert o (((m[o]?).getD ∅).insert w)) m

/-- What `add_tx` records of a transaction not kept before. -/
def addUnique (tx : OrphanTx) (w : Hash) (s : TxOrphanage) : TxOrphanage :=
  { s with
    spenders := addSpends w tx.vin s.spenders
    uniqueWeight := s.uniqueWeight + tx.weight
    uniqueInputScores := s.uniqueInputScores + (tx.latencyScore - 1) }

/-- `add_tx`. -/
def addTx (tx : OrphanTx) (p : PeerId) (s : TxOrphanage) :
    Option (TxOrphanage × Option Trim × Bool) :=
  if lim.maxStandardTxWeight < tx.weight then some (s, none, false)
  else
    let brandNew := !s.haveTx tx.hash
    match announce tx tx.hash p s with
    | none => some (s, none, false)
    | some t => do
      let (t, trim) ← limitOrphans lim (if brandNew then addUnique tx tx.hash t else t)
      return (t, trim, brandNew)

/-- `add_announcer`. -/
def addAnnouncer (w : Hash) (p : PeerId) (s : TxOrphanage) :
    Option (TxOrphanage × Option Trim × Bool) := do
  match ← s.getTx w with
  | none => return (s, none, false)
  | some tx =>
    match announce tx w p s with
    | none => return (s, none, false)
    | some t =>
      let (t, trim) ← limitOrphans lim t
      return (t, trim, true)

/-- `_next_to_reconsider`: a mark that names no announcement raises. -/
def nextToReconsider (p : PeerId) (s : TxOrphanage) : Option (Option OrphanAnnouncement) := do
  let marked ← (s.reconsiderable.keys.filter fun w => s.reconsiderable.get? w = some p).mapM
    fun w => s.get w p
  return marked.argmin OrphanAnnouncement.sequence

/-- `announcement` in the table of its wtxid is changed. -/
def write (a : OrphanAnnouncement) (s : TxOrphanage) : Option TxOrphanage := do
  let announcers ← s.byWtxid.get? a.wtxid
  return { s with byWtxid := s.byWtxid.set a.wtxid (announcers.set a.announcer a) }

/-- `get_tx_to_reconsider`. -/
def getTxToReconsider (p : PeerId) (s : TxOrphanage) : Option (TxOrphanage × Option OrphanTx) := do
  match ← nextToReconsider p s with
  | none => return (s, none)
  | some a =>
    let s ← write { a with reconsider := false } s
    let _ ← s.reconsiderable.get? a.wtxid
    return ({ s with reconsiderable := s.reconsiderable.erase a.wtxid }, some a.tx)

/-- `erase_tx`. -/
def eraseTx (w : Hash) (s : TxOrphanage) : Option (TxOrphanage × Option Trim × Bool) := do
  let (s, erased) ← eraseWtxid w s
  let (s, trim) ← limitOrphans lim s
  return (s, trim, erased)

/-- `erase_for_peer`. -/
def eraseForPeer (p : PeerId) (s : TxOrphanage) : Option (TxOrphanage × Option Trim) := do
  let s ← eraseAll (s.announcementsOf p) s
  let (s, trim) ← limitOrphans lim s
  return (s, trim)

/-- The loop of `erase_for_block` over the wtxids it gathered. -/
def eraseWtxids : List Hash → TxOrphanage → Option TxOrphanage
  | [], s => some s
  | w :: rest, s => do eraseWtxids rest (← eraseWtxid w s).1

/-- The wtxids kept that spend an input of a block. -/
def spendersOfBlock (transactions : List Tx) (s : TxOrphanage) : Std.ExtTreeSet Hash :=
  (transactions.flatMap Tx.vin).foldl
    (fun wtxids o => (s.spendersOf o).foldl (fun acc w => acc.insert w) wtxids) ∅

/-- `erase_for_block`, of the transactions of a block.  `setOrder` is the order Python
iterates over a set in. -/
def eraseForBlock (setOrder : List Hash → List Hash) (transactions : List Tx) (s : TxOrphanage) :
    Option (TxOrphanage × Option Trim) :=
  if s.byWtxid.keys = [] then some (s, none)
  else do
    let s ← eraseWtxids (setOrder (s.spendersOfBlock transactions).toList) s
    let (s, trim) ← limitOrphans lim s
    return (s, trim)

/-- `wtxid[::-1]`, of 32 octets. -/
def reversed (w : Hash) : ℕ :=
  (List.range 32).foldl (fun acc i => acc * 256 + w / 256 ^ i % 256) 0

/-- The body of the loop of `add_children_to_work_set`.  `choice` is what the `rng` picks. -/
def markChild (choice : Hash → ℕ) (w : Hash) (s : TxOrphanage) :
    Option (TxOrphanage × List (Hash × PeerId)) :=
  match s.reconsiderable.get? w with
  | some _ => some (s, [])
  | none => do
    let announcers ← s.byWtxid.get? w
    let peers := announcers.keys.insertionSort (· ≤ ·)
    let p ← peers[choice w % peers.length]?
    let a ← announcers.get? p
    let s ← write { a with reconsider := true } s
    return ({ s with reconsiderable := s.reconsiderable.set w p }, [(w, p)])

/-- The loop of `add_children_to_work_set` over some wtxids. -/
def markChildren (choice : Hash → ℕ) :
    List Hash → TxOrphanage → Option (TxOrphanage × List (Hash × PeerId))
  | [], s => some (s, [])
  | w :: rest, s => do
    let (s, marked) ← markChild choice w s
    let (s, others) ← markChildren choice rest s
    return (s, marked ++ others)

/-- `add_children_to_work_set`.  Nothing in its loop changes the spenders. -/
def addChildrenToWorkSet (choice : Hash → ℕ) (tx : Tx) (s : TxOrphanage) :
    Option (TxOrphanage × List (Hash × PeerId)) :=
  markChildren choice (tx.outPoints.flatMap fun o =>
    (s.spendersOf o).toList.insertionSort fun v w => reversed v ≤ reversed w) s

end TxOrphanage

end BtclibNode
