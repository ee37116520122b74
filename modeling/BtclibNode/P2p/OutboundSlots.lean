/-
# Outbound slots

The slots of automatic and addr-fetch connections in `P2pManager`: reserved for a dial, held by a
connection, reserved again for its retry with v1.  A step is a critical section, or what the
manager's loop does between two of them.
-/
import Mathlib.Algebra.BigOperators.Group.Finset.Basic
import Mathlib.Algebra.BigOperators.Ring.Finset
import Mathlib.Data.Fintype.Option
import Mathlib.Data.Int.Notation
import BtclibNode.Lib.Run

namespace BtclibNode.OutboundSlots

/-- The `connection_type` of `addconnection`. -/
inductive ConnectionType where
  | outboundFullRelay
  | blockRelayOnly
  | addrFetch
  | feeler
  deriving DecidableEq

instance : Fintype ConnectionType where
  elems := {.outboundFullRelay, .blockRelayOnly, .addrFetch, .feeler}
  complete := fun t => by cases t <;> decide

/-- What a connection is created with. -/
structure Flags where
  automatic : Bool
  blockRelay : Bool
  feeler : Bool
  addrFetch : Bool
  deriving DecidableEq

/-- Whether such a connection holds an outbound slot. -/
def Flags.holdsSlot (flags : Flags) : Bool := flags.automatic || flags.addrFetch

structure Connection where
  id : ℕ
  inbound : Bool
  flags : Flags
  v2 : Bool
  deriving DecidableEq

/-- `_Reconnection`, with the connection it is of for its address and name. -/
structure Reconnection where
  dropped : ℕ
  flags : Flags
  holdsSlot : Bool
  connectionType : Option ConnectionType
  deriving DecidableEq

/-- A dial that holds a reservation, and whether it has connected. -/
structure Dial where
  reserved : Option ConnectionType
  flags : Flags
  connected : Bool
  deriving DecidableEq

/-- A retry that is being dialled, and whether it has connected. -/
structure RetryDial where
  item : Reconnection
  connected : Bool
  deriving DecidableEq

/-- What dials on a reservation: `_maybe_dial_more_peers`, `_process_addr_fetch`, and
`connect_typed` behind `addconnection`. -/
inductive Dialler where
  | drawn (blockRelay feeler : Bool)
  | addrFetch
  | typed (connectionType : ConnectionType)

/-- The `connection_type` of the reservation. -/
def Dialler.reserves : Dialler → Option ConnectionType
  | .typed connectionType => some connectionType
  | _ => none

def Dialler.flags : Dialler → Flags
  | .drawn blockRelay feeler => ⟨true, blockRelay, feeler, false⟩
  | .addrFetch => ⟨false, false, false, true⟩
  | .typed t => ⟨t ≠ .addrFetch, t = .blockRelayOnly, t = .feeler, t = .addrFetch⟩

/-- The caps. -/
structure Caps where
  maxAutomaticOutbound : ℕ
  maxOutboundFullRelay : ℕ
  maxOutboundBlockRelay : ℕ

/-- The tables of the manager and the tasks that run on them.  `handed` has what a
`remove_connection` that has let go of `_connections_lock` is about to queue, `retrying` the
retries being dialled, `releasing` those that are dialled and have not released their slot;
`queued` and `dialled` have all that were queued and dialled so far. -/
structure Slots where
  lastConnectionId : ℕ
  pendingConnections : List Connection
  connections : List Connection
  reservedOutbound : Option ConnectionType → ℤ
  dials : List Dial
  handed : List Reconnection
  reconnections : List Reconnection
  retrying : List RetryDial
  releasing : List Reconnection
  queued : List Reconnection
  dialled : List Reconnection

/-- A manager that holds nothing. -/
def start : Slots := ⟨0, [], [], fun _ => 0, [], [], [], [], [], [], []⟩

namespace Slots

/-- All connections that are held. -/
def held (s : Slots) : List Connection := s.connections ++ s.pendingConnections

/-- Whether a connection is automatic or addr-fetch and outbound. -/
def isAutomatic (conn : Connection) : Bool := !conn.inbound && conn.flags.holdsSlot

/-- `_automatic_outbound_locked`. -/
def automaticOutbound (s : Slots) : List Connection := s.held.filter isAutomatic

/-- `_outbound_type_counts`. -/
def outboundTypeCounts (automatic : List Connection) : ℤ × ℤ :=
  let blockRelay := automatic.countP (·.flags.blockRelay)
  let feelers := automatic.countP (·.flags.feeler)
  let addrFetches := automatic.countP (·.flags.addrFetch)
  (automatic.length - blockRelay - feelers - addrFetches, blockRelay)

/-- Whether a cap of its type refuses a reservation. -/
def atTypeCap (caps : Caps) (s : Slots) : Option ConnectionType → Bool
  | some .outboundFullRelay =>
    (caps.maxOutboundFullRelay : ℤ) ≤ (outboundTypeCounts s.automaticOutbound).1 +
      s.reservedOutbound (some .outboundFullRelay)
  | some .blockRelayOnly =>
    (caps.maxOutboundBlockRelay : ℤ) ≤ (outboundTypeCounts s.automaticOutbound).2 +
      s.reservedOutbound (some .blockRelayOnly)
  | _ => false

/-- A number added to the reservations of a type. -/
def reserve (s : Slots) (t : Option ConnectionType) (n : ℤ) : Slots :=
  { s with reservedOutbound := Function.update s.reservedOutbound t (s.reservedOutbound t + n) }

/-- `reserve_automatic_slot`, and the dial it is for. -/
def reserveAutomaticSlot (caps : Caps) (s : Slots) (dialler : Dialler) : Slots :=
  if atTypeCap caps s dialler.reserves then s
  else if (caps.maxAutomaticOutbound : ℤ) ≤
      s.automaticOutbound.length + ∑ t, s.reservedOutbound t then s
  else
    { s.reserve dialler.reserves 1 with
      dials := ⟨dialler.reserves, dialler.flags, false⟩ :: s.dials }

/-- `create_connection`. -/
def createConnection (s : Slots) (inbound : Bool) (flags : Flags) (v2 : Bool) : Slots :=
  { s with
    lastConnectionId := s.lastConnectionId + 1
    pendingConnections := s.pendingConnections ++ [⟨s.lastConnectionId + 1, inbound, flags, v2⟩] }

/-- `promote_connection`. -/
def promoteConnection (s : Slots) (connectionId : ℕ) : Slots :=
  match s.pendingConnections.find? (·.id = connectionId) with
  | none => s
  | some conn =>
    { s with
      pendingConnections := s.pendingConnections.erase conn
      connections := s.connections ++ [conn] }

/-- What the transport and the settings say when a connection is dropped. -/
structure Conditions where
  networkActive : Bool
  shouldReconnectV1 : Bool
  v1transport : Bool

/-- The type a retry reserves its slot as. -/
def retryType (flags : Flags) : Option ConnectionType :=
  if flags.feeler || flags.addrFetch then none
  else if flags.blockRelay then some .blockRelayOnly
  else some .outboundFullRelay

/-- The `_Reconnection` of a connection. -/
def retryOf (conn : Connection) : Reconnection where
  dropped := conn.id
  flags := conn.flags
  holdsSlot := conn.flags.holdsSlot
  connectionType := retryType conn.flags

/-- `_reconnection_for`, without the reservation.  A v1 transport asks for no retry. -/
def reconnectionFor (c : Conditions) (conn : Connection) : Option Reconnection :=
  if c.networkActive && (conn.v2 && c.shouldReconnectV1) && c.v1transport then
    some (retryOf conn)
  else none

/-- What becomes of the slot of a connection that is dropped. -/
def handOver (s : Slots) (c : Conditions) (conn : Connection) : Slots :=
  match reconnectionFor c conn with
  | none => s
  | some item =>
    { (if item.holdsSlot then s.reserve item.connectionType 1 else s) with
      handed := item :: s.handed }

/-- `remove_connection`, up to where it lets go of `_connections_lock`. -/
def removeConnection (s : Slots) (c : Conditions) (connectionId : ℕ) : Slots :=
  match s.connections.find? (·.id = connectionId) with
  | some conn => handOver { s with connections := s.connections.erase conn } c conn
  | none =>
    match s.pendingConnections.find? (·.id = connectionId) with
    | some conn =>
      handOver { s with pendingConnections := s.pendingConnections.erase conn } c conn
    | none => s

end Slots

/-- What the threads do. -/
inductive Step where
  /-- a dial is begun where no cap refuses its slot -/
  | reserve (dialler : Dialler)
  /-- a dial comes up -/
  | connect (dial : Dial) (v2 : Bool)
  /-- a dial has concluded -/
  | release (dial : Dial)
  /-- an inbound or a manual connection -/
  | other (inbound v2 : Bool)
  | promote (connectionId : ℕ)
  | remove (conditions : Slots.Conditions) (connectionId : ℕ)
  /-- `remove_connection` queues the retry -/
  | queue (item : Reconnection)
  /-- a loop takes the first of the queue -/
  | retry
  /-- a retry comes up -/
  | reconnect (retry : RetryDial)
  /-- a retry has concluded -/
  | concluded (retry : RetryDial)
  /-- the slot of a retry that has concluded is released -/
  | releaseRetry (item : Reconnection)

open Slots in
/-- A step, where it can be taken.  Tasks that are alike are interchangeable. -/
def step (caps : Caps) (s : Slots) : Step → Option Slots
  | .reserve dialler => some (reserveAutomaticSlot caps s dialler)
  | .connect dial v2 =>
    if dial ∈ s.dials ∧ dial.connected = false then
      some { s.createConnection false dial.flags v2 with
        dials := { dial with connected := true } :: s.dials.erase dial }
    else none
  | .release dial =>
    if dial ∈ s.dials then
      some { s.reserve dial.reserved (-1) with dials := s.dials.erase dial }
    else none
  | .other inbound v2 => some (s.createConnection inbound ⟨false, false, false, false⟩ v2)
  | .promote connectionId => some (promoteConnection s connectionId)
  | .remove conditions connectionId => some (removeConnection s conditions connectionId)
  | .queue item =>
    if item ∈ s.handed then
      some { s with
        handed := s.handed.erase item
        reconnections := s.reconnections ++ [item]
        queued := s.queued ++ [item] }
    else none
  | .retry =>
    match s.reconnections with
    | [] => none
    | item :: reconnections =>
      some { s with
        reconnections := reconnections
        retrying := ⟨item, false⟩ :: s.retrying
        dialled := s.dialled ++ [item] }
  | .reconnect retry =>
    if retry ∈ s.retrying ∧ retry.connected = false then
      some { s.createConnection false retry.item.flags false with
        retrying := { retry with connected := true } :: s.retrying.erase retry }
    else none
  | .concluded retry =>
    if retry ∈ s.retrying then
      some { s with
        retrying := s.retrying.erase retry
        releasing := retry.item :: s.releasing }
    else none
  | .releaseRetry item =>
    if item ∈ s.releasing then
      some { (if item.holdsSlot then s.reserve item.connectionType (-1) else s) with
        releasing := s.releasing.erase item }
    else none

/-! ## What holds a slot -/

variable {caps : Caps} {s s' : Slots} {t : Option ConnectionType}

/-- A retry that holds a slot of a type. -/
def Reconnection.holds (t : Option ConnectionType) (item : Reconnection) : Bool :=
  item.holdsSlot && decide (item.connectionType = t)

/-- The dials of a type in progress, and the retries that hold a slot of it: about to be queued,
queued, being dialled, and dialled with the slot not released. -/
def holders (s : Slots) (t : Option ConnectionType) : ℕ :=
  s.dials.countP (fun dial => decide (dial.reserved = t)) + s.handed.countP (·.holds t) +
    s.reconnections.countP (·.holds t) + s.retrying.countP (·.item.holds t) +
    s.releasing.countP (·.holds t)

/-- The dials and retries with a slot that have yet to connect. -/
def toConnect (s : Slots) : ℕ :=
  s.dials.countP (!·.connected) + s.handed.countP (·.holdsSlot) +
    s.reconnections.countP (·.holdsSlot) +
    s.retrying.countP (fun retry => retry.item.holdsSlot && !retry.connected)

/-- **What holds of the slots** between any two steps. -/
structure Sound (caps : Caps) (s : Slots) : Prop where
  cap : s.held.countP Slots.isAutomatic + toConnect s ≤ caps.maxAutomaticOutbound
  reserved : ∀ t, s.reservedOutbound t = holders s t
  ids : (s.held.map Connection.id).Nodup
  ids_le : ∀ conn ∈ s.held, conn.id ≤ s.lastConnectionId
  inbound : ∀ conn ∈ s.held, conn.inbound = true → conn.flags.holdsSlot = false
  dialled : s.queued = s.dialled ++ s.reconnections
  once : ((s.queued ++ s.handed).map Reconnection.dropped).Nodup
  gone : ∀ item ∈ s.queued ++ s.handed, item.dropped ≤ s.lastConnectionId ∧
    item.dropped ∉ s.held.map Connection.id
  flags : ∀ item ∈ s.queued ++ s.handed, item.holdsSlot = item.flags.holdsSlot
  retries : ∀ retry ∈ s.retrying, retry.item.holdsSlot = retry.item.flags.holdsSlot

theorem countP_of_mem {α : Type} [DecidableEq α] {l : List α} {a : α} (h : a ∈ l)
    (p : α → Bool) : l.countP p = (l.erase a).countP p + if p a then 1 else 0 := by
  rw [(List.perm_cons_erase h).countP_eq, List.countP_cons]

/-- The reservations of all types are as many as there are that hold one. -/
theorem sum_countP {α : Type} (l : List α) (q : α → Bool) (f : α → Option ConnectionType) :
    ∑ t, l.countP (fun a => q a && decide (f a = t)) = l.countP q := by
  induction l with
  | nil => simp
  | cons a l ih =>
    simp only [List.countP_cons, Finset.sum_add_distrib, ih]
    cases q a with
    | false => simp only [Bool.false_and, Bool.false_eq_true, if_false, Finset.sum_const_zero]
    | true =>
      simp only [Bool.true_and, decide_eq_true_eq]
      rw [Finset.sum_ite_eq, if_pos (Finset.mem_univ _), if_pos trivial]

theorem toConnect_le (s : Slots) : toConnect s ≤ ∑ t, holders s t := by
  have hdials : ∑ t, s.dials.countP (fun dial => decide (dial.reserved = t)) =
      s.dials.countP fun _ => true := by
    rw [← sum_countP s.dials (fun _ => true) Dial.reserved]
    simp only [Bool.true_and]
  have hretrying : ∑ t, s.retrying.countP (·.item.holds t) =
      s.retrying.countP (·.item.holdsSlot) :=
    sum_countP s.retrying (·.item.holdsSlot) (·.item.connectionType)
  have hitems : ∀ l : List Reconnection, ∑ t, l.countP (·.holds t) = l.countP (·.holdsSlot) :=
    fun l => sum_countP l (·.holdsSlot) (·.connectionType)
  have hle : s.dials.countP (!·.connected) ≤ s.dials.countP fun _ => true :=
    List.countP_mono_left fun _ _ _ => rfl
  have hle' : s.retrying.countP (fun retry => retry.item.holdsSlot && !retry.connected) ≤
      s.retrying.countP (·.item.holdsSlot) :=
    List.countP_mono_left fun retry _ h => (Bool.and_eq_true_iff.mp h).1
  simp only [toConnect, holders, Finset.sum_add_distrib, hdials, hretrying, hitems]
  omega

/-! ## The steps -/

theorem start_sound (caps : Caps) : Sound caps start where
  cap := Nat.zero_le _
  reserved := fun _ => rfl
  ids := List.nodup_nil
  ids_le := fun _ h => absurd h List.not_mem_nil
  inbound := fun _ h => absurd h List.not_mem_nil
  dialled := rfl
  once := List.nodup_nil
  gone := fun _ h => absurd h List.not_mem_nil
  flags := fun _ h => absurd h List.not_mem_nil
  retries := fun _ h => absurd h List.not_mem_nil

/-- A reservation and its dial. -/
theorem Sound.reserveAutomaticSlot (h : Sound caps s) (dialler : Dialler) :
    Sound caps (Slots.reserveAutomaticSlot caps s dialler) := by
  rw [Slots.reserveAutomaticSlot]
  split_ifs with htype hpool
  · exact h
  · exact h
  · refine ⟨?_, fun t => ?_, h.ids, h.ids_le, h.inbound, h.dialled, h.once, h.gone, h.flags,
      h.retries⟩
    · have hsum : ∑ t, s.reservedOutbound t = ((∑ t, holders s t : ℕ) : ℤ) := by
        rw [Nat.cast_sum]
        exact Finset.sum_congr rfl fun t _ => h.reserved t
      have hle := toConnect_le s
      have hlen : s.automaticOutbound.length = s.held.countP Slots.isAutomatic :=
        (List.countP_eq_length_filter ..).symm
      rw [hsum, hlen] at hpool
      change s.held.countP Slots.isAutomatic + toConnect { s with
        dials := ⟨dialler.reserves, dialler.flags, false⟩ :: s.dials } ≤ _
      simp only [toConnect, List.countP_cons, Bool.not_false, if_true] at hle ⊢
      omega
    · have hreserved := h.reserved t
      change Function.update s.reservedOutbound _ _ t = (holders { s with
        dials := ⟨dialler.reserves, dialler.flags, false⟩ :: s.dials } t : ℤ)
      simp only [holders, List.countP_cons] at hreserved ⊢
      by_cases ht : t = dialler.reserves
      · subst ht
        rw [Function.update_self, hreserved, decide_eq_true rfl, if_pos rfl]
        push_cast
        omega
      · rw [Function.update_of_ne ht, hreserved, decide_eq_false (Ne.symm ht),
          if_neg Bool.false_ne_true]
        rfl

/-- What a new connection leaves as it was. -/
theorem Sound.createConnection (h : Sound caps s) (inbound : Bool) (flags : Flags) (v2 : Bool)
    (dials : List Dial) (retrying : List RetryDial)
    (hinbound : inbound = true → flags.holdsSlot = false)
    (hcap : s.held.countP Slots.isAutomatic + (if !inbound && flags.holdsSlot then 1 else 0) +
      toConnect { s with dials := dials, retrying := retrying } ≤ caps.maxAutomaticOutbound)
    (hholders : ∀ t, holders { s with dials := dials, retrying := retrying } t = holders s t)
    (hretries : ∀ retry ∈ retrying, retry.item.holdsSlot = retry.item.flags.holdsSlot) :
    Sound caps { s.createConnection inbound flags v2 with
      dials := dials, retrying := retrying } := by
  have hheld : ({ s.createConnection inbound flags v2 with
      dials := dials, retrying := retrying } : Slots).held =
      s.held ++ [⟨s.lastConnectionId + 1, inbound, flags, v2⟩] := (List.append_assoc ..).symm
  have hnew : s.lastConnectionId + 1 ∉ s.held.map Connection.id := by
    intro hmem
    obtain ⟨conn, hconn, hid⟩ := List.mem_map.mp hmem
    have hle := h.ids_le conn hconn
    omega
  refine ⟨?_, fun t => ?_, ?_, fun conn hconn => ?_, fun conn hconn => ?_, h.dialled, h.once,
    fun item hitem => ?_, h.flags, hretries⟩
  · rw [hheld, List.countP_append, List.countP_singleton]
    exact hcap
  · rw [show holders ({ s.createConnection inbound flags v2 with
      dials := dials, retrying := retrying } : Slots) t = holders s t from hholders t]
    exact h.reserved t
  · rw [hheld, List.map_append]
    refine h.ids.append (List.nodup_singleton _) fun id hid hid' => ?_
    rw [List.mem_singleton.mp hid'] at hid
    exact hnew hid
  · rw [hheld] at hconn
    change conn.id ≤ s.lastConnectionId + 1
    rcases List.mem_append.mp hconn with hconn | hconn
    · exact (h.ids_le conn hconn).trans (Nat.le_succ _)
    · rw [List.mem_singleton.mp hconn]
  · rw [hheld] at hconn
    rcases List.mem_append.mp hconn with hconn | hconn
    · exact h.inbound conn hconn
    · rw [List.mem_singleton.mp hconn]
      exact hinbound
  · obtain ⟨hle, hnot⟩ := h.gone item hitem
    refine ⟨hle.trans (Nat.le_succ _), ?_⟩
    rw [hheld, List.map_append]
    intro hmem
    rcases List.mem_append.mp hmem with hmem | hmem
    · exact hnot hmem
    · have heq : item.dropped = s.lastConnectionId + 1 := List.mem_singleton.mp hmem
      omega

/-- The same connections in other tables. -/
theorem Sound.of_held (h : Sound caps s) (connections pendingConnections : List Connection)
    (hperm : (connections ++ pendingConnections).Perm s.held) :
    Sound caps { s with connections := connections, pendingConnections := pendingConnections } := by
  refine ⟨?_, h.reserved, ?_, fun conn hconn => h.ids_le conn (hperm.mem_iff.mp hconn),
    fun conn hconn => h.inbound conn (hperm.mem_iff.mp hconn), h.dialled, h.once,
    fun item hitem => ⟨(h.gone item hitem).1, fun hmem => ?_⟩, h.flags, h.retries⟩
  · change (connections ++ pendingConnections).countP _ + toConnect s ≤ _
    rw [hperm.countP_eq]
    exact h.cap
  · exact (hperm.map Connection.id).nodup_iff.mpr h.ids
  · exact (h.gone item hitem).2 ((hperm.map Connection.id).mem_iff.mp hmem)

theorem Sound.promoteConnection (h : Sound caps s) (connectionId : ℕ) :
    Sound caps (Slots.promoteConnection s connectionId) := by
  rw [Slots.promoteConnection]
  split
  · exact h
  · next conn hfind =>
    have hmem := List.mem_of_find?_eq_some hfind
    refine h.of_held _ _ ?_
    rw [List.append_assoc]
    exact List.Perm.append_left _ (List.perm_cons_erase hmem).symm

/-- A connection that is dropped, with its slot handed over where it is retried. -/
theorem Sound.handOver (h : Sound caps s) (c : Slots.Conditions) {conn : Connection}
    (connections pendingConnections : List Connection)
    (hperm : s.held.Perm (conn :: (connections ++ pendingConnections))) :
    Sound caps (Slots.handOver
      { s with connections := connections, pendingConnections := pendingConnections } c conn) := by
  have hcount := hperm.countP_eq Slots.isAutomatic
  rw [List.countP_cons] at hcount
  have hids := (hperm.map Connection.id).nodup_iff.mp h.ids
  rw [List.map_cons, List.nodup_cons] at hids
  have hsub : ∀ {x}, x ∈ connections ++ pendingConnections → x ∈ s.held := fun hx =>
    hperm.mem_iff.mpr (List.mem_cons_of_mem _ hx)
  have hsubIds : ∀ {x}, x ∈ (connections ++ pendingConnections).map Connection.id →
      x ∈ s.held.map Connection.id := fun hx =>
    (hperm.map Connection.id).mem_iff.mpr (List.mem_cons_of_mem _ hx)
  have hconn : conn ∈ s.held := hperm.mem_iff.mpr List.mem_cons_self
  have hcap := h.cap
  have hle : ∀ x ∈ connections ++ pendingConnections, x.id ≤ s.lastConnectionId := fun x hx =>
    h.ids_le x (hsub hx)
  have hinbound : ∀ x ∈ connections ++ pendingConnections, x.inbound = true →
      x.flags.holdsSlot = false := fun x hx => h.inbound x (hsub hx)
  cases hretry : Slots.reconnectionFor c conn with
  | none =>
    rw [Slots.handOver, hretry]
    refine ⟨?_, h.reserved, hids.2, hle, hinbound, h.dialled, h.once, fun item hitem =>
      ⟨(h.gone item hitem).1, fun hmem => (h.gone item hitem).2 (hsubIds hmem)⟩, h.flags,
      h.retries⟩
    change (connections ++ pendingConnections).countP _ + toConnect s ≤ _
    omega
  | some item =>
    rw [Slots.handOver, hretry]
    rw [Slots.reconnectionFor, Option.ite_none_right_eq_some] at hretry
    obtain rfl := Option.some.inj hretry.2
    have hfresh : ∀ item ∈ s.queued ++ s.handed, item.dropped ≠ conn.id := fun item hitem heq =>
      (h.gone item hitem).2 (heq ▸ List.mem_map_of_mem hconn)
    have honce : ((s.queued ++ Slots.retryOf conn :: s.handed).map
        Reconnection.dropped).Nodup := by
      rw [(List.perm_middle.map Reconnection.dropped).nodup_iff, List.map_cons, List.nodup_cons]
      refine ⟨fun hmem => ?_, h.once⟩
      obtain ⟨item, hitem, heq⟩ := List.mem_map.mp hmem
      exact hfresh item hitem heq
    have hgone : ∀ item ∈ s.queued ++ Slots.retryOf conn :: s.handed,
        item.dropped ≤ s.lastConnectionId ∧
        item.dropped ∉ (connections ++ pendingConnections).map Connection.id := by
      intro item hitem
      rcases List.mem_cons.mp (List.perm_middle.mem_iff.mp hitem) with rfl | hitem
      · exact ⟨h.ids_le conn hconn, hids.1⟩
      · exact ⟨(h.gone item hitem).1, fun hmem => (h.gone item hitem).2 (hsubIds hmem)⟩
    have hflags : ∀ item ∈ s.queued ++ Slots.retryOf conn :: s.handed,
        item.holdsSlot = item.flags.holdsSlot := by
      intro item hitem
      rcases List.mem_cons.mp (List.perm_middle.mem_iff.mp hitem) with rfl | hitem
      · rfl
      · exact h.flags item hitem
    change Sound caps { (if (Slots.retryOf conn).holdsSlot then
        Slots.reserve { s with
          connections := connections, pendingConnections := pendingConnections }
          (Slots.retryOf conn).connectionType 1
      else { s with connections := connections, pendingConnections := pendingConnections }) with
      handed := Slots.retryOf conn :: s.handed }
    cases hholds : (Slots.retryOf conn).holdsSlot with
    | false =>
      rw [if_neg Bool.false_ne_true]
      refine ⟨?_, fun t => ?_, hids.2, hle, hinbound, h.dialled, honce, hgone, hflags,
        h.retries⟩
      · change (connections ++ pendingConnections).countP _ + toConnect { s with
          handed := Slots.retryOf conn :: s.handed } ≤ _
        simp only [toConnect, List.countP_cons, hholds, Bool.false_eq_true, if_false] at hcap ⊢
        omega
      · have hreserved := h.reserved t
        change s.reservedOutbound t = (holders { s with
          handed := Slots.retryOf conn :: s.handed } t : ℤ)
        simp only [holders, List.countP_cons, Reconnection.holds, hholds, Bool.false_and,
          Bool.false_eq_true, if_false] at hreserved ⊢
        omega
    | true =>
      have hauto : Slots.isAutomatic conn = true := by
        cases hin : conn.inbound with
        | false =>
          rw [Slots.isAutomatic, hin]
          exact hholds
        | true => exact absurd ((h.inbound conn hconn hin).symm.trans hholds) (by decide)
      rw [hauto, if_pos rfl] at hcount
      rw [if_pos rfl]
      refine ⟨?_, fun t => ?_, hids.2, hle, hinbound, h.dialled, honce, hgone, hflags,
        h.retries⟩
      · change (connections ++ pendingConnections).countP _ + toConnect { s with
          handed := Slots.retryOf conn :: s.handed } ≤ _
        simp only [toConnect, List.countP_cons, hholds, if_true] at hcap ⊢
        omega
      · have hreserved := h.reserved t
        change Function.update s.reservedOutbound (Slots.retryOf conn).connectionType _ t =
          (holders { s with handed := Slots.retryOf conn :: s.handed } t : ℤ)
        simp only [holders, List.countP_cons, Reconnection.holds, hholds, Bool.true_and,
          decide_eq_true_eq] at hreserved ⊢
        by_cases ht : t = (Slots.retryOf conn).connectionType
        · subst ht
          rw [Function.update_self, if_pos rfl]
          omega
        · rw [Function.update_of_ne ht, if_neg (Ne.symm ht)]
          omega

theorem Sound.removeConnection (h : Sound caps s) (c : Slots.Conditions) (connectionId : ℕ) :
    Sound caps (Slots.removeConnection s c connectionId) := by
  rw [Slots.removeConnection]
  split
  · next conn hfind =>
    have hmem := List.mem_of_find?_eq_some hfind
    exact h.handOver c _ _ ((List.perm_cons_erase hmem).append_right _)
  · split
    · next conn hfind =>
      have hmem := List.mem_of_find?_eq_some hfind
      refine h.handOver c _ _ ?_
      exact (List.Perm.append_left _ (List.perm_cons_erase hmem)).trans List.perm_middle
    · exact h

/-- **A step keeps what holds of the slots.** -/
theorem Sound.step (h : Sound caps s) (i : Step) (hstep : step caps s i = some s') :
    Sound caps s' := by
  cases i with
  | reserve dialler =>
    cases hstep
    exact h.reserveAutomaticSlot dialler
  | connect dial v2 =>
    rw [OutboundSlots.step] at hstep
    split_ifs at hstep with hdial
    cases hstep
    have hcap := h.cap
    refine h.createConnection false dial.flags v2 _ s.retrying (fun hfalse => by cases hfalse) ?_
      (fun t => ?_) h.retries
    · have hcount := countP_of_mem hdial.1 (!·.connected)
      have hle : (if !false && dial.flags.holdsSlot then 1 else 0) ≤ 1 := by
        split_ifs <;> decide
      rw [hdial.2, Bool.not_false, if_pos rfl] at hcount
      simp only [toConnect, List.countP_cons, Bool.not_true, Bool.false_eq_true, if_false]
        at hcap ⊢
      omega
    · have hcount := countP_of_mem hdial.1 fun d => decide (d.reserved = t)
      simp only [holders, List.countP_cons] at hcount ⊢
      omega
  | release dial =>
    rw [OutboundSlots.step] at hstep
    split_ifs at hstep with hdial
    cases hstep
    have hcap := h.cap
    refine ⟨?_, fun t => ?_, h.ids, h.ids_le, h.inbound, h.dialled, h.once, h.gone, h.flags,
      h.retries⟩
    · have hcount := countP_of_mem hdial (!·.connected)
      change s.held.countP _ + toConnect { s with dials := s.dials.erase dial } ≤ _
      simp only [toConnect] at hcap hcount ⊢
      omega
    · have hcount := countP_of_mem hdial fun d => decide (d.reserved = t)
      have hreserved := h.reserved t
      change Function.update s.reservedOutbound dial.reserved _ t =
        (holders { s with dials := s.dials.erase dial } t : ℤ)
      simp only [holders, decide_eq_true_eq] at hcount hreserved ⊢
      by_cases ht : t = dial.reserved
      · subst ht
        rw [if_pos rfl] at hcount
        rw [Function.update_self]
        omega
      · rw [if_neg (Ne.symm ht)] at hcount
        rw [Function.update_of_ne ht]
        omega
  | other inbound v2 =>
    cases hstep
    refine h.createConnection inbound _ v2 s.dials s.retrying (fun _ => rfl) ?_ (fun t => rfl)
      h.retries
    have hcap := h.cap
    rw [if_neg (by cases inbound <;> decide)]
    exact hcap
  | promote connectionId =>
    cases hstep
    exact h.promoteConnection connectionId
  | remove conditions connectionId =>
    cases hstep
    exact h.removeConnection conditions connectionId
  | queue item =>
    rw [OutboundSlots.step] at hstep
    split_ifs at hstep with hitem
    cases hstep
    have hcap := h.cap
    have hperm : (s.queued ++ [item] ++ s.handed.erase item).Perm (s.queued ++ s.handed) := by
      rw [List.append_assoc]
      exact List.Perm.append_left _ (List.perm_cons_erase hitem).symm
    refine ⟨?_, fun t => ?_, h.ids, h.ids_le, h.inbound, ?_, ?_, fun x hx =>
      h.gone x (hperm.mem_iff.mp hx), fun x hx => h.flags x (hperm.mem_iff.mp hx), h.retries⟩
    · have hcount := countP_of_mem hitem (·.holdsSlot)
      change s.held.countP _ + toConnect { s with
        handed := s.handed.erase item, reconnections := s.reconnections ++ [item] } ≤ _
      simp only [toConnect, List.countP_append, List.countP_singleton] at hcap hcount ⊢
      omega
    · have hcount := countP_of_mem hitem (·.holds t)
      have hreserved := h.reserved t
      change s.reservedOutbound t = (holders { s with
        handed := s.handed.erase item, reconnections := s.reconnections ++ [item] } t : ℤ)
      simp only [holders, List.countP_append, List.countP_singleton] at hcount hreserved ⊢
      omega
    · change s.queued ++ [item] = s.dialled ++ (s.reconnections ++ [item])
      rw [h.dialled, List.append_assoc]
    · exact (hperm.map Reconnection.dropped).nodup_iff.mpr h.once
  | retry =>
    rw [OutboundSlots.step] at hstep
    split at hstep
    · cases hstep
    · next item reconnections hqueue =>
      cases hstep
      have hcap := h.cap
      refine ⟨?_, fun t => ?_, h.ids, h.ids_le, h.inbound, ?_, h.once, h.gone, h.flags, ?_⟩
      · change s.held.countP _ + toConnect { s with
          reconnections := reconnections, retrying := ⟨item, false⟩ :: s.retrying } ≤ _
        simp only [toConnect, hqueue, List.countP_cons, Bool.not_false, Bool.and_true] at hcap ⊢
        omega
      · have hreserved := h.reserved t
        change s.reservedOutbound t = (holders { s with
          reconnections := reconnections, retrying := ⟨item, false⟩ :: s.retrying } t : ℤ)
        simp only [holders, hqueue, List.countP_cons] at hreserved ⊢
        omega
      · change s.queued = s.dialled ++ [item] ++ reconnections
        rw [h.dialled, hqueue, List.append_assoc]
        rfl
      · intro retry hretry
        rcases List.mem_cons.mp hretry with rfl | hretry
        · refine h.flags item (List.mem_append_left _ ?_)
          rw [h.dialled, hqueue]
          exact List.mem_append_right _ List.mem_cons_self
        · exact h.retries retry hretry
  | reconnect retry =>
    rw [OutboundSlots.step] at hstep
    split_ifs at hstep with hretry
    cases hstep
    have hcap := h.cap
    refine h.createConnection false retry.item.flags false s.dials _
      (fun hfalse => by cases hfalse) ?_ (fun t => ?_) fun r hr => ?_
    · have hcount := countP_of_mem hretry.1 fun r => r.item.holdsSlot && !r.connected
      rw [hretry.2, Bool.not_false, Bool.and_true, h.retries retry hretry.1] at hcount
      simp only [toConnect, List.countP_cons, Bool.not_true, Bool.and_false, Bool.not_false,
        Bool.true_and, Bool.false_eq_true, if_false] at hcap hcount ⊢
      omega
    · have hcount := countP_of_mem hretry.1 (·.item.holds t)
      simp only [holders, List.countP_cons] at hcount ⊢
      omega
    · rcases List.mem_cons.mp hr with rfl | hr
      · exact h.retries retry hretry.1
      · exact h.retries r (List.mem_of_mem_erase hr)
  | concluded retry =>
    rw [OutboundSlots.step] at hstep
    split_ifs at hstep with hretry
    cases hstep
    have hcap := h.cap
    refine ⟨?_, fun t => ?_, h.ids, h.ids_le, h.inbound, h.dialled, h.once, h.gone, h.flags,
      fun r hr => h.retries r (List.mem_of_mem_erase hr)⟩
    · have hcount := countP_of_mem hretry fun r => r.item.holdsSlot && !r.connected
      change s.held.countP _ + toConnect { s with retrying := s.retrying.erase retry } ≤ _
      simp only [toConnect] at hcap hcount ⊢
      omega
    · have hcount := countP_of_mem hretry (·.item.holds t)
      have hreserved := h.reserved t
      change s.reservedOutbound t = (holders { s with
        retrying := s.retrying.erase retry, releasing := retry.item :: s.releasing } t : ℤ)
      simp only [holders, List.countP_cons] at hcount hreserved ⊢
      omega
  | releaseRetry item =>
    rw [OutboundSlots.step] at hstep
    split_ifs at hstep with hitem hholds
    · cases hstep
      refine ⟨h.cap, fun t => ?_, h.ids, h.ids_le, h.inbound, h.dialled, h.once, h.gone, h.flags,
      h.retries⟩
      have hcount := countP_of_mem hitem (·.holds t)
      have hreserved := h.reserved t
      change Function.update s.reservedOutbound item.connectionType _ t =
        (holders { s with releasing := s.releasing.erase item } t : ℤ)
      simp only [holders, Reconnection.holds, hholds, Bool.true_and, decide_eq_true_eq]
        at hcount hreserved ⊢
      by_cases ht : t = item.connectionType
      · subst ht
        rw [if_pos rfl] at hcount
        rw [Function.update_self]
        omega
      · rw [if_neg (Ne.symm ht)] at hcount
        rw [Function.update_of_ne ht]
        omega
    · cases hstep
      refine ⟨h.cap, fun t => ?_, h.ids, h.ids_le, h.inbound, h.dialled, h.once, h.gone, h.flags,
      h.retries⟩
      have hcount := countP_of_mem hitem (·.holds t)
      have hreserved := h.reserved t
      change s.reservedOutbound t =
        (holders { s with releasing := s.releasing.erase item } t : ℤ)
      simp only [holders, Reconnection.holds, hholds, Bool.false_and, Bool.false_eq_true,
        if_false] at hcount hreserved ⊢
      omega

/-! ## The runs -/

/-- What holds between any two steps of any run. -/
theorem Sound.run (caps : Caps) (steps : List Step)
    (hrun : Run.exec (OutboundSlots.step caps) start steps = some s) : Sound caps s :=
  Run.exec_invariant (fun _ i _ h hstep => h.step i hstep) (start_sound caps) hrun

/-- **No slot is lost and none is given twice.**  In every order of the threads' steps the
automatic and addr-fetch connections stay under their cap, the reservations of a type are the
dials and the retries that hold one, no connection is held twice, and a retry that is queued
leaves the queue once, for its dial; no connection is retried a second time. -/
theorem slots_kept (caps : Caps) (steps : List Step) (s : Slots)
    (hrun : Run.exec (step caps) start steps = some s) :
    s.automaticOutbound.length ≤ caps.maxAutomaticOutbound ∧
    (∀ t, s.reservedOutbound t = holders s t ∧ 0 ≤ s.reservedOutbound t) ∧
    (s.held.map Connection.id).Nodup ∧
    s.queued = s.dialled ++ s.reconnections ∧
    ((s.queued ++ s.handed).map Reconnection.dropped).Nodup := by
  have h := Sound.run caps steps hrun
  refine ⟨?_, fun t => ⟨h.reserved t, ?_⟩, h.ids, h.dialled, h.once⟩
  · have hcap := h.cap
    rw [Slots.automaticOutbound, ← List.countP_eq_length_filter]
    omega
  · rw [h.reserved t]
    exact Int.natCast_nonneg _

/-- A peer that a dial with v2 reached and that drops the connection during the handshake. -/
def dropped : List Step :=
  [.reserve (.typed .outboundFullRelay),
   .connect ⟨some .outboundFullRelay, ⟨true, false, false, false⟩, false⟩ true,
   .release ⟨some .outboundFullRelay, ⟨true, false, false, false⟩, true⟩,
   .remove ⟨true, true, true⟩ 1]

/-- Its retry is queued, dialled and comes up, and the slot is released. -/
def retried : List Step :=
  let item := Slots.retryOf ⟨1, false, ⟨true, false, false, false⟩, true⟩
  dropped ++ [.queue item, .retry, .reconnect ⟨item, false⟩, .concluded ⟨item, true⟩,
    .releaseRetry item, .promote 2]

theorem slots_kept_retried :
    ∃ s, Run.exec (step ⟨1, 1, 0⟩) start retried = some s ∧
      (s.automaticOutbound.length ≤ 1 ∧
      (∀ t, s.reservedOutbound t = holders s t ∧ 0 ≤ s.reservedOutbound t) ∧
      (s.held.map Connection.id).Nodup ∧
      s.queued = s.dialled ++ s.reconnections ∧
      ((s.queued ++ s.handed).map Reconnection.dropped).Nodup) ∧
      s.connections.length = 1 ∧ s.dialled.length = 1 :=
  have hrun : Run.exec (step ⟨1, 1, 0⟩) start retried =
      some ((Run.exec (step ⟨1, 1, 0⟩) start retried).get (by decide)) :=
    (Option.some_get _).symm
  ⟨_, hrun, slots_kept ⟨1, 1, 0⟩ retried _ hrun, by decide, by decide⟩

/-- Before the retry is queued, no dial is in progress and no retry is queued or being dialled,
and its slot is reserved. -/
theorem reserved_before_queued :
    ∃ s, Run.exec (step ⟨1, 1, 0⟩) start dropped = some s ∧
      s.reservedOutbound (some .outboundFullRelay) = 1 ∧
      s.dials = [] ∧ s.reconnections = [] ∧ s.retrying = [] :=
  ⟨_, (Option.some_get (x := Run.exec (step ⟨1, 1, 0⟩) start dropped) (by decide)).symm,
    by decide, by decide, by decide, by decide⟩

end BtclibNode.OutboundSlots
