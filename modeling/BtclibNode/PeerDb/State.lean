/-
# Addresses and the slots they map to

`p2p/address.py`: what names a peer, when an address is terrible, and the bucket and the
position it is placed at.  SHA-256, btclib's codec and `p2p/eviction.py`, which groups and
classifies hosts, are a parameter.
-/
import Mathlib
import BtclibNode.Lib.FiniteMap
import BtclibNode.Lib.LittleEndian
import BtclibNode.Lib.StateExcept
import BtclibNode.Rpc.LineReader

namespace BtclibNode

/-- A network and the octets of an address on it. -/
structure Host where
  networkId : ℕ
  address : Bytes
  deriving DecidableEq, Repr

/-- `_endpoint`: what names a peer. -/
structure Endpoint where
  host : Host
  port : ℕ
  deriving DecidableEq, Repr

/-- `NetworkAddressV2`. -/
structure NetworkAddress where
  timestamp : ℕ
  services : ℕ
  endpoint : Endpoint
  deriving DecidableEq, Repr

/-- `_Stats`. -/
structure Stats where
  lastSuccess : ℚ
  attempts : ℕ
  lastCountAttempt : ℚ
  deriving DecidableEq

/-- `_Stats()`. -/
def Stats.fresh : Stats := ⟨0, 0, 0⟩

/-- A bucket and a position in it. -/
abbrev Slot := ℕ × ℕ

/-- What is used of SHA-256, of btclib's codec and of `p2p/eviction.py`. -/
structure AddressCode where
  sha256 : Bytes → Bytes
  varInt : ℕ → Bytes
  serialize : NetworkAddress → Bytes
  parse : Bytes → Except String NetworkAddress
  hostKey : Host → Bytes
  netGroup : Host → Bytes
  storable : Host → Bool

/-- What is relied on: the codec inverts, and a net group is short. -/
structure AddressCode.Lawful (c : AddressCode) : Prop where
  parse_serialize : ∀ address, c.parse (c.serialize address) = .ok address
  netGroup : ∀ host, (c.netGroup host).length < 256

/-! ## Constants -/

/-- `_NEW_BUCKET_COUNT`. -/
def newBucketCount : ℕ := 1024

/-- `_TRIED_BUCKET_COUNT`. -/
def triedBucketCount : ℕ := 256

/-- `_BUCKET_SIZE`. -/
def bucketSize : ℕ := 64

/-- `_NEW_BUCKETS_PER_SOURCE_GROUP`. -/
def newBucketsPerSourceGroup : ℕ := 64

/-- `_TRIED_BUCKETS_PER_GROUP`. -/
def triedBucketsPerGroup : ℕ := 8

/-- `_NEW_BUCKETS_PER_ADDRESS`. -/
def newBucketsPerAddress : ℕ := 8

/-- `_SET_TRIED_COLLISION_SIZE`. -/
def setTriedCollisionSize : ℕ := 10

/-- `_ADDRMAN_REPLACEMENT`. -/
def addrmanReplacement : ℚ := 4 * 3600

/-- `_ADDRMAN_TEST_WINDOW`. -/
def addrmanTestWindow : ℚ := 40 * 60

/-- `_ADDRMAN_HORIZON`. -/
def addrmanHorizon : ℚ := 30 * 24 * 3600

/-- `_ADDRMAN_FUTURE_SLACK`. -/
def addrmanFutureSlack : ℚ := 10 * 60

/-- `_ADDRMAN_RECENT_TRY_GRACE`. -/
def addrmanRecentTryGrace : ℚ := 60

/-- `_ADDRMAN_RETRIES`. -/
def addrmanRetries : ℕ := 3

/-- `_ADDRMAN_MAX_FAILURES`. -/
def addrmanMaxFailures : ℕ := 10

/-- `_ADDRMAN_MIN_FAIL`. -/
def addrmanMinFail : ℚ := 7 * 24 * 3600

/-- `_ONLINE_WINDOW`. -/
def onlineWindow : ℚ := 24 * 3600

/-- `_ONLINE_UPDATE_INTERVAL`. -/
def onlineUpdateInterval : ℚ := 3600

/-- `_OFFLINE_UPDATE_INTERVAL`. -/
def offlineUpdateInterval : ℚ := 24 * 3600

/-! ## Times -/

/-- `int`, of a clock reading. -/
def truncate (q : ℚ) : ℤ := if 0 ≤ q then q.floor else q.ceil

/-- `_aged_out`. -/
def agedOut (address : NetworkAddress) (now lastTry : ℚ) (stats : Option Stats) : Bool :=
  if now - lastTry ≤ addrmanRecentTryGrace then false
  else
    let age := now - address.timestamp
    if age < -addrmanFutureSlack ∨ addrmanHorizon < age then true
    else
      match stats with
      | none => false
      | some stats =>
        if stats.lastSuccess = 0 ∧ addrmanRetries ≤ stats.attempts then true
        else addrmanMinFail < now - stats.lastSuccess ∧ addrmanMaxFailures ≤ stats.attempts

/-- `_held_time`. -/
def heldTime (existing : Option NetworkAddress) (address : NetworkAddress) (penalty now : ℚ) : ℕ :=
  let gossiped := (truncate (address.timestamp - penalty)).toNat
  match existing with
  | none => gossiped
  | some existing =>
    let interval :=
      if now - address.timestamp < onlineWindow then onlineUpdateInterval
      else offlineUpdateInterval
    if (existing.timestamp : ℚ) < address.timestamp - interval - penalty then gossiped
    else existing.timestamp

/-! ## Keys and slots -/

namespace AddressCode

variable (c : AddressCode)

/-- `endpoint_key`. -/
def endpointKey (endpoint : Endpoint) : Bytes := c.serialize ⟨0, 0, endpoint⟩

/-- `_cheap_hash` of what is written one after another. -/
def cheapHash (fields : Bytes) : ℕ :=
  LittleEndian.decode ((c.sha256 (c.sha256 fields)).take 8)

/-- `_vector`. -/
def vector (octets : Bytes) : Bytes := c.varInt octets.length ++ octets

/-- `_address_key`; the port is big-endian. -/
def addressKey (endpoint : Endpoint) : Bytes :=
  c.hostKey endpoint.host ++ (LittleEndian.encode 2 endpoint.port).reverse

/-- `_position`: the tag is `N` for the new table and `K` for the tried one. -/
def position (key : Bytes) (tag : UInt8) (bucket : ℕ) (addressKey : Bytes) : ℕ :=
  c.cheapHash (key ++ tag :: (LittleEndian.encode 4 bucket ++ c.vector addressKey)) % bucketSize

/-- `_new_slot`. -/
def newSlot (key : Bytes) (endpoint : Endpoint) (sourceGroup : Bytes) : Slot :=
  let source := c.vector sourceGroup
  let spread := c.cheapHash (key ++ c.vector (c.netGroup endpoint.host) ++ source) %
    newBucketsPerSourceGroup
  let bucket := c.cheapHash (key ++ source ++ LittleEndian.encode 8 spread) % newBucketCount
  (bucket, c.position key 78 bucket (c.addressKey endpoint))

/-- `_tried_slot`. -/
def triedSlot (key : Bytes) (endpoint : Endpoint) : Slot :=
  let spread := c.cheapHash (key ++ c.vector (c.addressKey endpoint)) % triedBucketsPerGroup
  let bucket := c.cheapHash (key ++ c.vector (c.netGroup endpoint.host) ++
    LittleEndian.encode 8 spread) % triedBucketCount
  (bucket, c.position key 75 bucket (c.addressKey endpoint))

theorem endpointKey_inj {c : AddressCode} (hc : c.Lawful) {x y : Endpoint}
    (h : c.endpointKey x = c.endpointKey y) : x = y := by
  have hx := hc.parse_serialize ⟨0, 0, x⟩
  have hy := hc.parse_serialize ⟨0, 0, y⟩
  unfold endpointKey at h
  rw [h, hy] at hx
  cases hx
  rfl

end AddressCode

/-! ## Groups as stored -/

/-- `_pack_groups`: each behind its length. -/
def packGroups (groups : List Bytes) : Bytes :=
  groups.flatMap fun group => UInt8.ofNat group.length :: group

/-- `_unpack_groups`. -/
def unpackGroups : Bytes → List Bytes
  | [] => []
  | size :: raw => raw.take size.toNat :: unpackGroups (raw.drop size.toNat)
  termination_by raw => raw.length
  decreasing_by
    rw [List.length_drop, List.length_cons]
    omega

/-- What is stored of groups is read back. -/
theorem unpackGroups_packGroups {groups : List Bytes}
    (hshort : ∀ group ∈ groups, group.length < 256) :
    unpackGroups (packGroups groups) = groups := by
  induction groups with
  | nil =>
    unfold packGroups
    rw [List.flatMap_nil, unpackGroups]
  | cons group groups ih =>
    have hsize : (UInt8.ofNat group.length).toNat = group.length := by
      rw [UInt8.toNat_ofNat']
      exact Nat.mod_eq_of_lt (hshort group List.mem_cons_self)
    unfold packGroups at ih ⊢
    rw [List.flatMap_cons, List.cons_append, unpackGroups, hsize, List.take_left' rfl,
      List.drop_left' rfl, ih fun group' hgroup => hshort group' (List.mem_cons_of_mem _ hgroup)]

end BtclibNode

/-!
# The tables of `PeerDB`

`p2p/address.py`: the maps of the new and of the tried table, the store behind them, and what
the calls are made of: giving an endpoint a slot, emptying one, forgetting an endpoint.
-/

namespace BtclibNode

/-- What a call on the table raises. -/
inductive PeerDbError
  | key
  | index
  | overflow
  | parse (message : String)
  deriving DecidableEq, Repr

/-- `_KNOWN`. -/
def knownKey : Bytes := [107, 110, 111, 119, 110, 45]

/-- `_ANSWERED`. -/
def answeredKey : Bytes := [97, 110, 115, 119, 101, 114, 101, 100, 45]

/-- `_SOURCE`. -/
def sourceKey : Bytes := [115, 111, 117, 114, 99, 101, 45]

/-- `_STATS`. -/
def statsKey : Bytes := [115, 116, 97, 116, 115, 45]

/-- The store: its rows, and the key that places the addresses. -/
structure PeerStore where
  rows : Std.ExtTreeMap Bytes Bytes
  bucketKey : Option Bytes

/-- A write of a batch: a row put, or deleted. -/
abbrev StoreWrite := Bytes × Option Bytes

namespace PeerStore

def write (d : PeerStore) (w : StoreWrite) : PeerStore :=
  match w.2 with
  | some value => { d with rows := d.rows.insert w.1 value }
  | none => { d with rows := d.rows.erase w.1 }

/-- The writes of a batch one after another. -/
def apply (d : PeerStore) (batch : List StoreWrite) : PeerStore := batch.foldl write d

end PeerStore

/-- `PeerDB`; `batch` holds the writes of the batch that is open. -/
structure PeerDb where
  addresses : Finset NetworkAddress
  knownKeys : Finset Bytes
  rows : Endpoint → Option NetworkAddress
  bucketKey : Bytes
  slots : Endpoint → Option (List (Slot × Bytes))
  occupant : Slot → Option Endpoint
  source : Endpoint → Option Bytes
  stats : Endpoint → Option Stats
  triedEndpoints : Finset Endpoint
  collisions : Finset Endpoint
  lastGood : ℚ
  activeAddresses : List NetworkAddress
  activeIndex : Bytes → Option ℕ
  triedSlotOf : Bytes → Option Slot
  triedOccupant : Slot → Option Bytes
  lastTry : Bytes → Option ℚ
  db : Option PeerStore
  batch : List StoreWrite

/-- What the methods of `PeerDB` run in. -/
abbrev PeerDbM := EStateM PeerDbError PeerDb

/-- `table[key]`. -/
def lookup {α : Type} (entry : Option α) : PeerDbM α :=
  match entry with
  | some a => pure a
  | none => throw .key

/-- `n.to_bytes(size, "little")`. -/
def littleBytes (n : ℤ) (size : ℕ) : PeerDbM Bytes :=
  if 0 ≤ n ∧ n < 256 ^ size then pure (LittleEndian.encode size n.toNat) else throw .overflow

theorem lawfulBEq_slot : LawfulBEq Slot := inferInstance

section

attribute [local instance] lawfulBEq_slot

/-- `slots[slot] = group`. -/
def setSlot (slots : List (Slot × Bytes)) (slot : Slot) (group : Bytes) : List (Slot × Bytes) :=
  if slot ∈ slots.map Prod.fst then
    slots.map fun held => if held.1 = slot then (slot, group) else held
  else slots ++ [(slot, group)]

end

namespace PeerDb

variable (c : AddressCode)

/-! ## The batch -/

/-- A write, where the table has a store. -/
def stage (key : Bytes) (value : Option Bytes) : PeerDbM Unit :=
  modify fun t => if t.db.isSome then { t with batch := t.batch ++ [(key, value)] } else t

/-- `_write_batch`: what was staged is written at the end, or not at all. -/
def writeBatch {α : Type} (block : PeerDbM α) : PeerDbM α := fun t =>
  match block { t with batch := [] } with
  | .ok a t => .ok a { t with db := t.db.map fun (d : PeerStore) => d.apply t.batch, batch := [] }
  | .error e t => .error e { t with batch := [] }

/-- `_put_sources`. -/
def putSources (endpoint : Endpoint) : PeerDbM Unit := do
  let t ← get
  if t.db.isSome then
    let source ← lookup (t.source endpoint)
    let groups := source :: (((t.slots endpoint).getD []).map Prod.snd).eraseDups
    let row ← lookup (t.rows endpoint)
    stage (sourceKey ++ c.endpointKey row.endpoint) (some (packGroups groups))

/-- `_put_stats`. -/
def putStats (endpoint : Endpoint) : PeerDbM Unit := do
  let t ← get
  if t.db.isSome then
    let entry ← lookup (t.stats endpoint)
    let row ← lookup (t.rows endpoint)
    let key := statsKey ++ c.endpointKey row.endpoint
    if entry.attempts ≠ 0 ∨ entry.lastSuccess ≠ 0 ∧ endpoint ∉ t.triedEndpoints then
      let success ← littleBytes (truncate entry.lastSuccess) 8
      let attempts ← littleBytes entry.attempts 4
      stage key (some (success ++ attempts))
    else stage key none

/-! ## The new table -/

/-- `_adopt`. -/
def adopt (address : NetworkAddress) (group : Bytes) : PeerDbM Unit :=
  modify fun t => { t with
    rows := Function.update t.rows address.endpoint (some address)
    addresses := insert address t.addresses
    knownKeys := insert (c.endpointKey address.endpoint) t.knownKeys
    source := Function.update t.source address.endpoint (some group) }

/-- `_replace_row`. -/
def replaceRow (endpoint : Endpoint) (old new : NetworkAddress) : PeerDbM Unit :=
  modify fun t => { t with
    addresses := insert new (t.addresses.erase old)
    rows := Function.update t.rows endpoint (some new) }

/-- `_forget`. -/
def forget (endpoint : Endpoint) : PeerDbM Unit := do
  let row ← lookup ((← get).rows endpoint)
  let key := c.endpointKey row.endpoint
  modify fun t => { t with
    rows := Function.update t.rows endpoint none
    addresses := t.addresses.erase row
    knownKeys := t.knownKeys.erase key }
  let _ ← lookup ((← get).source endpoint)
  modify fun t => { t with
    source := Function.update t.source endpoint none
    stats := Function.update t.stats endpoint none
    collisions := t.collisions.erase endpoint }
  stage (knownKey ++ key) none
  stage (sourceKey ++ key) none
  stage (statsKey ++ key) none

/-- `_clear_slot`. -/
def clearSlot (slot : Slot) : PeerDbM Unit := do
  let holder ← lookup ((← get).occupant slot)
  modify fun t => { t with occupant := Function.update t.occupant slot none }
  let slots ← lookup ((← get).slots holder)
  let _ ← lookup (slots.lookup slot)
  let slots := slots.filter fun held => held.1 ≠ slot
  if slots ≠ [] then
    modify fun t => { t with slots := Function.update t.slots holder (some slots) }
    putSources c holder
  else
    modify fun t => { t with slots := Function.update t.slots holder none }
    forget c holder

/-- `last_try`. -/
def lastTryOf (t : PeerDb) (address : NetworkAddress) : ℚ :=
  (t.lastTry (c.endpointKey address.endpoint)).getD 0

/-- An endpoint takes a slot of the new table. -/
def takeSlot (endpoint : Endpoint) (slot : Slot) (group : Bytes) : PeerDbM Unit :=
  modify fun t => { t with
    occupant := Function.update t.occupant slot (some endpoint)
    slots := Function.update t.slots endpoint
      (some (setSlot ((t.slots endpoint).getD []) slot group)) }

/-- `_insert_new`. -/
def insertNew (address : NetworkAddress) (group : Bytes) (now : ℚ) : PeerDbM Bool := do
  let t ← get
  let endpoint := address.endpoint
  let slot := c.newSlot t.bucketKey endpoint group
  match t.occupant slot with
  | none =>
    takeSlot endpoint slot group
    return true
  | some holder =>
    if holder = endpoint then return false
    else
      let old ← lookup (t.rows holder)
      let held ← lookup (t.slots holder)
      if agedOut old now (t.lastTryOf c old) (t.stats holder) ∨
          1 < held.length ∧ (t.slots endpoint).isNone then
        clearSlot c slot
        takeSlot endpoint slot group
        return true
      else return false

/-! ## The tried table -/

/-- `_tried_insert`. -/
def triedInsert (key : Bytes) (row : NetworkAddress) (slot : Slot) : PeerDbM Unit :=
  modify fun t => { t with
    activeIndex := Function.update t.activeIndex key (some t.activeAddresses.length)
    activeAddresses := t.activeAddresses ++ [row]
    triedSlotOf := Function.update t.triedSlotOf key (some slot)
    triedOccupant := Function.update t.triedOccupant slot (some key) }

/-- `_tried_remove`: the last row takes the place of the one removed. -/
def triedRemove (key : Bytes) : PeerDbM NetworkAddress := do
  let position ← lookup ((← get).activeIndex key)
  modify fun t => { t with activeIndex := Function.update t.activeIndex key none }
  match (← get).activeAddresses.getLast? with
  | none => throw .index
  | some last =>
    modify fun t => { t with activeAddresses := t.activeAddresses.dropLast }
    let removed ← do
      let t ← get
      match t.activeAddresses[position]? with
      | none => pure last
      | some removed =>
        set { t with
          activeAddresses := t.activeAddresses.set position last
          activeIndex := Function.update t.activeIndex (c.endpointKey last.endpoint)
            (some position) }
        pure removed
    let slot ← lookup ((← get).triedSlotOf key)
    modify fun t => { t with triedSlotOf := Function.update t.triedSlotOf key none }
    let _ ← lookup ((← get).triedOccupant slot)
    modify fun t => { t with triedOccupant := Function.update t.triedOccupant slot none }
    return removed

/-- `_set_answered`; the row is put in the store past any batch. -/
def setAnswered (position : ℕ) (row : NetworkAddress) : PeerDbM Unit := do
  let t ← get
  if position < t.activeAddresses.length then
    set { t with
      activeAddresses := t.activeAddresses.set position row
      db := t.db.map fun (d : PeerStore) =>
        d.write (answeredKey ++ c.endpointKey row.endpoint, some (c.serialize row)) }
  else throw .index

end PeerDb

end BtclibNode
