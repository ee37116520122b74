/-
# The calls of `PeerDB`

`p2p/address.py`: gossip, services, tries, handshakes and collisions.  A call takes its locks
one after another; each block run under one of them is a definition of its own.
-/
import BtclibNode.PeerDb.State
import Mathlib.Data.Finset.Card

namespace BtclibNode

/-- An address gossiped, with what the draw for a further slot comes to. -/
structure Gossip where
  address : NetworkAddress
  roll : Bool
  deriving DecidableEq, Repr

/-- The arguments of `add_addresses`, and the time it reads. -/
structure Gossips where
  addresses : List Gossip
  source : Option NetworkAddress
  timePenalty : ℚ
  now : ℚ

/-- The order that `list` gives a set of endpoints. -/
structure SetOrder where
  list : Finset Endpoint → List Endpoint
  mem_list : ∀ s e, e ∈ list s ↔ e ∈ s
  nodup_list : ∀ s, (list s).Nodup

/-- `gossiped[key] = gossiped.get(key, NODE_NONE) | services`. -/
def orServices (gossiped : List (Bytes × ℕ)) (key : Bytes) (services : ℕ) : List (Bytes × ℕ) :=
  if key ∈ gossiped.map Prod.fst then
    gossiped.map fun entry => if entry.1 = key then (key, entry.2 ||| services) else entry
  else gossiped ++ [(key, services)]

namespace PeerDb

variable (c : AddressCode)

/-- `_host`. -/
def hostOf (address : NetworkAddress) : ℕ × Bytes :=
  (address.endpoint.host.networkId, c.hostKey address.endpoint.host)

/-! ## Gossip -/

/-- `_insert_further`. -/
def insertFurther (gossip : Gossip) (known : NetworkAddress) (group : Bytes) (now : ℚ) :
    PeerDbM Bool := do
  let t ← get
  let endpoint := known.endpoint
  if gossip.address.timestamp ≤ known.timestamp ∨ endpoint ∈ t.triedEndpoints then return false
  else
    let held := ((t.slots endpoint).getD []).length
    if newBucketsPerAddress ≤ held ∨ held ≠ 0 ∧ gossip.roll = false then return false
    else if ← insertNew c known group now then
      putSources c endpoint
      return true
    else return false

/-- The group an address is placed by: that of its source, or its own. -/
def sourceGroup (g : Gossips) (address : NetworkAddress) : Bytes :=
  match g.source with
  | none => c.netGroup address.endpoint.host
  | some source =>
    let group := c.netGroup source.endpoint.host
    if group = [] then c.netGroup address.endpoint.host else group

/-- The row of an address gossiped. -/
def gossipedRow (g : Gossips) (existing : Option NetworkAddress) (address : NetworkAddress) :
    NetworkAddress :=
  let services :=
    match existing with
    | none => address.services
    | some existing => address.services ||| existing.services
  let penalty := if some (hostOf c address) = g.source.map (hostOf c) then 0 else g.timePenalty
  ⟨heldTime existing address penalty g.now, services, address.endpoint⟩

/-- The body of the loop of `add_addresses`: how many slots were taken, or `none` where the
address is passed over. -/
def addAddress (g : Gossips) (gossip : Gossip) : PeerDbM (Option ℕ) := do
  let address := gossip.address
  if c.storable address.endpoint.host = false then return none
  else
    let existing := (← get).rows address.endpoint
    let known := gossipedRow c g existing address
    let group := sourceGroup c g address
    let key := c.endpointKey address.endpoint
    match existing with
    | none =>
      if ← insertNew c known group g.now then
        adopt c known group
        putSources c address.endpoint
        stage (knownKey ++ key) (some (c.serialize known))
        return some 1
      else return none
    | some existing =>
      replaceRow address.endpoint existing known
      let further ← insertFurther c gossip known group g.now
      if known ≠ existing then stage (knownKey ++ key) (some (c.serialize known))
      return some (if further then 1 else 0)

/-- The loop of `add_addresses`. -/
def addLoop (g : Gossips) : List Gossip → List (Bytes × ℕ) → ℕ → PeerDbM (List (Bytes × ℕ) × ℕ)
  | [], gossiped, added => return (gossiped, added)
  | gossip :: more, gossiped, added => do
    match ← addAddress c g gossip with
    | none => addLoop g more gossiped added
    | some slots =>
      addLoop g more
        (orServices gossiped (c.endpointKey gossip.address.endpoint) gossip.address.services)
        (added + slots)

/-- `add_addresses` under `_addresses_lock`. -/
def addKnown (g : Gossips) : PeerDbM (List (Bytes × ℕ) × ℕ) :=
  writeBatch (addLoop c g g.addresses [] 0)

/-- The services of an answered row, where there is one, once `update` is made of them. -/
def updateAnswered (key : Bytes) (update : ℕ → ℕ) : PeerDbM Unit := do
  let t ← get
  match t.activeIndex key with
  | none => return ()
  | some position =>
    match t.activeAddresses[position]? with
    | none => throw .index
    | some row => setAnswered c position { row with services := update row.services }

/-- `add_addresses` under `_active_lock`. -/
def addAnswered : List (Bytes × ℕ) → PeerDbM Unit
  | [] => return ()
  | (key, services) :: more => do
    updateAnswered c key fun held => held ||| services
    addAnswered more

/-- `add_addresses`. -/
def addAddresses (g : Gossips) : PeerDbM ℕ := do
  let (gossiped, added) ← addKnown c g
  addAnswered c gossiped
  return added

/-! ## Services and tries -/

/-- `set_services` under `_addresses_lock`; whether the endpoint is held. -/
def setKnownServices (address : NetworkAddress) (services : ℕ) : PeerDbM Bool := writeBatch do
  match (← get).rows address.endpoint with
  | none => return false
  | some existing =>
    let known := { existing with services := services }
    replaceRow address.endpoint existing known
    stage (knownKey ++ c.endpointKey address.endpoint) (some (c.serialize known))
    return true

/-- `set_services`. -/
def setServices (address : NetworkAddress) (services : ℕ) : PeerDbM Unit := do
  if ← setKnownServices c address services then
    updateAnswered c (c.endpointKey address.endpoint) fun _ => services

/-- `attempt`, which takes `_addresses_lock` alone. -/
def attempt (address : NetworkAddress) (countFailure : Bool) (now : ℚ) : PeerDbM Unit :=
  writeBatch do
    let endpoint := address.endpoint
    if ((← get).rows endpoint).isNone then return ()
    else
      modify fun t => { t with
        lastTry := Function.update
          (fun key => (t.lastTry key).filter fun tried => now - tried < addrmanReplacement)
          (c.endpointKey endpoint) (some now) }
      let entry := ((← get).stats endpoint).getD .fresh
      modify fun t => { t with stats := Function.update t.stats endpoint (some entry) }
      if countFailure ∧ entry.lastCountAttempt < (← get).lastGood then
        modify fun t => { t with
          stats := Function.update t.stats endpoint
            (some { entry with lastCountAttempt := now, attempts := entry.attempts + 1 }) }
        putStats c endpoint

/-! ## Handshakes -/

/-- `_good` up to where it lets go of `_addresses_lock`: whether the endpoint is tried, and
its slot, or `none` where it is not known. -/
def goodKnown (addr : NetworkAddress) (now : ℚ) : PeerDbM (Option (Bool × Slot)) :=
  writeBatch do
    let endpoint := addr.endpoint
    modify fun t => { t with lastGood := now }
    match (← get).rows endpoint with
    | none => return none
    | some known =>
      let entry := ((← get).stats endpoint).getD .fresh
      modify fun t => { t with
        stats := Function.update t.stats endpoint
          (some { entry with lastSuccess := now, attempts := 0 })
        lastTry := Function.update t.lastTry (c.endpointKey endpoint) (some now) }
      let t ← get
      putStats c endpoint
      return some (endpoint ∈ t.triedEndpoints, c.triedSlot t.bucketKey known.endpoint)

/-- The answered row of a handshake. -/
def answeredRow (addr : NetworkAddress) (now : ℚ) : NetworkAddress :=
  { addr with timestamp := (truncate now).toNat }

/-- `_good` under `_active_lock`: what holds the slot of an endpoint that is not tried. -/
def goodAnswered (tried : Bool) (answered : NetworkAddress) (slot : Slot) :
    PeerDbM (Option Bytes) := do
  let t ← get
  if tried then
    let position ← lookup (t.activeIndex (c.endpointKey answered.endpoint))
    setAnswered c position answered
    return none
  else return t.triedOccupant slot

/-- `_good` where another holds the slot. -/
def collide (endpoint : Endpoint) : PeerDbM Unit :=
  modify fun t =>
    if t.collisions.card < setTriedCollisionSize then
      { t with collisions := insert endpoint t.collisions }
    else t

/-- `for held in slots: del occupant[held]`. -/
def vacate : List Slot → PeerDbM Unit
  | [] => return ()
  | slot :: more => do
    let _ ← lookup ((← get).occupant slot)
    modify fun t => { t with occupant := Function.update t.occupant slot none }
    vacate more

/-- `_make_tried` under `_addresses_lock`. -/
def leaveNew (endpoint : Endpoint) : PeerDbM Unit := writeBatch do
  let held := ((← get).slots endpoint).getD []
  modify fun t => { t with slots := Function.update t.slots endpoint none }
  vacate (held.map Prod.fst)
  modify fun t => { t with
    triedEndpoints := insert endpoint t.triedEndpoints
    collisions := t.collisions.erase endpoint }
  putSources c endpoint
  putStats c endpoint

/-- A write past any batch. -/
def putNow (key : Bytes) (value : Option Bytes) : PeerDbM Unit :=
  modify fun t => { t with db := t.db.map fun (d : PeerStore) => d.write (key, value) }

/-- `_make_tried` under `_active_lock`: the row that held the slot. -/
def enterTried (answered : NetworkAddress) (slot : Slot) : PeerDbM (Option NetworkAddress) := do
  let key := c.endpointKey answered.endpoint
  match (← get).triedOccupant slot with
  | none =>
    triedInsert key answered slot
    putNow (answeredKey ++ key) (some (c.serialize answered))
    return none
  | some evictedKey =>
    let evicted ← triedRemove c evictedKey
    triedInsert key answered slot
    putNow (answeredKey ++ evictedKey) none
    putNow (answeredKey ++ key) (some (c.serialize answered))
    return some evicted

/-- `_return_to_new`. -/
def returnToNew (row : NetworkAddress) : PeerDbM Unit := writeBatch do
  let endpoint := row.endpoint
  modify fun t => { t with triedEndpoints := t.triedEndpoints.erase endpoint }
  let group ← lookup ((← get).source endpoint)
  let known ← lookup ((← get).rows endpoint)
  let slot := c.newSlot (← get).bucketKey known.endpoint group
  if ((← get).occupant slot).isSome then clearSlot c slot
  modify fun t => { t with
    occupant := Function.update t.occupant slot (some endpoint)
    slots := Function.update t.slots endpoint (some [(slot, group)]) }
  putSources c endpoint
  putStats c endpoint

/-- `_make_tried`. -/
def makeTried (answered : NetworkAddress) (slot : Slot) : PeerDbM Unit := do
  leaveNew c answered.endpoint
  match ← enterTried c answered slot with
  | none => return ()
  | some evicted => returnToNew c evicted

/-- `_good`. -/
def good (addr : NetworkAddress) (now : ℚ) (testBeforeEvict : Bool) : PeerDbM Bool := do
  match ← goodKnown c addr now with
  | none => return false
  | some (tried, slot) =>
    let answered := answeredRow addr now
    let holder ← goodAnswered c tried answered slot
    if tried then return false
    else if holder.isSome ∧ testBeforeEvict then
      collide addr.endpoint
      return false
    else
      makeTried c answered slot
      return true

/-- `add_active_address`. -/
def addActiveAddress (addr : NetworkAddress) (now : ℚ) (testBeforeEvict : Bool) : PeerDbM Bool :=
  good c addr now testBeforeEvict

/-! ## Collisions -/

/-- `_resolved` under `_addresses_lock`: the known row, when it answered, and its slot. -/
def resolvedKnown (endpoint : Endpoint) : PeerDbM (Option (NetworkAddress × ℚ × Slot)) := do
  let t ← get
  match t.rows endpoint with
  | none => return none
  | some known =>
    let entry ← lookup (t.stats endpoint)
    return some (known, entry.lastSuccess, c.triedSlot t.bucketKey known.endpoint)

/-- `_resolved` under `_active_lock`: what holds the slot, and its row. -/
def resolvedOld (slot : Slot) : PeerDbM (Option (Bytes × NetworkAddress)) := do
  let t ← get
  match t.triedOccupant slot with
  | none => return none
  | some oldKey =>
    let position ← lookup (t.activeIndex oldKey)
    match t.activeAddresses[position]? with
    | none => throw .index
    | some old => return some (oldKey, old)

/-- `_resolved` with no lock: what it answers, or `none` where the old entry is replaced. -/
def resolvedWait (old : Option (Bytes × NetworkAddress)) (waiting now : ℚ) :
    PeerDbM (Option Bool) := do
  match old with
  | none => return none
  | some (oldKey, old) =>
    let t ← get
    let entry ← lookup (t.stats old.endpoint)
    let oldTry := (t.lastTry oldKey).getD 0
    if now - entry.lastSuccess < addrmanReplacement then return some true
    else if now - oldTry < addrmanReplacement then
      if now - oldTry ≤ addrmanRecentTryGrace then return some false else return none
    else if now - waiting ≤ addrmanTestWindow then return some false
    else return none

/-- `_resolved`. -/
def resolved (endpoint : Endpoint) (now : ℚ) : PeerDbM Bool := do
  match ← resolvedKnown c endpoint with
  | none => return true
  | some (known, waiting, slot) =>
    let old ← resolvedOld slot
    match ← resolvedWait old waiting now with
    | some answer => return answer
    | none =>
      let _ ← good c known now false
      return true

/-- A collision is settled. -/
def settle (endpoint : Endpoint) : PeerDbM Unit :=
  modify fun t => { t with collisions := t.collisions.erase endpoint }

/-- The loop of `resolve_collisions`. -/
def resolveLoop (now : ℚ) : List Endpoint → PeerDbM Unit
  | [] => return ()
  | endpoint :: waiting => do
    if ← resolved c endpoint now then settle endpoint
    resolveLoop now waiting

/-- `resolve_collisions`. -/
def resolveCollisions (now : ℚ) (order : SetOrder) : PeerDbM Unit := do
  resolveLoop c now (order.list (← get).collisions)

end PeerDb

end BtclibNode

/-!
# Loading the tables of `PeerDB`

`p2p/address.py`: `init_from_db` reads the store whole and places what it holds again.
-/

namespace BtclibNode

/-- What is read of a store, by the endpoint key that a row's key ends in. -/
structure StoredRows where
  known : List (Bytes × NetworkAddress)
  answered : Std.ExtTreeMap Bytes NetworkAddress
  sources : Std.ExtTreeMap Bytes (List Bytes)
  stats : Std.ExtTreeMap Bytes Bytes

def StoredRows.empty : StoredRows := ⟨[], ∅, ∅, ∅⟩

namespace PeerDb

variable (c : AddressCode)

/-- A table before anything is loaded, with the key that was drawn for it. -/
def fresh (bucketKey : Bytes) (db : Option PeerStore) : PeerDb where
  addresses := ∅
  knownKeys := ∅
  rows _ := none
  bucketKey := bucketKey
  slots _ := none
  occupant _ := none
  source _ := none
  stats _ := none
  triedEndpoints := ∅
  collisions := ∅
  lastGood := 1
  activeAddresses := []
  activeIndex _ := none
  triedSlotOf _ := none
  triedOccupant _ := none
  lastTry _ := none
  db := db
  batch := []

/-- `_read_store`; a row that is not storable is to be deleted. -/
def readStore : List (Bytes × Bytes) → StoredRows → PeerDbM StoredRows
  | [], stored => return stored
  | (key, value) :: more, stored =>
    if sourceKey <+: key then
      readStore more { stored with
        sources := stored.sources.insert (key.drop sourceKey.length) (unpackGroups value) }
    else if statsKey <+: key then
      readStore more { stored with
        stats := stored.stats.insert (key.drop statsKey.length) value }
    else if knownKey <+: key ∨ answeredKey <+: key then
      match c.parse value with
      | .error message => throw (.parse message)
      | .ok address => do
        if c.storable address.endpoint.host = false then
          stage key none
          readStore more stored
        else if knownKey <+: key then
          readStore more { stored with
            known := stored.known ++ [(key.drop knownKey.length, address)] }
        else
          readStore more { stored with
            answered := stored.answered.insert (key.drop answeredKey.length) address }
    else readStore more stored

/-- `_load_bucket_key`. -/
def loadBucketKey : PeerDbM Unit :=
  modify fun t =>
    match t.db with
    | none => t
    | some d =>
      match d.bucketKey with
      | none => { t with db := some { d with bucketKey := some t.bucketKey } }
      | some stored => { t with bucketKey := stored }

/-- `_restore_slot`. -/
def restoreSlot (endpoint : Endpoint) (group primary : Bytes) : PeerDbM Unit := do
  let t ← get
  if newBucketsPerAddress ≤ ((t.slots endpoint).getD []).length then return ()
  else
    let slot := c.newSlot t.bucketKey endpoint group
    if (t.occupant slot).isNone then takeSlot endpoint slot group
    else
      let slot := c.newSlot t.bucketKey endpoint primary
      if (t.occupant slot).isNone then takeSlot endpoint slot primary

/-- `for group in groups: _restore_slot(group)`. -/
def restoreSlots (endpoint : Endpoint) (primary : Bytes) : List Bytes → PeerDbM Unit
  | [] => return ()
  | group :: groups => do
    restoreSlot c endpoint group primary
    restoreSlots endpoint primary groups

/-- The stats of a stored row. -/
def storedStats (raw : Option Bytes) (tried : Option NetworkAddress) : Stats :=
  let entry : Stats :=
    match raw with
    | none => .fresh
    | some raw => { Stats.fresh with
        lastSuccess := LittleEndian.decode (raw.take 8)
        attempts := LittleEndian.decode ((raw.drop 8).take 4) }
  match tried with
  | none => entry
  | some tried => { entry with lastSuccess := tried.timestamp }

/-- The body of the loop of `_place_stored` for a row that is not placed in the tried table. -/
def placeNew (suffix : Bytes) (address : NetworkAddress) (groups : List Bytes) (primary : Bytes)
    (entry : Stats) (tried : Bool) : PeerDbM Unit := do
  let endpoint := address.endpoint
  if tried then
    restoreSlot c endpoint primary primary
    stage (answeredKey ++ suffix) none
  else
    restoreSlots c endpoint primary (if groups.tail = [] then [primary] else groups.tail)
  match (← get).slots endpoint with
  | some slots =>
    modify fun t => { t with stats := Function.update t.stats endpoint (some entry) }
    adopt c address primary
    if groups ≠ primary :: (slots.map Prod.snd).eraseDups then putSources c endpoint
    if tried then putStats c endpoint
  | none =>
    stage (knownKey ++ suffix) none
    stage (sourceKey ++ suffix) none
    stage (statsKey ++ suffix) none
    stage (answeredKey ++ suffix) none

/-- The body of the loop of `_place_stored`. -/
def placeOne (suffix : Bytes) (address : NetworkAddress) (stored : StoredRows) :
    PeerDbM Unit := do
  let endpoint := address.endpoint
  let own := c.netGroup endpoint.host
  let groups :=
    match stored.sources[suffix]? with
    | none | some [] => [own]
    | some groups => groups
  let primary := groups.headD own
  let tried := stored.answered[suffix]?
  let entry := storedStats stored.stats[suffix]? tried
  match tried with
  | none => placeNew c suffix address groups primary entry false
  | some row =>
    let slot := c.triedSlot (← get).bucketKey endpoint
    if ((← get).triedOccupant slot).isNone then
      modify fun t => { t with stats := Function.update t.stats endpoint (some entry) }
      adopt c address primary
      modify fun t => { t with triedEndpoints := insert endpoint t.triedEndpoints }
      triedInsert suffix row slot
    else placeNew c suffix address groups primary entry true

/-- `_place_stored`: what it leaves of the sources and of the stats. -/
def placeStored : List (Bytes × NetworkAddress) → StoredRows → PeerDbM StoredRows
  | [], stored => return stored
  | (suffix, address) :: known, stored => do
    placeOne c suffix address stored
    placeStored known { stored with
      sources := stored.sources.erase suffix, stats := stored.stats.erase suffix }

/-- The rows of those suffixes are deleted. -/
def stageDeletes (key : Bytes) : List Bytes → PeerDbM Unit
  | [] => return ()
  | suffix :: suffixes => do
    stage (key ++ suffix) none
    stageDeletes key suffixes

/-- `init_from_db` on an open store. -/
def initFromDb (d : PeerStore) : PeerDbM Unit := do
  loadBucketKey
  writeBatch do
    let stored ← readStore c d.rows.toList .empty
    let left ← placeStored c stored.known stored
    let known := (← get).knownKeys
    stageDeletes answeredKey (stored.answered.keys.filter fun suffix => suffix ∉ known)
    stageDeletes sourceKey left.sources.keys
    stageDeletes statsKey left.stats.keys

/-- `PeerDB.__init__` on a data directory, with the key that is drawn first. -/
def load (bucketKey : Bytes) (d : PeerStore) : Except PeerDbError PeerDb :=
  match initFromDb c d (fresh bucketKey (some d)) with
  | .ok _ t => .ok t
  | .error e _ => .error e

end PeerDb

end BtclibNode
