/-
# What the tables of `PeerDB` hold

An endpoint is in the new table, by the groups that gave it its slots, or in the tried table,
or on its way from one to the other.  That is all the tables say: each map of `PeerDB` and each
row of its store is a function of it.
-/
import Mathlib
import BtclibNode.Lib.Positions
import BtclibNode.PeerDb.Calls

namespace BtclibNode

/-- Where an endpoint is: in the new table, with the groups it was given slots by; in the tried
table, with the row it answered with; or in neither, on its way. -/
inductive Place
  | new (groups : List Bytes)
  | tried (answered : NetworkAddress)
  | moving
  deriving DecidableEq, Repr

/-- An endpoint that is known. -/
structure Entry where
  row : NetworkAddress
  source : Bytes
  place : Place
  deriving DecidableEq, Repr

/-- The groups of the slots of an entry. -/
def Entry.groups (entry : Entry) : List Bytes :=
  match entry.place with
  | .new groups => groups
  | _ => []

/-- The row an entry answered with. -/
def Entry.answered (entry : Entry) : Option NetworkAddress :=
  match entry.place with
  | .tried answered => some answered
  | _ => none

theorem Entry.answered_of_place {entry : Entry} {a : NetworkAddress}
    (h : entry.place = .tried a) : entry.answered = some a := by
  unfold Entry.answered
  rw [h]

theorem Entry.place_of_answered {entry : Entry} {a : NetworkAddress}
    (h : entry.answered = some a) : entry.place = .tried a := by
  unfold Entry.answered at h
  split at h
  · rename_i hplace
    rw [hplace, Option.some.inj h]
  · cases h

/-- An entry that has left the new table. -/
def Entry.HasLeft (entry : Entry) : Prop :=
  match entry.place with
  | .new _ => False
  | _ => True

theorem Entry.not_hasLeft {entry : Entry} {groups : List Bytes} (h : entry.place = .new groups) :
    ¬ entry.HasLeft := by
  unfold Entry.HasLeft
  rw [h]
  exact id

theorem Entry.hasLeft_of_tried {entry : Entry} {a : NetworkAddress} (h : entry.place = .tried a) :
    entry.HasLeft := by
  unfold Entry.HasLeft
  rw [h]
  trivial

theorem Entry.hasLeft_of_moving {entry : Entry} (h : entry.place = .moving) : entry.HasLeft := by
  unfold Entry.HasLeft
  rw [h]
  trivial

theorem Entry.groups_of_place {entry : Entry} {groups : List Bytes}
    (h : entry.place = .new groups) : entry.groups = groups := by
  unfold Entry.groups
  rw [h]

theorem Entry.answered_of_not_hasLeft {entry : Entry} (h : ¬ entry.HasLeft) :
    entry.answered = none := by
  rw [Option.eq_none_iff_forall_ne_some]
  intro answered hanswered
  exact h (Entry.hasLeft_of_tried (Entry.place_of_answered hanswered))

/-- What has not left the new table is there. -/
theorem Entry.place_of_not_hasLeft {entry : Entry} (h : ¬ entry.HasLeft) :
    entry.place = .new entry.groups := by
  unfold Entry.HasLeft at h
  unfold Entry.groups
  cases hplace : entry.place with
  | new groups => rfl
  | tried answered =>
    rw [hplace] at h
    exact absurd trivial h
  | moving =>
    rw [hplace] at h
    exact absurd trivial h

theorem Entry.not_hasLeft_of_mem {entry : Entry} {group : Bytes} (h : group ∈ entry.groups) :
    ¬ entry.HasLeft := by
  unfold Entry.groups at h
  unfold Entry.HasLeft
  cases hplace : entry.place with
  | new groups => exact id
  | tried answered =>
    rw [hplace] at h
    exact absurd h List.not_mem_nil
  | moving =>
    rw [hplace] at h
    exact absurd h List.not_mem_nil

/-- The known endpoints. -/
abbrev Addrman := Endpoint → Option Entry

namespace Addrman

variable (c : AddressCode) (key : Bytes) (A : Addrman)

/-- The slots of the new table that an endpoint holds. -/
def HoldsNew (e : Endpoint) (slot : Slot) : Prop :=
  ∃ entry, A e = some entry ∧ slot ∈ entry.groups.map (c.newSlot key e)

/-- The slot of the tried table that an endpoint holds. -/
def HoldsTried (e : Endpoint) (slot : Slot) : Prop :=
  ∃ entry answered, A e = some entry ∧ entry.place = .tried answered ∧ slot = c.triedSlot key e

/-- An endpoint is in the tried table. -/
def Tried (e : Endpoint) : Prop :=
  ∃ entry answered, A e = some entry ∧ entry.place = .tried answered

/-- An endpoint is on its way from one table to the other. -/
def Moving (e : Endpoint) : Prop := ∃ entry, A e = some entry ∧ entry.place = .moving

/-- The same endpoints are in the tried table, and on their way. -/
structure SameLeft (A A' : Addrman) : Prop where
  tried : ∀ e, A'.Tried e ↔ A.Tried e
  moving : ∀ e, A'.Moving e ↔ A.Moving e

/-- An entry is well formed: its rows are its own, its groups and the time it answered at can be
stored, and it holds at most `_NEW_BUCKETS_PER_ADDRESS` slots of the new table, one a group. -/
structure EntrySound (e : Endpoint) (entry : Entry) : Prop where
  row : entry.row.endpoint = e
  storable : c.storable e.host = true
  source : entry.source.length < 256
  place : match entry.place with
    | .new groups => groups ≠ [] ∧ groups.length ≤ newBucketsPerAddress ∧
        (groups.map (c.newSlot key e)).Nodup ∧ ∀ group ∈ groups, group.length < 256
    | .tried answered => answered.endpoint = e ∧ answered.timestamp < 256 ^ 8
    | .moving => True

/-- The tables are well formed: no two endpoints share a slot. -/
structure Sound : Prop where
  entry : ∀ e entry, A e = some entry → EntrySound c key e entry
  new : ∀ e e' slot, HoldsNew c key A e slot → HoldsNew c key A e' slot → e = e'
  tried : ∀ e e' slot, HoldsTried c key A e slot → HoldsTried c key A e' slot → e = e'

end Addrman

/-! ## The maps -/

/-- The slots of the new table that an endpoint holds, with their groups. -/
def Addrman.slotsOf (c : AddressCode) (key : Bytes) (e : Endpoint) (x : Option Entry) :
    Option (List (Slot × Bytes)) :=
  x.bind fun entry =>
    match entry.place with
    | .new groups => some (groups.map fun group => (c.newSlot key e group, group))
    | _ => none

/-- The maps of a table hold what `A` says. -/
structure PeerDb.Memory (c : AddressCode) (t : PeerDb) (A : Addrman) : Prop where
  rows : ∀ e, t.rows e = (A e).map Entry.row
  source : ∀ e, t.source e = (A e).map Entry.source
  addresses : ∀ a, a ∈ t.addresses ↔ t.rows a.endpoint = some a
  knownKeys : ∀ k, k ∈ t.knownKeys ↔ ∃ e, (t.rows e).isSome ∧ c.endpointKey e = k
  slots : ∀ e, t.slots e = Addrman.slotsOf c t.bucketKey e (A e)
  occupant : ∀ slot e, t.occupant slot = some e ↔ A.HoldsNew c t.bucketKey e slot
  triedEndpoints : ∀ e, e ∈ t.triedEndpoints ↔ ∃ entry, A e = some entry ∧ entry.HasLeft
  triedSlotOf : ∀ k slot, t.triedSlotOf k = some slot ↔
    ∃ e, A.HoldsTried c t.bucketKey e slot ∧ c.endpointKey e = k
  triedOccupant : ∀ slot k, t.triedOccupant slot = some k ↔ t.triedSlotOf k = some slot
  activeAddresses : ∀ a, a ∈ t.activeAddresses ↔
    ∃ entry, A a.endpoint = some entry ∧ entry.place = .tried a
  activeIndex : Positions.Indexes (fun a => c.endpointKey a.endpoint) t.activeAddresses
    t.activeIndex
  stats : t.db.isSome → ∀ e ∈ t.triedEndpoints, (t.stats e).isSome

/-! ## The store -/

/-- The kinds of rows of a store. -/
inductive RowKind
  | known
  | answered
  | source
  | stats
  deriving DecidableEq, Repr

/-- What the key of a row of that kind starts with. -/
def RowKind.key : RowKind → Bytes
  | known => knownKey
  | answered => answeredKey
  | source => sourceKey
  | stats => statsKey

theorem RowKind.key_append_inj {x y : RowKind} {u v : Bytes} (h : x.key ++ u = y.key ++ v) :
    x = y ∧ u = v := by
  have htwo : ∀ z : RowKind, ∀ w : Bytes, (z.key ++ w).take 2 = z.key.take 2 := by
    intro z w
    cases z <;> rfl
  have hxy : x = y := by
    have hfront : x.key.take 2 = y.key.take 2 := by rw [← htwo x u, h, htwo y v]
    revert hfront
    cases x <;> cases y <;> decide
  subst hxy
  exact ⟨rfl, List.append_cancel_left h⟩

/-- The key of the row of an endpoint. -/
def AddressCode.rowKey (c : AddressCode) (kind : RowKind) (e : Endpoint) : Bytes :=
  kind.key ++ c.endpointKey e

theorem AddressCode.rowKey_inj {c : AddressCode} (hc : c.Lawful) {x y : RowKind} {e e' : Endpoint}
    (h : c.rowKey x e = c.rowKey y e') : x = y ∧ e = e' := by
  obtain ⟨hkind, hkey⟩ := RowKind.key_append_inj h
  exact ⟨hkind, c.endpointKey_inj hc hkey⟩

/-- What is stored of an endpoint. -/
def Entry.record (c : AddressCode) (kind : RowKind) (entry : Entry) : Option Bytes :=
  match kind with
  | .known => some (c.serialize entry.row)
  | .answered => entry.answered.map c.serialize
  | .source => some (packGroups (entry.source :: entry.groups))
  | .stats => none

/-- The rows of a store, but for the stats. -/
def Addrman.records (c : AddressCode) (A : Addrman) (kind : RowKind) (e : Endpoint) :
    Option Bytes := (A e).bind (Entry.record c kind)

/-- The rows change from `R` to `R'` as the entries do from `A` to `A'`. -/
def Addrman.Follows (c : AddressCode) (R R' : RowKind → Endpoint → Option Bytes)
    (A A' : Addrman) : Prop :=
  ∀ kind e, kind ≠ .stats → R' kind e = A'.records c kind e ∨
    R' kind e = R kind e ∧ A'.records c kind e = A.records c kind e

/-- A store holds those rows, whatever its stats, and no row of another key. -/
structure PeerStore.Holds (c : AddressCode) (d : PeerStore)
    (records : RowKind → Endpoint → Option Bytes) : Prop where
  row : ∀ kind e, kind ≠ .stats → d.rows[c.rowKey kind e]? = records kind e
  key : ∀ k ∈ d.rows, ∃ kind e, c.rowKey kind e = k

/-- The store of a table holds those rows once the batch is written. -/
def PeerDb.Stored (c : AddressCode) (t : PeerDb) (records : RowKind → Endpoint → Option Bytes) :
    Prop :=
  ∀ d, t.db = some d →
    (d.apply t.batch).Holds c records ∧ d.bucketKey = some t.bucketKey

/-- **The tables hold what `A` says**, in memory and in the store; no batch is open. -/
structure PeerDb.Represents (c : AddressCode) (t : PeerDb) (A : Addrman) : Prop where
  sound : A.Sound c t.bucketKey
  memory : t.Memory c A
  stored : t.Stored c (A.records c)
  batch : t.batch = []

/-! ## Writes -/

section Writes

variable {c : AddressCode} {t : PeerDb} {d : PeerStore}
  {records : RowKind → Endpoint → Option Bytes}

/-- Those rows with another at one key. -/
def setRecord (records : RowKind → Endpoint → Option Bytes) (kind : RowKind) (e : Endpoint)
    (value : Option Bytes) : RowKind → Endpoint → Option Bytes :=
  fun kind' e' => if kind' = kind ∧ e' = e then value else records kind' e'

theorem setRecord_self (records : RowKind → Endpoint → Option Bytes) (kind : RowKind)
    (e : Endpoint) (value : Option Bytes) : setRecord records kind e value kind e = value := by
  unfold setRecord
  rw [if_pos ⟨rfl, rfl⟩]

theorem setRecord_of_kind {kind kind' : RowKind} (h : kind' ≠ kind) (e e' : Endpoint)
    (value : Option Bytes) : setRecord records kind e value kind' e' = records kind' e' := by
  unfold setRecord
  rw [if_neg fun hsame => h hsame.1]

theorem setRecord_of_ne {e e' : Endpoint} (h : e' ≠ e) (kind kind' : RowKind)
    (value : Option Bytes) : setRecord records kind e value kind' e' = records kind' e' := by
  unfold setRecord
  rw [if_neg fun hsame => h hsame.2]

theorem PeerStore.bucketKey_write (d : PeerStore) (w : StoreWrite) :
    (d.write w).bucketKey = d.bucketKey := by
  unfold PeerStore.write
  cases w.2 <;> rfl

theorem PeerStore.bucketKey_apply (d : PeerStore) (batch : List StoreWrite) :
    (d.apply batch).bucketKey = d.bucketKey := by
  unfold PeerStore.apply
  induction batch generalizing d with
  | nil => rfl
  | cons w batch ih =>
    rw [List.foldl_cons, ih]
    exact d.bucketKey_write w

theorem PeerStore.apply_append (d : PeerStore) (batch : List StoreWrite) (w : StoreWrite) :
    d.apply (batch ++ [w]) = (d.apply batch).write w := List.foldl_append

theorem PeerStore.getElem?_write (d : PeerStore) (k k' : Bytes) (value : Option Bytes) :
    (d.write (k, value)).rows[k']? = if k = k' then value else d.rows[k']? := by
  unfold PeerStore.write
  cases value with
  | none => exact FiniteMap.getElem?_erase _ _ _
  | some value => exact FiniteMap.getElem?_insert _ _ _ _

theorem PeerStore.Holds.write (hd : d.Holds c records) (hc : c.Lawful) (kind : RowKind)
    (e : Endpoint) (value : Option Bytes) :
    (d.write (c.rowKey kind e, value)).Holds c (setRecord records kind e value) := by
  constructor
  · intro kind' e' hkind'
    rw [PeerStore.getElem?_write]
    unfold setRecord
    by_cases hsame : kind' = kind ∧ e' = e
    · rw [if_pos hsame, hsame.1, hsame.2, if_pos rfl]
    · rw [if_neg hsame, if_neg]
      · exact hd.row kind' e' hkind'
      · intro heq
        obtain ⟨hk, he⟩ := c.rowKey_inj hc heq
        exact hsame ⟨hk.symm, he.symm⟩
  · intro k hk
    by_cases heq : c.rowKey kind e = k
    · exact ⟨kind, e, heq⟩
    · apply hd.key
      rw [FiniteMap.mem_iff_exists] at hk ⊢
      rw [PeerStore.getElem?_write, if_neg heq] at hk
      exact hk

theorem PeerStore.Holds.congr (hd : d.Holds c records)
    {records' : RowKind → Endpoint → Option Bytes}
    (h : ∀ kind e, kind ≠ .stats → records kind e = records' kind e) : d.Holds c records' :=
  ⟨fun kind e hkind => (hd.row kind e hkind).trans (h kind e hkind), hd.key⟩

namespace PeerDb

/-- The table with one more write in its batch. -/
def staged (t : PeerDb) (key : Bytes) (value : Option Bytes) : PeerDb :=
  { t with batch := if t.db.isSome then t.batch ++ [(key, value)] else t.batch }

theorem stage_eq (key : Bytes) (value : Option Bytes) :
    stage key value t = .ok () (t.staged key value) := by
  show EStateM.Result.ok () (if t.db.isSome then _ else t) = _
  unfold staged
  by_cases hsome : t.db.isSome = true
  · rw [if_pos hsome, if_pos hsome]
  · rw [if_neg hsome, if_neg hsome]

theorem Stored.congr (ht : t.Stored c records) {records' : RowKind → Endpoint → Option Bytes}
    (h : ∀ kind e, kind ≠ .stats → records kind e = records' kind e) : t.Stored c records' :=
  fun d hd => ⟨(ht d hd).1.congr h, (ht d hd).2⟩

theorem Stored.staged (ht : t.Stored c records) (hc : c.Lawful) (kind : RowKind) (e : Endpoint)
    (value : Option Bytes) :
    (t.staged (c.rowKey kind e) value).Stored c (setRecord records kind e value) := by
  intro d hd
  have hdb : t.db = some d := hd
  obtain ⟨hholds, hkey⟩ := ht d hdb
  refine ⟨?_, hkey⟩
  show (d.apply (if t.db.isSome then t.batch ++ [(c.rowKey kind e, value)] else t.batch)).Holds c _
  rw [hdb, if_pos (Option.isSome_some : (some d).isSome = true), PeerStore.apply_append]
  exact hholds.write hc kind e value

end PeerDb

end Writes

end BtclibNode
