/-
# Runs of calls on `PeerDB`

Calls that run one after another, and restarts between them.
-/
import Mathlib
import BtclibNode.Lib.Run
import BtclibNode.PeerDb.Reload

namespace BtclibNode

open StateExcept

/-- A call on the table, with what it reads of the clock; or a new `PeerDB` on the same store,
with the key that is drawn for it. -/
inductive PeerDbCall
  | addAddresses (gossips : Gossips)
  | attempt (address : NetworkAddress) (countFailure : Bool) (now : ClockReading)
  | addActiveAddress (addr : NetworkAddress) (now : ClockReading) (testBeforeEvict : Bool)
  | setServices (address : NetworkAddress) (services : ℕ)
  | resolveCollisions (now : ClockReading) (order : SetOrder)
  | restart (drawn : Bytes)

namespace PeerDb

variable {c : AddressCode} {t t' : PeerDb} {A : Addrman} {e : Endpoint} {entry : Entry}

/-- The table after a computation that returns. -/
def returnedState {α : Type} (block : PeerDbM α) (t : PeerDb) : Option PeerDb :=
  match block t with
  | .ok _ t' => some t'
  | .error _ _ => none

/-- The table after a call that returns. -/
def step (c : AddressCode) (t : PeerDb) : PeerDbCall → Option PeerDb
  | .addAddresses gossips => returnedState (addAddresses c gossips) t
  | .attempt address countFailure now =>
    returnedState (attempt c address countFailure now.seconds) t
  | .addActiveAddress addr now testBeforeEvict =>
    returnedState (addActiveAddress c addr now.seconds testBeforeEvict) t
  | .setServices address services => returnedState (setServices c address services) t
  | .resolveCollisions now order => returnedState (resolveCollisions c now.seconds order) t
  | .restart drawn =>
    match t.db with
    | none => none
    | some d => (load c drawn d).toOption

/-- The table after those calls, from one loaded from a store with no rows. -/
def run (c : AddressCode) (drawn : Bytes) (bucketKey : Option Bytes) (calls : List PeerDbCall) :
    Option PeerDb :=
  (load c drawn ⟨∅, bucketKey⟩).toOption.bind fun t => Run.exec (step c) t calls

/-! ## What the tables say -/

/-- **The tables agree**: a known endpoint is tried, with one slot of the tried table and none
of the new one, or it holds up to eight slots of the new table; each slot is the one that the
address, and the group, map to; and the maps that name the known endpoints name the same. -/
structure Coherent (c : AddressCode) (t : PeerDb) : Prop where
  tried : ∀ e ∈ t.triedEndpoints, (t.rows e).isSome ∧ t.slots e = none ∧
    ∀ slot, t.triedOccupant slot = some (c.endpointKey e) ↔ slot = c.triedSlot t.bucketKey e
  new : ∀ e, (t.rows e).isSome → e ∉ t.triedEndpoints →
    t.triedSlotOf (c.endpointKey e) = none ∧
      ∃ slots, t.slots e = some slots ∧ (slots.map Prod.fst).Nodup ∧
        1 ≤ slots.length ∧ slots.length ≤ newBucketsPerAddress
  slots : ∀ e held, t.slots e = some held →
    (t.rows e).isSome ∧ ∀ x ∈ held, x.1 = c.newSlot t.bucketKey e x.2
  occupant : ∀ slot e, t.occupant slot = some e ↔
    ∃ held, t.slots e = some held ∧ slot ∈ held.map Prod.fst
  triedOccupant : ∀ slot k, t.triedOccupant slot = some k ↔ t.triedSlotOf k = some slot
  triedSlotOf : ∀ k slot, t.triedSlotOf k = some slot ↔
    ∃ e ∈ t.triedEndpoints, c.endpointKey e = k ∧ c.triedSlot t.bucketKey e = slot
  activeKeys : ∀ k, (t.activeIndex k).isSome ↔ (t.triedSlotOf k).isSome
  activeIndex : ∀ k i, t.activeIndex k = some i ↔
    ∃ a, t.activeAddresses[i]? = some a ∧ c.endpointKey a.endpoint = k
  rows : ∀ e a, t.rows e = some a → a.endpoint = e
  addresses : ∀ a, a ∈ t.addresses ↔ t.rows a.endpoint = some a
  knownKeys : ∀ k, k ∈ t.knownKeys ↔ ∃ e, (t.rows e).isSome ∧ c.endpointKey e = k
  source : ∀ e, (t.source e).isSome ↔ (t.rows e).isSome

/-- The same known rows, sources, slots of the new table and slots of the tried table. -/
structure Agree (t t' : PeerDb) : Prop where
  rows : t'.rows = t.rows
  source : t'.source = t.source
  slots : t'.slots = t.slots
  occupant : t'.occupant = t.occupant
  triedSlotOf : t'.triedSlotOf = t.triedSlotOf
  triedOccupant : t'.triedOccupant = t.triedOccupant

theorem Resting.triedEndpoints (ht : Resting c t A) (e : Endpoint) :
    e ∈ t.triedEndpoints ↔ A.Tried e := by
  constructor
  · exact ht.tried
  · rintro ⟨entry, answered, he, hplace⟩
    rw [ht.represents.memory.triedEndpoints]
    exact ⟨entry, he, Entry.hasLeft_of_tried hplace⟩

theorem Resting.triedSlotOf (ht : Resting c t A) (k : Bytes) (slot : Slot) :
    t.triedSlotOf k = some slot ↔
      ∃ e ∈ t.triedEndpoints, c.endpointKey e = k ∧ c.triedSlot t.bucketKey e = slot := by
  rw [ht.represents.memory.triedSlotOf]
  constructor
  · rintro ⟨e, ⟨entry, answered, he, hplace, hslot⟩, hk⟩
    exact ⟨e, (ht.triedEndpoints e).mpr ⟨entry, answered, he, hplace⟩, hk, hslot.symm⟩
  · rintro ⟨e, he, hk, hslot⟩
    obtain ⟨entry, answered, he, hplace⟩ := ht.tried he
    exact ⟨e, ⟨entry, answered, he, hplace, hslot.symm⟩, hk⟩

/-- A known endpoint that is not tried is in the new table. -/
theorem Resting.new (ht : Resting c t A) (he : A e = some entry) (hnot : e ∉ t.triedEndpoints) :
    entry.place = .new entry.groups := by
  apply Entry.place_of_not_hasLeft
  intro hleft
  apply hnot
  rw [ht.represents.memory.triedEndpoints]
  exact ⟨entry, he, hleft⟩

theorem Resting.activeKeys (ht : Resting c t A) (k : Bytes) :
    (t.activeIndex k).isSome ↔ (t.triedSlotOf k).isSome := by
  have hm := ht.represents.memory
  rw [Option.isSome_iff_exists, Option.isSome_iff_exists]
  constructor
  · rintro ⟨i, hi⟩
    obtain ⟨a, ha, hk⟩ := (hm.activeIndex k i).mp hi
    obtain ⟨entry, he, hplace⟩ := (hm.activeAddresses a).mp (List.mem_of_getElem? ha)
    refine ⟨c.triedSlot t.bucketKey a.endpoint, (ht.triedSlotOf k _).mpr ⟨a.endpoint, ?_, hk, rfl⟩⟩
    exact (ht.triedEndpoints a.endpoint).mpr ⟨entry, a, he, hplace⟩
  · rintro ⟨slot, hslot⟩
    obtain ⟨e, he, hk, -⟩ := (ht.triedSlotOf k slot).mp hslot
    obtain ⟨entry, a, he, hplace⟩ := ht.tried he
    have hplaced := (ht.represents.sound.entry e entry he).place
    rw [hplace] at hplaced
    obtain ⟨hown, -⟩ := hplaced
    rw [← hown] at he hk
    obtain ⟨i, hi⟩ := List.mem_iff_getElem?.mp ((hm.activeAddresses a).mpr ⟨entry, he, hplace⟩)
    exact ⟨i, (hm.activeIndex k i).mpr ⟨a, hi, hk⟩⟩

/-- **At rest the tables agree.** -/
theorem Resting.coherent (hc : c.Lawful) (ht : Resting c t A) : t.Coherent c := by
  have hm := ht.represents.memory
  have hsound := ht.represents.sound
  have hknown : ∀ e, (t.rows e).isSome → ∃ entry, A e = some entry := by
    intro e hsome
    rw [hm.rows, Option.isSome_map] at hsome
    exact Option.isSome_iff_exists.mp hsome
  have hrow : ∀ {e entry}, A e = some entry → (t.rows e).isSome := by
    intro e entry he
    rw [hm.rows, he]
    rfl
  refine ⟨?_, ?_, ?_, ?_, hm.triedOccupant, ht.triedSlotOf, ht.activeKeys, hm.activeIndex, ?_,
    hm.addresses, hm.knownKeys, ?_⟩
  · intro e he
    obtain ⟨entry, answered, hentry, hplace⟩ := ht.tried he
    refine ⟨hrow hentry, hm.slots_of_left hentry (Entry.hasLeft_of_tried hplace), ?_⟩
    intro slot
    rw [hm.triedOccupant, ht.triedSlotOf]
    constructor
    · rintro ⟨e', -, hk, rfl⟩
      rw [c.endpointKey_inj hc hk]
    · rintro rfl
      exact ⟨e, he, rfl, rfl⟩
  · intro e hsome hnot
    obtain ⟨entry, he⟩ := hknown e hsome
    have hplace := ht.new he hnot
    have hplaced := (hsound.entry e entry he).place
    rw [hplace] at hplaced
    obtain ⟨hne, hle, hnodup, -⟩ := hplaced
    constructor
    · rw [Option.eq_none_iff_forall_ne_some]
      intro slot hslot
      obtain ⟨e', he', hk, -⟩ := (ht.triedSlotOf _ slot).mp hslot
      rw [c.endpointKey_inj hc hk] at he'
      exact hnot he'
    · refine ⟨_, hm.slots_of_new he hplace, ?_, ?_, ?_⟩
      · rw [List.map_map]
        exact hnodup
      · rw [List.length_map]
        exact List.length_pos_iff.mpr hne
      · rw [List.length_map]
        exact hle
  · intro e held hheld
    rw [hm.slots, Addrman.slotsOf, Option.bind_eq_some_iff] at hheld
    obtain ⟨entry, he, hheld⟩ := hheld
    refine ⟨hrow he, ?_⟩
    intro x hx
    split at hheld
    · rw [← Option.some.inj hheld, List.mem_map] at hx
      obtain ⟨group, -, rfl⟩ := hx
      rfl
    · cases hheld
  · intro slot e
    rw [hm.occupant]
    constructor
    · rintro ⟨entry, he, hslot⟩
      obtain ⟨group, hgroup, rfl⟩ := List.mem_map.mp hslot
      have hplace := Entry.place_of_not_hasLeft (Entry.not_hasLeft_of_mem hgroup)
      refine ⟨_, hm.slots_of_new he hplace, ?_⟩
      rw [List.map_map]
      exact List.mem_map.mpr ⟨group, hgroup, rfl⟩
    · rintro ⟨held, hheld, hslot⟩
      rw [hm.slots, Addrman.slotsOf, Option.bind_eq_some_iff] at hheld
      obtain ⟨entry, he, hheld⟩ := hheld
      refine ⟨entry, he, ?_⟩
      split at hheld
      · rename_i groups hplace
        rw [← Option.some.inj hheld, List.map_map] at hslot
        rw [Entry.groups_of_place hplace]
        exact hslot
      · cases hheld
  · intro e a ha
    rw [hm.rows, Option.map_eq_some_iff] at ha
    obtain ⟨entry, he, rfl⟩ := ha
    exact (hsound.entry e entry he).row
  · intro e
    rw [hm.source, hm.rows, Option.isSome_map, Option.isSome_map]

/-- Tables that hold the same under one key agree. -/
theorem Resting.agree (ht : Resting c t A) (ht' : Resting c t' A)
    (hkey : t'.bucketKey = t.bucketKey) : t.Agree t' := by
  have hm := ht.represents.memory
  have hm' := ht'.represents.memory
  have hslot : ∀ k slot, t'.triedSlotOf k = some slot ↔ t.triedSlotOf k = some slot := by
    intro k slot
    rw [hm'.triedSlotOf, hm.triedSlotOf, hkey]
  constructor
  · funext e
    rw [hm'.rows, hm.rows]
  · funext e
    rw [hm'.source, hm.source]
  · funext e
    rw [hm'.slots, hm.slots, hkey]
  · funext slot
    apply Option.ext
    intro e
    rw [hm'.occupant, hm.occupant, hkey]
  · funext k
    exact Option.ext (hslot k)
  · funext slot
    apply Option.ext
    intro k
    rw [hm'.triedOccupant, hm.triedOccupant]
    exact hslot k slot

/-- **A new `PeerDB` on the store of a table at rest** is at rest, and holds the same. -/
theorem Resting.reload (hc : c.Lawful) (ht : Resting c t A) (drawn : Bytes) :
    ∃ d t', t.db = some d ∧ load c drawn d = .ok t' ∧ Resting c t' A ∧
      t'.bucketKey = t.bucketKey := by
  obtain ⟨d, hd⟩ := Option.isSome_iff_exists.mp ht.store
  obtain ⟨hholds, hkey⟩ := ht.represents.stored d hd
  rw [ht.represents.batch] at hholds
  have hdrawn : d.bucketKey.getD drawn = t.bucketKey := by
    rw [hkey]
    rfl
  obtain ⟨t', hload, hrest, hkey'⟩ := load_sat hc hdrawn ht.represents.sound ht.still hholds
  exact ⟨d, t', hd, hload, hrest, hkey'⟩

/-! ## Runs -/

theorem returnedState_of_sat {α : Type} {block : PeerDbM α} {Q : α → PeerDb → Prop}
    {E : PeerDbError → PeerDb → Prop} (h : Sat block t Q E)
    (hrun : returnedState block t = some t') : ∃ a, Q a t' := by
  unfold returnedState at hrun
  split at hrun
  · rename_i a t₁ hblock
    obtain rfl := Option.some.inj hrun
    exact ⟨a, h.of_ok hblock⟩
  · cases hrun

theorem isSome_returnedState {α : Type} {block : PeerDbM α} {Q : α → PeerDb → Prop}
    (h : Sat block t Q fun _ _ => False) : (returnedState block t).isSome := by
  obtain ⟨a, t', hblock, -⟩ := h.exists_ok
  unfold returnedState
  rw [hblock]
  rfl

/-- **A call that returns** leaves the table at rest. -/
theorem step_resting (hc : c.Lawful) (ht : Resting c t A) (call : PeerDbCall)
    (h : step c t call = some t') : ∃ A', Resting c t' A' := by
  cases call with
  | addAddresses gossips =>
    obtain ⟨_, A', ht', hq⟩ := returnedState_of_sat (addAddresses_sat hc ht.represents gossips) h
    exact ⟨A', ht.quiet ht' hq⟩
  | attempt address countFailure now =>
    obtain ⟨_, ht', hs⟩ :=
      returnedState_of_sat (attempt_sat hc ht.represents address countFailure now.seconds) h
    exact ⟨A, ht.same ht' hs⟩
  | addActiveAddress addr now testBeforeEvict =>
    obtain ⟨_, A', ht', -⟩ := returnedState_of_sat (good_sat hc ht addr now testBeforeEvict) h
    exact ⟨A', ht'⟩
  | setServices address services =>
    obtain ⟨_, A', ht', hq⟩ :=
      returnedState_of_sat (setServices_sat hc ht.represents address services) h
    exact ⟨A', ht.quiet ht' hq⟩
  | resolveCollisions now order =>
    obtain ⟨_, A', ht'⟩ := returnedState_of_sat (resolveCollisions_sat hc ht now order) h
    exact ⟨A', ht'⟩
  | restart drawn =>
    obtain ⟨d, t₁, hd, hload, ht₁, -⟩ := ht.reload hc drawn
    unfold step at h
    dsimp only at h
    rw [hd] at h
    dsimp only at h
    rw [hload] at h
    obtain rfl : t₁ = t' := Option.some.inj h
    exact ⟨A, ht₁⟩

/-- A call returns, but for a counted try whose stats outgrow their row. -/
theorem isSome_step (hc : c.Lawful) (ht : Resting c t A) (call : PeerDbCall)
    (hfit : ∀ address now, call = .attempt address true now →
      (t.countedStats address.endpoint now.seconds).Fits) : (step c t call).isSome := by
  cases call with
  | addAddresses gossips => exact isSome_returnedState (addAddresses_sat hc ht.represents gossips)
  | attempt address countFailure now =>
    apply isSome_returnedState (Q := fun _ _ => True)
    refine (attempt_sat hc ht.represents address countFailure now.seconds).mono
      (fun _ _ _ => trivial) ?_
    rintro _ _ ⟨-, rfl, -, hbad⟩
    exact hbad (hfit address now rfl)
  | addActiveAddress addr now testBeforeEvict =>
    exact isSome_returnedState (good_sat hc ht addr now testBeforeEvict)
  | setServices address services =>
    exact isSome_returnedState (setServices_sat hc ht.represents address services)
  | resolveCollisions now order => exact isSome_returnedState (resolveCollisions_sat hc ht now order)
  | restart drawn =>
    obtain ⟨d, t₁, hd, hload, -⟩ := ht.reload hc drawn
    unfold step
    dsimp only
    rw [hd]
    dsimp only
    rw [hload]
    rfl

theorem load_empty_resting (hc : c.Lawful) (drawn : Bytes) (bucketKey : Option Bytes) :
    ∃ t, load c drawn ⟨∅, bucketKey⟩ = .ok t ∧ Resting c t fun _ => none := by
  have hsound : Addrman.Sound c (bucketKey.getD drawn) fun _ => none := by
    refine ⟨nofun, ?_, ?_⟩
    · rintro _ _ _ ⟨_, he, -⟩
      cases he
    · rintro _ _ _ ⟨_, _, he, -⟩
      cases he
  have hholds : (⟨∅, bucketKey⟩ : PeerStore).Holds c (Addrman.records c fun _ => none) := by
    constructor
    · exact fun kind e _ => Std.ExtTreeMap.getElem?_empty
    · intro k hk
      cases hk
  obtain ⟨t, hload, hrest, -⟩ := load_sat hc rfl hsound (fun e ⟨_, he, _⟩ => nomatch he) hholds
  exact ⟨t, hload, hrest⟩

/-- **Every run of calls** leaves the table at rest. -/
theorem run_resting (hc : c.Lawful) (drawn : Bytes) (bucketKey : Option Bytes)
    (calls : List PeerDbCall) (h : run c drawn bucketKey calls = some t) :
    ∃ A, Resting c t A := by
  obtain ⟨t₀, hload, ht₀⟩ := load_empty_resting hc drawn bucketKey
  unfold run at h
  rw [hload] at h
  apply Run.exec_invariant (P := fun t => ∃ A, Resting c t A) _ ⟨_, ht₀⟩ h
  rintro t call t' ⟨A, ht⟩ hstep
  exact step_resting hc ht call hstep

/-- Calls with no counted try among them return. -/
theorem run_returns (hc : c.Lawful) (drawn : Bytes) (bucketKey : Option Bytes)
    (calls : List PeerDbCall) (h : ∀ address now, .attempt address true now ∉ calls) :
    ∃ t, run c drawn bucketKey calls = some t := by
  obtain ⟨t₀, hload, ht₀⟩ := load_empty_resting hc drawn bucketKey
  unfold run
  rw [hload]
  show ∃ t, Run.exec (step c) t₀ calls = some t
  clear hload
  revert t₀
  generalize (fun _ => none : Addrman) = A
  induction calls generalizing A with
  | nil => exact fun t₀ _ => ⟨t₀, rfl⟩
  | cons call calls ih =>
    intro t₀ ht₀
    have hcall : (step c t₀ call).isSome := by
      apply isSome_step hc ht₀
      rintro address now rfl
      exact absurd List.mem_cons_self (h address now)
    obtain ⟨t₁, hstep⟩ := Option.isSome_iff_exists.mp hcall
    obtain ⟨A₁, ht₁⟩ := step_resting hc ht₀ call hstep
    obtain ⟨t, hrun⟩ := ih (fun address now hmem => h address now (List.mem_cons_of_mem _ hmem))
      A₁ t₁ ht₁
    exact ⟨t, Run.exec_cons.mpr ⟨t₁, hstep, hrun⟩⟩

/-- **The tables stay coherent and survive a restart**: after any run of calls the tables agree
with each other, a new `PeerDB` on the store holds the same, and the next call returns, but for
a counted try whose stats outgrow their row. -/
theorem run_coherent (hc : c.Lawful) (drawn : Bytes) (bucketKey : Option Bytes)
    (calls : List PeerDbCall) (h : run c drawn bucketKey calls = some t) :
    t.Coherent c ∧
      (∀ drawn', ∃ d t', t.db = some d ∧ load c drawn' d = .ok t' ∧ t.Agree t') ∧
      ∀ call, (step c t call).isSome ∨ ∃ address now, call = .attempt address true now ∧
        ¬ (t.countedStats address.endpoint now.seconds).Fits := by
  obtain ⟨A, ht⟩ := run_resting hc drawn bucketKey calls h
  refine ⟨ht.coherent hc, ?_, ?_⟩
  · intro drawn'
    obtain ⟨d, t', hd, hload, ht', hkey⟩ := ht.reload hc drawn'
    exact ⟨d, t', hd, hload, ht.agree ht' hkey⟩
  · intro call
    by_cases hfit : ∃ address now, call = .attempt address true now ∧
        ¬ (t.countedStats address.endpoint now.seconds).Fits
    · exact .inr hfit
    · apply Or.inl
      apply isSome_step hc ht
      intro address now hcall
      by_contra hbad
      exact hfit ⟨address, now, hcall, hbad⟩

end PeerDb

/-! ## A code -/

/-- The addresses that `wireAddress` is for: no field takes more than it is given. -/
def OnWire (a : NetworkAddress) : Prop :=
  a.timestamp < 256 ^ 4 ∧ a.services < 253 ∧ a.endpoint.host.networkId < 256 ∧
    a.endpoint.host.address.length < 253 ∧ a.endpoint.port < 256 ^ 2

instance (a : NetworkAddress) : Decidable (OnWire a) := by
  unfold OnWire
  infer_instance

/-- An address as it is on the wire. -/
def wireAddress (a : NetworkAddress) : Bytes :=
  LittleEndian.encode 4 a.timestamp ++ UInt8.ofNat a.services ::
    UInt8.ofNat a.endpoint.host.networkId :: UInt8.ofNat a.endpoint.host.address.length ::
      (a.endpoint.host.address ++ (LittleEndian.encode 2 a.endpoint.port).reverse)

def readWire (octets : Bytes) : NetworkAddress :=
  let size := (octets.getD 6 0).toNat
  { timestamp := LittleEndian.decode (octets.take 4)
    services := (octets.getD 4 0).toNat
    endpoint :=
      { host :=
          { networkId := (octets.getD 5 0).toNat
            address := (octets.drop 7).take size }
        port := LittleEndian.decode ((octets.drop 7).drop size).reverse } }

theorem toNat_ofNat {n : ℕ} (hn : n < 256) : (UInt8.ofNat n).toNat = n := by
  rw [UInt8.toNat_ofNat']
  exact Nat.mod_eq_of_lt hn

theorem readWire_wireAddress {a : NetworkAddress} (ha : OnWire a) :
    readWire (wireAddress a) = a := by
  obtain ⟨htime, hservices, hnetwork, hlength, hport⟩ := ha
  have htake : (wireAddress a).take 4 = LittleEndian.encode 4 a.timestamp :=
    List.take_left' (LittleEndian.length_encode ..)
  have hfour : ((wireAddress a).getD 4 0).toNat = a.services := toNat_ofNat (by omega)
  have hfive : ((wireAddress a).getD 5 0).toNat = a.endpoint.host.networkId := toNat_ofNat hnetwork
  have hsix : ((wireAddress a).getD 6 0).toNat = a.endpoint.host.address.length :=
    toNat_ofNat (by omega)
  have hdrop : (wireAddress a).drop 7 =
      a.endpoint.host.address ++ (LittleEndian.encode 2 a.endpoint.port).reverse := rfl
  unfold readWire
  dsimp only
  rw [htake, hfour, hfive, hsix, hdrop, List.take_left' rfl, List.drop_left' rfl,
    List.reverse_reverse, LittleEndian.decode_encode htime, LittleEndian.decode_encode hport]

/-- A number of any size. -/
def unary (n : ℕ) : Bytes := List.replicate n 1 ++ [0]

def readUnary : Bytes → ℕ × Bytes
  | [] => (0, [])
  | b :: octets => if b = 0 then (0, octets) else ((readUnary octets).1 + 1, (readUnary octets).2)

theorem readUnary_unary (n : ℕ) (octets : Bytes) :
    readUnary (unary n ++ octets) = (n, octets) := by
  unfold unary
  induction n with
  | zero => rfl
  | succ n ih =>
    rw [List.replicate_succ, List.cons_append, List.cons_append, readUnary, if_neg (by decide), ih]

/-- Any other address, longer than what is on the wire. -/
def wideAddress (a : NetworkAddress) : Bytes :=
  List.replicate 300 0 ++ (unary a.timestamp ++ (unary a.services ++
    (unary a.endpoint.host.networkId ++ (unary a.endpoint.port ++ a.endpoint.host.address))))

def readWide (octets : Bytes) : NetworkAddress :=
  let (timestamp, octets) := readUnary octets
  let (services, octets) := readUnary octets
  let (networkId, octets) := readUnary octets
  let (port, octets) := readUnary octets
  ⟨timestamp, services, ⟨⟨networkId, octets⟩, port⟩⟩

/-- A code with the addresses of IPv4 storable, by their sixteens; the digest is no SHA-256. -/
def sampleCode : AddressCode where
  sha256 octets := LittleEndian.encode 32 (LittleEndian.decode octets * 40503 % 2 ^ 64)
  varInt n := [UInt8.ofNat n]
  serialize a := if OnWire a then wireAddress a else wideAddress a
  parse octets :=
    .ok (if octets.length < 300 then readWire octets else readWide (octets.drop 300))
  hostKey host :=
    if host.networkId = 1 then List.replicate 10 0 ++ [255, 255] ++ host.address else host.address
  netGroup host := UInt8.ofNat host.networkId :: host.address.take 2
  storable host := host.networkId = 1

theorem sampleCode_lawful : sampleCode.Lawful := by
  constructor
  · intro a
    by_cases ha : OnWire a
    · have hser : sampleCode.serialize a = wireAddress a := if_pos ha
      rw [hser]
      show Except.ok (if _ then _ else _) = _
      rw [if_pos, readWire_wireAddress ha]
      unfold wireAddress
      have hlength := ha.2.2.2.1
      simp only [List.length_append, List.length_cons, List.length_reverse,
        LittleEndian.length_encode]
      omega
    · have hser : sampleCode.serialize a = wideAddress a := if_neg ha
      rw [hser]
      unfold wideAddress
      show Except.ok (if _ then _ else readWide (List.drop 300 _)) = _
      rw [if_neg, List.drop_left' (List.length_replicate ..)]
      · unfold readWide
        simp only [readUnary_unary]
      · rw [List.length_append, List.length_replicate]
        omega
  · intro host
    show (_ :: host.address.take 2).length < 256
    rw [List.length_cons, List.length_take]
    omega

namespace PeerDb

/-- A second of the year 2026. -/
def sampleNow : ClockReading := ⟨1780000000, by decide +kernel, by decide +kernel⟩

/-- Two addresses are gossiped, one of them answers, and the node restarts. -/
def sampleCalls : List PeerDbCall :=
  let first : NetworkAddress := ⟨1779990000, 1, ⟨⟨1, [8, 8, 8, 8]⟩, 8333⟩⟩
  let second : NetworkAddress := ⟨1779990000, 9, ⟨⟨1, [9, 9, 9, 9]⟩, 8333⟩⟩
  [.addAddresses ⟨[⟨first, true⟩, ⟨second, true⟩], none, 0, sampleNow.seconds⟩,
    .addActiveAddress first sampleNow true, .attempt second false sampleNow, .restart [3]]

theorem run_coherent_sample : ∃ t, run sampleCode [7] none sampleCalls = some t ∧
    t.Coherent sampleCode := by
  have hcalls : ∀ address now, PeerDbCall.attempt address true now ∉ sampleCalls := by
    intro address now
    unfold sampleCalls
    simp
  obtain ⟨t, hrun⟩ := run_returns sampleCode_lawful [7] none sampleCalls hcalls
  exact ⟨t, hrun, (run_coherent sampleCode_lawful [7] none sampleCalls hrun).1⟩

end PeerDb

end BtclibNode
