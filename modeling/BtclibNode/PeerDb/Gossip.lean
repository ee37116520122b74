/-
# Gossip

`add_addresses`, `set_services` and `attempt` keep the tables as the entries have them, and
nothing enters or leaves the tried table by them.
-/
import Mathlib
import BtclibNode.PeerDb.NewTable

namespace BtclibNode

open StateExcept

variable {c : AddressCode} {t t' : PeerDb} {A A' : Addrman} {e : Endpoint} {entry : Entry}

/-- The stats can be written: the time in eight bytes, the count in four. -/
def Stats.Fits (s : Stats) : Prop :=
  (0 ≤ truncate s.lastSuccess ∧ truncate s.lastSuccess < 256 ^ 8) ∧ s.attempts < 256 ^ 4

/-- A reading of the clock: no time before the epoch, and none that takes over eight bytes. -/
structure ClockReading where
  seconds : ℚ
  nonneg : 0 ≤ seconds
  bound : seconds < ((256 ^ 8 : ℤ) : ℚ)

theorem ClockReading.fits (now : ClockReading) :
    0 ≤ truncate now.seconds ∧ truncate now.seconds < 256 ^ 8 := by
  unfold truncate
  rw [if_pos now.nonneg]
  exact ⟨Rat.le_floor_iff.mpr now.nonneg, Rat.floor_lt_iff.mpr now.bound⟩

theorem ClockReading.answeredRow_fits (now : ClockReading) (addr : NetworkAddress) :
    (PeerDb.answeredRow addr now.seconds).timestamp < 256 ^ 8 :=
  (Int.toNat_lt now.fits.1).mpr now.fits.2

namespace PeerDb

/-! ## Rows -/

/-- A table where an endpoint has another row. -/
def replaced (t : PeerDb) (e : Endpoint) (old new : NetworkAddress) : PeerDb :=
  { t with
    addresses := insert new (t.addresses.erase old)
    rows := Function.update t.rows e (some new) }

theorem replaceRow_eq (old new : NetworkAddress) :
    replaceRow e old new t = .ok () (t.replaced e old new) := rfl

theorem Memory.updates_row (hm : t.Memory c A) (hc : c.Lawful) (he : A e = some entry)
    (hrow : entry.row.endpoint = e) {row : NetworkAddress} (hnew : row.endpoint = e) :
    Updates c t (t.replaced e entry.row row) e (some { entry with row := row }) := by
  have hu := hm.updates hc e
  rw [he] at hu
  refine ⟨rfl, rfl, hu.source, ?_, hu.knownKeys, hu.slots, ?_, ?_, hu.triedSlotOf,
    hu.triedOccupant, ?_, hu.activeIndex, hu.stats⟩
  · intro a
    show a ∈ insert row (t.addresses.erase entry.row) ↔ _
    rw [Finset.mem_insert, Finset.mem_erase]
    by_cases hsame : a.endpoint = e
    · rw [if_pos hsame, hm.addresses, hsame, hm.rows_of he]
      constructor
      · rintro (rfl | ⟨hne, ha⟩)
        · rfl
        · exact absurd (Option.some.inj ha).symm hne
      · intro ha
        exact .inl (Option.some.inj ha).symm
    · rw [if_neg hsame]
      constructor
      · rintro (rfl | ⟨-, ha⟩)
        · exact absurd hnew hsame
        · exact ha
      · intro ha
        refine .inr ⟨?_, ha⟩
        rintro rfl
        exact hsame hrow
  · intro slot e'
    show t.occupant slot = some e' ↔ _
    rw [hu.occupant slot e']
    by_cases hsame : e' = e
    · rw [if_pos hsame, if_pos hsame, exists_some, exists_some]
      exact Iff.rfl
    · rw [if_neg hsame, if_neg hsame]
  · intro e'
    show e' ∈ t.triedEndpoints ↔ _
    rw [hu.triedEndpoints e']
    by_cases hsame : e' = e
    · rw [if_pos hsame, if_pos hsame, exists_some, exists_some]
      exact Iff.rfl
    · rw [if_neg hsame, if_neg hsame]
  · intro a
    show a ∈ t.activeAddresses ↔ _
    rw [hu.activeAddresses a]
    by_cases hsame : a.endpoint = e
    · rw [if_pos hsame, if_pos hsame, exists_some, exists_some]
    · rw [if_neg hsame, if_neg hsame]

theorem Sound.row {key : Bytes} (hA : A.Sound c key) (he : A e = some entry)
    {row : NetworkAddress} (hnew : row.endpoint = e) :
    Addrman.Sound c key (Function.update A e (some { entry with row := row })) := by
  have hentry := hA.entry e entry he
  apply hA.update
  · intro entry' hentry'
    obtain rfl := Option.some.inj hentry'
    exact ⟨hnew, hentry.storable, hentry.source, hentry.place⟩
  · intro entry' hentry' s hs e' hholds
    obtain rfl := Option.some.inj hentry'
    exact hA.new e' e s hholds ⟨entry, he, hs⟩
  · intro entry' answered hentry' hplace e' hholds
    obtain rfl := Option.some.inj hentry'
    exact hA.tried e' e _ hholds ⟨entry, answered, he, hplace, rfl⟩

/-- A row is replaced, and written after a step of the new table. -/
theorem newStep_row (hc : c.Lawful) (he : A e = some entry) {row : NetworkAddress} {A₂ : Addrman}
    (hstep : NewStep c (t.replaced e entry.row row)
      (Function.update A e (some { entry with row := row })) t' A₂)
    (hkept : (A₂ e).map Entry.row = some row) :
    NewStep c t A (t'.staged (c.rowKey .known e) (some (c.serialize row))) A₂ := by
  have hsome : ∀ e', (A e').isSome →
      (Function.update A e (some { entry with row := row }) e').isSome := by
    intro e' hsome
    by_cases hsame : e' = e
    · rw [hsame, Function.update_self]
      rfl
    · rw [Function.update_of_ne hsame]
      exact hsome
  have hleft : Addrman.SameLeft A (Function.update A e (some { entry with row := row })) :=
    Addrman.sameLeft_of_place he rfl
  refine ⟨hstep.sound, hstep.memory.staged _ _, ?_, hleft.trans hstep.left,
    hstep.triedEndpoints, hstep.bucketKey, hstep.db, hstep.stats, ?_⟩
  · intro R hR
    have hR' : (t.replaced e entry.row row).Stored c R := hR
    obtain ⟨R₂, hR₂, hfollows⟩ := hstep.stored R hR'
    refine ⟨_, hR₂.staged hc .known e _, ?_⟩
    intro kind e' hstats
    by_cases hboth : kind = .known ∧ e' = e
    · left
      rw [hboth.1, hboth.2, setRecord_self]
      obtain ⟨entry₂, hentry₂, hrow₂⟩ := Option.map_eq_some_iff.mp hkept
      unfold Addrman.records
      rw [hentry₂, ← hrow₂]
      rfl
    · have hset : setRecord R₂ .known e (some (c.serialize row)) kind e' = R₂ kind e' := by
        unfold setRecord
        rw [if_neg hboth]
      have hrecords : (Function.update A e (some { entry with row := row }) e').bind
          (Entry.record c kind) = A.records c kind e' := by
        unfold Addrman.records
        by_cases hsame : e' = e
        · rw [hsame, Function.update_self, he]
          cases kind with
          | known => exact absurd ⟨rfl, hsame⟩ hboth
          | answered => rfl
          | source => rfl
          | stats => rfl
        · rw [Function.update_of_ne hsame]
      rw [hset, ← hrecords]
      exact hfollows kind e' hstats
  · intro e' he'
    obtain ⟨hwas, hstats, hknown⟩ := hstep.collisions e' he'
    exact ⟨hwas, hstats, fun h => hknown (hsome e' h)⟩

/-- A row is replaced by itself. -/
theorem newStep_same (hA : A.Sound c t.bucketKey) (hm : t.Memory c A)
    (he : A e = some entry) {A₂ : Addrman}
    (hstep : NewStep c (t.replaced e entry.row entry.row)
      (Function.update A e (some { entry with row := entry.row })) t' A₂) :
    NewStep c t A t' A₂ := by
  have hrow : entry.row.endpoint = e := (hA.entry e entry he).row
  have hself : Function.update A e (some { entry with row := entry.row }) = A := by
    rw [← he, Function.update_eq_self]
  rw [hself] at hstep
  have hreplaced : t.replaced e entry.row entry.row = t := by
    have hmem : entry.row ∈ t.addresses := by
      rw [hm.addresses, hrow]
      exact hm.rows_of he
    unfold replaced
    rw [Finset.insert_erase hmem, ← hm.rows_of he, Function.update_eq_self]
  rw [hreplaced] at hstep
  exact hstep

/-! ## An address gossiped -/

theorem insertFurther_step (hc : c.Lawful) (hA : A.Sound c t.bucketKey) (hm : t.Memory c A)
    (he : A e = some entry) (gossip : Gossip) {group : Bytes} (hshort : group.length < 256)
    (now : ℚ) (hrow : entry.row.endpoint = e) :
    Sat (insertFurther c gossip entry.row group now) t (fun _ t' => ∃ A', NewStep c t A t' A' ∧
      (A' e).map Entry.row = some entry.row) fun _ _ => False := by
  have hnone : ∃ A', NewStep c t A t A' ∧ (A' e).map Entry.row = some entry.row := by
    refine ⟨A, .refl hA hm, ?_⟩
    rw [he]
    rfl
  unfold insertFurther
  rw [sat_bind, sat_get]
  dsimp only
  rw [hrow]
  split
  · exact hnone
  · rename_i hrefused
    split
    · exact hnone
    · rename_i hheld
      have hnew : ¬ entry.HasLeft := hm.not_left (fun h => hrefused (.inr h)) he
      rw [sat_bind]
      refine (insertNew_step hc hA hm entry.row group now).mono ?_ fun _ _ h => h
      rintro taken t' ⟨hfalse, htrue⟩
      cases taken with
      | false =>
        rw [hfalse rfl]
        exact hnone
      | true =>
        obtain ⟨t₁, A₁, hstep, hsame, hfree, rfl⟩ := htrue rfl
        rw [hrow] at hsame hfree ⊢
        rw [← hstep.bucketKey] at hfree ⊢
        have hroom : entry.groups.length < newBucketsPerAddress := by
          rw [← hm.groups_of he, List.length_map]
          exact Nat.lt_of_not_le fun h => hheld (.inl h)
        obtain ⟨t₂, A₂, hok, hstep', hkept⟩ := newStep_further hc hstep.sound hstep.memory
          (hsame.trans he) hnew hroom hshort hfree
        rw [if_pos rfl, sat_bind_of_ok hok]
        exact ⟨A₂, hstep.trans hstep', hkept⟩

theorem length_sourceGroup (hc : c.Lawful) (g : Gossips) (address : NetworkAddress) :
    (sourceGroup c g address).length < 256 := by
  unfold sourceGroup
  split
  · exact hc.netGroup _
  · dsimp only
    split
    · exact hc.netGroup _
    · exact hc.netGroup _

theorem Sound.of_row {key : Bytes} (hA : A.Sound c key) (he : A e = some entry) :
    entry.row.endpoint = e := (hA.entry e entry he).row

/-- An address gossiped is a step of the new table. -/
theorem addAddress_step (hc : c.Lawful) (hA : A.Sound c t.bucketKey) (hm : t.Memory c A)
    (g : Gossips) (gossip : Gossip) :
    Sat (addAddress c g gossip) t (fun _ t' => ∃ A', NewStep c t A t' A') fun _ _ => False := by
  unfold addAddress
  dsimp only
  by_cases hstorable : c.storable gossip.address.endpoint.host = false
  · rw [if_pos hstorable]
    exact ⟨A, .refl hA hm⟩
  · rw [if_neg hstorable, sat_bind, sat_get]
    have hgroup := length_sourceGroup hc g gossip.address
    cases hrows : t.rows gossip.address.endpoint with
    | none =>
      dsimp only
      have he : A gossip.address.endpoint = none := (hm.none_iff).mp hrows
      have hstore : c.storable gossip.address.endpoint.host = true :=
        Bool.eq_true_of_not_eq_false hstorable
      generalize hknown : gossipedRow c g none gossip.address = known
      have hend : known.endpoint = gossip.address.endpoint := by
        rw [← hknown]
        rfl
      rw [← hend] at he hstore
      rw [← hend, sat_bind]
      refine (insertNew_step hc hA hm _ _ _).mono ?_ fun _ _ h => h
      rintro taken t' ⟨hfalse, htrue⟩
      cases taken with
      | false =>
        rw [hfalse rfl]
        exact ⟨A, .refl hA hm⟩
      | true =>
        obtain ⟨t₁, A₁, hstep, hsame, hfree, rfl⟩ := htrue rfl
        rw [← hstep.bucketKey] at hfree ⊢
        obtain ⟨t₂, hok, hstep'⟩ := newStep_adopted hc hstep.sound hstep.memory
          (hsame.trans he) hstore hgroup hfree
        rw [if_pos rfl, sat_bind_of_ok (adopt_eq _ _), sat_bind_of_ok hok,
          sat_bind_of_ok (stage_eq _ _)]
        exact ⟨_, hstep.trans hstep'⟩
    | some existing =>
      dsimp only
      obtain ⟨entry, he, rfl⟩ : ∃ entry, A gossip.address.endpoint = some entry ∧
          entry.row = existing := by
        rw [hm.rows] at hrows
        exact Option.map_eq_some_iff.mp hrows
      rw [sat_bind_of_ok (replaceRow_eq _ _), sat_bind]
      generalize hknown : gossipedRow c g (some entry.row) gossip.address = known
      have hend : known.endpoint = gossip.address.endpoint := by
        rw [← hknown]
        rfl
      have hA₁ : Addrman.Sound c
          (t.replaced gossip.address.endpoint entry.row known).bucketKey _ :=
        Sound.row hA he hend
      have hm₁ := hm.update hc (hm.updates_row hc he (Sound.of_row hA he) hend)
      refine (insertFurther_step hc hA₁ hm₁ (Function.update_self ..) gossip hgroup g.now
        hend).mono ?_ fun _ _ h => h
      rintro further t₂ ⟨A₂, hstep, hkept⟩
      by_cases hsame : known = entry.row
      · rw [if_neg fun h => h hsame]
        subst hsame
        exact ⟨A₂, newStep_same hA hm he hstep⟩
      · rw [if_pos hsame, sat_bind_of_ok (stage_eq _ _)]
        exact ⟨A₂, newStep_row hc he hstep hkept⟩

/-- The loop of `add_addresses` is a step of the new table. -/
theorem addLoop_step (hc : c.Lawful) (g : Gossips) (gossips : List Gossip) :
    ∀ (t : PeerDb) (A : Addrman) (gossiped : List (Bytes × ℕ)) (added : ℕ),
      A.Sound c t.bucketKey → t.Memory c A →
      Sat (addLoop c g gossips gossiped added) t (fun _ t' => ∃ A', NewStep c t A t' A')
        fun _ _ => False := by
  induction gossips with
  | nil =>
    intro t A gossiped added hA hm
    exact ⟨A, .refl hA hm⟩
  | cons gossip gossips ih =>
    intro t A gossiped added hA hm
    unfold addLoop
    rw [sat_bind]
    refine (addAddress_step hc hA hm g gossip).mono ?_ fun _ _ h => h
    rintro slots t₁ ⟨A₁, hstep⟩
    have hmore : ∀ gossiped added, Sat (addLoop c g gossips gossiped added) t₁
        (fun _ t' => ∃ A', NewStep c t A t' A') fun _ _ => False := by
      intro gossiped added
      refine (ih t₁ A₁ gossiped added hstep.sound hstep.memory).mono ?_ fun _ _ h => h
      rintro _ t₂ ⟨A₂, hstep'⟩
      exact ⟨A₂, hstep.trans hstep'⟩
    cases slots with
    | none => exact hmore gossiped added
    | some slots => exact hmore _ _

/-! ## Batches -/

/-- A table once its batch is written. -/
def written (t : PeerDb) : PeerDb :=
  { t with db := t.db.map fun d => d.apply t.batch, batch := [] }

/-- What is run in a batch is run, and its writes are then made; where it raises they are not. -/
theorem sat_writeBatch {α : Type} {block : PeerDbM α} {Q : α → PeerDb → Prop}
    {E : PeerDbError → PeerDb → Prop} (ht : t.batch = []) :
    Sat (writeBatch block) t Q E ↔
      Sat block t (fun a t' => Q a t'.written) fun e t' => E e { t' with batch := [] } := by
  have hself : { t with batch := [] } = t := by rw [← ht]
  unfold writeBatch Sat
  dsimp only
  rw [hself]
  cases block t <;> exact Iff.rfl

theorem Memory.written (hm : t.Memory c A) : t.written.Memory c A := by
  refine { hm with stats := ?_ }
  intro hdb
  apply hm.stats
  unfold PeerDb.written at hdb
  rw [Option.isSome_map] at hdb
  exact hdb

theorem Stored.written {R : RowKind → Endpoint → Option Bytes} (ht : t.Stored c R) :
    t.written.Stored c R := by
  intro d hd
  obtain ⟨d', hd', rfl⟩ := Option.map_eq_some_iff.mp hd
  obtain ⟨hholds, hkey⟩ := ht d' hd'
  refine ⟨hholds, ?_⟩
  rw [PeerStore.bucketKey_apply]
  exact hkey

/-- **A block that lets nothing into the tried table or out of it.** -/
structure Quiet (t : PeerDb) (A : Addrman) (t' : PeerDb) (A' : Addrman) : Prop where
  left : A.SameLeft A'
  bucketKey : t'.bucketKey = t.bucketKey
  store : t'.db.isSome = t.db.isSome
  stats : ∀ e, t'.stats e = t.stats e ∨ t'.stats e = none
  collisions : ∀ e ∈ t'.collisions,
    e ∈ t.collisions ∧ t'.stats e = t.stats e ∧ ((A e).isSome → (A' e).isSome)

theorem Quiet.refl (t : PeerDb) (A : Addrman) : Quiet t A t A :=
  ⟨.refl A, rfl, rfl, fun _ => .inl rfl, fun _ he => ⟨he, rfl, id⟩⟩

theorem Quiet.trans {t'' : PeerDb} {A'' : Addrman} (h : Quiet t A t' A')
    (h' : Quiet t' A' t'' A'') : Quiet t A t'' A'' := by
  refine ⟨h.left.trans h'.left, h'.bucketKey.trans h.bucketKey, h'.store.trans h.store, ?_, ?_⟩
  · intro e
    rcases h'.stats e with hsame | hnone
    · rw [hsame]
      exact h.stats e
    · exact .inr hnone
  · intro e he
    obtain ⟨he', hstats', hknown'⟩ := h'.collisions e he
    obtain ⟨he, hstats, hknown⟩ := h.collisions e he'
    exact ⟨he, hstats'.trans hstats, fun hsome => hknown' (hknown hsome)⟩

/-- Steps of the new table whose batch is written. -/
theorem NewStep.written (ht : t.Represents c A) (h : NewStep c t A t' A') :
    t'.written.Represents c A' ∧ Quiet t A t'.written A' := by
  refine ⟨⟨h.sound, h.memory.written, (h.stored_records ht.stored).written, rfl⟩, h.left,
    h.bucketKey, ?_, h.stats, h.collisions⟩
  show (t'.db.map _).isSome = _
  rw [Option.isSome_map, h.db]

/-- `add_addresses` under `_addresses_lock`. -/
theorem addKnown_sat (hc : c.Lawful) (ht : t.Represents c A) (g : Gossips) :
    Sat (addKnown c g) t (fun _ t' => ∃ A', t'.Represents c A' ∧ Quiet t A t' A')
      fun _ _ => False := by
  unfold addKnown
  rw [sat_writeBatch ht.batch]
  refine (addLoop_step hc g g.addresses t A [] 0 ht.sound ht.memory).mono ?_ fun _ _ h => h
  rintro _ t' ⟨A', hstep⟩
  exact ⟨A', hstep.written ht⟩

/-- `set_services` under `_addresses_lock`. -/
theorem setKnownServices_sat (hc : c.Lawful) (ht : t.Represents c A) (address : NetworkAddress)
    (services : ℕ) :
    Sat (setKnownServices c address services) t
      (fun _ t' => ∃ A', t'.Represents c A' ∧ Quiet t A t' A') fun _ _ => False := by
  unfold setKnownServices
  rw [sat_writeBatch ht.batch, sat_bind, sat_get]
  cases hrows : t.rows address.endpoint with
  | none => exact ⟨A, (NewStep.refl ht.sound ht.memory).written ht⟩
  | some existing =>
    obtain ⟨entry, he, rfl⟩ : ∃ entry, A address.endpoint = some entry ∧ entry.row = existing := by
      rw [ht.memory.rows] at hrows
      exact Option.map_eq_some_iff.mp hrows
    have hend : ({ entry.row with services := services } : NetworkAddress).endpoint =
        address.endpoint := Sound.of_row ht.sound he
    have hm₁ := ht.memory.update hc (ht.memory.updates_row hc he (Sound.of_row ht.sound he) hend)
    have hA₁ : Addrman.Sound c (t.replaced address.endpoint entry.row
        { entry.row with services := services }).bucketKey _ := Sound.row ht.sound he hend
    have hstep := newStep_row hc he (NewStep.refl hA₁ hm₁) (by
      rw [Function.update_self]
      rfl)
    dsimp only
    rw [sat_bind_of_ok (replaceRow_eq _ _), sat_bind_of_ok (stage_eq _ _)]
    exact ⟨_, hstep.written ht⟩

/-! ## Answered rows -/

/-- A table with a write made past any batch. -/
def wrote (t : PeerDb) (key : Bytes) (value : Option Bytes) : PeerDb :=
  { t with db := t.db.map fun d => d.write (key, value) }

theorem putNow_eq (key : Bytes) (value : Option Bytes) :
    putNow key value t = .ok () (t.wrote key value) := rfl

theorem Memory.wrote (hm : t.Memory c A) (key : Bytes) (value : Option Bytes) :
    (t.wrote key value).Memory c A := by
  refine { hm with stats := ?_ }
  intro hdb
  apply hm.stats
  unfold PeerDb.wrote at hdb
  rw [Option.isSome_map] at hdb
  exact hdb

theorem Stored.wrote {R : RowKind → Endpoint → Option Bytes} (ht : t.Stored c R)
    (hbatch : t.batch = []) (hc : c.Lawful) (kind : RowKind) (e : Endpoint)
    (value : Option Bytes) :
    (t.wrote (c.rowKey kind e) value).Stored c (setRecord R kind e value) := by
  intro d hd
  obtain ⟨d', hd', rfl⟩ := Option.map_eq_some_iff.mp hd
  obtain ⟨hholds, hkey⟩ := ht d' hd'
  have hbatch' : (t.wrote (c.rowKey kind e) value).batch = [] := hbatch
  rw [hbatch] at hholds
  rw [hbatch']
  refine ⟨hholds.write hc kind e value, ?_⟩
  rw [PeerStore.bucketKey_write]
  exact hkey

/-- The answered row of a tried endpoint, and where it is. -/
theorem Memory.answered_at (hm : t.Memory c A) {a : NetworkAddress} {i : ℕ}
    (hi : t.activeAddresses[i]? = some a) :
    ∃ entry, A a.endpoint = some entry ∧ entry.place = .tried a :=
  (hm.activeAddresses a).mp (List.mem_of_getElem? hi)

theorem Sound.answered_fits {key : Bytes} (hA : A.Sound c key) (he : A e = some entry)
    {a : NetworkAddress} (hplace : entry.place = .tried a) :
    a.endpoint = e ∧ a.timestamp < 256 ^ 8 := by
  have hentry := (hA.entry e entry he).place
  rw [hplace] at hentry
  exact hentry

theorem Sound.answered {key : Bytes} (hA : A.Sound c key) (he : A e = some entry)
    {a row : NetworkAddress} (hplace : entry.place = .tried a) (hrow : row.endpoint = e)
    (htime : row.timestamp < 256 ^ 8) :
    Addrman.Sound c key (Function.update A e (some { entry with place := .tried row })) := by
  have hentry := hA.entry e entry he
  apply hA.update
  · intro entry' hentry'
    obtain rfl := Option.some.inj hentry'
    exact ⟨hentry.row, hentry.storable, hentry.source, hrow, htime⟩
  · intro entry' hentry' s hs
    obtain rfl := Option.some.inj hentry'
    exact absurd hs List.not_mem_nil
  · intro entry' answered hentry' hplace' e' hholds
    exact hA.tried e' e _ hholds ⟨entry, a, he, hplace, rfl⟩

theorem Memory.updates_answered (hm : t.Memory c A) (hc : c.Lawful) {a row : NetworkAddress}
    {i : ℕ} (hi : t.activeAddresses[i]? = some a) (he : A a.endpoint = some entry)
    (hplace : entry.place = .tried a) (hrow : row.endpoint = a.endpoint) :
    Updates c t { t with activeAddresses := t.activeAddresses.set i row } a.endpoint
      (some { entry with place := .tried row }) := by
  have hu := hm.updates hc a.endpoint
  rw [he] at hu
  have hkey : c.endpointKey row.endpoint = c.endpointKey a.endpoint := by rw [hrow]
  have hgroups : entry.groups = [] := by
    unfold Entry.groups
    rw [hplace]
  refine ⟨rfl, hu.rows, hu.source, hu.addresses, hu.knownKeys, ?_, ?_, ?_, ?_, hu.triedOccupant,
    ?_, ?_, hu.stats⟩
  · show t.slots = _
    have hslots := hm.slots_of_left he (Entry.hasLeft_of_tried hplace)
    show t.slots = Function.update t.slots a.endpoint none
    rw [← hslots, Function.update_eq_self]
  · intro slot e'
    show t.occupant slot = some e' ↔ _
    rw [hu.occupant slot e']
    by_cases hsame : e' = a.endpoint
    · rw [if_pos hsame, if_pos hsame, exists_some, exists_some, hgroups]
      exact Iff.rfl
    · rw [if_neg hsame, if_neg hsame]
  · intro e'
    show e' ∈ t.triedEndpoints ↔ _
    rw [hu.triedEndpoints e']
    by_cases hsame : e' = a.endpoint
    · rw [if_pos hsame, if_pos hsame, exists_some, exists_some]
      exact iff_of_true (Entry.hasLeft_of_tried hplace) (Entry.hasLeft_of_tried rfl)
    · rw [if_neg hsame, if_neg hsame]
  · have hslot := hu.triedSlotOf
    rw [Option.bind_some, Entry.answered_of_place hplace] at hslot
    exact hslot
  · intro x
    show x ∈ t.activeAddresses.set i row ↔ _
    rw [hm.activeIndex.mem_set hi hkey]
    by_cases hsame : x.endpoint = a.endpoint
    · have hkeys : c.endpointKey x.endpoint = c.endpointKey row.endpoint := by rw [hsame, hrow]
      rw [if_pos hkeys, if_pos hsame, exists_some]
      constructor
      · rintro rfl
        rfl
      · intro hx
        exact (Place.tried.inj hx).symm
    · have hkeys : c.endpointKey x.endpoint ≠ c.endpointKey row.endpoint := by
        intro h
        exact hsame ((c.endpointKey_inj hc h).trans hrow)
      rw [if_neg hkeys, if_neg hsame]
  · exact hm.activeIndex.set hi hkey

/-- **The answered row of a tried endpoint is replaced**, in the store too. -/
theorem setAnswered_sat (hc : c.Lawful) (ht : t.Represents c A) {a row : NetworkAddress} {i : ℕ}
    (hi : t.activeAddresses[i]? = some a) (hrow : row.endpoint = a.endpoint)
    (htime : row.timestamp < 256 ^ 8) :
    Sat (setAnswered c i row) t (fun _ t' => (∃ A', t'.Represents c A' ∧ Quiet t A t' A') ∧
      t'.rows = t.rows ∧ t'.stats = t.stats) fun _ _ => False := by
  obtain ⟨entry, he, hplace⟩ := ht.memory.answered_at hi
  have hm' := ht.memory.update hc (ht.memory.updates_answered hc hi he hplace hrow)
  have hstored : PeerDb.Stored c { t with activeAddresses := t.activeAddresses.set i row }
      (A.records c) := ht.stored
  unfold setAnswered
  rw [sat_bind, sat_get, if_pos (List.getElem?_eq_some_iff.mp hi).1]
  have hsound : Addrman.Sound c t.bucketKey _ := Sound.answered ht.sound he hplace hrow htime
  refine ⟨⟨_, ⟨hsound, hm'.wrote _ _, ?_, ht.batch⟩, ?_⟩, rfl, rfl⟩
  · rw [hrow]
    refine (hstored.wrote ht.batch hc .answered a.endpoint _).congr ?_
    intro kind e' hstats
    have hfollows : Addrman.Follows c (A.records c)
        (setRecord (A.records c) .answered a.endpoint (some (c.serialize row))) A
        (Function.update A a.endpoint (some { entry with place := .tried row })) := by
      apply Addrman.follows_update
      · intro kind e' hne
        exact setRecord_of_ne hne _ _ _
      · intro kind hstats
        cases kind with
        | known =>
          rw [setRecord_of_kind (by decide)]
          refine .inr ⟨rfl, ?_⟩
          unfold Addrman.records
          rw [he]
          rfl
        | answered =>
          rw [setRecord_self]
          exact .inl rfl
        | source =>
          rw [setRecord_of_kind (by decide)]
          refine .inr ⟨rfl, ?_⟩
          unfold Addrman.records
          rw [he]
          show some (packGroups (entry.source :: [])) = some (packGroups (_ :: entry.groups))
          unfold Entry.groups
          rw [hplace]
        | stats => exact absurd rfl hstats
    exact hfollows.records kind e' hstats
  · refine ⟨?_, rfl, Option.isSome_map .., fun _ => .inl rfl, ?_⟩
    · constructor
      · intro e'
        unfold Addrman.Tried
        by_cases hsame : e' = a.endpoint
        · rw [hsame, Function.update_self, he]
          apply iff_of_true
          · exact ⟨_, row, rfl, rfl⟩
          · exact ⟨entry, a, rfl, hplace⟩
        · rw [Function.update_of_ne hsame]
      · intro e'
        unfold Addrman.Moving
        by_cases hsame : e' = a.endpoint
        · rw [hsame, Function.update_self, he, exists_some, exists_some, hplace]
          exact iff_of_false nofun nofun
        · rw [Function.update_of_ne hsame]
    · intro e' he'
      refine ⟨he', rfl, ?_⟩
      intro hsome
      by_cases hsame : e' = a.endpoint
      · rw [hsame, Function.update_self]
        rfl
      · rw [Function.update_of_ne hsame]
        exact hsome

/-- The services of an answered row are written, where there is one. -/
theorem updateAnswered_sat (hc : c.Lawful) (ht : t.Represents c A) (key : Bytes)
    (update : ℕ → ℕ) :
    Sat (updateAnswered c key update) t (fun _ t' => ∃ A', t'.Represents c A' ∧ Quiet t A t' A')
      fun _ _ => False := by
  unfold updateAnswered
  rw [sat_bind, sat_get]
  cases hposition : t.activeIndex key with
  | none => exact ⟨A, ht, .refl t A⟩
  | some position =>
    obtain ⟨a, ha, -⟩ := (ht.memory.activeIndex key position).mp hposition
    dsimp only
    rw [ha]
    have hend : ({ a with services := update a.services } : NetworkAddress).endpoint =
        a.endpoint := rfl
    have htime : a.timestamp < 256 ^ 8 := by
      obtain ⟨entry, he, hplace⟩ := ht.memory.answered_at ha
      exact (Sound.answered_fits ht.sound he hplace).2
    exact (setAnswered_sat hc ht ha hend htime).mono (fun _ _ h => h.1) fun _ _ h => h

/-- `add_addresses` under `_active_lock`. -/
theorem addAnswered_sat (hc : c.Lawful) (gossiped : List (Bytes × ℕ)) :
    ∀ (t : PeerDb) (A : Addrman), t.Represents c A →
      Sat (addAnswered c gossiped) t (fun _ t' => ∃ A', t'.Represents c A' ∧ Quiet t A t' A')
        fun _ _ => False := by
  induction gossiped with
  | nil => exact fun t A ht => ⟨A, ht, .refl t A⟩
  | cons entry gossiped ih =>
    intro t A ht
    unfold addAnswered
    rw [sat_bind]
    refine (updateAnswered_sat hc ht _ _).mono ?_ fun _ _ h => h
    rintro _ t₁ ⟨A₁, ht₁, hquiet⟩
    refine (ih t₁ A₁ ht₁).mono ?_ fun _ _ h => h
    rintro _ t₂ ⟨A₂, ht₂, hquiet'⟩
    exact ⟨A₂, ht₂, hquiet.trans hquiet'⟩

/-- **`add_addresses`** returns, and keeps the tables. -/
theorem addAddresses_sat (hc : c.Lawful) (ht : t.Represents c A) (g : Gossips) :
    Sat (addAddresses c g) t (fun _ t' => ∃ A', t'.Represents c A' ∧ Quiet t A t' A')
      fun _ _ => False := by
  unfold addAddresses
  rw [sat_bind]
  refine (addKnown_sat hc ht g).mono ?_ fun _ _ h => h
  rintro ⟨gossiped, added⟩ t₁ ⟨A₁, ht₁, hquiet⟩
  dsimp only
  rw [sat_bind]
  refine (addAnswered_sat hc gossiped t₁ A₁ ht₁).mono ?_ fun _ _ h => h
  rintro _ t₂ ⟨A₂, ht₂, hquiet'⟩
  exact ⟨A₂, ht₂, hquiet.trans hquiet'⟩

/-- **`set_services`** returns, and keeps the tables. -/
theorem setServices_sat (hc : c.Lawful) (ht : t.Represents c A) (address : NetworkAddress)
    (services : ℕ) :
    Sat (setServices c address services) t
      (fun _ t' => ∃ A', t'.Represents c A' ∧ Quiet t A t' A') fun _ _ => False := by
  unfold setServices
  rw [sat_bind]
  refine (setKnownServices_sat hc ht address services).mono ?_ fun _ _ h => h
  rintro held t₁ ⟨A₁, ht₁, hquiet⟩
  cases held with
  | false => exact ⟨A₁, ht₁, hquiet⟩
  | true =>
    rw [if_pos rfl]
    refine (updateAnswered_sat hc ht₁ _ _).mono ?_ fun _ _ h => h
    rintro _ t₂ ⟨A₂, ht₂, hquiet'⟩
    exact ⟨A₂, ht₂, hquiet.trans hquiet'⟩

/-! ## Tries -/

theorem sat_littleBytes {n : ℤ} {size : ℕ} {Q : Bytes → PeerDb → Prop}
    {E : PeerDbError → PeerDb → Prop} (hfits : 0 ≤ n ∧ n < 256 ^ size → ∀ bytes, Q bytes t)
    (hbad : ¬ (0 ≤ n ∧ n < 256 ^ size) → E .overflow t) : Sat (littleBytes n size) t Q E := by
  unfold littleBytes
  by_cases hn : 0 ≤ n ∧ n < 256 ^ size
  · rw [if_pos hn]
    exact hfits hn _
  · rw [if_neg hn]
    exact hbad hn

/-- The stats of an endpoint are written, or deleted; they are too large or they fit. -/
theorem putStats_sat (he : t.db.isSome → t.rows e = some entry.row ∧ entry.row.endpoint = e)
    (stats : Stats) (hstats : t.db.isSome → t.stats e = some stats) :
    Sat (putStats c e) t
      (fun _ t' => (t.db.isSome → stats.attempts ≠ 0 → stats.Fits) ∧
        ∃ value, t' = t.staged (c.rowKey .stats e) value)
      fun err _ => err = .overflow ∧ t.db.isSome ∧ ¬ stats.Fits := by
  unfold putStats
  rw [sat_bind, sat_get]
  by_cases hdb : t.db.isSome = true
  · obtain ⟨hrow, hend⟩ := he hdb
    rw [if_pos hdb, hstats hdb, sat_bind_of_ok lookup_some, hrow, sat_bind_of_ok lookup_some,
      hend]
    dsimp only
    split
    · rw [sat_bind]
      apply sat_littleBytes
      · intro hsuccess success
        -- a count that is not opened, as the store's bound is a large numeral
        generalize hn : (stats.attempts : ℤ) = n
        rw [sat_bind]
        apply sat_littleBytes
        · intro hattempts attempts
          rw [sat_of_ok (stage_eq _ _)]
          refine ⟨fun _ _ => ⟨hsuccess, ?_⟩, _, rfl⟩
          rw [← hn] at hattempts
          exact Int.ofNat_lt.mp hattempts.2
        · intro hbad
          rw [← hn] at hbad
          refine ⟨rfl, hdb, fun hfits => hbad ⟨Int.natCast_nonneg _, ?_⟩⟩
          exact Int.ofNat_lt.mpr hfits.2
      · intro hbad
        exact ⟨rfl, hdb, fun hfits => hbad hfits.1⟩
    · rename_i hzero
      rw [sat_of_ok (stage_eq _ _)]
      exact ⟨fun _ hne => absurd (.inl hne) hzero, _, rfl⟩
  · rw [if_neg hdb]
    refine ⟨fun h => absurd h hdb, none, ?_⟩
    unfold PeerDb.staged
    rw [if_neg hdb]

/-- Where a table has a store, its stats fit there. -/
def StatsFit (t : PeerDb) : Prop :=
  t.db.isSome → ∀ e stats, t.stats e = some stats → stats.Fits

theorem Stats.fits_fresh : Stats.fresh.Fits := by
  unfold Stats.Fits Stats.fresh truncate
  decide +kernel

/-- The stats an attempt that counts makes of those there are. -/
def countedStats (t : PeerDb) (e : Endpoint) (now : ℚ) : Stats :=
  let entry := (t.stats e).getD .fresh
  { entry with lastCountAttempt := now, attempts := entry.attempts + 1 }

/-- A block that changes no entry. -/
structure SameTables (t t' : PeerDb) : Prop where
  bucketKey : t'.bucketKey = t.bucketKey
  store : t'.db.isSome = t.db.isSome
  stats : ∀ e, (t.stats e).isSome → (t'.stats e).isSome
  collisions : t'.collisions = t.collisions
  fit : t.StatsFit → t'.StatsFit

/-- A table where an endpoint has other stats. -/
def tries (t : PeerDb) (lastTry : Bytes → Option ℚ) (e : Endpoint) (stats : Stats) : PeerDb :=
  { t with lastTry := lastTry, stats := Function.update t.stats e (some stats) }

theorem isSome_update {α : Type} {f : Endpoint → Option α} {a : α} {e' : Endpoint}
    (h : (f e').isSome) : (Function.update f e (some a) e').isSome := by
  by_cases hsame : e' = e
  · rw [hsame, Function.update_self]
    rfl
  · rw [Function.update_of_ne hsame]
    exact h

theorem Memory.tries (hm : t.Memory c A) (lastTry : Bytes → Option ℚ) (e : Endpoint)
    (stats : Stats) : (t.tries lastTry e stats).Memory c A := by
  refine { hm with stats := ?_ }
  intro hdb e' he'
  exact isSome_update (hm.stats hdb e' he')

theorem StatsFit.tries (hfit : t.StatsFit) (lastTry : Bytes → Option ℚ) (e : Endpoint)
    {stats : Stats} (hstats : t.db.isSome → stats.Fits) : (t.tries lastTry e stats).StatsFit := by
  intro hdb e' stats' hstats'
  have hupdate : Function.update t.stats e (some stats) e' = some stats' := hstats'
  by_cases hsame : e' = e
  · rw [hsame, Function.update_self] at hupdate
    obtain rfl := Option.some.inj hupdate
    exact hstats hdb
  · rw [Function.update_of_ne hsame] at hupdate
    exact hfit hdb e' stats' hupdate

/-- Stats written in a batch. -/
theorem written_stats (hc : c.Lawful) (ht : t.Represents c A) (hm : t'.Memory c A)
    (hkey : t'.bucketKey = t.bucketKey) (hdb : t'.db = t.db) (hbatch : t'.batch = [])
    (value : Option Bytes) : (t'.staged (c.rowKey .stats e) value).written.Represents c A := by
  have hstored : t'.Stored c (A.records c) := by
    intro d hd
    rw [hdb] at hd
    have h := ht.stored d hd
    rw [ht.batch] at h
    rw [hbatch, hkey]
    exact h
  refine ⟨?_, (hm.staged _ _).written, (Stored.congr (hstored.staged hc .stats e value) ?_).written,
    rfl⟩
  · show A.Sound c t'.bucketKey
    rw [hkey]
    exact ht.sound
  · intro kind e' hstats
    exact setRecord_of_kind hstats e e' value

/-- **A try** keeps the tables; it raises where a count is too large for the store. -/
theorem attempt_sat (hc : c.Lawful) (ht : t.Represents c A) (address : NetworkAddress)
    (countFailure : Bool) (now : ℚ) :
    Sat (attempt c address countFailure now) t
      (fun _ t' => t'.Represents c A ∧ SameTables t t')
      fun err _ => err = .overflow ∧ countFailure = true ∧ t.db.isSome ∧
        ¬ (countedStats t address.endpoint now).Fits := by
  unfold attempt
  rw [sat_writeBatch ht.batch]
  dsimp only
  rw [sat_bind, sat_get]
  by_cases hknown : (t.rows address.endpoint).isNone = true
  · rw [if_pos hknown]
    obtain ⟨h, hq⟩ := (NewStep.refl ht.sound ht.memory).written ht
    refine ⟨h, rfl, hq.store, fun _ => id, rfl, ?_⟩
    intro hfit hdb
    exact hfit (hq.store ▸ hdb)
  · rw [if_neg hknown, sat_bind, sat_modify, sat_bind, sat_get, sat_bind, sat_modify, sat_bind,
      sat_get]
    -- the tries that are kept, and the stats there are
    generalize hlast : Function.update (fun key => (t.lastTry key).filter fun tried =>
      decide (now - tried < addrmanReplacement)) (c.endpointKey address.endpoint) (some now) = last
    dsimp only
    generalize hstats : (t.stats address.endpoint).getD .fresh = stats
    have hcounted : countedStats t address.endpoint now =
        { stats with lastCountAttempt := now, attempts := stats.attempts + 1 } := by
      unfold countedStats
      rw [hstats]
    have hfits : t.StatsFit → t.db.isSome → stats.Fits := by
      intro hfit hdb
      rw [← hstats]
      cases hheld : t.stats address.endpoint with
      | none => exact Stats.fits_fresh
      | some held => exact hfit hdb _ _ hheld
    have hm₁ := ht.memory.tries last address.endpoint stats
    show Sat (if _ then _ else _) (t.tries last address.endpoint stats) _ _
    split
    · rename_i hcount
      rw [sat_bind, sat_modify]
      show Sat (putStats c address.endpoint)
        ((t.tries last address.endpoint stats).tries last address.endpoint _) _ _
      rw [← hcounted]
      obtain ⟨entry, he⟩ : ∃ entry, A address.endpoint = some entry := by
        rw [Option.isNone_iff_eq_none, ht.memory.none_iff] at hknown
        exact Option.ne_none_iff_exists'.mp hknown
      have hm₂ := hm₁.tries last address.endpoint (countedStats t address.endpoint now)
      refine (putStats_sat (fun _ => ⟨hm₂.rows_of he, Sound.of_row ht.sound he⟩)
        (countedStats t address.endpoint now) fun _ => Function.update_self ..).mono ?_ ?_
      · rintro _ t₂ ⟨hput, value, rfl⟩
        refine ⟨written_stats hc ht hm₂ rfl rfl ht.batch value, rfl, Option.isSome_map .., ?_, rfl,
          ?_⟩
        · intro e' hsome
          exact isSome_update (isSome_update hsome)
        · intro hfit
          have hput' : t.db.isSome → (countedStats t address.endpoint now).Fits := by
            intro hdb
            apply hput hdb
            rw [hcounted]
            exact Nat.succ_ne_zero _
          have hfit₂ := (hfit.tries last address.endpoint (hfits hfit)).tries last
            address.endpoint hput'
          intro hdb
          apply hfit₂
          rw [← hdb]
          exact (Option.isSome_map ..).symm
      · rintro _ _ ⟨rfl, hdb, hbad⟩
        exact ⟨rfl, hcount.1, hdb, hbad⟩
    · refine ⟨⟨ht.sound, hm₁.written, ?_, rfl⟩, rfl, Option.isSome_map .., ?_, rfl, ?_⟩
      · have hstored : (t.tries last address.endpoint stats).Stored c (A.records c) := ht.stored
        exact hstored.written
      · intro e' hsome
        exact isSome_update hsome
      · intro hfit hdb
        apply hfit.tries last address.endpoint (hfits hfit)
        rw [← hdb]
        exact (Option.isSome_map ..).symm

end PeerDb

end BtclibNode
