/-
# Moves between the tables

A handshake takes an endpoint from the new table to its slot of the tried table, and what held
the slot goes back to the new table.
-/
import Mathlib
import BtclibNode.PeerDb.Gossip

namespace BtclibNode

open StateExcept

variable {c : AddressCode} {t t' : PeerDb} {A A' : Addrman} {e : Endpoint} {entry : Entry}
  {slot : Slot}

namespace PeerDb

/-! ## Leaving the new table -/

theorem vacate_eq : ∀ (slots : List Slot) (t : PeerDb), slots.Nodup →
    (∀ s ∈ slots, (t.occupant s).isSome) →
    vacate slots t =
      .ok () { t with occupant := fun s => if s ∈ slots then none else t.occupant s } := by
  intro slots
  induction slots with
  | nil =>
    intro t _ _
    have hself : (fun s => if s ∈ ([] : List Slot) then none else t.occupant s) = t.occupant := by
      funext s
      rw [if_neg List.not_mem_nil]
    rw [hself]
    rfl
  | cons slot slots ih =>
    intro t hnodup hheld
    obtain ⟨hslot, hnodup⟩ := List.nodup_cons.mp hnodup
    obtain ⟨holder, hholder⟩ := Option.isSome_iff_exists.mp (hheld slot List.mem_cons_self)
    apply Sat.eq_ok
    unfold vacate
    rw [sat_bind, sat_get, hholder, sat_bind_of_ok lookup_some, sat_bind, sat_modify]
    have hrest : ∀ s ∈ slots, (Function.update t.occupant slot none s).isSome := by
      intro s hs
      rw [Function.update_of_ne]
      · exact hheld s (List.mem_cons_of_mem _ hs)
      · rintro rfl
        exact hslot hs
    rw [sat_of_ok (ih _ hnodup hrest)]
    refine ⟨rfl, ?_⟩
    have hfun : (fun s => if s ∈ slots then none else Function.update t.occupant slot none s) =
        fun s => if s ∈ slot :: slots then none else t.occupant s := by
      funext s
      by_cases hs : s = slot
      · rw [hs, if_neg hslot, Function.update_self, if_pos List.mem_cons_self]
      · rw [Function.update_of_ne hs]
        simp [hs]
    rw [← hfun]

section

attribute [local instance] lawfulBEq_slot

/-- A table where an endpoint is in neither table's slots, and is counted as tried. -/
def leaving (t : PeerDb) (e : Endpoint) (slots : List Slot) : PeerDb :=
  { t with
    slots := Function.update t.slots e none
    occupant := fun s => if s ∈ slots then none else t.occupant s
    triedEndpoints := insert e t.triedEndpoints
    collisions := t.collisions.erase e }

end

theorem Memory.updates_leaving (hm : t.Memory c A) (hc : c.Lawful) (he : A e = some entry)
    (hnew : ¬ entry.HasLeft) (hstats : t.db.isSome → (t.stats e).isSome)
    (hA : A.Sound c t.bucketKey) :
    Updates c t (t.leaving e (entry.groups.map (c.newSlot t.bucketKey e))) e
      (some { entry with place := .moving }) := by
  have hu := hm.updates hc e
  rw [he] at hu
  refine ⟨rfl, hu.rows, hu.source, hu.addresses, hu.knownKeys, rfl, ?_, ?_, ?_, hu.triedOccupant,
    ?_, hu.activeIndex, ?_⟩
  · intro s e'
    show (if s ∈ entry.groups.map (c.newSlot t.bucketKey e) then none else t.occupant s) =
      some e' ↔ _
    by_cases hs : s ∈ entry.groups.map (c.newSlot t.bucketKey e)
    · rw [if_pos hs]
      apply iff_of_false nofun
      by_cases hsame : e' = e
      · rw [if_pos hsame, exists_some]
        exact List.not_mem_nil
      · rw [if_neg hsame, hm.occupant]
        intro hholds
        exact hsame (hA.new e' e s hholds ⟨entry, he, hs⟩)
    · rw [if_neg hs, hu.occupant s e']
      by_cases hsame : e' = e
      · rw [if_pos hsame, if_pos hsame, exists_some, exists_some]
        exact iff_of_false hs List.not_mem_nil
      · rw [if_neg hsame, if_neg hsame]
  · intro e'
    show e' ∈ insert e t.triedEndpoints ↔ _
    rw [Finset.mem_insert]
    by_cases hsame : e' = e
    · rw [if_pos hsame, exists_some]
      exact iff_of_true (.inl hsame) (Entry.hasLeft_of_moving rfl)
    · rw [if_neg hsame]
      exact or_iff_right hsame
  · have hslot := hu.triedSlotOf
    rw [Option.bind_some, Entry.answered_of_not_hasLeft hnew] at hslot
    exact hslot
  · intro a
    show a ∈ t.activeAddresses ↔ _
    rw [hu.activeAddresses a]
    by_cases hsame : a.endpoint = e
    · rw [if_pos hsame, if_pos hsame, exists_some, exists_some]
      apply iff_of_false
      · exact fun hplace => hnew (Entry.hasLeft_of_tried hplace)
      · exact nofun
    · rw [if_neg hsame, if_neg hsame]
  · intro hdb e' he'
    show (t.stats e').isSome
    rcases Finset.mem_insert.mp he' with rfl | he'
    · exact hstats hdb
    · exact hm.stats hdb e' he'

/-- What a block of a move leaves as it is. -/
structure Frame (t t' : PeerDb) : Prop where
  bucketKey : t'.bucketKey = t.bucketKey
  store : t'.db.isSome = t.db.isSome
  stats : ∀ e, t'.stats e = t.stats e ∨ t'.stats e = none

/-- An entry out of both tables is well formed. -/
theorem Sound.moving {key : Bytes} (hA : A.Sound c key) (he : A e = some entry) :
    Addrman.Sound c key (Function.update A e (some { entry with place := .moving })) := by
  have hentry := hA.entry e entry he
  apply hA.update
  · intro entry' hentry'
    obtain rfl := Option.some.inj hentry'
    exact ⟨hentry.row, hentry.storable, hentry.source, trivial⟩
  · intro entry' hentry' s hs
    obtain rfl := Option.some.inj hentry'
    exact absurd hs List.not_mem_nil
  · intro entry' answered hentry' hplace
    obtain rfl := Option.some.inj hentry'
    cases hplace

/-- **`_make_tried` under `_addresses_lock`**: the endpoint is on its way. -/
theorem leaveNew_sat (hc : c.Lawful) (ht : t.Represents c A) (he : A e = some entry)
    (hnew : ¬ entry.HasLeft) {stats : Stats} (hstats : t.db.isSome → t.stats e = some stats) :
    Sat (leaveNew c e) t
      (fun _ t' => t'.Represents c (Function.update A e (some { entry with place := .moving })) ∧
        Frame t t' ∧ t'.stats = t.stats ∧ t'.collisions = t.collisions.erase e)
      fun err _ => err = .overflow ∧ t.db.isSome ∧ ¬ stats.Fits := by
  have hplace := Entry.place_of_not_hasLeft hnew
  have hentry := ht.sound.entry e entry he
  have hgroups := hentry.place
  rw [hplace] at hgroups
  have hsome : t.db.isSome → (t.stats e).isSome := by
    intro hdb
    rw [hstats hdb]
    rfl
  have hm' := ht.memory.update hc (ht.memory.updates_leaving hc he hnew hsome ht.sound)
  have hsound := Sound.moving ht.sound he
  have hself : Function.update A e (some { entry with place := .moving }) e =
      some { entry with place := .moving } := Function.update_self ..
  have hmap : (entry.groups.map fun group => (c.newSlot t.bucketKey e group, group)).map Prod.fst =
      entry.groups.map (c.newSlot t.bucketKey e) := by
    rw [List.map_map]
    rfl
  have hheld : ∀ s ∈ entry.groups.map (c.newSlot t.bucketKey e), (t.occupant s).isSome := by
    intro s hs
    rw [(ht.memory.occupant s e).mpr ⟨entry, he, hs⟩]
    rfl
  unfold leaveNew
  rw [sat_writeBatch ht.batch, sat_bind, sat_get, ht.memory.slots_of_new he hplace, sat_bind,
    sat_modify, Option.getD_some, hmap, sat_bind_of_ok (vacate_eq _
      { t with slots := Function.update t.slots e none } hgroups.2.2.1 hheld), sat_bind,
    sat_modify]
  show Sat _ (t.leaving e (entry.groups.map (c.newSlot t.bucketKey e))) _ _
  rw [sat_bind_of_ok (putSources_eq hm' hself (hsound.entry e _ hself))]
  have hm₁ := hm'.staged (c.rowKey .source e)
    (Entry.record c .source { entry with place := .moving })
  refine (putStats_sat (fun _ => ⟨hm₁.rows_of hself, hentry.row⟩) stats hstats).mono ?_ ?_
  · rintro _ t₂ ⟨-, value, rfl⟩
    refine ⟨⟨hsound, (hm₁.staged _ _).written, ?_, rfl⟩,
      ⟨rfl, Option.isSome_map .., fun _ => .inl rfl⟩, rfl, rfl⟩
    have hstored : (t.leaving e (entry.groups.map (c.newSlot t.bucketKey e))).Stored c
        (A.records c) := ht.stored
    refine (Stored.congr ((hstored.staged hc .source e _).staged hc .stats e value) ?_).written
    have hfollows : Addrman.Follows c (A.records c)
        (setRecord (A.records c) .source e (some (packGroups [entry.source]))) A
        (Function.update A e (some { entry with place := .moving })) := by
      apply Addrman.follows_update
      · intro kind e' hne
        exact setRecord_of_ne hne _ _ _
      · intro kind hstats
        cases kind with
        | known =>
          rw [setRecord_of_kind (by decide)]
          refine .inr ⟨rfl, ?_⟩
          unfold Addrman.records
          rw [he]
          rfl
        | answered =>
          rw [setRecord_of_kind (by decide)]
          refine .inr ⟨rfl, ?_⟩
          unfold Addrman.records
          rw [he]
          show none = entry.answered.map c.serialize
          rw [Entry.answered_of_not_hasLeft hnew]
          rfl
        | source =>
          rw [setRecord_self]
          exact .inl rfl
        | stats => exact absurd rfl hstats
    intro kind e' hkind
    rw [setRecord_of_kind hkind]
    exact hfollows.records kind e' hkind
  · rintro _ _ ⟨rfl, hdb, hbad⟩
    exact ⟨rfl, hdb, hbad⟩

/-! ## The tried table -/

/-- A table with another tried table. -/
def retried (t : PeerDb) (rows : List NetworkAddress) (index : Bytes → Option ℕ)
    (slotOf : Bytes → Option Slot) (occupant : Slot → Option Bytes) : PeerDb :=
  { t with
    activeAddresses := rows
    activeIndex := index
    triedSlotOf := slotOf
    triedOccupant := occupant }

theorem triedInsert_eq (key : Bytes) (row : NetworkAddress) (slot : Slot) :
    triedInsert key row slot t = .ok () (t.retried (t.activeAddresses ++ [row])
      (Function.update t.activeIndex key (some t.activeAddresses.length))
      (Function.update t.triedSlotOf key (some slot))
      (Function.update t.triedOccupant slot (some key))) := rfl

/-- The row of a key is taken out of the tried table, wherever it is. -/
theorem triedRemove_sat {key : Bytes} {i : ℕ} {a : NetworkAddress} {holder : Bytes}
    (hindex : Positions.Indexes (fun a => c.endpointKey a.endpoint) t.activeAddresses
      t.activeIndex)
    (hi : t.activeAddresses[i]? = some a) (hkey : c.endpointKey a.endpoint = key)
    (hslot : t.triedSlotOf key = some slot) (hholder : t.triedOccupant slot = some holder) :
    Sat (triedRemove c key) t
      (fun removed t' => removed = a ∧ ∃ rows index,
        t' = t.retried rows index (Function.update t.triedSlotOf key none)
          (Function.update t.triedOccupant slot none) ∧
        Positions.Indexes (fun a => c.endpointKey a.endpoint) rows index ∧
        ∀ x, x ∈ rows ↔ c.endpointKey x.endpoint ≠ key ∧ x ∈ t.activeAddresses)
      fun _ _ => False := by
  subst hkey
  have hat : t.activeIndex (c.endpointKey a.endpoint) = some i := hindex.at hi
  obtain ⟨last, hlast⟩ : ∃ last, t.activeAddresses.getLast? = some last := by
    apply Option.ne_none_iff_exists'.mp
    rw [ne_eq, List.getLast?_eq_none_iff]
    rintro hnil
    rw [hnil] at hi
    cases hi
  unfold triedRemove
  rw [sat_bind, sat_get, hat, sat_bind_of_ok lookup_some, sat_bind, sat_modify, sat_bind, sat_get]
  dsimp only
  rw [hlast]
  dsimp only
  rw [sat_bind, sat_modify, sat_bind, sat_get]
  dsimp only
  cases hfront : t.activeAddresses.dropLast[i]? with
  | some removed =>
    have hsame : removed = a := by
      rw [Positions.eq_dropLast_append hlast,
        List.getElem?_append_left (List.getElem?_eq_some_iff.mp hfront).1, hfront] at hi
      exact Option.some.inj hi
    subst hsame
    dsimp only
    rw [sat_bind]
    show Sat _ (t.retried (t.activeAddresses.dropLast.set i last) (Function.update
      (Function.update t.activeIndex (c.endpointKey removed.endpoint) none)
      (c.endpointKey last.endpoint) (some i)) t.triedSlotOf t.triedOccupant) _ _
    rw [sat_bind, sat_pure, sat_bind, sat_get]
    show Sat (lookup (t.triedSlotOf _) >>= _) _ _ _
    rw [hslot, sat_bind_of_ok lookup_some, sat_bind, sat_modify, sat_bind, sat_get]
    show Sat (lookup (t.triedOccupant _) >>= _) _ _ _
    rw [hholder, sat_bind_of_ok lookup_some, sat_bind, sat_modify]
    exact ⟨rfl, _, _, rfl, hindex.swapRemove hlast hfront, hindex.mem_swapRemove hlast hfront⟩
  | none =>
    have hend : a = last := by
      have hlast' := Positions.eq_dropLast_append hlast
      have hge : t.activeAddresses.dropLast.length ≤ i := List.getElem?_eq_none_iff.mp hfront
      rw [hlast', List.getElem?_append_right hge] at hi
      exact List.mem_singleton.mp (List.mem_of_getElem? hi)
    subst hend
    rw [sat_bind, sat_pure, sat_bind, sat_get]
    show Sat (lookup (t.triedSlotOf _) >>= _) _ _ _
    rw [hslot, sat_bind_of_ok lookup_some, sat_bind, sat_modify, sat_bind, sat_get]
    show Sat (lookup (t.triedOccupant _) >>= _) _ _ _
    rw [hholder, sat_bind_of_ok lookup_some, sat_bind, sat_modify]
    exact ⟨rfl, _, _, rfl, hindex.pop hlast, hindex.mem_dropLast hlast⟩

/-- The maps where a row left the tried table. -/
theorem Memory.updates_removed (hm : t.Memory c A) (hc : c.Lawful) (he : A e = some entry)
    {a : NetworkAddress} (hplace : entry.place = .tried a) (hslot : slot = c.triedSlot t.bucketKey e)
    {rows : List NetworkAddress} {index : Bytes → Option ℕ}
    (hindex : Positions.Indexes (fun a => c.endpointKey a.endpoint) rows index)
    (hrows : ∀ x, x ∈ rows ↔ c.endpointKey x.endpoint ≠ c.endpointKey e ∧
      x ∈ t.activeAddresses) :
    Updates c t (t.retried rows index (Function.update t.triedSlotOf (c.endpointKey e) none)
      (Function.update t.triedOccupant slot none)) e (some { entry with place := .moving }) := by
  have hu := hm.updates hc e
  rw [he] at hu
  have hgroups : entry.groups = [] := by
    unfold Entry.groups
    rw [hplace]
  have hat : t.triedSlotOf (c.endpointKey e) = some slot :=
    (hm.triedSlotOf _ _).mpr ⟨e, ⟨entry, a, he, hplace, hslot⟩, rfl⟩
  have hholder : t.triedOccupant slot = some (c.endpointKey e) :=
    (hm.triedOccupant _ _).mpr hat
  refine ⟨rfl, hu.rows, hu.source, hu.addresses, hu.knownKeys, ?_, ?_, ?_, rfl, ?_, ?_, hindex,
    hu.stats⟩
  · show t.slots = Function.update t.slots e none
    have hslots := hm.slots_of_left he (Entry.hasLeft_of_tried hplace)
    rw [← hslots, Function.update_eq_self]
  · intro s e'
    show t.occupant s = some e' ↔ _
    rw [hu.occupant s e']
    by_cases hsame : e' = e
    · rw [if_pos hsame, if_pos hsame, exists_some, exists_some, hgroups]
      exact Iff.rfl
    · rw [if_neg hsame, if_neg hsame]
  · intro e'
    show e' ∈ t.triedEndpoints ↔ _
    rw [hu.triedEndpoints e']
    by_cases hsame : e' = e
    · rw [if_pos hsame, if_pos hsame, exists_some, exists_some]
      exact iff_of_true (Entry.hasLeft_of_tried hplace) (Entry.hasLeft_of_moving rfl)
    · rw [if_neg hsame, if_neg hsame]
  · intro s k
    show Function.update t.triedOccupant slot none s = some k ↔
      Function.update t.triedSlotOf (c.endpointKey e) none k = some s
    by_cases hs : s = slot
    · rw [hs, Function.update_self]
      apply iff_of_false nofun
      by_cases hk : k = c.endpointKey e
      · rw [hk, Function.update_self]
        exact nofun
      · rw [Function.update_of_ne hk, ← hm.triedOccupant, hholder]
        exact fun h => hk (Option.some.inj h).symm
    · rw [Function.update_of_ne hs, hm.triedOccupant]
      by_cases hk : k = c.endpointKey e
      · rw [hk, Function.update_self, hat]
        exact iff_of_false (fun h => hs (Option.some.inj h).symm) nofun
      · rw [Function.update_of_ne hk]
  · intro x
    show x ∈ rows ↔ _
    rw [hrows]
    by_cases hsame : x.endpoint = e
    · rw [if_pos hsame, exists_some, hsame]
      exact iff_of_false (fun h => h.1 rfl) nofun
    · rw [if_neg hsame]
      exact and_iff_right fun hkey => hsame (c.endpointKey_inj hc hkey)

/-- The maps where a row enters the tried table. -/
theorem Memory.updates_inserted (hm : t.Memory c A) (hc : c.Lawful) {row : NetworkAddress}
    (he : A row.endpoint = some entry) (hplace : entry.place = .moving)
    (hslot : slot = c.triedSlot t.bucketKey row.endpoint) (hfree : t.triedOccupant slot = none) :
    Updates c t (t.retried (t.activeAddresses ++ [row])
      (Function.update t.activeIndex (c.endpointKey row.endpoint) (some t.activeAddresses.length))
      (Function.update t.triedSlotOf (c.endpointKey row.endpoint) (some slot))
      (Function.update t.triedOccupant slot (some (c.endpointKey row.endpoint))))
      row.endpoint (some { entry with place := .tried row }) := by
  have hu := hm.updates hc row.endpoint
  rw [he] at hu
  have hleft := Entry.hasLeft_of_moving hplace
  have hgroups : entry.groups = [] := by
    unfold Entry.groups
    rw [hplace]
  have hnone : t.triedSlotOf (c.endpointKey row.endpoint) = none := by
    rw [Option.eq_none_iff_forall_ne_some]
    intro s hs
    obtain ⟨e', ⟨entry', a, he', hplace', -⟩, hkey⟩ := (hm.triedSlotOf _ _).mp hs
    rw [c.endpointKey_inj hc hkey, he] at he'
    obtain rfl := Option.some.inj he'
    rw [hplace] at hplace'
    cases hplace'
  have hnew : ∀ b ∈ t.activeAddresses, b.endpoint ≠ row.endpoint := by
    intro b hb hsame
    obtain ⟨entry', he', hplace'⟩ := (hm.activeAddresses b).mp hb
    rw [hsame, he] at he'
    obtain rfl := Option.some.inj he'
    rw [hplace] at hplace'
    cases hplace'
  refine ⟨rfl, hu.rows, hu.source, hu.addresses, hu.knownKeys, ?_, ?_, ?_, ?_, ?_, ?_, ?_,
    hu.stats⟩
  · show t.slots = Function.update t.slots row.endpoint none
    rw [← hm.slots_of_left he hleft, Function.update_eq_self]
  · intro s e'
    show t.occupant s = some e' ↔ _
    rw [hu.occupant s e']
    by_cases hsame : e' = row.endpoint
    · rw [if_pos hsame, if_pos hsame, exists_some, exists_some, hgroups]
      exact Iff.rfl
    · rw [if_neg hsame, if_neg hsame]
  · intro e'
    show e' ∈ t.triedEndpoints ↔ _
    rw [hu.triedEndpoints e']
    by_cases hsame : e' = row.endpoint
    · rw [if_pos hsame, if_pos hsame, exists_some, exists_some]
      exact iff_of_true hleft (Entry.hasLeft_of_tried rfl)
    · rw [if_neg hsame, if_neg hsame]
  · rw [hslot]
    rfl
  · intro s k
    show Function.update t.triedOccupant slot (some (c.endpointKey row.endpoint)) s = some k ↔
      Function.update t.triedSlotOf (c.endpointKey row.endpoint) (some slot) k = some s
    by_cases hs : s = slot
    · rw [hs, Function.update_self]
      by_cases hk : k = c.endpointKey row.endpoint
      · rw [hk, Function.update_self]
        exact iff_of_true rfl rfl
      · rw [Function.update_of_ne hk, ← hm.triedOccupant, hfree]
        exact iff_of_false (fun h => hk (Option.some.inj h).symm) nofun
    · rw [Function.update_of_ne hs, hm.triedOccupant]
      by_cases hk : k = c.endpointKey row.endpoint
      · rw [hk, Function.update_self, hnone]
        exact iff_of_false nofun fun h => hs (Option.some.inj h).symm
      · rw [Function.update_of_ne hk]
  · intro x
    show x ∈ t.activeAddresses ++ [row] ↔ _
    rw [List.mem_append, List.mem_singleton]
    by_cases hsame : x.endpoint = row.endpoint
    · rw [if_pos hsame, exists_some]
      constructor
      · rintro (hx | rfl)
        · exact absurd hsame (hnew x hx)
        · rfl
      · intro hx
        exact .inr (Place.tried.inj hx).symm
    · rw [if_neg hsame]
      apply or_iff_left
      rintro rfl
      exact hsame rfl
  · apply hm.activeIndex.push
    intro b hb hkey
    exact hnew b hb (c.endpointKey_inj hc hkey)

/-- An entry that enters a free slot of the tried table. -/
theorem Sound.tried {key : Bytes} (hA : A.Sound c key) {row : NetworkAddress}
    (he : A row.endpoint = some entry) (htime : row.timestamp < 256 ^ 8)
    (hfree : ∀ e', ¬ A.HoldsTried c key e' (c.triedSlot key row.endpoint)) :
    Addrman.Sound c key
      (Function.update A row.endpoint (some { entry with place := .tried row })) := by
  have hentry := hA.entry row.endpoint entry he
  apply hA.update
  · intro entry' hentry'
    obtain rfl := Option.some.inj hentry'
    exact ⟨hentry.row, hentry.storable, hentry.source, rfl, htime⟩
  · intro entry' hentry' s hs
    obtain rfl := Option.some.inj hentry'
    exact absurd hs List.not_mem_nil
  · intro entry' answered hentry' hplace e' hholds
    exact absurd hholds (hfree e')

theorem follows_answered (c : AddressCode) (R : RowKind → Endpoint → Option Bytes) (place : Place)
    (he : A e = some entry) (hgroups : entry.groups = [])
    (hplace : ({ entry with place := place } : Entry).groups = []) :
    Addrman.Follows c R (setRecord R .answered e
      (({ entry with place := place } : Entry).record c .answered)) A
      (Function.update A e (some { entry with place := place })) := by
  apply Addrman.follows_update
  · intro kind e' hne
    exact setRecord_of_ne hne _ _ _
  · intro kind hstats
    cases kind with
    | known =>
      rw [setRecord_of_kind (by decide)]
      refine .inr ⟨rfl, ?_⟩
      unfold Addrman.records
      rw [he]
      rfl
    | answered =>
      rw [setRecord_self]
      exact .inl rfl
    | source =>
      rw [setRecord_of_kind (by decide)]
      refine .inr ⟨rfl, ?_⟩
      unfold Addrman.records
      rw [he]
      show some (packGroups (entry.source :: Entry.groups _)) =
        some (packGroups (entry.source :: entry.groups))
      rw [hgroups, hplace]
    | stats => exact absurd rfl hstats

/-- **`_make_tried` under `_active_lock`**: the endpoint takes its slot of the tried table, and
what held the slot is on its way. -/
theorem enterTried_sat (hc : c.Lawful) (ht : t.Represents c A) {answered : NetworkAddress}
    (he : A answered.endpoint = some entry) (hplace : entry.place = .moving)
    (htime : answered.timestamp < 256 ^ 8)
    (hslot : slot = c.triedSlot t.bucketKey answered.endpoint) :
    Sat (enterTried c answered slot) t
      (fun evicted t' => (Frame t t' ∧ t'.stats = t.stats ∧ t'.collisions = t.collisions) ∧
        match evicted with
        | none => t'.Represents c
          (Function.update A answered.endpoint (some { entry with place := .tried answered }))
        | some row => ∃ old, A row.endpoint = some old ∧ old.place = .tried row ∧
          t'.Represents c (Function.update
            (Function.update A row.endpoint (some { old with place := .moving }))
            answered.endpoint (some { entry with place := .tried answered })))
      fun _ _ => False := by
  have hgroups : entry.groups = [] := by
    unfold Entry.groups
    rw [hplace]
  unfold enterTried
  rw [sat_bind, sat_get]
  cases hholder : t.triedOccupant slot with
  | none =>
    have hfree : ∀ e', ¬ A.HoldsTried c t.bucketKey e'
        (c.triedSlot t.bucketKey answered.endpoint) := by
      intro e' hholds
      have hat := (ht.memory.triedSlotOf _ _).mpr ⟨e', hholds, rfl⟩
      rw [← ht.memory.triedOccupant, ← hslot, hholder] at hat
      cases hat
    have hsound := Sound.tried ht.sound he htime hfree
    have hm' := ht.memory.update hc (ht.memory.updates_inserted hc he hplace hslot hholder)
    dsimp only
    rw [sat_bind_of_ok (triedInsert_eq _ _ _), sat_bind_of_ok (putNow_eq _ _)]
    refine ⟨⟨⟨rfl, Option.isSome_map .., fun _ => .inl rfl⟩, rfl, rfl⟩, hsound, hm'.wrote _ _, ?_,
      ht.batch⟩
    have hstored : (t.retried (t.activeAddresses ++ [answered]) (Function.update t.activeIndex
        (c.endpointKey answered.endpoint) (some t.activeAddresses.length))
        (Function.update t.triedSlotOf (c.endpointKey answered.endpoint) (some slot))
        (Function.update t.triedOccupant slot (some (c.endpointKey answered.endpoint)))).Stored c
        (A.records c) := ht.stored
    refine (hstored.wrote ht.batch hc .answered answered.endpoint _).congr ?_
    exact (follows_answered c _ (.tried answered) he hgroups rfl).records
  | some key =>
    obtain ⟨old, hold, hkey⟩ := (ht.memory.triedSlotOf _ _).mp ((ht.memory.triedOccupant _ _).mp
      hholder)
    obtain ⟨oldEntry, row, hentry, hrow, holdslot⟩ := hold
    have hend : row.endpoint = old := (Sound.answered_fits ht.sound hentry hrow).1
    subst hend
    subst hkey
    have hne : answered.endpoint ≠ row.endpoint := by
      intro hsame
      rw [← hsame, he] at hentry
      obtain rfl := Option.some.inj hentry
      rw [hplace] at hrow
      cases hrow
    have hoccupied : t.triedSlotOf (c.endpointKey row.endpoint) = some slot :=
      (ht.memory.triedOccupant _ _).mp hholder
    obtain ⟨i, hi⟩ := List.mem_iff_getElem?.mp ((ht.memory.activeAddresses row).mpr
      ⟨oldEntry, hentry, hrow⟩)
    dsimp only
    rw [sat_bind]
    refine (triedRemove_sat ht.memory.activeIndex hi rfl hoccupied hholder).mono ?_ fun _ _ h => h
    rintro removed t₁ ⟨rfl, rows, index, rfl, hindex, hrows⟩
    have hm₁ := ht.memory.update hc
      (ht.memory.updates_removed hc hentry hrow holdslot hindex hrows)
    have hsound₁ := Sound.moving ht.sound hentry
    have he₁ : Function.update A removed.endpoint (some { oldEntry with place := .moving })
        answered.endpoint = some entry := by
      rw [Function.update_of_ne hne]
      exact he
    have hfree₁ : ∀ e', ¬ Addrman.HoldsTried c t.bucketKey
        (Function.update A removed.endpoint (some { oldEntry with place := .moving })) e'
        (c.triedSlot t.bucketKey answered.endpoint) := by
      intro e' hholds
      rw [Addrman.holdsTried_update] at hholds
      by_cases hsame : e' = removed.endpoint
      · rw [if_pos hsame] at hholds
        obtain ⟨_, _, hentry', hplace', -⟩ := hholds
        obtain rfl := Option.some.inj hentry'
        cases hplace'
      · rw [if_neg hsame] at hholds
        refine hsame (ht.sound.tried e' removed.endpoint _ hholds ?_)
        exact ⟨oldEntry, removed, hentry, hrow, hslot.symm.trans holdslot⟩
    have hsound₂ := Sound.tried hsound₁ he₁ htime hfree₁
    have hm₂ := hm₁.update hc
      (hm₁.updates_inserted hc he₁ hplace hslot (Function.update_self ..))
    rw [sat_bind_of_ok (triedInsert_eq _ _ _), sat_bind_of_ok (putNow_eq _ _),
      sat_bind_of_ok (putNow_eq _ _)]
    refine ⟨⟨⟨rfl, ?_, fun _ => .inl rfl⟩, rfl, rfl⟩, oldEntry, hentry, hrow, hsound₂,
      (hm₂.wrote _ _).wrote _ _, ?_, ht.batch⟩
    · show ((t.db.map _).map _).isSome = _
      rw [Option.isSome_map, Option.isSome_map]
    · have hstored : ((t.retried rows index
          (Function.update t.triedSlotOf (c.endpointKey removed.endpoint) none)
          (Function.update t.triedOccupant slot none)).retried (rows ++ [answered])
          (Function.update index (c.endpointKey answered.endpoint) (some rows.length))
          (Function.update (Function.update t.triedSlotOf (c.endpointKey removed.endpoint) none)
            (c.endpointKey answered.endpoint) (some slot))
          (Function.update (Function.update t.triedOccupant slot none) slot
            (some (c.endpointKey answered.endpoint)))).Stored c (A.records c) := ht.stored
      have holdgroups : oldEntry.groups = [] := by
        unfold Entry.groups
        rw [hrow]
      refine ((hstored.wrote ht.batch hc .answered removed.endpoint none).wrote ht.batch hc .answered
        answered.endpoint _).congr ?_
      have hfollows := follows_answered c (A.records c) .moving hentry holdgroups rfl
      exact (hfollows.trans
        (follows_answered c _ (.tried answered) he₁ hgroups rfl)).records

/-! ## Going back to the new table -/

/-- A table with other endpoints counted as tried. -/
def withTried (tried : Finset Endpoint) (t : PeerDb) : PeerDb := { t with triedEndpoints := tried }

section Ignores

variable {tried : Finset Endpoint}

theorem lookup_ignores {α : Type} (entry : Option α) :
    Ignores (withTried tried) (lookup entry) := by
  unfold lookup
  cases entry with
  | none => exact ignores_throw _
  | some a => exact ignores_pure a

theorem stage_ignores (key : Bytes) (value : Option Bytes) :
    Ignores (withTried tried) (stage key value) := by
  unfold stage
  apply ignores_modify
  intro t
  by_cases hdb : t.db.isSome = true
  · show (if t.db.isSome then _ else _) = withTried tried (if t.db.isSome then _ else _)
    rw [if_pos hdb, if_pos hdb]
    rfl
  · show (if t.db.isSome then _ else _) = withTried tried (if t.db.isSome then _ else _)
    rw [if_neg hdb, if_neg hdb]

theorem putSources_ignores (e : Endpoint) : Ignores (withTried tried) (putSources c e) := by
  unfold putSources
  apply ignores_get_bind
  · intro t
    rfl
  · intro t
    split
    · apply Ignores.bind (lookup_ignores _)
      intro source
      apply Ignores.bind (lookup_ignores _)
      intro row
      exact stage_ignores _ _
    · exact ignores_pure _

theorem forget_ignores (e : Endpoint) : Ignores (withTried tried) (forget c e) := by
  unfold forget
  refine ignores_get_bind (fun _ => rfl) fun t => ?_
  refine (lookup_ignores _).bind fun row => ?_
  dsimp only
  refine Ignores.bind (ignores_modify ?_) fun _ => ?_
  · exact fun _ => rfl
  refine ignores_get_bind (fun _ => rfl) fun t => ?_
  refine (lookup_ignores _).bind fun source => ?_
  refine Ignores.bind (ignores_modify ?_) fun _ => ?_
  · exact fun _ => rfl
  refine (stage_ignores _ _).bind fun _ => ?_
  exact (stage_ignores _ _).bind fun _ => stage_ignores _ _

/-- Emptying a slot looks at no endpoint that is counted as tried. -/
theorem clearSlot_ignores (slot : Slot) : Ignores (withTried tried) (clearSlot c slot) := by
  unfold clearSlot
  refine ignores_get_bind (fun _ => rfl) fun t => ?_
  refine (lookup_ignores _).bind fun holder => ?_
  refine Ignores.bind (ignores_modify ?_) fun _ => ?_
  · exact fun _ => rfl
  refine ignores_get_bind (fun _ => rfl) fun t => ?_
  refine (lookup_ignores _).bind fun slots => ?_
  refine (lookup_ignores _).bind fun _ => ?_
  dsimp only
  split
  · refine Ignores.bind (ignores_modify ?_) fun _ => putSources_ignores _
    exact fun _ => rfl
  · refine Ignores.bind (ignores_modify ?_) fun _ => forget_ignores _
    exact fun _ => rfl

end Ignores

/-- A table where an endpoint that was tried holds a slot of the new table. -/
def returned (t : PeerDb) (e : Endpoint) (slot : Slot) (group : Bytes) : PeerDb :=
  { t with
    triedEndpoints := t.triedEndpoints.erase e
    occupant := Function.update t.occupant slot (some e)
    slots := Function.update t.slots e (some [(slot, group)]) }

theorem Memory.updates_returned (hm : t.Memory c A) (hc : c.Lawful) (he : A e = some entry)
    (hplace : entry.place = .moving) {group : Bytes}
    (hfree : t.occupant (c.newSlot t.bucketKey e group) = none) :
    Updates c t (t.returned e (c.newSlot t.bucketKey e group) group) e
      (some { entry with place := .new [group] }) := by
  have hu := hm.updates hc e
  rw [he] at hu
  have hgroups : entry.groups = [] := by
    unfold Entry.groups
    rw [hplace]
  refine ⟨rfl, hu.rows, hu.source, hu.addresses, hu.knownKeys, rfl, ?_, ?_, ?_, hu.triedOccupant,
    ?_, hu.activeIndex, ?_⟩
  · intro s e'
    have hheld : ∀ s, t.occupant s = some e ↔ s ∈ ([] : List Slot) := by
      intro s
      rw [hm.occupant]
      unfold Addrman.HoldsNew
      rw [he, exists_some, hgroups]
      exact Iff.rfl
    show Function.update t.occupant _ (some e) s = some e' ↔ _
    rw [occupant_took hfree hheld s e']
    by_cases hsame : e' = e
    · rw [if_pos hsame, if_pos hsame, exists_some]
      exact Iff.rfl
    · rw [if_neg hsame, if_neg hsame]
  · intro e'
    show e' ∈ t.triedEndpoints.erase e ↔ _
    rw [Finset.mem_erase]
    by_cases hsame : e' = e
    · rw [if_pos hsame, exists_some]
      exact iff_of_false (fun h => h.1 hsame) (Entry.not_hasLeft rfl)
    · rw [if_neg hsame]
      exact and_iff_right hsame
  · have hslot := hu.triedSlotOf
    have hanswered : entry.answered = none := by
      unfold Entry.answered
      rw [hplace]
    rw [Option.bind_some, hanswered] at hslot
    exact hslot
  · intro a
    show a ∈ t.activeAddresses ↔ _
    rw [hu.activeAddresses a]
    by_cases hsame : a.endpoint = e
    · rw [if_pos hsame, if_pos hsame, exists_some, exists_some, hplace]
      exact iff_of_false nofun nofun
    · rw [if_neg hsame, if_neg hsame]
  · intro hdb e' he'
    exact hm.stats hdb e' (Finset.mem_of_mem_erase he')

/-- An entry that takes a free slot of the new table by its source. -/
theorem Sound.returned {key : Bytes} (hA : A.Sound c key) (he : A e = some entry)
    (hfree : ∀ e', ¬ A.HoldsNew c key e' (c.newSlot key e entry.source)) :
    Addrman.Sound c key
      (Function.update A e (some { entry with place := .new [entry.source] })) := by
  have hentry := hA.entry e entry he
  apply hA.update
  · intro entry' hentry'
    obtain rfl := Option.some.inj hentry'
    have hone : [entry.source].length ≤ newBucketsPerAddress := by
      show 1 ≤ 8
      omega
    refine ⟨hentry.row, hentry.storable, hentry.source, List.cons_ne_nil _ _, hone,
      List.nodup_singleton _, ?_⟩
    intro group hgroup
    rw [List.mem_singleton.mp hgroup]
    exact hentry.source
  · intro entry' hentry' s hs e' hholds
    obtain rfl := Option.some.inj hentry'
    obtain rfl := List.mem_singleton.mp hs
    exact absurd hholds (hfree e')
  · intro entry' answered hentry' hplace
    obtain rfl := Option.some.inj hentry'
    cases hplace

/-- What holds of an entry's return once its slot is free. -/
theorem returned_sat (hc : c.Lawful) (ht : t.Represents c A) (he : A e = some entry)
    (hplace : entry.place = .moving) {stats : Stats} (hstats : t.db.isSome → t.stats e = some stats)
    {t₁ : PeerDb} {A₁ : Addrman} (hstep : NewStep c t A t₁ A₁) (hsame : A₁ e = A e)
    (hnone : ∀ e', A e' = none → A₁ e' = none)
    (hlost : ∀ e', t₁.stats e' = t.stats e' ∨ t₁.rows e' = none)
    (hkept : t₁.stats e = t.stats e)
    (hfree : t₁.occupant (c.newSlot t₁.bucketKey e entry.source) = none) :
    Sat (do putSources c e; putStats c e)
      (t₁.returned e (c.newSlot t₁.bucketKey e entry.source) entry.source)
      (fun _ t' => (∃ A', t'.written.Represents c A' ∧ (∀ e', A'.Tried e' ↔ A.Tried e') ∧
          (∀ e', A'.Moving e' ↔ A.Moving e' ∧ e' ≠ e) ∧ (∀ e', A e' = none → A' e' = none) ∧
          ∀ e' ∈ t'.collisions, e' ∈ t.collisions ∧ t'.stats e' = t.stats e' ∧
            ((A e').isSome → (A' e').isSome)) ∧
        Frame t t'.written ∧ ∀ e', t'.stats e' = t.stats e' ∨ t'.rows e' = none)
      fun err _ => err = .overflow ∧ t.db.isSome ∧ ¬ stats.Fits := by
  have he₁ := hsame.trans he
  have hentry := hstep.sound.entry e entry he₁
  have hsound := Sound.returned hstep.sound he₁ (hstep.memory.free hfree)
  have hm₂ := hstep.memory.update hc (hstep.memory.updates_returned hc he₁ hplace hfree)
  have hself : Function.update A₁ e (some { entry with place := .new [entry.source] }) e =
      some { entry with place := .new [entry.source] } := Function.update_self ..
  rw [sat_bind_of_ok (putSources_eq hm₂ hself (hsound.entry e _ hself))]
  have hm₃ := hm₂.staged (c.rowKey .source e)
    (Entry.record c .source { entry with place := .new [entry.source] })
  have hstats₁ : t₁.db.isSome → t₁.stats e = some stats := by
    intro hdb
    rw [hkept]
    apply hstats
    rw [← hstep.db]
    exact hdb
  refine (putStats_sat (fun _ => ⟨hm₃.rows_of hself, hentry.row⟩) stats hstats₁).mono ?_ ?_
  · rintro _ t₂ ⟨-, value, rfl⟩
    refine ⟨⟨_, ⟨hsound, (hm₃.staged _ _).written, ?_, rfl⟩, ?_, ?_, ?_, ?_⟩, ⟨hstep.bucketKey, ?_,
      hstep.stats⟩, hlost⟩
    · obtain ⟨R₁, hR₁, hfollows⟩ := hstep.stored _ ht.stored
      have hR₂ : (t₁.returned e (c.newSlot t₁.bucketKey e entry.source) entry.source).Stored c
          R₁ := hR₁
      refine (Stored.congr ((hR₂.staged hc .source e _).staged hc .stats e value) ?_).written
      have hfollows' : Addrman.Follows c R₁
          (setRecord R₁ .source e (some (packGroups [entry.source, entry.source]))) A₁
          (Function.update A₁ e (some { entry with place := .new [entry.source] })) := by
        apply Addrman.follows_update
        · intro kind e' hne
          exact setRecord_of_ne hne _ _ _
        · intro kind hkind
          cases kind with
          | known =>
            rw [setRecord_of_kind (by decide)]
            refine .inr ⟨rfl, ?_⟩
            unfold Addrman.records
            rw [he₁]
            rfl
          | answered =>
            rw [setRecord_of_kind (by decide)]
            refine .inr ⟨rfl, ?_⟩
            unfold Addrman.records
            rw [he₁]
            show none = entry.answered.map c.serialize
            unfold Entry.answered
            rw [hplace]
            rfl
          | source =>
            rw [setRecord_self]
            exact .inl rfl
          | stats => exact absurd rfl hkind
      intro kind e' hkind
      rw [setRecord_of_kind hkind]
      exact (hfollows.trans hfollows').records kind e' hkind
    · intro e'
      rw [← hstep.left.tried]
      unfold Addrman.Tried
      by_cases hend : e' = e
      · rw [hend, hself, he₁]
        simp [hplace]
      · rw [Function.update_of_ne hend]
    · intro e'
      rw [← hstep.left.moving]
      unfold Addrman.Moving
      by_cases hend : e' = e
      · rw [hend, hself, exists_some]
        exact iff_of_false nofun fun h => h.2 rfl
      · rw [Function.update_of_ne hend]
        exact (and_iff_left hend).symm
    · intro e' hnone'
      rw [Function.update_of_ne]
      · exact hnone e' hnone'
      · rintro rfl
        rw [he] at hnone'
        cases hnone'
    · intro e' he'
      obtain ⟨hwas, hsame', hknown⟩ := hstep.collisions e' he'
      refine ⟨hwas, hsame', fun hsome => ?_⟩
      by_cases hend : e' = e
      · rw [hend, hself]
        rfl
      · rw [Function.update_of_ne hend]
        exact hknown hsome
    · show (t₁.db.map _).isSome = _
      rw [Option.isSome_map, hstep.db]
  · rintro _ _ ⟨rfl, hdb, hbad⟩
    refine ⟨rfl, ?_, hbad⟩
    rw [← hstep.db]
    exact hdb

/-- **`_return_to_new`**: an endpoint on its way takes the slot of its source in the new table. -/
theorem returnToNew_sat (hc : c.Lawful) (ht : t.Represents c A) {row : NetworkAddress}
    (he : A row.endpoint = some entry) (hplace : entry.place = .moving) {stats : Stats}
    (hstats : t.db.isSome → t.stats row.endpoint = some stats) :
    Sat (returnToNew c row) t
      (fun _ t' => (∃ A', t'.Represents c A' ∧ (∀ e, A'.Tried e ↔ A.Tried e) ∧
          (∀ e, A'.Moving e ↔ A.Moving e ∧ e ≠ row.endpoint) ∧ (∀ e, A e = none → A' e = none) ∧
          ∀ e ∈ t'.collisions, e ∈ t.collisions ∧ t'.stats e = t.stats e ∧
            ((A e).isSome → (A' e).isSome)) ∧
        Frame t t' ∧ ∀ e, t'.stats e = t.stats e ∨ t'.rows e = none)
      fun err _ => err = .overflow ∧ t.db.isSome ∧ ¬ stats.Fits := by
  have hend : entry.row.endpoint = row.endpoint := (ht.sound.entry _ _ he).row
  unfold returnToNew
  rw [sat_writeBatch ht.batch]
  dsimp only
  rw [sat_bind, sat_modify, sat_bind, sat_get]
  show Sat (lookup (t.source row.endpoint) >>= _) _ _ _
  rw [ht.memory.source_of he, sat_bind_of_ok lookup_some, sat_bind, sat_get]
  show Sat (lookup (t.rows row.endpoint) >>= _) _ _ _
  rw [ht.memory.rows_of he, sat_bind_of_ok lookup_some, sat_bind, sat_get]
  dsimp only
  rw [sat_bind, sat_get, hend]
  dsimp only
  cases hslot : t.occupant (c.newSlot t.bucketKey row.endpoint entry.source) with
  | none =>
    rw [if_neg (by decide), sat_bind, sat_modify]
    exact returned_sat hc ht he hplace hstats (.refl ht.sound ht.memory) rfl (fun _ => id)
      (fun _ => .inl rfl) rfl hslot
  | some holder =>
    obtain ⟨t₁, A₁, hok, hstep, hfree, hother, hlost⟩ :=
      clearSlot_step hc ht.sound ht.memory hslot
    have hne : row.endpoint ≠ holder := by
      rintro rfl
      obtain ⟨entry', he', hplace', -⟩ := ht.memory.holder hslot
      rw [he] at he'
      obtain rfl := Option.some.inj he'
      rw [hplace] at hplace'
      cases hplace'
    have hsame := hother row.endpoint hne
    have hkept : t₁.stats row.endpoint = t.stats row.endpoint := by
      rcases hlost row.endpoint with hkept | hnone
      · exact hkept
      · rw [hstep.memory.none_iff, hsame, he] at hnone
        cases hnone
    have hclear : clearSlot c (c.newSlot t.bucketKey row.endpoint entry.source)
        (withTried (t.triedEndpoints.erase row.endpoint) t) =
        .ok () (withTried (t.triedEndpoints.erase row.endpoint) t₁) := by
      rw [clearSlot_ignores, hok]
      rfl
    have hnone : ∀ e, A e = none → A₁ e = none := by
      intro e' hnone
      rw [hother]
      · exact hnone
      · rintro rfl
        obtain ⟨entry', he', -, -⟩ := ht.memory.holder hslot
        rw [hnone] at he'
        cases he'
    have hempty : t₁.occupant (c.newSlot t.bucketKey row.endpoint entry.source) = none := by
      rw [hfree, Function.update_self]
    rw [if_pos (by rfl)]
    show Sat _ (withTried (t.triedEndpoints.erase row.endpoint) t) _ _
    rw [sat_bind_of_ok hclear, sat_bind, sat_modify, ← hstep.triedEndpoints]
    rw [← hstep.bucketKey] at hempty ⊢
    exact returned_sat hc ht he hplace hstats hstep hsame hnone hlost hkept hempty

end PeerDb

end BtclibNode
