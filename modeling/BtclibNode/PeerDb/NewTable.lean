/-
# Steps of the new table

Giving an endpoint a slot of the new table, emptying one, and forgetting an endpoint: what each
does to the entries.
-/
import BtclibNode.PeerDb.Tables

namespace BtclibNode

open StateExcept

variable {c : AddressCode} {t t' : PeerDb} {A A' : Addrman} {e : Endpoint} {entry : Entry}
  {slot : Slot} {group : Bytes}

namespace PeerDb

/-! ## Slots -/

theorem Memory.free (hm : t.Memory c A) (hslot : t.occupant slot = none) (e : Endpoint) :
    ¬ A.HoldsNew c t.bucketKey e slot := by
  intro hholds
  rw [← hm.occupant, hslot] at hholds
  cases hholds

theorem Memory.holder (hm : t.Memory c A) (hslot : t.occupant slot = some e) :
    ∃ entry, A e = some entry ∧ entry.place = .new entry.groups ∧
      slot ∈ entry.groups.map (c.newSlot t.bucketKey e) := by
  obtain ⟨entry, hentry, hmem⟩ := (hm.occupant slot e).mp hslot
  obtain ⟨group, hgroup, -⟩ := List.mem_map.mp hmem
  exact ⟨entry, hentry, Entry.place_of_not_hasLeft (Entry.not_hasLeft_of_mem hgroup), hmem⟩

theorem Memory.not_left (hm : t.Memory c A) (htried : e ∉ t.triedEndpoints)
    (he : A e = some entry) : ¬ entry.HasLeft := by
  intro hleft
  exact htried ((hm.triedEndpoints e).mpr ⟨entry, he, hleft⟩)

/-! ## Forgetting -/

/-- A table without an endpoint, but for its slots. -/
def forgotten (c : AddressCode) (t : PeerDb) (e : Endpoint) (row : NetworkAddress) : PeerDb :=
  { t with
    rows := Function.update t.rows e none
    addresses := t.addresses.erase row
    knownKeys := t.knownKeys.erase (c.endpointKey row.endpoint)
    source := Function.update t.source e none
    stats := Function.update t.stats e none
    collisions := t.collisions.erase e }

theorem forget_eq {row : NetworkAddress} {source : Bytes} (hrow : t.rows e = some row)
    (hsource : t.source e = some source) (hkey : row.endpoint = e) :
    forget c e t = .ok () ((((t.forgotten c e row).staged (c.rowKey .known e) none).staged
      (c.rowKey .source e) none).staged (c.rowKey .stats e) none) := by
  apply Sat.eq_ok
  unfold forget
  rw [sat_bind, sat_get, hrow, sat_bind_of_ok lookup_some]
  dsimp only
  rw [sat_bind, sat_modify, sat_bind, sat_get]
  dsimp only
  rw [hsource, sat_bind_of_ok lookup_some, sat_bind, sat_modify, sat_bind_of_ok (stage_eq _ _), sat_bind_of_ok (stage_eq _ _),
    sat_of_ok (stage_eq _ _), hkey]
  refine ⟨rfl, ?_⟩
  unfold forgotten
  rw [hkey]
  rfl

/-! ## Emptying a slot -/

/-- The entry of an endpoint that a slot is taken from. -/
def clearedEntry (c : AddressCode) (key : Bytes) (slot : Slot) (e : Endpoint) (entry : Entry) :
    Option Entry :=
  let groups := entry.groups.filter fun group => c.newSlot key e group ≠ slot
  if groups = [] then none else some { entry with place := .new groups }

theorem not_hasLeft_clearedEntry {key : Bytes} {entry' : Entry}
    (h : clearedEntry c key slot e entry = some entry') : ¬ entry'.HasLeft := by
  unfold clearedEntry at h
  dsimp only at h
  split at h
  · cases h
  · obtain rfl := Option.some.inj h
    exact Entry.not_hasLeft rfl

theorem mem_groups_clearedEntry {key : Bytes} {entry' : Entry}
    (h : clearedEntry c key slot e entry = some entry') (s : Slot) :
    s ∈ entry'.groups.map (c.newSlot key e) ↔
      s ≠ slot ∧ s ∈ entry.groups.map (c.newSlot key e) := by
  unfold clearedEntry at h
  dsimp only at h
  split at h
  · cases h
  · obtain rfl := Option.some.inj h
    rw [Entry.groups_of_place rfl, List.mem_map, List.mem_map]
    constructor
    · rintro ⟨group, hgroup, rfl⟩
      rw [List.mem_filter, decide_eq_true_eq] at hgroup
      exact ⟨hgroup.2, group, hgroup.1, rfl⟩
    · rintro ⟨hne, group, hgroup, rfl⟩
      exact ⟨group, List.mem_filter.mpr ⟨hgroup, decide_eq_true hne⟩, rfl⟩

theorem clearedEntry_none {key : Bytes} (h : clearedEntry c key slot e entry = none) :
    ∀ s ∈ entry.groups.map (c.newSlot key e), s = slot := by
  unfold clearedEntry at h
  dsimp only at h
  split at h
  · rename_i hnil
    intro s hs
    obtain ⟨group, hgroup, rfl⟩ := List.mem_map.mp hs
    by_contra hne
    have hmem : group ∈ entry.groups.filter fun group => c.newSlot key e group ≠ slot :=
      List.mem_filter.mpr ⟨hgroup, decide_eq_true hne⟩
    rw [hnil] at hmem
    exact List.not_mem_nil hmem
  · cases h

/-- What is left of an entry is well formed. -/
theorem entrySound_clearedEntry {key : Bytes} {entry' : Entry}
    (hentry : Addrman.EntrySound c key e entry) (hplace : entry.place = .new entry.groups)
    (h : clearedEntry c key slot e entry = some entry') : Addrman.EntrySound c key e entry' := by
  unfold clearedEntry at h
  dsimp only at h
  split at h
  · cases h
  · rename_i hnil
    obtain rfl := Option.some.inj h
    have hgroups := hentry.place
    rw [hplace] at hgroups
    obtain ⟨-, hlength, hnodup, hshort⟩ := hgroups
    refine ⟨hentry.row, hentry.storable, hentry.source, hnil, ?_, ?_, ?_⟩
    · exact (List.length_filter_le _ _).trans hlength
    · exact hnodup.sublist (List.filter_sublist.map _)
    · intro group hgroup
      exact hshort group (List.mem_of_mem_filter hgroup)

/-- Emptying a slot takes it from the entry that holds it. -/
theorem Sound.clear {key : Bytes} (hA : A.Sound c key) (he : A e = some entry)
    (hplace : entry.place = .new entry.groups) :
    Addrman.Sound c key (Function.update A e (clearedEntry c key slot e entry)) := by
  apply hA.update
  · intro entry' hentry'
    exact entrySound_clearedEntry (hA.entry e entry he) hplace hentry'
  · intro entry' hentry' s hs e' hholds
    have hs' := ((mem_groups_clearedEntry hentry' s).mp hs).2
    exact hA.new e' e s hholds ⟨entry, he, hs'⟩
  · intro entry' answered hentry' hanswered
    exact absurd (Entry.hasLeft_of_tried hanswered) (not_hasLeft_clearedEntry hentry')

/-- The maps where an entry of the new table changes its groups alone. -/
theorem Memory.updates_groups (hm : t.Memory c A) (hc : c.Lawful) (he : A e = some entry)
    (hnew : ¬ entry.HasLeft) {groups : List Bytes} {occupant : Slot → Option Endpoint}
    (hoccupant : ∀ slot e', occupant slot = some e' ↔
      if e' = e then slot ∈ groups.map (c.newSlot t.bucketKey e)
      else t.occupant slot = some e') :
    Updates c t
      { t with
        occupant := occupant
        slots := Function.update t.slots e
          (some (groups.map fun group => (c.newSlot t.bucketKey e group, group))) }
      e (some { entry with place := .new groups }) := by
  have hu := hm.updates hc e
  rw [he] at hu
  refine ⟨rfl, hu.rows, hu.source, hu.addresses, hu.knownKeys, rfl, ?_, ?_, ?_, hu.triedOccupant,
    ?_, hu.activeIndex, hu.stats⟩
  · intro slot e'
    rw [hoccupant]
    by_cases hsame : e' = e
    · rw [if_pos hsame, if_pos hsame, exists_some]
      exact Iff.rfl
    · rw [if_neg hsame, if_neg hsame]
  · intro e'
    rw [hu.triedEndpoints e']
    by_cases hsame : e' = e
    · rw [if_pos hsame, if_pos hsame, exists_some, exists_some]
      exact iff_of_false hnew (Entry.not_hasLeft rfl)
    · rw [if_neg hsame, if_neg hsame]
  · show t.triedSlotOf = _
    have hslots := hu.triedSlotOf
    rw [Option.bind_some, Entry.answered_of_not_hasLeft hnew] at hslots
    exact hslots
  · intro a
    rw [hu.activeAddresses a]
    by_cases hsame : a.endpoint = e
    · rw [if_pos hsame, if_pos hsame, exists_some, exists_some]
      apply iff_of_false
      · exact fun hplace => hnew (Entry.hasLeft_of_tried hplace)
      · exact nofun
    · rw [if_neg hsame, if_neg hsame]

/-- The maps where an entry of the new table is forgotten. -/
theorem Memory.updates_none (hm : t.Memory c A) (hc : c.Lawful) (he : A e = some entry)
    (hrow : entry.row.endpoint = e) (hnew : ¬ entry.HasLeft) {occupant : Slot → Option Endpoint}
    (hoccupant : ∀ slot e', occupant slot = some e' ↔ e' ≠ e ∧ t.occupant slot = some e') :
    Updates c t
      (PeerDb.forgotten c { t with
        occupant := occupant
        slots := Function.update t.slots e none } e entry.row) e none := by
  have hu := hm.updates hc e
  rw [he] at hu
  have hleft : e ∉ t.triedEndpoints := by
    rw [hm.triedEndpoints, he, exists_some]
    exact hnew
  refine ⟨rfl, rfl, rfl, ?_, ?_, rfl, ?_, ?_, ?_, hu.triedOccupant, ?_, hu.activeIndex, ?_⟩
  · intro a
    show a ∈ t.addresses.erase entry.row ↔ _
    rw [Finset.mem_erase, hm.addresses]
    by_cases hsame : a.endpoint = e
    · rw [if_pos hsame, hsame, hm.rows_of he]
      constructor
      · rintro ⟨hne, ha⟩
        exact absurd (Option.some.inj ha).symm hne
      · intro ha
        cases ha
    · rw [if_neg hsame]
      constructor
      · exact And.right
      · intro ha
        refine ⟨?_, ha⟩
        rintro rfl
        exact hsame hrow
  · intro k
    show k ∈ t.knownKeys.erase (c.endpointKey entry.row.endpoint) ↔ _
    rw [Finset.mem_erase, hrow]
    by_cases hsame : k = c.endpointKey e
    · rw [if_pos hsame]
      constructor
      · rintro ⟨hne, -⟩
        exact absurd hsame hne
      · intro hfalse
        cases hfalse
    · rw [if_neg hsame]
      exact and_iff_right hsame
  · intro slot e'
    show occupant slot = some e' ↔ _
    rw [hoccupant]
    by_cases hsame : e' = e
    · rw [if_pos hsame]
      constructor
      · rintro ⟨hne, -⟩
        exact absurd hsame hne
      · intro hex
        exact absurd hex not_exists_none
    · rw [if_neg hsame]
      exact and_iff_right hsame
  · intro e'
    show e' ∈ t.triedEndpoints ↔ _
    by_cases hsame : e' = e
    · rw [if_pos hsame, hsame]
      exact iff_of_false hleft not_exists_none
    · rw [if_neg hsame]
  · show t.triedSlotOf = _
    have hslots := hu.triedSlotOf
    rw [Option.bind_some, Entry.answered_of_not_hasLeft hnew] at hslots
    exact hslots
  · intro a
    show a ∈ t.activeAddresses ↔ _
    rw [hu.activeAddresses a]
    by_cases hsame : a.endpoint = e
    · rw [if_pos hsame, if_pos hsame]
      apply iff_of_false _ not_exists_none
      rw [exists_some]
      exact fun hplace => hnew (Entry.hasLeft_of_tried hplace)
    · rw [if_neg hsame, if_neg hsame]
  · intro hdb e' he'
    show (Function.update t.stats e none e').isSome
    have hne : e' ≠ e := by
      rintro rfl
      exact hleft he'
    rw [Function.update_of_ne hne]
    exact hm.stats hdb e' he'

/-- A write of the batch follows the entries where it is of what the entry then holds. -/
theorem Stored.staged_follows {R : RowKind → Endpoint → Option Bytes} {x : Option Entry}
    (hR : t.Stored c R) (hc : c.Lawful) (he : A e = some entry) (kind : RowKind)
    (hkind : ∀ kind', kind' ≠ kind → kind' ≠ .stats →
      x.bind (Entry.record c kind') = entry.record c kind') :
    ∃ R', (t.staged (c.rowKey kind e) (x.bind (Entry.record c kind))).Stored c R' ∧
      Addrman.Follows c R R' A (Function.update A e x) := by
  refine ⟨_, hR.staged hc kind e _, Addrman.follows_update ?_ ?_⟩
  · intro kind' e' hne
    exact setRecord_of_ne hne kind kind' _
  · intro kind' hstats
    by_cases hsame : kind' = kind
    · rw [hsame]
      exact .inl (setRecord_self R kind e _)
    · refine .inr ⟨setRecord_of_kind hsame e e _, ?_⟩
      rw [hkind kind' hsame hstats]
      unfold Addrman.records
      rw [he, Option.bind_some]

/-- An entry that keeps some of its groups. -/
theorem newStep_groups (hc : c.Lawful) (hm : t.Memory c A) (he : A e = some entry)
    (hnew : ¬ entry.HasLeft) {groups : List Bytes} {occupant : Slot → Option Endpoint}
    (hoccupant : ∀ slot e', occupant slot = some e' ↔
      if e' = e then slot ∈ groups.map (c.newSlot t.bucketKey e)
      else t.occupant slot = some e')
    (hsound : Addrman.Sound c t.bucketKey
      (Function.update A e (some { entry with place := .new groups }))) :
    ∃ t', putSources c e
      { t with
        occupant := occupant
        slots := Function.update t.slots e
          (some (groups.map fun group => (c.newSlot t.bucketKey e group, group))) } = .ok () t' ∧
      NewStep c t A t' (Function.update A e (some { entry with place := .new groups })) ∧
      t'.occupant = occupant ∧ t'.stats = t.stats := by
  have hself : Function.update A e (some { entry with place := .new groups }) e =
      some { entry with place := .new groups } := Function.update_self ..
  have hnew' : ¬ ({ entry with place := .new groups } : Entry).HasLeft := Entry.not_hasLeft rfl
  have hm' := hm.update hc (hm.updates_groups hc he hnew hoccupant)
  refine ⟨_, putSources_eq hm' hself (hsound.entry e _ hself), ?_, rfl, rfl⟩
  refine ⟨hsound, hm'.staged _ _, ?_, ?_, rfl, rfl, rfl, fun _ => .inl rfl, ?_⟩
  · intro R hR
    have hR' : PeerDb.Stored c { t with
        occupant := occupant
        slots := Function.update t.slots e
          (some (groups.map fun group => (c.newSlot t.bucketKey e group, group))) } R := hR
    apply hR'.staged_follows hc he .source (x := some { entry with place := .new groups })
    intro kind hne hstats
    cases kind with
    | known => rfl
    | answered =>
      show none = entry.answered.map c.serialize
      rw [Entry.answered_of_not_hasLeft hnew]
      rfl
    | source => exact absurd rfl hne
    | stats => exact absurd rfl hstats
  · apply Addrman.sameLeft_update
    · intro entry' hentry'
      rw [he] at hentry'
      obtain rfl := Option.some.inj hentry'
      exact hnew
    · intro entry' hentry'
      obtain rfl := Option.some.inj hentry'
      exact hnew'
  · intro e' he'
    refine ⟨he', rfl, ?_⟩
    intro hsome
    by_cases hsame : e' = e
    · rw [hsame, hself]
      rfl
    · rw [Function.update_of_ne hsame]
      exact hsome

/-- An entry that is forgotten. -/
theorem newStep_forget (hc : c.Lawful) (hm : t.Memory c A) (he : A e = some entry)
    (hentry : Addrman.EntrySound c t.bucketKey e entry)
    (hnew : ¬ entry.HasLeft) {occupant : Slot → Option Endpoint}
    (hoccupant : ∀ slot e', occupant slot = some e' ↔ e' ≠ e ∧ t.occupant slot = some e')
    (hsound : Addrman.Sound c t.bucketKey (Function.update A e none)) :
    ∃ t', forget c e { t with
        occupant := occupant
        slots := Function.update t.slots e none } = .ok () t' ∧
      NewStep c t A t' (Function.update A e none) ∧ t'.occupant = occupant ∧
      ∀ e', t'.stats e' = t.stats e' ∨ t'.rows e' = none := by
  have hrow : PeerDb.rows { t with
      occupant := occupant, slots := Function.update t.slots e none } e = some entry.row :=
    hm.rows_of he
  have hm' := hm.update hc (hm.updates_none hc he hentry.row hnew hoccupant)
  have hstats : ∀ e', Function.update t.stats e none e' = t.stats e' ∨
      Function.update t.rows e none e' = none := by
    intro e'
    by_cases hsame : e' = e
    · right
      rw [hsame, Function.update_self]
    · left
      rw [Function.update_of_ne hsame]
  refine ⟨_, forget_eq hrow (hm.source_of he) hentry.row, ?_, rfl, hstats⟩
  refine ⟨hsound, ((hm'.staged _ _).staged _ _).staged _ _, ?_, ?_, rfl, rfl, rfl, ?_, ?_⟩
  · intro R hR
    have hR' : (PeerDb.forgotten c { t with
        occupant := occupant
        slots := Function.update t.slots e none } e entry.row).Stored c R := hR
    refine ⟨_, ((hR'.staged hc .known e none).staged hc .source e none).staged hc .stats e none,
      Addrman.follows_update ?_ ?_⟩
    · intro kind e' hne
      rw [setRecord_of_ne hne, setRecord_of_ne hne, setRecord_of_ne hne]
    · intro kind hstats
      rw [setRecord_of_kind hstats]
      cases kind with
      | known =>
        rw [setRecord_of_kind (by decide), setRecord_self]
        exact .inl rfl
      | answered =>
        rw [setRecord_of_kind (by decide), setRecord_of_kind (by decide)]
        refine .inr ⟨rfl, ?_⟩
        show none = (A e).bind (Entry.record c .answered)
        rw [he]
        show none = entry.answered.map c.serialize
        rw [Entry.answered_of_not_hasLeft hnew]
        rfl
      | source =>
        rw [setRecord_self]
        exact .inl rfl
      | stats => exact absurd rfl hstats
  · apply Addrman.sameLeft_update
    · intro entry' hentry'
      rw [he] at hentry'
      obtain rfl := Option.some.inj hentry'
      exact hnew
    · intro entry' hentry'
      cases hentry'
  · intro e'
    by_cases hsame : e' = e
    · right
      rw [hsame]
      exact Function.update_self ..
    · left
      exact Function.update_of_ne hsame ..
  · intro e' he'
    obtain ⟨hne, he'⟩ := Finset.mem_erase.mp he'
    refine ⟨he', Function.update_of_ne hne .., ?_⟩
    intro hsome
    rw [Function.update_of_ne hne]
    exact hsome

theorem Memory.occupant_cleared (hm : t.Memory c A) (he : A e = some entry)
    (hslot : t.occupant slot = some e) (s : Slot) (e' : Endpoint) :
    Function.update t.occupant slot none s = some e' ↔
      if e' = e then s ≠ slot ∧ s ∈ entry.groups.map (c.newSlot t.bucketKey e)
      else t.occupant s = some e' := by
  by_cases hs : s = slot
  · subst hs
    rw [Function.update_self]
    apply iff_of_false
    · intro hnone
      cases hnone
    · by_cases hsame : e' = e
      · rw [if_pos hsame]
        exact fun h => h.1 rfl
      · rw [if_neg hsame, hslot]
        exact fun h => hsame (Option.some.inj h).symm
  · rw [Function.update_of_ne hs]
    by_cases hsame : e' = e
    · rw [if_pos hsame, hm.occupant, hsame]
      unfold Addrman.HoldsNew
      rw [he]
      simp [hs]
    · rw [if_neg hsame]

/-- **Emptying a slot** returns, and is a step of the new table; the endpoint that held the slot
alone is changed. -/
theorem clearSlot_step (hc : c.Lawful) (hA : A.Sound c t.bucketKey) (hm : t.Memory c A)
    (hslot : t.occupant slot = some e) :
    ∃ t' A', clearSlot c slot t = .ok () t' ∧ NewStep c t A t' A' ∧
      t'.occupant = Function.update t.occupant slot none ∧ (∀ e', e' ≠ e → A' e' = A e') ∧
      ∀ e', t'.stats e' = t.stats e' ∨ t'.rows e' = none := by
  obtain ⟨entry, he, hplace, hmem⟩ := hm.holder hslot
  have hentry := hA.entry e entry he
  have hnew : ¬ entry.HasLeft := Entry.not_hasLeft hplace
  have hslots := hm.slots_of_new he hplace
  have hsound : Addrman.Sound c t.bucketKey
    (Function.update A e (clearedEntry c t.bucketKey slot e entry)) := Sound.clear hA he hplace
  -- what is left of the slots
  set left := entry.groups.filter fun group => c.newSlot t.bucketKey e group ≠ slot with hleft
  have hfilter : (entry.groups.map fun group => (c.newSlot t.bucketKey e group, group)).filter
      (fun held => held.1 ≠ slot) =
      left.map fun group => (c.newSlot t.bucketKey e group, group) := by
    rw [List.filter_map]
    rfl
  have hlookup : ∃ group, (entry.groups.map fun group =>
      (c.newSlot t.bucketKey e group, group)).lookup slot = some group := by
    rw [← Option.isSome_iff_exists, List.lookup_isSome_iff]
    obtain ⟨group, hgroup, hslot⟩ := List.mem_map.mp hmem
    exact ⟨_, List.mem_map.mpr ⟨group, hgroup, rfl⟩, by simp [hslot]⟩
  obtain ⟨group, hlookup⟩ := hlookup
  have hrun : Sat (clearSlot c slot) t (fun _ t' => ∃ A', NewStep c t A t' A' ∧
      t'.occupant = Function.update t.occupant slot none ∧ (∀ e', e' ≠ e → A' e' = A e') ∧
      ∀ e', t'.stats e' = t.stats e' ∨ t'.rows e' = none) fun _ _ => False := by
    unfold clearSlot
    rw [sat_bind, sat_get, hslot, sat_bind_of_ok lookup_some, sat_bind, sat_modify, sat_bind,
      sat_get]
    dsimp only
    rw [hslots, sat_bind_of_ok lookup_some, hlookup, sat_bind_of_ok lookup_some, hfilter]
    by_cases hnil : left = []
    · rw [hnil, List.map_nil, if_neg (fun h => h rfl), sat_bind, sat_modify]
      have hcleared : clearedEntry c t.bucketKey slot e entry = none := by
        unfold clearedEntry
        exact if_pos hnil
      rw [hcleared] at hsound
      have hoccupant : ∀ s e', Function.update t.occupant slot none s = some e' ↔
          e' ≠ e ∧ t.occupant s = some e' := by
        intro s e'
        rw [hm.occupant_cleared he hslot]
        by_cases hsame : e' = e
        · rw [if_pos hsame]
          apply iff_of_false
          · rintro ⟨hne, hs⟩
            exact hne (clearedEntry_none hcleared s hs)
          · exact fun h => h.1 hsame
        · rw [if_neg hsame]
          exact (and_iff_right hsame).symm
      obtain ⟨t', hok, hstep, hfree, hstats⟩ := newStep_forget hc hm he hentry hnew
        hoccupant hsound
      rw [sat_of_ok hok]
      exact ⟨_, hstep, hfree, fun e' hne => Function.update_of_ne hne .., hstats⟩
    · have hmap : (left.map fun group => (c.newSlot t.bucketKey e group, group)) ≠ [] := by
        rw [ne_eq, List.map_eq_nil_iff]
        exact hnil
      rw [if_pos hmap, sat_bind, sat_modify]
      have hcleared : clearedEntry c t.bucketKey slot e entry =
          some { entry with place := .new left } := by
        unfold clearedEntry
        exact if_neg hnil
      rw [hcleared] at hsound
      have hoccupant : ∀ s e', Function.update t.occupant slot none s = some e' ↔
          if e' = e then s ∈ left.map (c.newSlot t.bucketKey e)
          else t.occupant s = some e' := by
        intro s e'
        rw [hm.occupant_cleared he hslot, ← mem_groups_clearedEntry hcleared,
          Entry.groups_of_place rfl]
      obtain ⟨t', hok, hstep, hfree, hstats⟩ := newStep_groups hc hm he hnew hoccupant hsound
      rw [sat_of_ok hok]
      refine ⟨_, hstep, hfree, fun e' hne => Function.update_of_ne hne .., fun e' => .inl ?_⟩
      rw [hstats]
  obtain ⟨_, t', hok, A', h⟩ := hrun.exists_ok
  exact ⟨t', A', hok, h⟩

/-! ## Taking a slot -/

/-- A table where an endpoint took a slot. -/
def took (t : PeerDb) (e : Endpoint) (slot : Slot) (group : Bytes) : PeerDb :=
  { t with
    occupant := Function.update t.occupant slot (some e)
    slots := Function.update t.slots e
      (some (setSlot ((t.slots e).getD []) slot group)) }

/-- What gives an endpoint a slot: the slot is its holder's or another's to keep, or it is free
after a step of the new table, and taken. -/
theorem insertNew_step (hc : c.Lawful) (hA : A.Sound c t.bucketKey) (hm : t.Memory c A)
    (address : NetworkAddress) (group : Bytes) (now : ℚ) :
    Sat (insertNew c address group now) t (fun taken t' =>
      (taken = false → t' = t) ∧ (taken = true → ∃ t₁ A₁, NewStep c t A t₁ A₁ ∧
        A₁ address.endpoint = A address.endpoint ∧
        t₁.occupant (c.newSlot t.bucketKey address.endpoint group) = none ∧
        t' = t₁.took address.endpoint (c.newSlot t.bucketKey address.endpoint group) group))
      fun _ _ => False := by
  unfold insertNew
  rw [sat_bind, sat_get]
  dsimp only
  cases hslot : t.occupant (c.newSlot t.bucketKey address.endpoint group) with
  | none =>
    refine ⟨fun h => Bool.noConfusion h, fun _ => ⟨t, A, .refl hA hm, rfl, hslot, rfl⟩⟩
  | some holder =>
    dsimp only
    by_cases hown : holder = address.endpoint
    · rw [if_pos hown]
      exact ⟨fun _ => rfl, fun h => Bool.noConfusion h⟩
    · obtain ⟨entry, he, hplace, -⟩ := hm.holder hslot
      rw [if_neg hown, hm.rows_of he, sat_bind_of_ok lookup_some, hm.slots_of_new he hplace,
        sat_bind_of_ok lookup_some]
      split
      · obtain ⟨t₁, A₁, hok, hstep, hfree, hother, -⟩ := clearSlot_step hc hA hm hslot
        rw [sat_bind_of_ok hok]
        refine ⟨fun h => Bool.noConfusion h, fun _ => ⟨t₁, A₁, hstep, ?_, ?_, rfl⟩⟩
        · exact hother _ (Ne.symm hown)
        · rw [hfree, Function.update_self]
      · exact ⟨fun _ => rfl, fun h => Bool.noConfusion h⟩

theorem setSlot_of_not_mem {slots : List (Slot × Bytes)} (h : slot ∉ slots.map Prod.fst) :
    setSlot slots slot group = slots ++ [(slot, group)] := by
  unfold setSlot
  rw [if_neg h]

/-- The maps give a slot to one endpoint. -/
theorem occupant_took (hfree : t.occupant slot = none) {slots : List Slot}
    (he : ∀ s, t.occupant s = some e ↔ s ∈ slots) (s : Slot) (e' : Endpoint) :
    Function.update t.occupant slot (some e) s = some e' ↔
      if e' = e then s ∈ slots ++ [slot] else t.occupant s = some e' := by
  rw [List.mem_append, List.mem_singleton]
  by_cases hs : s = slot
  · subst hs
    rw [Function.update_self, hfree]
    by_cases hsame : e' = e
    · rw [if_pos hsame, hsame]
      exact iff_of_true rfl (.inr rfl)
    · rw [if_neg hsame]
      apply iff_of_false
      · exact fun h => hsame (Option.some.inj h).symm
      · exact nofun
  · rw [Function.update_of_ne hs]
    by_cases hsame : e' = e
    · rw [if_pos hsame, hsame, he]
      exact (or_iff_left hs).symm
    · rw [if_neg hsame]

/-- **A held endpoint takes a further slot.** -/
theorem newStep_further (hc : c.Lawful) (hA : A.Sound c t.bucketKey) (hm : t.Memory c A)
    (he : A e = some entry) (hnew : ¬ entry.HasLeft)
    (hroom : entry.groups.length < newBucketsPerAddress) (hshort : group.length < 256)
    (hfree : t.occupant (c.newSlot t.bucketKey e group) = none) :
    ∃ t' A', putSources c e (t.took e (c.newSlot t.bucketKey e group) group) = .ok () t' ∧
      NewStep c t A t' A' ∧ (A' e).map Entry.row = some entry.row := by
  have hplace := Entry.place_of_not_hasLeft hnew
  have hentry := hA.entry e entry he
  have hgroups := hentry.place
  rw [hplace] at hgroups
  obtain ⟨-, -, hnodup, hall⟩ := hgroups
  have hslot : c.newSlot t.bucketKey e group ∉ entry.groups.map (c.newSlot t.bucketKey e) := by
    intro hmem
    exact hm.free hfree e ⟨entry, he, hmem⟩
  have hmap : (entry.groups ++ [group]).map (c.newSlot t.bucketKey e) =
      entry.groups.map (c.newSlot t.bucketKey e) ++ [c.newSlot t.bucketKey e group] := by
    rw [List.map_append]
    rfl
  have htook : t.took e (c.newSlot t.bucketKey e group) group =
      { t with
        occupant := Function.update t.occupant (c.newSlot t.bucketKey e group) (some e)
        slots := Function.update t.slots e
          (some ((entry.groups ++ [group]).map fun group =>
            (c.newSlot t.bucketKey e group, group))) } := by
    unfold took
    rw [hm.slots_of_new he hplace, Option.getD_some, setSlot_of_not_mem, List.map_append]
    · rfl
    · rw [List.map_map]
      exact hslot
  have hsound : Addrman.Sound c t.bucketKey
      (Function.update A e (some { entry with place := .new (entry.groups ++ [group]) })) := by
    apply hA.update
    · intro entry' hentry'
      obtain rfl := Option.some.inj hentry'
      refine ⟨hentry.row, hentry.storable, hentry.source, ?_, ?_, ?_, ?_⟩
      · exact List.append_ne_nil_of_right_ne_nil _ (List.cons_ne_nil _ _)
      · rw [List.length_append, List.length_singleton]
        exact hroom
      · rw [hmap]
        exact hnodup.append (List.nodup_singleton _)
          (List.disjoint_singleton.mpr hslot)
      · intro group' hgroup'
        rw [List.mem_append, List.mem_singleton] at hgroup'
        rcases hgroup' with hgroup' | rfl
        · exact hall group' hgroup'
        · exact hshort
    · intro entry' hentry' s hs e' hholds
      obtain rfl := Option.some.inj hentry'
      rw [Entry.groups_of_place rfl, hmap, List.mem_append, List.mem_singleton] at hs
      rcases hs with hs | rfl
      · exact hA.new e' e s hholds ⟨entry, he, hs⟩
      · exact absurd hholds (hm.free hfree e')
    · intro entry' answered hentry' hanswered
      obtain rfl := Option.some.inj hentry'
      cases hanswered
  have hoccupant : ∀ s e', Function.update t.occupant (c.newSlot t.bucketKey e group) (some e) s =
      some e' ↔ if e' = e then s ∈ (entry.groups ++ [group]).map (c.newSlot t.bucketKey e)
        else t.occupant s = some e' := by
    intro s e'
    rw [hmap]
    apply occupant_took hfree
    intro s
    rw [hm.occupant]
    unfold Addrman.HoldsNew
    rw [he]
    simp
  obtain ⟨t', hok, hstep, -, -⟩ := newStep_groups hc hm he hnew hoccupant hsound
  rw [htook]
  refine ⟨t', _, hok, hstep, ?_⟩
  rw [Function.update_self]
  rfl

/-- A table that holds a row for a new endpoint. -/
def adopted (c : AddressCode) (t : PeerDb) (row : NetworkAddress) (group : Bytes) : PeerDb :=
  { t with
    rows := Function.update t.rows row.endpoint (some row)
    addresses := insert row t.addresses
    knownKeys := insert (c.endpointKey row.endpoint) t.knownKeys
    source := Function.update t.source row.endpoint (some group) }

theorem adopt_eq (row : NetworkAddress) (group : Bytes) :
    adopt c row group t = .ok () (t.adopted c row group) := rfl

theorem Memory.addresses_adopted (hm : t.Memory c A) {row : NetworkAddress}
    (he : A row.endpoint = none) (a : NetworkAddress) :
    a ∈ insert row t.addresses ↔
      if a.endpoint = row.endpoint then some row = some a else a ∈ t.addresses := by
  have hrow : t.rows row.endpoint = none := (hm.none_iff).mpr he
  rw [Finset.mem_insert]
  by_cases hsame : a.endpoint = row.endpoint
  · rw [if_pos hsame, hm.addresses, hsame, hrow]
    constructor
    · rintro (rfl | ha)
      · rfl
      · cases ha
    · intro ha
      exact .inl (Option.some.inj ha).symm
  · rw [if_neg hsame]
    apply or_iff_right
    rintro rfl
    exact hsame rfl

theorem knownKeys_adopted (keys : Finset Bytes) (key k : Bytes) (entry : Entry) :
    k ∈ insert key keys ↔ if k = key then (some entry).isSome = true else k ∈ keys := by
  rw [Finset.mem_insert]
  by_cases hsame : k = key
  · rw [if_pos hsame]
    exact iff_of_true (.inl hsame) rfl
  · rw [if_neg hsame]
    exact or_iff_right hsame

/-- The maps where a new endpoint takes its slots. -/
theorem Memory.updates_new (hm : t.Memory c A) (hc : c.Lawful) {row : NetworkAddress}
    (he : A row.endpoint = none) {groups : List Bytes} {source : Bytes}
    {occupant : Slot → Option Endpoint} {stats : Endpoint → Option Stats}
    (hoccupant : ∀ slot e', occupant slot = some e' ↔
      if e' = row.endpoint then slot ∈ groups.map (c.newSlot t.bucketKey row.endpoint)
      else t.occupant slot = some e')
    (hstats : ∀ e', (t.stats e').isSome → (stats e').isSome) :
    Updates c t
      (PeerDb.adopted c { t with
        occupant := occupant
        slots := Function.update t.slots row.endpoint
          (some (groups.map fun group => (c.newSlot t.bucketKey row.endpoint group, group)))
        stats := stats } row source)
      row.endpoint (some ⟨row, source, .new groups⟩) := by
  have hu := hm.updates hc row.endpoint
  rw [he] at hu
  refine ⟨rfl, rfl, rfl, hm.addresses_adopted he, fun k => knownKeys_adopted _ _ k _, rfl, ?_, ?_,
    hu.triedSlotOf, hu.triedOccupant, ?_, hu.activeIndex, ?_⟩
  · intro s e'
    show occupant s = some e' ↔ _
    rw [hoccupant]
    by_cases hsame : e' = row.endpoint
    · rw [if_pos hsame, if_pos hsame, exists_some]
      exact Iff.rfl
    · rw [if_neg hsame, if_neg hsame]
  · intro e'
    show e' ∈ t.triedEndpoints ↔ _
    rw [hu.triedEndpoints e']
    by_cases hsame : e' = row.endpoint
    · rw [if_pos hsame, if_pos hsame, exists_some]
      exact iff_of_false not_exists_none (Entry.not_hasLeft rfl)
    · rw [if_neg hsame, if_neg hsame]
  · intro a
    show a ∈ t.activeAddresses ↔ _
    rw [hu.activeAddresses a]
    by_cases hsame : a.endpoint = row.endpoint
    · rw [if_pos hsame, if_pos hsame, exists_some]
      exact iff_of_false not_exists_none nofun
    · rw [if_neg hsame, if_neg hsame]
  · intro hdb e' he'
    exact hstats e' (hm.stats hdb e' he')

theorem Memory.updates_adopted (hm : t.Memory c A) (hc : c.Lawful) {row : NetworkAddress}
    (he : A row.endpoint = none)
    (hfree : t.occupant (c.newSlot t.bucketKey row.endpoint group) = none) :
    Updates c t
      ((t.took row.endpoint (c.newSlot t.bucketKey row.endpoint group) group).adopted c row group)
      row.endpoint (some ⟨row, group, .new [group]⟩) := by
  have hslots : t.slots row.endpoint = none := by
    rw [hm.slots, he]
    rfl
  have hheld : ∀ s, t.occupant s = some row.endpoint ↔ s ∈ ([] : List Slot) := by
    intro s
    rw [hm.occupant]
    unfold Addrman.HoldsNew
    rw [he]
    simp
  have htook : t.took row.endpoint (c.newSlot t.bucketKey row.endpoint group) group =
      { t with
        occupant := Function.update t.occupant (c.newSlot t.bucketKey row.endpoint group)
          (some row.endpoint)
        slots := Function.update t.slots row.endpoint
          (some ([group].map fun group => (c.newSlot t.bucketKey row.endpoint group, group))) } := by
    unfold took
    rw [hslots]
    rfl
  rw [htook]
  exact hm.updates_new hc he (occupant_took hfree hheld) fun _ => id

/-- **A new endpoint takes a slot**, and is known. -/
theorem newStep_adopted (hc : c.Lawful) (hA : A.Sound c t.bucketKey) (hm : t.Memory c A)
    {row : NetworkAddress} (he : A row.endpoint = none)
    (hstorable : c.storable row.endpoint.host = true) (hshort : group.length < 256)
    (hfree : t.occupant (c.newSlot t.bucketKey row.endpoint group) = none) :
    ∃ t₁, putSources c row.endpoint
        ((t.took row.endpoint (c.newSlot t.bucketKey row.endpoint group) group).adopted c row
          group) = .ok () t₁ ∧
      NewStep c t A (t₁.staged (c.rowKey .known row.endpoint) (some (c.serialize row)))
        (Function.update A row.endpoint (some ⟨row, group, .new [group]⟩)) := by
  have hself : Function.update A row.endpoint (some ⟨row, group, .new [group]⟩) row.endpoint =
      some ⟨row, group, .new [group]⟩ := Function.update_self ..
  have hsound : Addrman.Sound c t.bucketKey
      (Function.update A row.endpoint (some ⟨row, group, .new [group]⟩)) := by
    apply hA.update
    · intro entry' hentry'
      obtain rfl := Option.some.inj hentry'
      have hone : [group].length ≤ newBucketsPerAddress := by
        show 1 ≤ 8
        omega
      refine ⟨rfl, hstorable, hshort, List.cons_ne_nil _ _, hone, List.nodup_singleton _, ?_⟩
      intro group' hgroup'
      rw [List.mem_singleton.mp hgroup']
      exact hshort
    · intro entry' hentry' s hs e' hholds
      obtain rfl := Option.some.inj hentry'
      obtain rfl := List.mem_singleton.mp hs
      exact absurd hholds (hm.free hfree e')
    · intro entry' answered hentry' hanswered
      obtain rfl := Option.some.inj hentry'
      cases hanswered
  have hm' := hm.update hc (hm.updates_adopted hc he hfree)
  refine ⟨_, putSources_eq hm' hself (hsound.entry row.endpoint _ hself), ?_⟩
  refine ⟨hsound, (hm'.staged _ _).staged _ _, ?_, ?_, rfl, rfl, rfl, fun _ => .inl rfl, ?_⟩
  · intro R hR
    have hR' : ((t.took row.endpoint (c.newSlot t.bucketKey row.endpoint group) group).adopted c
      row group).Stored c R := hR
    refine ⟨_, (hR'.staged hc .source row.endpoint _).staged hc .known row.endpoint _,
      Addrman.follows_update ?_ ?_⟩
    · intro kind e' hne
      rw [setRecord_of_ne hne, setRecord_of_ne hne]
    · intro kind hstats
      cases kind with
      | known =>
        rw [setRecord_self]
        exact .inl rfl
      | answered =>
        rw [setRecord_of_kind (by decide), setRecord_of_kind (by decide)]
        refine .inr ⟨rfl, ?_⟩
        unfold Addrman.records
        rw [he]
        rfl
      | source =>
        rw [setRecord_of_kind (by decide), setRecord_self]
        exact .inl rfl
      | stats => exact absurd rfl hstats
  · apply Addrman.sameLeft_update
    · intro entry' hentry'
      rw [he] at hentry'
      cases hentry'
    · intro entry' hentry'
      obtain rfl := Option.some.inj hentry'
      exact Entry.not_hasLeft rfl
  · intro e' he'
    refine ⟨he', rfl, ?_⟩
    intro hsome
    by_cases hsame : e' = row.endpoint
    · rw [hsame, hself]
      rfl
    · rw [Function.update_of_ne hsame]
      exact hsome

end PeerDb

end BtclibNode
