/-
# A table loaded from its store

A store that holds the rows of some entries is read back as those entries: each row takes the
slots it had, as no other row has them.
-/
import Mathlib
import BtclibNode.PeerDb.Handshakes

namespace BtclibNode

open StateExcept

variable {c : AddressCode} {t t' : PeerDb} {A B : Addrman} {e : Endpoint} {entry : Entry}
  {slot : Slot} {d : PeerStore}

/-! ## Keys of rows -/

theorem AddressCode.prefix_rowKey (c : AddressCode) (kind kind' : RowKind) (e : Endpoint) :
    kind.key <+: c.rowKey kind' e ↔ kind = kind' := by
  constructor
  · rintro ⟨rest, hrest⟩
    exact (RowKind.key_append_inj hrest).1
  · rintro rfl
    exact List.prefix_append _ _

theorem AddressCode.drop_rowKey (c : AddressCode) (kind : RowKind) (e : Endpoint) :
    (c.rowKey kind e).drop kind.key.length = c.endpointKey e := List.drop_left

/-- The groups of an entry can be stored. -/
theorem Addrman.EntrySound.short_groups {key : Bytes}
    (hentry : Addrman.EntrySound c key e entry) :
    ∀ group ∈ entry.source :: entry.groups, group.length < 256 := by
  intro group hgroup
  rcases List.mem_cons.mp hgroup with rfl | hgroup
  · exact hentry.source
  · have hplace := hentry.place
    rw [Entry.place_of_not_hasLeft (Entry.not_hasLeft_of_mem hgroup)] at hplace
    exact hplace.2.2.2 group hgroup

/-! ## Reading -/

/-- What is read of those rows. -/
structure StoredRows.Reads (c : AddressCode) (A : Addrman) (keys : List Bytes)
    (stored : StoredRows) : Prop where
  known : ∀ x, x ∈ stored.known ↔ ∃ e entry, A e = some entry ∧ c.rowKey .known e ∈ keys ∧
    x = (c.endpointKey e, entry.row)
  nodup : (stored.known.map Prod.fst).Nodup
  answered : ∀ e, stored.answered[c.endpointKey e]? =
    if c.rowKey .answered e ∈ keys then (A e).bind Entry.answered else none
  sources : ∀ e, stored.sources[c.endpointKey e]? =
    if c.rowKey .source e ∈ keys then (A e).map fun entry => entry.source :: entry.groups else none
  keys : ∀ k, k ∈ stored.answered ∨ k ∈ stored.sources ∨ k ∈ stored.stats →
    ∃ e, c.endpointKey e = k

namespace PeerDb

theorem reads_empty (c : AddressCode) (A : Addrman) : StoredRows.empty.Reads c A [] := by
  refine ⟨?_, List.nodup_nil, ?_, ?_, ?_⟩
  · intro x
    apply iff_of_false List.not_mem_nil
    rintro ⟨e, entry, -, hmem, -⟩
    exact List.not_mem_nil hmem
  · intro e
    rw [if_neg List.not_mem_nil]
    rfl
  · intro e
    rw [if_neg List.not_mem_nil]
    rfl
  · rintro k (hk | hk | hk) <;> exact absurd hk Std.ExtTreeMap.not_mem_empty

theorem mem_keys_append (hc : c.Lawful) (keys : List Bytes) (kind kind' : RowKind)
    (e e' : Endpoint) : c.rowKey kind e ∈ keys ++ [c.rowKey kind' e'] ↔
      c.rowKey kind e ∈ keys ∨ kind = kind' ∧ e = e' := by
  rw [List.mem_append, List.mem_singleton]
  constructor
  · rintro (hmem | hsame)
    · exact .inl hmem
    · exact .inr (c.rowKey_inj hc hsame)
  · rintro (hmem | ⟨rfl, rfl⟩)
    · exact .inl hmem
    · exact .inr rfl

end PeerDb

open PeerDb

section Rows

variable {keys : List Bytes} {stored : StoredRows}

theorem StoredRows.Reads.known_row (hr : stored.Reads c A keys) (hc : c.Lawful)
    (he : A e = some entry) (hnew : c.rowKey .known e ∉ keys) :
    StoredRows.Reads c A (keys ++ [c.rowKey .known e])
      { stored with known := stored.known ++ [(c.endpointKey e, entry.row)] } := by
  refine ⟨?_, ?_, ?_, ?_, hr.keys⟩
  · intro x
    show x ∈ stored.known ++ _ ↔ _
    rw [List.mem_append, List.mem_singleton, hr.known]
    constructor
    · rintro (⟨e', entry', he', hmem, hx⟩ | hx)
      · exact ⟨e', entry', he', List.mem_append_left _ hmem, hx⟩
      · exact ⟨e, entry, he, List.mem_append_right _ List.mem_cons_self, hx⟩
    · rintro ⟨e', entry', he', hmem, hx⟩
      rcases (mem_keys_append hc keys _ _ _ _).mp hmem with hmem | ⟨-, rfl⟩
      · exact .inl ⟨e', entry', he', hmem, hx⟩
      · rw [he] at he'
        obtain rfl := Option.some.inj he'
        exact .inr hx
  · show ((stored.known ++ _).map Prod.fst).Nodup
    rw [List.map_append]
    apply hr.nodup.append (List.nodup_singleton _)
    rw [List.disjoint_singleton]
    intro hmem
    obtain ⟨x, hx, hkey⟩ := List.mem_map.mp hmem
    obtain ⟨e', entry', he', hmem', rfl⟩ := (hr.known x).mp hx
    rw [c.endpointKey_inj hc hkey] at hmem'
    exact hnew hmem'
  · intro e'
    show stored.answered[c.endpointKey e']? = _
    rw [hr.answered]
    simp [mem_keys_append hc]
  · intro e'
    show stored.sources[c.endpointKey e']? = _
    rw [hr.sources]
    simp [mem_keys_append hc]

theorem StoredRows.Reads.answered_row (hr : stored.Reads c A keys) (hc : c.Lawful)
    (he : A e = some entry) {a : NetworkAddress} (ha : entry.answered = some a) :
    StoredRows.Reads c A (keys ++ [c.rowKey .answered e])
      { stored with answered := stored.answered.insert (c.endpointKey e) a } := by
  refine ⟨?_, hr.nodup, ?_, ?_, ?_⟩
  · intro x
    show x ∈ stored.known ↔ _
    rw [hr.known]
    simp [mem_keys_append hc]
  · intro e'
    show (stored.answered.insert (c.endpointKey e) a)[c.endpointKey e']? = _
    rw [FiniteMap.getElem?_insert]
    by_cases hsame : e = e'
    · subst hsame
      rw [if_pos rfl, if_pos (List.mem_append_right _ List.mem_cons_self), he]
      exact ha.symm
    · have hkey : c.endpointKey e ≠ c.endpointKey e' := fun h => hsame (c.endpointKey_inj hc h)
      rw [if_neg hkey, hr.answered]
      simp [mem_keys_append hc, Ne.symm hsame]
  · intro e'
    show stored.sources[c.endpointKey e']? = _
    rw [hr.sources]
    simp [mem_keys_append hc]
  · rintro k (hk | hk | hk)
    · rw [FiniteMap.mem_iff_exists] at hk
      obtain ⟨b, hb⟩ := hk
      rw [FiniteMap.getElem?_insert] at hb
      by_cases hsame : c.endpointKey e = k
      · exact ⟨e, hsame⟩
      · rw [if_neg hsame] at hb
        exact hr.keys k (.inl ((FiniteMap.mem_iff_exists _ _).mpr ⟨b, hb⟩))
    · exact hr.keys k (.inr (.inl hk))
    · exact hr.keys k (.inr (.inr hk))

theorem StoredRows.Reads.source_row (hr : stored.Reads c A keys) (hc : c.Lawful)
    (he : A e = some entry) :
    StoredRows.Reads c A (keys ++ [c.rowKey .source e])
      { stored with
        sources := stored.sources.insert (c.endpointKey e) (entry.source :: entry.groups) } := by
  refine ⟨?_, hr.nodup, ?_, ?_, ?_⟩
  · intro x
    show x ∈ stored.known ↔ _
    rw [hr.known]
    simp [mem_keys_append hc]
  · intro e'
    show stored.answered[c.endpointKey e']? = _
    rw [hr.answered]
    simp [mem_keys_append hc]
  · intro e'
    show (stored.sources.insert (c.endpointKey e) _)[c.endpointKey e']? = _
    rw [FiniteMap.getElem?_insert]
    by_cases hsame : e = e'
    · subst hsame
      rw [if_pos rfl, if_pos (List.mem_append_right _ List.mem_cons_self), he]
      rfl
    · have hkey : c.endpointKey e ≠ c.endpointKey e' := fun h => hsame (c.endpointKey_inj hc h)
      rw [if_neg hkey, hr.sources]
      simp [mem_keys_append hc, Ne.symm hsame]
  · rintro k (hk | hk | hk)
    · exact hr.keys k (.inl hk)
    · rw [FiniteMap.mem_iff_exists] at hk
      obtain ⟨b, hb⟩ := hk
      rw [FiniteMap.getElem?_insert] at hb
      by_cases hsame : c.endpointKey e = k
      · exact ⟨e, hsame⟩
      · rw [if_neg hsame] at hb
        exact hr.keys k (.inr (.inl ((FiniteMap.mem_iff_exists _ _).mpr ⟨b, hb⟩)))
    · exact hr.keys k (.inr (.inr hk))

theorem StoredRows.Reads.stats_row (hr : stored.Reads c A keys) (hc : c.Lawful) (e : Endpoint)
    (value : Bytes) :
    StoredRows.Reads c A (keys ++ [c.rowKey .stats e])
      { stored with stats := stored.stats.insert (c.endpointKey e) value } := by
  refine ⟨?_, hr.nodup, ?_, ?_, ?_⟩
  · intro x
    show x ∈ stored.known ↔ _
    rw [hr.known]
    simp [mem_keys_append hc]
  · intro e'
    show stored.answered[c.endpointKey e']? = _
    rw [hr.answered]
    simp [mem_keys_append hc]
  · intro e'
    show stored.sources[c.endpointKey e']? = _
    rw [hr.sources]
    simp [mem_keys_append hc]
  · rintro k (hk | hk | hk)
    · exact hr.keys k (.inl hk)
    · exact hr.keys k (.inr (.inl hk))
    · rw [FiniteMap.mem_iff_exists] at hk
      obtain ⟨b, hb⟩ := hk
      rw [FiniteMap.getElem?_insert] at hb
      by_cases hsame : c.endpointKey e = k
      · exact ⟨e, hsame⟩
      · rw [if_neg hsame] at hb
        exact hr.keys k (.inr (.inr ((FiniteMap.mem_iff_exists _ _).mpr ⟨b, hb⟩)))

end Rows

namespace PeerDb

/-- A store of those rows is read as those entries, and nothing is to be deleted of it. -/
theorem readStore_sat (hc : c.Lawful) {key : Bytes} (hA : A.Sound c key) :
    ∀ (rows : List (Bytes × Bytes)) (keys : List Bytes) (stored : StoredRows),
      stored.Reads c A keys → (keys ++ rows.map Prod.fst).Nodup →
      (∀ row ∈ rows, ∃ kind e, row.1 = c.rowKey kind e ∧
        (kind ≠ .stats → A.records c kind e = some row.2)) →
      Sat (readStore c rows stored) t
        (fun stored' t' => t' = t ∧ stored'.Reads c A (keys ++ rows.map Prod.fst))
        fun _ _ => False := by
  intro rows
  induction rows with
  | nil =>
    intro keys stored hr _ _
    rw [List.map_nil, List.append_nil]
    exact ⟨rfl, hr⟩
  | cons row rows ih =>
    intro keys stored hr hnodup hrows
    obtain ⟨key', value⟩ := row
    obtain ⟨kind, e, rfl, hvalue⟩ := hrows (key', value) List.mem_cons_self
    have hrest : ∀ row ∈ rows, ∃ kind e, row.1 = c.rowKey kind e ∧
        (kind ≠ .stats → A.records c kind e = some row.2) :=
      fun row hrow => hrows row (List.mem_cons_of_mem _ hrow)
    have happend : keys ++ List.map Prod.fst ((c.rowKey kind e, value) :: rows) =
        (keys ++ [c.rowKey kind e]) ++ rows.map Prod.fst := by
      rw [List.map_cons, List.append_assoc]
      rfl
    rw [happend] at hnodup ⊢
    have hnew : c.rowKey kind e ∉ keys := by
      have hfront := (List.nodup_append.mp hnodup).1
      intro hmem
      exact (List.nodup_append.mp hfront).2.2 _ hmem _ List.mem_cons_self rfl
    have hneg : ∀ kind', kind' ≠ kind → ¬ kind'.key <+: c.rowKey kind e :=
      fun kind' hne h => hne ((c.prefix_rowKey kind' kind e).mp h)
    have hsource : kind ≠ .source → ¬ sourceKey <+: c.rowKey kind e :=
      fun hne => hneg .source hne.symm
    have hstats : kind ≠ .stats → ¬ statsKey <+: c.rowKey kind e :=
      fun hne => hneg .stats hne.symm
    have hpos : kind.key <+: c.rowKey kind e := (c.prefix_rowKey kind kind e).mpr rfl
    have hdrop := c.drop_rowKey kind e
    unfold readStore
    cases kind with
    | known =>
      obtain ⟨entry, he, hserialized⟩ := Option.bind_eq_some_iff.mp (hvalue (by decide))
      obtain rfl := Option.some.inj hserialized
      have hentry := hA.entry e entry he
      have hstorable : ¬ c.storable entry.row.endpoint.host = false := by
        rw [hentry.row, hentry.storable]
        decide
      rw [if_neg (hsource (by decide)), if_neg (hstats (by decide)), if_pos (.inl hpos),
        hc.parse_serialize]
      dsimp only
      have hknown : knownKey <+: c.rowKey .known e := hpos
      rw [if_neg hstorable, if_pos hknown]
      have hread := ih _ _ (hr.known_row hc he hnew) hnodup hrest
      rw [← hdrop] at hread
      exact hread
    | answered =>
      obtain ⟨entry, he, hserialized⟩ := Option.bind_eq_some_iff.mp (hvalue (by decide))
      obtain ⟨a, ha, rfl⟩ := Option.map_eq_some_iff.mp hserialized
      have hentry := hA.entry e entry he
      have hend : a.endpoint = e :=
        (Sound.answered_fits hA he (Entry.place_of_answered ha)).1
      have hstorable : ¬ c.storable a.endpoint.host = false := by
        rw [hend, hentry.storable]
        decide
      rw [if_neg (hsource (by decide)), if_neg (hstats (by decide)), if_pos (.inr hpos),
        hc.parse_serialize]
      dsimp only
      have hknown : ¬ knownKey <+: c.rowKey .answered e := hneg .known (by decide)
      rw [if_neg hstorable, if_neg hknown]
      have hread := ih _ _ (hr.answered_row hc he ha) hnodup hrest
      rw [← hdrop] at hread
      exact hread
    | source =>
      have hmine : sourceKey <+: c.rowKey .source e := hpos
      obtain ⟨entry, he, hserialized⟩ := Option.bind_eq_some_iff.mp (hvalue (by decide))
      obtain rfl := Option.some.inj hserialized
      have hshort : ∀ group ∈ entry.source :: entry.groups, group.length < 256 :=
        (hA.entry e entry he).short_groups
      rw [if_pos hmine, unpackGroups_packGroups hshort]
      have hread := ih _ _ (hr.source_row hc he) hnodup hrest
      rw [← hdrop] at hread
      exact hread
    | stats =>
      have hmine : statsKey <+: c.rowKey .stats e := hpos
      rw [if_neg (hsource (by decide)), if_pos hmine]
      have hread := ih _ _ (hr.stats_row hc e value) hnodup hrest
      rw [← hdrop] at hread
      exact hread

/-! ## Placing -/

section

attribute [local instance] lawfulBEq_slot

/-- A table where an endpoint took the slots of those groups. -/
def placing (c : AddressCode) (t : PeerDb) (e : Endpoint) (groups : List Bytes) : PeerDb :=
  { t with
    occupant := fun s =>
      if s ∈ groups.map (c.newSlot t.bucketKey e) then some e else t.occupant s
    slots := if groups = [] then t.slots else Function.update t.slots e
      (some (groups.map fun group => (c.newSlot t.bucketKey e group, group))) }

end

theorem slots_placing (he : t.slots e = none) (groups : List Bytes) :
    ((placing c t e groups).slots e).getD [] =
      groups.map fun group => (c.newSlot t.bucketKey e group, group) := by
  unfold placing
  dsimp only
  by_cases hnil : groups = []
  · rw [if_pos hnil, he, hnil]
    rfl
  · rw [if_neg hnil, Function.update_self]
    rfl

theorem placing_nil : placing c t e [] = t := by
  have hocc : (fun s => if s ∈ ([] : List Bytes).map (c.newSlot t.bucketKey e) then some e
      else t.occupant s) = t.occupant := by
    funext s
    exact if_neg List.not_mem_nil
  unfold placing
  rw [hocc, if_pos rfl]

/-- A further slot that is free is taken. -/
theorem took_placing {groups : List Bytes} {group : Bytes} (he : t.slots e = none)
    (hslot : c.newSlot t.bucketKey e group ∉ groups.map (c.newSlot t.bucketKey e)) :
    (placing c t e groups).took e (c.newSlot t.bucketKey e group) group =
      placing c t e (groups ++ [group]) := by
  have hmem : c.newSlot t.bucketKey e group ∉
      (groups.map fun group => (c.newSlot t.bucketKey e group, group)).map Prod.fst := by
    rw [List.map_map]
    exact hslot
  have hslots : ((placing c t e groups).took e (c.newSlot t.bucketKey e group) group).slots =
      (placing c t e (groups ++ [group])).slots := by
    have hcons : groups ++ [group] ≠ [] :=
      List.append_ne_nil_of_right_ne_nil _ (List.cons_ne_nil _ _)
    unfold took
    rw [slots_placing he, setSlot_of_not_mem hmem]
    unfold placing
    dsimp only
    rw [if_neg hcons, List.map_append]
    by_cases hnil : groups = []
    · rw [if_pos hnil]
      rfl
    · rw [if_neg hnil, Function.update_idem]
      rfl
  have hoccupant : ((placing c t e groups).took e (c.newSlot t.bucketKey e group)
      group).occupant = (placing c t e (groups ++ [group])).occupant := by
    funext s
    unfold took placing
    dsimp only
    by_cases hs : s = c.newSlot t.bucketKey e group
    · have hin : s ∈ (groups ++ [group]).map (c.newSlot t.bucketKey e) := by
        rw [hs, List.map_append]
        exact List.mem_append_right _ List.mem_cons_self
      rw [if_pos hin, hs, Function.update_self]
    · have hiff : s ∈ (groups ++ [group]).map (c.newSlot t.bucketKey e) ↔
          s ∈ groups.map (c.newSlot t.bucketKey e) := by
        rw [List.map_append, List.mem_append]
        exact or_iff_left fun h => hs (List.mem_singleton.mp h)
      rw [Function.update_of_ne hs]
      simp only [hiff]
  show PeerDb.mk _ _ _ _ _ _ _ _ _ _ _ _ _ _ _ _ _ _ = PeerDb.mk _ _ _ _ _ _ _ _ _ _ _ _ _ _ _ _ _ _
  congr 1

/-- The slots of a row are free, and it takes each by its group. -/
theorem restoreSlots_eq (primary : Bytes) (he : t.slots e = none) :
    ∀ groups placed : List Bytes,
      ((placed ++ groups).map (c.newSlot t.bucketKey e)).Nodup →
      (placed ++ groups).length ≤ newBucketsPerAddress →
      (∀ group ∈ groups, t.occupant (c.newSlot t.bucketKey e group) = none) →
      restoreSlots c e primary groups (placing c t e placed) =
        .ok () (placing c t e (placed ++ groups)) := by
  intro groups
  induction groups with
  | nil =>
    intro placed _ _ _
    rw [List.append_nil]
    rfl
  | cons group groups ih =>
    intro placed hnodup hlength hfree
    have happend : placed ++ group :: groups = (placed ++ [group]) ++ groups := by
      rw [List.append_assoc]
      rfl
    have hslot : c.newSlot t.bucketKey e group ∉ placed.map (c.newSlot t.bucketKey e) := by
      rw [List.map_append] at hnodup
      intro hmem
      exact (List.nodup_append.mp hnodup).2.2 _ hmem _ List.mem_cons_self rfl
    have hroom : ¬ newBucketsPerAddress ≤
        (((placing c t e placed).slots e).getD []).length := by
      rw [slots_placing he, List.length_map]
      rw [List.length_append, List.length_cons] at hlength
      omega
    have hempty : (placing c t e placed).occupant (c.newSlot t.bucketKey e group) = none := by
      show (if _ then _ else _) = none
      rw [if_neg hslot]
      exact hfree group List.mem_cons_self
    apply Sat.eq_ok
    unfold restoreSlots restoreSlot
    rw [sat_bind, sat_bind, sat_get, if_neg hroom]
    show Sat (if ((placing c t e placed).occupant (c.newSlot t.bucketKey e group)).isNone then _
      else _) _ _ _
    rw [hempty, if_pos (Option.isNone_none)]
    show Sat _ ((placing c t e placed).took e (c.newSlot t.bucketKey e group) group) _ _
    rw [took_placing he hslot, happend, sat_of_ok (ih _ (happend ▸ hnodup) (happend ▸ hlength)
      fun group' hgroup => hfree group' (List.mem_cons_of_mem _ hgroup))]
    exact ⟨rfl, rfl⟩

theorem truncate_natCast (n : ℕ) : truncate (n : ℚ) = n := by
  unfold truncate
  rw [if_pos (Rat.natCast_nonneg)]
  exact Rat.floor_intCast n

theorem fits_natCast {n : ℕ} (hn : n < 256 ^ 8) :
    0 ≤ truncate (n : ℚ) ∧ truncate (n : ℚ) < 256 ^ 8 := by
  rw [truncate_natCast]
  exact ⟨Int.natCast_nonneg n, Int.ofNat_lt.mpr hn⟩

/-- What is read back of stats fits where it came from. -/
theorem storedStats_fits (raw : Option Bytes) {tried : Option NetworkAddress}
    (htried : ∀ row, tried = some row → row.timestamp < 256 ^ 8) :
    (storedStats raw tried).Fits := by
  unfold storedStats
  cases raw with
  | none =>
    cases tried with
    | none => exact Stats.fits_fresh
    | some row => exact ⟨fits_natCast (htried row rfl), Stats.fits_fresh.2⟩
  | some raw =>
    cases tried with
    | none =>
      exact ⟨fits_natCast (LittleEndian.decode_take_lt raw 8),
        LittleEndian.decode_take_lt (raw.drop 8) 4⟩
    | some row =>
      exact ⟨fits_natCast (htried row rfl), LittleEndian.decode_take_lt (raw.drop 8) 4⟩

/-- The maps where a row takes its slot of the tried table again. -/
theorem Memory.updates_restored (hm : t.Memory c A) (hc : c.Lawful) {known row : NetworkAddress}
    (he : A known.endpoint = none) (hrow : row.endpoint = known.endpoint) {source : Bytes}
    (hslot : slot = c.triedSlot t.bucketKey known.endpoint) (hfree : t.triedOccupant slot = none)
    (stats : Stats) :
    Updates c t (PeerDb.retried { (PeerDb.adopted c { t with
        stats := Function.update t.stats known.endpoint (some stats) } known source) with
        triedEndpoints := insert known.endpoint t.triedEndpoints }
      (t.activeAddresses ++ [row])
      (Function.update t.activeIndex (c.endpointKey known.endpoint) (some t.activeAddresses.length))
      (Function.update t.triedSlotOf (c.endpointKey known.endpoint) (some slot))
      (Function.update t.triedOccupant slot (some (c.endpointKey known.endpoint))))
      known.endpoint (some ⟨known, source, .tried row⟩) := by
  have hu := hm.updates hc known.endpoint
  rw [he] at hu
  have hnone : t.triedSlotOf (c.endpointKey known.endpoint) = none := by
    rw [Option.eq_none_iff_forall_ne_some]
    intro s hs
    obtain ⟨e', ⟨entry', a, he', hplace', -⟩, hkey⟩ := (hm.triedSlotOf _ _).mp hs
    rw [c.endpointKey_inj hc hkey, he] at he'
    cases he'
  have hnew : ∀ b ∈ t.activeAddresses, b.endpoint ≠ known.endpoint := by
    intro b hb hsame
    obtain ⟨entry', he', hplace'⟩ := (hm.activeAddresses b).mp hb
    rw [hsame, he] at he'
    cases he'
  refine ⟨rfl, rfl, rfl, hm.addresses_adopted he, fun k => knownKeys_adopted _ _ k _, ?_, ?_, ?_,
    ?_, ?_, ?_, ?_, ?_⟩
  · exact hu.slots
  · intro s e'
    show t.occupant s = some e' ↔ _
    rw [hu.occupant s e']
    by_cases hsame : e' = known.endpoint
    · rw [if_pos hsame, if_pos hsame, exists_some]
      exact iff_of_false not_exists_none List.not_mem_nil
    · rw [if_neg hsame, if_neg hsame]
  · intro e'
    show e' ∈ insert known.endpoint t.triedEndpoints ↔ _
    rw [Finset.mem_insert]
    by_cases hsame : e' = known.endpoint
    · rw [if_pos hsame, exists_some]
      exact iff_of_true (.inl hsame) (Entry.hasLeft_of_tried rfl)
    · rw [if_neg hsame]
      exact or_iff_right hsame
  · rw [hslot]
    rfl
  · intro s k
    show Function.update t.triedOccupant slot (some (c.endpointKey known.endpoint)) s = some k ↔
      Function.update t.triedSlotOf (c.endpointKey known.endpoint) (some slot) k = some s
    by_cases hs : s = slot
    · rw [hs, Function.update_self]
      by_cases hk : k = c.endpointKey known.endpoint
      · rw [hk, Function.update_self]
        exact iff_of_true rfl rfl
      · rw [Function.update_of_ne hk, ← hm.triedOccupant, hfree]
        exact iff_of_false (fun h => hk (Option.some.inj h).symm) nofun
    · rw [Function.update_of_ne hs, hm.triedOccupant]
      by_cases hk : k = c.endpointKey known.endpoint
      · rw [hk, Function.update_self, hnone]
        exact iff_of_false nofun fun h => hs (Option.some.inj h).symm
      · rw [Function.update_of_ne hk]
  · intro x
    show x ∈ t.activeAddresses ++ [row] ↔ _
    rw [List.mem_append, List.mem_singleton]
    by_cases hsame : x.endpoint = known.endpoint
    · rw [if_pos hsame, exists_some]
      constructor
      · rintro (hx | rfl)
        · exact absurd hsame (hnew x hx)
        · rfl
      · intro hx
        exact .inr (Place.tried.inj hx).symm
    · rw [if_neg hsame]
      apply or_iff_left
      rintro rfl
      exact hsame hrow
  · have hkeys : ∀ b ∈ t.activeAddresses, c.endpointKey b.endpoint ≠ c.endpointKey row.endpoint := by
      intro b hb hkey
      exact hnew b hb ((c.endpointKey_inj hc hkey).trans hrow)
    have hpush := hm.activeIndex.push hkeys
    rw [hrow] at hpush
    exact hpush
  · intro hdb e' he'
    show (Function.update t.stats known.endpoint (some stats) e').isSome
    rcases Finset.mem_insert.mp he' with rfl | he'
    · rw [Function.update_self]
      rfl
    · exact isSome_update (hm.stats hdb e' he')

/-- What placing rows leaves as it is. -/
structure Placing (t t' : PeerDb) : Prop where
  bucketKey : t'.bucketKey = t.bucketKey
  db : t'.db = t.db
  batch : t'.batch = t.batch
  collisions : t'.collisions = t.collisions
  fit : t.StatsFit → t'.StatsFit

theorem StatsFit.placed (hfit : t.StatsFit) {stats : Stats} (hstats : stats.Fits) (e : Endpoint) :
    PeerDb.StatsFit { t with stats := Function.update t.stats e (some stats) } :=
  hfit.tries t.lastTry e fun _ => hstats

/-- **A stored row is placed where it was**: its slots are free. -/
theorem placeOne_sat (hc : c.Lawful) (hm : t.Memory c B) (hB : B e = none)
    (hentry : Addrman.EntrySound c t.bucketKey e entry) (hstill : entry.place ≠ .moving)
    (hnew : ∀ s ∈ entry.groups.map (c.newSlot t.bucketKey e), t.occupant s = none)
    (htried : ∀ a, entry.place = .tried a → t.triedOccupant (c.triedSlot t.bucketKey e) = none)
    {stored : StoredRows}
    (hsources : stored.sources[c.endpointKey e]? = some (entry.source :: entry.groups))
    (hanswered : stored.answered[c.endpointKey e]? = entry.answered) :
    Sat (placeOne c (c.endpointKey e) entry.row stored) t
      (fun _ t' => t'.Memory c (Function.update B e (some entry)) ∧ Placing t t')
      fun _ _ => False := by
  obtain ⟨known, source, place⟩ := entry
  obtain rfl : known.endpoint = e := hentry.row
  have hplace := hentry.place
  unfold placeOne
  dsimp only
  rw [hsources, hanswered]
  cases place with
  | moving => exact absurd rfl hstill
  | tried row =>
    obtain ⟨hrow, htime⟩ := hplace
    have hfree := htried row rfl
    show Sat (get >>= fun t' => _) _ _ _
    rw [sat_bind, sat_get, sat_bind, sat_get]
    dsimp only
    rw [hfree, if_pos (Option.isNone_none), sat_bind, sat_modify, sat_bind_of_ok (adopt_eq _ _),
      sat_bind, sat_modify, sat_of_ok (triedInsert_eq _ _ _)]
    have hfits : (storedStats stored.stats[c.endpointKey known.endpoint]? (some row)).Fits := by
      apply storedStats_fits
      rintro _ hsame
      obtain rfl := Option.some.inj hsame
      exact htime
    refine ⟨hm.update hc (hm.updates_restored hc hB hrow rfl hfree _), rfl, rfl, rfl, rfl, ?_⟩
    intro hfit
    exact hfit.placed hfits known.endpoint
  | new groups =>
    obtain ⟨hne, hlength, hnodup, hshort⟩ := hplace
    have hslots : t.slots known.endpoint = none := by
      rw [hm.slots, hB]
      rfl
    have hfree : ∀ group ∈ groups,
        t.occupant (c.newSlot t.bucketKey known.endpoint group) = none :=
      fun group hgroup => hnew _ (List.mem_map.mpr ⟨group, hgroup, rfl⟩)
    have hrestore := restoreSlots_eq source hslots groups [] hnodup hlength hfree
    rw [placing_nil] at hrestore
    have hplaced : (placing c t known.endpoint groups).slots known.endpoint =
        some (groups.map fun group => (c.newSlot t.bucketKey known.endpoint group, group)) := by
      unfold placing
      dsimp only
      rw [if_neg hne, Function.update_self]
    have hgroups : source :: groups = source ::
        ((groups.map fun group => (c.newSlot t.bucketKey known.endpoint group, group)).map
          Prod.snd).eraseDups := by
      have hmap : (groups.map fun group => (c.newSlot t.bucketKey known.endpoint group,
          group)).map Prod.snd = groups := by
        rw [List.map_map]
        exact List.map_id groups
      rw [hmap, eraseDups_of_nodup (hnodup.of_map _)]
    have hfits : (storedStats stored.stats[c.endpointKey known.endpoint]? none).Fits := by
      apply storedStats_fits
      exact nofun
    show Sat (placeNew c (c.endpointKey known.endpoint) known (source :: groups) source
      (storedStats stored.stats[c.endpointKey known.endpoint]? none) false) t _ _
    generalize storedStats stored.stats[c.endpointKey known.endpoint]? none = stats at hfits ⊢
    unfold placeNew
    rw [List.tail_cons, if_neg hne]
    dsimp only
    rw [if_neg (by decide), sat_bind_of_ok hrestore, List.nil_append, sat_bind, sat_get, hplaced]
    dsimp only
    rw [sat_bind, sat_modify, sat_bind_of_ok (adopt_eq _ _), if_neg (fun h => h hgroups),
      if_neg (by decide)]
    have hoccupant : ∀ s e', (placing c t known.endpoint groups).occupant s = some e' ↔
        if e' = known.endpoint then s ∈ groups.map (c.newSlot t.bucketKey known.endpoint)
        else t.occupant s = some e' := by
      intro s e'
      show (if _ then _ else _) = some e' ↔ _
      by_cases hs : s ∈ groups.map (c.newSlot t.bucketKey known.endpoint)
      · rw [if_pos hs]
        by_cases hsame : e' = known.endpoint
        · rw [if_pos hsame, hsame]
          exact iff_of_true rfl hs
        · rw [if_neg hsame, hnew s hs]
          exact iff_of_false (fun h => hsame (Option.some.inj h).symm) nofun
      · rw [if_neg hs]
        by_cases hsame : e' = known.endpoint
        · rw [if_pos hsame, hsame, hm.occupant]
          apply iff_of_false _ hs
          rintro ⟨_, hheld, -⟩
          rw [hB] at hheld
          cases hheld
        · rw [if_neg hsame]
    have hkept : ∀ e', (t.stats e').isSome →
        (Function.update t.stats known.endpoint (some stats) e').isSome := fun _ => isSome_update
    have hupdates : Updates c t _ known.endpoint (some ⟨known, source, .new groups⟩) :=
      hm.updates_new hc hB hoccupant hkept
    have hmemory := hm.update hc hupdates
    have hstate : (placing c t known.endpoint groups).slots =
        Function.update t.slots known.endpoint
          (some (groups.map fun group =>
            (c.newSlot t.bucketKey known.endpoint group, group))) := if_neg hne
    rw [← hstate] at hmemory
    refine ⟨hmemory, rfl, rfl, rfl, rfl, ?_⟩
    intro hfit
    exact hfit.placed hfits known.endpoint

end PeerDb

theorem lawfulBEq_bytes : LawfulBEq Bytes := inferInstance

section

attribute [local instance] lawfulBEq_bytes

/-- The entries but for those of some rows. -/
def Addrman.without (c : AddressCode) (A : Addrman) (suffixes : List Bytes) : Addrman :=
  fun e => if c.endpointKey e ∈ suffixes then none else A e

end

theorem Addrman.without_nil (c : AddressCode) (A : Addrman) : A.without c [] = A := by
  funext e
  exact if_neg List.not_mem_nil

theorem Addrman.update_without (hc : c.Lawful) (he : A e = some entry) {suffixes : List Bytes}
    (hnew : c.endpointKey e ∉ suffixes) :
    Function.update (A.without c (c.endpointKey e :: suffixes)) e (some entry) =
      A.without c suffixes := by
  funext e'
  unfold Addrman.without
  by_cases hsame : e' = e
  · rw [hsame, Function.update_self, if_neg hnew, he]
  · have hkey : c.endpointKey e' ≠ c.endpointKey e := fun h => hsame (c.endpointKey_inj hc h)
    rw [Function.update_of_ne hsame]
    simp [hkey]

theorem Addrman.some_of_without {suffixes : List Bytes}
    (h : A.without c suffixes e = some entry) : A e = some entry := by
  unfold Addrman.without at h
  split at h
  · cases h
  · exact h

namespace PeerDb

theorem Placing.trans {t'' : PeerDb} (h : Placing t t') (h' : Placing t' t'') :
    Placing t t'' :=
  ⟨h'.bucketKey.trans h.bucketKey, h'.db.trans h.db, h'.batch.trans h.batch,
    h'.collisions.trans h.collisions, fun hfit => h'.fit (h.fit hfit)⟩

/-- **Every stored row is placed where it was**, whatever order they are read in. -/
theorem placeStored_sat (hc : c.Lawful) (hstill : ∀ e, ¬ A.Moving e) :
    ∀ (known : List (Bytes × NetworkAddress)) (stored : StoredRows) (t : PeerDb),
      A.Sound c t.bucketKey → t.Memory c (A.without c (known.map Prod.fst)) →
      (known.map Prod.fst).Nodup →
      (∀ x ∈ known, ∃ e entry, A e = some entry ∧ x = (c.endpointKey e, entry.row)) →
      (∀ e, c.endpointKey e ∈ known.map Prod.fst → stored.sources[c.endpointKey e]? =
        (A e).map fun entry => entry.source :: entry.groups) →
      (∀ k : Bytes, k ∉ known.map Prod.fst → stored.sources[k]? = none) →
      (∀ e, stored.answered[c.endpointKey e]? = (A e).bind Entry.answered) →
      (∀ k ∈ stored.stats, ∃ e, c.endpointKey e = k) →
      Sat (placeStored c known stored) t
        (fun left t' => t'.Memory c A ∧ Placing t t' ∧ (∀ k : Bytes, left.sources[k]? = none) ∧
          ∀ k ∈ left.stats, ∃ e, c.endpointKey e = k)
        fun _ _ => False := by
  intro known
  induction known with
  | nil =>
    intro stored t _ hm _ _ _ hsources _ hstats
    rw [List.map_nil, Addrman.without_nil] at hm
    exact ⟨hm, ⟨rfl, rfl, rfl, rfl, id⟩, fun k => hsources k List.not_mem_nil, hstats⟩
  | cons x known ih =>
    intro stored t hA hm hnodup hknown hsources hnone hanswered hstats
    obtain ⟨e, entry, he, rfl⟩ := hknown x List.mem_cons_self
    rw [List.map_cons] at hm hnodup hsources hnone
    dsimp only at hm hnodup hsources hnone
    obtain ⟨hfresh, hnodup⟩ := List.nodup_cons.mp hnodup
    have hB : A.without c (c.endpointKey e :: known.map Prod.fst) e = none :=
      if_pos List.mem_cons_self
    have hplace : entry.place ≠ .moving := fun hmoving => hstill e ⟨entry, he, hmoving⟩
    have hnew : ∀ s ∈ entry.groups.map (c.newSlot t.bucketKey e), t.occupant s = none := by
      intro s hs
      rw [Option.eq_none_iff_forall_ne_some]
      intro e' hholder
      obtain ⟨entry', he', hs'⟩ := (hm.occupant s e').mp hholder
      obtain rfl := hA.new e' e s ⟨entry', Addrman.some_of_without he', hs'⟩ ⟨entry, he, hs⟩
      rw [hB] at he'
      cases he'
    have htried : ∀ a, entry.place = .tried a →
        t.triedOccupant (c.triedSlot t.bucketKey e) = none := by
      intro a ha
      rw [Option.eq_none_iff_forall_ne_some]
      intro k hholder
      obtain ⟨e', ⟨entry', a', he', ha', hs'⟩, -⟩ := (hm.triedSlotOf _ _).mp
        ((hm.triedOccupant _ _).mp hholder)
      obtain rfl := hA.tried e' e _ ⟨entry', a', Addrman.some_of_without he', ha', hs'⟩
        ⟨entry, a, he, ha, rfl⟩
      rw [hB] at he'
      cases he'
    have hsource : stored.sources[c.endpointKey e]? = some (entry.source :: entry.groups) := by
      rw [hsources e List.mem_cons_self, he]
      rfl
    have hrow : stored.answered[c.endpointKey e]? = entry.answered := by
      rw [hanswered, he]
      rfl
    unfold placeStored
    rw [sat_bind]
    refine (placeOne_sat hc hm hB (hA.entry e entry he) hplace hnew htried hsource
      hrow).mono ?_ fun _ _ h => h
    rintro _ t₁ ⟨hm₁, hplaced⟩
    rw [Addrman.update_without hc he hfresh] at hm₁
    have hA₁ : A.Sound c t₁.bucketKey := by
      rw [hplaced.bucketKey]
      exact hA
    refine (ih { stored with
      sources := stored.sources.erase (c.endpointKey e)
      stats := stored.stats.erase (c.endpointKey e) } t₁ hA₁ hm₁ hnodup (fun x hx => hknown x (List.mem_cons_of_mem _ hx)) ?_ ?_
      hanswered ?_).mono ?_ fun _ _ h => h
    · intro e' he'
      have hne : c.endpointKey e ≠ c.endpointKey e' := by
        intro hsame
        rw [hsame] at hfresh
        exact hfresh he'
      show (stored.sources.erase _)[_]? = _
      rw [FiniteMap.getElem?_erase_ne _ hne]
      exact hsources e' (List.mem_cons_of_mem _ he')
    · intro k hk
      show (stored.sources.erase _)[_]? = _
      rw [FiniteMap.getElem?_erase]
      by_cases hsame : c.endpointKey e = k
      · rw [if_pos hsame]
      · rw [if_neg hsame]
        apply hnone
        rw [List.mem_cons, not_or]
        exact ⟨Ne.symm hsame, hk⟩
    · intro k hk
      apply hstats
      exact Std.ExtTreeMap.mem_of_mem_erase hk
    · rintro left t₂ ⟨hm₂, hplaced₂, hleft⟩
      exact ⟨hm₂, hplaced.trans hplaced₂, hleft⟩

/-- Stats that no row has are deleted. -/
theorem stageDeletes_stats (hc : c.Lawful) {R : RowKind → Endpoint → Option Bytes} :
    ∀ (suffixes : List Bytes) (t : PeerDb), t.Memory c A → t.Stored c R →
      (∀ k ∈ suffixes, ∃ e, c.endpointKey e = k) →
      Sat (stageDeletes statsKey suffixes) t
        (fun _ t' => t'.Memory c A ∧ t'.Stored c R ∧ t'.bucketKey = t.bucketKey ∧
          t'.db = t.db ∧ t'.collisions = t.collisions ∧ t'.stats = t.stats)
        fun _ _ => False := by
  intro suffixes
  induction suffixes with
  | nil => exact fun t hm hR _ => ⟨hm, hR, rfl, rfl, rfl, rfl⟩
  | cons suffix suffixes ih =>
    intro t hm hR hsuffixes
    obtain ⟨e, rfl⟩ := hsuffixes suffix List.mem_cons_self
    have hR' : (t.staged (statsKey ++ c.endpointKey e) none).Stored c R :=
      Stored.congr (hR.staged hc .stats e none) fun kind e' hkind => setRecord_of_kind hkind e e' _
    unfold stageDeletes
    rw [sat_bind_of_ok (stage_eq _ _)]
    exact ih _ (hm.staged _ _) hR' fun k hk => hsuffixes k (List.mem_cons_of_mem _ hk)

/-- The maps of a table nothing is known to. -/
theorem memory_fresh (c : AddressCode) (key : Bytes) (db : Option PeerStore) :
    (fresh key db).Memory c fun _ => none := by
  have hnew : ∀ e slot, ¬ Addrman.HoldsNew c key (fun _ => none) e slot := by
    rintro e slot ⟨_, he, -⟩
    cases he
  have htried : ∀ e slot, ¬ Addrman.HoldsTried c key (fun _ => none) e slot := by
    rintro e slot ⟨_, _, he, -⟩
    cases he
  refine ⟨fun _ => rfl, fun _ => rfl, ?_, ?_, fun _ => rfl, ?_, ?_, ?_, ?_, ?_,
    Positions.Indexes.nil, ?_⟩
  · exact fun a => iff_of_false (Finset.notMem_empty a) nofun
  · intro k
    apply iff_of_false (Finset.notMem_empty k)
    rintro ⟨e, hsome, -⟩
    cases hsome
  · exact fun slot e => iff_of_false nofun (hnew e slot)
  · intro e
    exact iff_of_false (Finset.notMem_empty e) not_exists_none
  · intro k slot
    apply iff_of_false nofun
    rintro ⟨e, hholds, -⟩
    exact htried e slot hholds
  · exact fun slot k => iff_of_false nofun nofun
  · intro a
    exact iff_of_false List.not_mem_nil not_exists_none
  · intro _ e he
    exact absurd he (Finset.notMem_empty e)

/-- **A table loaded from the rows of some entries holds those entries.** -/
theorem load_sat (hc : c.Lawful) {drawn key : Bytes} (hkey : d.bucketKey.getD drawn = key)
    (hA : A.Sound c key) (hstill : ∀ e, ¬ A.Moving e) (hd : d.Holds c (A.records c)) :
    ∃ t, load c drawn d = .ok t ∧ Resting c t A ∧ t.bucketKey = key := by
  have hrows : ∀ row ∈ d.rows.toList, ∃ kind e, row.1 = c.rowKey kind e ∧
      (kind ≠ .stats → A.records c kind e = some row.2) := by
    rintro ⟨k, value⟩ hrow
    rw [FiniteMap.mem_toList] at hrow
    obtain ⟨kind, e, rfl⟩ := hd.key k ((FiniteMap.mem_iff_exists _ _).mpr ⟨value, hrow⟩)
    exact ⟨kind, e, rfl, fun hkind => (hd.row kind e hkind).symm.trans hrow⟩
  have hmem : ∀ kind e, kind ≠ .stats → (c.rowKey kind e ∈ d.rows.toList.map Prod.fst ↔
      (A.records c kind e).isSome) := by
    intro kind e hkind
    rw [← hd.row kind e hkind, Option.isSome_iff_exists, List.mem_map]
    constructor
    · rintro ⟨⟨k, value⟩, hrow, hk⟩
      rw [FiniteMap.mem_toList] at hrow
      obtain rfl : k = c.rowKey kind e := hk
      exact ⟨value, hrow⟩
    · rintro ⟨value, hvalue⟩
      exact ⟨(c.rowKey kind e, value), (FiniteMap.mem_toList _ _ _).mpr hvalue, rfl⟩
  -- the key of the store is the one its slots were given by
  have hloaded : loadBucketKey (fresh drawn (some d)) =
      .ok () (fresh key (some { d with bucketKey := some key })) := by
    show EStateM.Result.ok () _ = _
    unfold fresh
    dsimp only
    cases hstored : d.bucketKey with
    | none =>
      rw [hstored] at hkey
      obtain rfl : drawn = key := hkey
      rfl
    | some held =>
      rw [hstored] at hkey
      obtain rfl : held = key := hkey
      dsimp only
      rw [← hstored]
  have hrun : Sat (initFromDb c d) (fresh drawn (some d))
      (fun _ t => Resting c t A ∧ t.bucketKey = key) fun _ _ => False := by
    unfold initFromDb
    rw [sat_bind_of_ok hloaded, sat_writeBatch rfl, sat_bind]
    refine (readStore_sat hc hA d.rows.toList [] .empty (reads_empty c A)
      (FiniteMap.nodup_keys d.rows) hrows).mono ?_ fun _ _ h => h
    rintro stored _ ⟨rfl, hr⟩
    rw [List.nil_append] at hr
    have hknown : ∀ e entry, A e = some entry → c.endpointKey e ∈ stored.known.map Prod.fst := by
      intro e entry he
      refine List.mem_map.mpr ⟨(c.endpointKey e, entry.row), (hr.known _).mpr ⟨e, entry, he, ?_,
        rfl⟩, rfl⟩
      rw [hmem .known e (by decide)]
      unfold Addrman.records
      rw [he]
      rfl
    have hempty : A.without c (stored.known.map Prod.fst) = fun _ => none := by
      funext e
      unfold Addrman.without
      split
      · rfl
      · rename_i hfresh
        rw [Option.eq_none_iff_forall_ne_some]
        intro entry he
        exact hfresh (hknown e entry he)
    have hm₀ : (fresh key (some { d with bucketKey := some key })).Memory c
        (A.without c (stored.known.map Prod.fst)) := by
      rw [hempty]
      exact memory_fresh c key _
    have hanswered : ∀ e, stored.answered[c.endpointKey e]? = (A e).bind Entry.answered := by
      intro e
      rw [hr.answered]
      split
      · rfl
      · rename_i hrow
        rw [hmem .answered e (by decide)] at hrow
        cases he : A e with
        | none => rfl
        | some entry =>
          rw [Option.not_isSome_iff_eq_none] at hrow
          unfold Addrman.records at hrow
          rw [he] at hrow
          exact (Option.map_eq_none_iff.mp hrow).symm
    have hsources : ∀ e, stored.sources[c.endpointKey e]? =
        (A e).map fun entry => entry.source :: entry.groups := by
      intro e
      rw [hr.sources]
      split
      · rfl
      · rename_i hrow
        rw [hmem .source e (by decide)] at hrow
        cases he : A e with
        | none => rfl
        | some entry =>
          unfold Addrman.records at hrow
          rw [he] at hrow
          exact absurd rfl hrow
    have hnone : ∀ k : Bytes, k ∉ stored.known.map Prod.fst → stored.sources[k]? = none := by
      intro k hk
      rw [Option.eq_none_iff_forall_ne_some]
      intro groups hgroups
      obtain ⟨e, rfl⟩ := hr.keys k (.inr (.inl ((FiniteMap.mem_iff_exists _ _).mpr
        ⟨groups, hgroups⟩)))
      rw [hsources] at hgroups
      obtain ⟨entry, he, -⟩ := Option.map_eq_some_iff.mp hgroups
      exact hk (hknown e entry he)
    rw [sat_bind]
    refine (placeStored_sat hc hstill stored.known stored _ hA hm₀ hr.nodup ?_
      (fun e _ => hsources e) hnone hanswered fun k hk => hr.keys k (.inr (.inr hk))).mono ?_
      fun _ _ h => h
    · intro x hx
      obtain ⟨e, entry, he, -, rfl⟩ := (hr.known x).mp hx
      exact ⟨e, entry, he, rfl⟩
    · rintro left t₁ ⟨hm₁, hplaced, hleft, hstats⟩
      have hA₁ : A.Sound c t₁.bucketKey := by
        rw [hplaced.bucketKey]
        exact hA
      have hdeleted : stored.answered.keys.filter (fun suffix => suffix ∉ t₁.knownKeys) = [] := by
        rw [List.filter_eq_nil_iff]
        intro k hk
        rw [decide_eq_true_eq, not_not]
        obtain ⟨e, rfl⟩ := hr.keys k (.inl (Std.ExtTreeMap.mem_keys.mp hk))
        obtain ⟨a, ha⟩ := (FiniteMap.mem_iff_exists _ _).mp (Std.ExtTreeMap.mem_keys.mp hk)
        rw [hanswered] at ha
        obtain ⟨entry, he, -⟩ := Option.bind_eq_some_iff.mp ha
        rw [hm₁.knownKeys]
        refine ⟨e, ?_, rfl⟩
        rw [hm₁.rows_of he]
        rfl
      have hsourceless : left.sources.keys = [] := by
        rw [List.eq_nil_iff_forall_not_mem]
        intro k hk
        obtain ⟨groups, hgroups⟩ := (FiniteMap.mem_iff_exists _ _).mp
          (Std.ExtTreeMap.mem_keys.mp hk)
        rw [hleft] at hgroups
        cases hgroups
      have hstored : t₁.Stored c (A.records c) := by
        intro d' hd'
        rw [hplaced.db] at hd'
        obtain rfl := Option.some.inj hd'
        rw [hplaced.batch, hplaced.bucketKey]
        exact ⟨⟨hd.row, hd.key⟩, rfl⟩
      rw [sat_bind, sat_get]
      dsimp only
      rw [hdeleted, hsourceless]
      show Sat (stageDeletes statsKey left.stats.keys) t₁ _ _
      refine (stageDeletes_stats hc left.stats.keys t₁ hm₁ hstored fun k hk =>
        hstats k (Std.ExtTreeMap.mem_keys.mp hk)).mono ?_ fun _ _ h => h
      rintro _ t₂ ⟨hm₂, hstored₂, hkey₂, hdb₂, hcoll₂, hstats₂⟩
      have hbucket : t₂.bucketKey = key := hkey₂.trans hplaced.bucketKey
      refine ⟨⟨⟨?_, hm₂.written, hstored₂.written, rfl⟩, hstill, ?_, ?_, ?_⟩, hbucket⟩
      · show A.Sound c t₂.bucketKey
        rw [hbucket]
        exact hA
      · show (t₂.db.map _).isSome = true
        rw [Option.isSome_map, hdb₂, hplaced.db]
        rfl
      · have hfresh : (fresh key (some { d with bucketKey := some key })).StatsFit := nofun
        intro hdb e stats hs
        have hs₁ : t₁.stats e = some stats := by
          rw [← hstats₂]
          exact hs
        apply hplaced.fit hfresh _ e stats hs₁
        rw [hplaced.db]
        rfl
      · intro e he
        have hwaits : e ∈ t₂.collisions := he
        rw [hcoll₂, hplaced.collisions] at hwaits
        exact absurd hwaits (Finset.notMem_empty e)
  obtain ⟨_, t, hok, hrest⟩ := hrun.exists_ok
  refine ⟨t, ?_, hrest⟩
  unfold load
  rw [hok]

end PeerDb

end BtclibNode
