/-
# What the calls do to the tables

Each step of the calls, by what it does to the endpoints that are known: the maps and the
store keep holding what they say.
-/
import BtclibNode.PeerDb.Addrman

namespace BtclibNode

open StateExcept

variable {c : AddressCode} {t t' : PeerDb} {A : Addrman} {e : Endpoint} {entry : Entry}

theorem exists_some {α : Type} {a : α} {P : α → Prop} : (∃ b, some a = some b ∧ P b) ↔ P a := by
  simp

theorem not_exists_none {α : Type} {P : α → Prop} : ¬ ∃ b : α, none = some b ∧ P b := by
  simp

/-! ## One endpoint changed -/

namespace Addrman

variable {key : Bytes}

theorem holdsNew_update (A : Addrman) (e : Endpoint) (x : Option Entry) (e' : Endpoint)
    (slot : Slot) : HoldsNew c key (Function.update A e x) e' slot ↔
      if e' = e then ∃ entry, x = some entry ∧ slot ∈ entry.groups.map (c.newSlot key e)
      else HoldsNew c key A e' slot := by
  unfold HoldsNew
  by_cases he : e' = e
  · subst he
    rw [if_pos rfl, Function.update_self]
  · rw [if_neg he, Function.update_of_ne he]

theorem holdsTried_update (A : Addrman) (e : Endpoint) (x : Option Entry) (e' : Endpoint)
    (slot : Slot) : HoldsTried c key (Function.update A e x) e' slot ↔
      if e' = e then ∃ entry answered, x = some entry ∧ entry.place = .tried answered ∧
        slot = c.triedSlot key e
      else HoldsTried c key A e' slot := by
  unfold HoldsTried
  by_cases he : e' = e
  · subst he
    rw [if_pos rfl, Function.update_self]
  · rw [if_neg he, Function.update_of_ne he]

/-- An endpoint that holds what it held. -/
theorem holdsNew_of_groups {A : Addrman} {e : Endpoint} {entry entry' : Entry}
    (he : A e = some entry) (hgroups : entry'.groups = entry.groups) (e' : Endpoint)
    (slot : Slot) : HoldsNew c key (Function.update A e (some entry')) e' slot ↔
      HoldsNew c key A e' slot := by
  rw [holdsNew_update]
  by_cases hsame : e' = e
  · subst hsame
    rw [if_pos rfl]
    unfold HoldsNew
    rw [he]
    constructor
    · rintro ⟨_, hentry, hslot⟩
      rw [← Option.some.inj hentry, hgroups] at hslot
      exact ⟨entry, rfl, hslot⟩
    · rintro ⟨_, hentry, hslot⟩
      rw [← Option.some.inj hentry, ← hgroups] at hslot
      exact ⟨entry', rfl, hslot⟩
  · rw [if_neg hsame]

/-- A sound table with one endpoint changed is sound where the slots it then holds are no
other endpoint's. -/
theorem Sound.update (hA : A.Sound c key) {x : Option Entry}
    (hx : ∀ entry, x = some entry → EntrySound c key e entry)
    (hnew : ∀ entry, x = some entry → ∀ slot ∈ entry.groups.map (c.newSlot key e),
      ∀ e', HoldsNew c key A e' slot → e' = e)
    (htried : ∀ entry answered, x = some entry → entry.place = .tried answered →
      ∀ e', HoldsTried c key A e' (c.triedSlot key e) → e' = e) :
    Sound c key (Function.update A e x) := by
  refine ⟨?_, ?_, ?_⟩
  · intro e' entry hentry
    by_cases he : e' = e
    · subst he
      rw [Function.update_self] at hentry
      exact hx entry hentry
    · rw [Function.update_of_ne he] at hentry
      exact hA.entry e' entry hentry
  · intro e₁ e₂ slot h₁ h₂
    rw [holdsNew_update] at h₁ h₂
    by_cases he₁ : e₁ = e
    · by_cases he₂ : e₂ = e
      · rw [he₁, he₂]
      · rw [if_pos he₁] at h₁
        rw [if_neg he₂] at h₂
        obtain ⟨entry, hentry, hslot⟩ := h₁
        rw [he₁]
        exact (hnew entry hentry slot hslot e₂ h₂).symm
    · rw [if_neg he₁] at h₁
      by_cases he₂ : e₂ = e
      · rw [if_pos he₂] at h₂
        obtain ⟨entry, hentry, hslot⟩ := h₂
        rw [he₂]
        exact hnew entry hentry slot hslot e₁ h₁
      · rw [if_neg he₂] at h₂
        exact hA.new e₁ e₂ slot h₁ h₂
  · intro e₁ e₂ slot h₁ h₂
    rw [holdsTried_update] at h₁ h₂
    by_cases he₁ : e₁ = e
    · by_cases he₂ : e₂ = e
      · rw [he₁, he₂]
      · rw [if_pos he₁] at h₁
        rw [if_neg he₂] at h₂
        obtain ⟨entry, answered, hentry, hplace, rfl⟩ := h₁
        rw [he₁]
        exact (htried entry answered hentry hplace e₂ h₂).symm
    · rw [if_neg he₁] at h₁
      by_cases he₂ : e₂ = e
      · rw [if_pos he₂] at h₂
        obtain ⟨entry, answered, hentry, hplace, rfl⟩ := h₂
        rw [he₂]
        exact htried entry answered hentry hplace e₁ h₁
      · rw [if_neg he₂] at h₂
        exact hA.tried e₁ e₂ slot h₁ h₂

theorem EntrySound.nodup_groups (hentry : EntrySound c key e entry) :
    entry.groups.Nodup := by
  have hplace := hentry.place
  unfold Entry.groups
  cases hcase : entry.place with
  | new groups =>
    rw [hcase] at hplace
    exact hplace.2.2.1.of_map _
  | tried answered => exact List.nodup_nil
  | moving => exact List.nodup_nil

end Addrman

namespace PeerDb

/-! ## What the maps say of an endpoint -/

section Lookups

variable (hm : t.Memory c A) (he : A e = some entry)
include hm he

theorem Memory.rows_of : t.rows e = some entry.row := by
  rw [hm.rows, he]
  rfl

theorem Memory.source_of : t.source e = some entry.source := by
  rw [hm.source, he]
  rfl

theorem Memory.slots_of_new {groups : List Bytes} (hplace : entry.place = .new groups) :
    t.slots e = some (groups.map fun group => (c.newSlot t.bucketKey e group, group)) := by
  rw [hm.slots, he]
  unfold Addrman.slotsOf
  rw [Option.bind_some, hplace]

theorem Memory.slots_of_left (hleft : entry.HasLeft) : t.slots e = none := by
  rw [hm.slots, he]
  unfold Addrman.slotsOf Entry.HasLeft at *
  rw [Option.bind_some]
  cases hplace : entry.place with
  | new groups =>
    rw [hplace] at hleft
    exact hleft.elim
  | tried answered => rfl
  | moving => rfl

/-- The groups of the slots that the maps say an endpoint holds. -/
theorem Memory.groups_of : ((t.slots e).getD []).map Prod.snd = entry.groups := by
  unfold Entry.groups
  cases hplace : entry.place with
  | new groups =>
    rw [hm.slots_of_new he hplace]
    show (groups.map _).map Prod.snd = groups
    rw [List.map_map]
    exact List.map_id groups
  | tried answered =>
    rw [hm.slots_of_left he (Entry.hasLeft_of_tried hplace)]
    rfl
  | moving =>
    rw [hm.slots_of_left he (Entry.hasLeft_of_moving hplace)]
    rfl

end Lookups

theorem Memory.none_iff (hm : t.Memory c A) : t.rows e = none ↔ A e = none := by
  rw [hm.rows, Option.map_eq_none_iff]

/-- A write of the batch changes no map. -/
theorem Memory.staged (hm : t.Memory c A) (key : Bytes) (value : Option Bytes) :
    (t.staged key value).Memory c A := { hm with }

/-! ## Steps -/

theorem eraseDups_of_nodup {α : Type} [BEq α] [LawfulBEq α] {l : List α} (hl : l.Nodup) :
    l.eraseDups = l := by
  induction l with
  | nil => rfl
  | cons a l ih =>
    obtain ⟨ha, hl'⟩ := List.nodup_cons.mp hl
    have hfilter : l.filter (fun b => !b == a) = l := by
      apply List.filter_eq_self.mpr
      intro b hb
      have hne : b ≠ a := fun heq => ha (heq ▸ hb)
      rw [beq_eq_false_iff_ne.mpr hne]
      rfl
    rw [List.eraseDups_cons, hfilter, ih hl']

theorem lookup_some {α : Type} {a : α} : (lookup (some a) : PeerDbM α) t = .ok a t := rfl

/-- The groups of an endpoint's first source and of its slots are written. -/
theorem putSources_eq (hm : t.Memory c A) (he : A e = some entry)
    (hentry : Addrman.EntrySound c t.bucketKey e entry) :
    putSources c e t = .ok () (t.staged (c.rowKey .source e) (entry.record c .source)) := by
  apply Sat.eq_ok
  unfold putSources
  rw [sat_bind, sat_get]
  by_cases hdb : t.db.isSome = true
  · rw [if_pos hdb, hm.source_of he, sat_bind_of_ok lookup_some]
    dsimp only
    rw [hm.rows_of he, sat_bind_of_ok lookup_some, hm.groups_of he,
      eraseDups_of_nodup hentry.nodup_groups, hentry.row, sat_of_ok (stage_eq _ _)]
    exact ⟨rfl, rfl⟩
  · rw [if_neg hdb]
    refine ⟨rfl, ?_⟩
    unfold PeerDb.staged
    rw [if_neg hdb]

/-- What a change of one endpoint is to change in the maps. -/
structure Updates (c : AddressCode) (t t' : PeerDb) (e : Endpoint) (x : Option Entry) : Prop where
  bucketKey : t'.bucketKey = t.bucketKey
  rows : t'.rows = Function.update t.rows e (x.map Entry.row)
  source : t'.source = Function.update t.source e (x.map Entry.source)
  addresses : ∀ a, a ∈ t'.addresses ↔
    if a.endpoint = e then x.map Entry.row = some a else a ∈ t.addresses
  knownKeys : ∀ k, k ∈ t'.knownKeys ↔
    if k = c.endpointKey e then x.isSome = true else k ∈ t.knownKeys
  slots : t'.slots = Function.update t.slots e (Addrman.slotsOf c t.bucketKey e x)
  occupant : ∀ slot e', t'.occupant slot = some e' ↔
    if e' = e then ∃ entry, x = some entry ∧ slot ∈ entry.groups.map (c.newSlot t.bucketKey e)
    else t.occupant slot = some e'
  triedEndpoints : ∀ e', e' ∈ t'.triedEndpoints ↔
    if e' = e then ∃ entry, x = some entry ∧ entry.HasLeft else e' ∈ t.triedEndpoints
  triedSlotOf : t'.triedSlotOf = Function.update t.triedSlotOf (c.endpointKey e)
    (x.bind fun entry => entry.answered.map fun _ => c.triedSlot t.bucketKey e)
  triedOccupant : ∀ slot k, t'.triedOccupant slot = some k ↔ t'.triedSlotOf k = some slot
  activeAddresses : ∀ a, a ∈ t'.activeAddresses ↔
    if a.endpoint = e then ∃ entry, x = some entry ∧ entry.place = .tried a
    else a ∈ t.activeAddresses
  activeIndex : Positions.Indexes (fun a => c.endpointKey a.endpoint) t'.activeAddresses
    t'.activeIndex
  stats : t'.db.isSome → ∀ e ∈ t'.triedEndpoints, (t'.stats e).isSome

/-- **Maps that change at one endpoint alone** hold what the entry there says. -/
theorem Memory.update (hm : t.Memory c A) (hc : c.Lawful) {x : Option Entry}
    (hu : Updates c t t' e x) : t'.Memory c (Function.update A e x) := by
  have happly : ∀ {β : Type} (f : Endpoint → Entry → Option β) (m : Endpoint → Option β),
      (∀ e', m e' = (A e').bind (f e')) → ∀ e',
      Function.update m e (x.bind (f e)) e' = (Function.update A e x e').bind (f e') := by
    intro β f m hm e'
    by_cases hsame : e' = e
    · subst hsame
      rw [Function.update_self, Function.update_self]
    · rw [Function.update_of_ne hsame, Function.update_of_ne hsame]
      exact hm e'
  have hrows : ∀ e', t'.rows e' = (Function.update A e x e').map Entry.row := by
    intro e'
    rw [hu.rows]
    by_cases hsame : e' = e
    · subst hsame
      rw [Function.update_self, Function.update_self]
    · rw [Function.update_of_ne hsame, Function.update_of_ne hsame]
      exact hm.rows e'
  refine ⟨hrows, ?_, ?_, ?_, ?_, ?_, ?_, ?_, hu.triedOccupant, ?_, hu.activeIndex, hu.stats⟩
  · intro e'
    rw [hu.source]
    by_cases hsame : e' = e
    · subst hsame
      rw [Function.update_self, Function.update_self]
    · rw [Function.update_of_ne hsame, Function.update_of_ne hsame]
      exact hm.source e'
  · intro a
    rw [hu.addresses, hu.rows]
    by_cases hsame : a.endpoint = e
    · rw [if_pos hsame, hsame, Function.update_self]
    · rw [if_neg hsame, Function.update_of_ne hsame, hm.addresses]
  · intro k
    rw [hu.knownKeys, hu.rows]
    by_cases hsame : k = c.endpointKey e
    · rw [if_pos hsame]
      constructor
      · intro hx
        refine ⟨e, ?_, hsame.symm⟩
        rw [Function.update_self, Option.isSome_map]
        exact hx
      · rintro ⟨e', hx, hkey⟩
        obtain rfl : e' = e := c.endpointKey_inj hc (hkey.trans hsame)
        rw [Function.update_self, Option.isSome_map] at hx
        exact hx
    · rw [if_neg hsame, hm.knownKeys]
      constructor
      · rintro ⟨e', hx, hkey⟩
        refine ⟨e', ?_, hkey⟩
        rw [Function.update_of_ne]
        · exact hx
        · rintro rfl
          exact hsame hkey.symm
      · rintro ⟨e', hx, hkey⟩
        refine ⟨e', ?_, hkey⟩
        rw [Function.update_of_ne] at hx
        · exact hx
        · rintro rfl
          exact hsame hkey.symm
  · intro e'
    rw [hu.slots, hu.bucketKey]
    exact happly _ t.slots hm.slots e'
  · intro slot e'
    rw [hu.occupant, hu.bucketKey, Addrman.holdsNew_update]
    by_cases hsame : e' = e
    · rw [if_pos hsame, if_pos hsame]
    · rw [if_neg hsame, if_neg hsame]
      exact hm.occupant slot e'
  · intro e'
    rw [hu.triedEndpoints]
    by_cases hsame : e' = e
    · subst hsame
      rw [if_pos rfl, Function.update_self]
    · rw [if_neg hsame, Function.update_of_ne hsame]
      exact hm.triedEndpoints e'
  · intro k slot
    rw [hu.triedSlotOf, hu.bucketKey]
    by_cases hsame : k = c.endpointKey e
    · rw [hsame, Function.update_self]
      constructor
      · intro hslot
        obtain ⟨entry, rfl, hslot⟩ := Option.bind_eq_some_iff.mp hslot
        obtain ⟨answered, hanswered, rfl⟩ := Option.map_eq_some_iff.mp hslot
        refine ⟨e, ?_, rfl⟩
        rw [Addrman.holdsTried_update, if_pos rfl]
        exact ⟨entry, answered, rfl, Entry.place_of_answered hanswered, rfl⟩
      · rintro ⟨e', hslot, hkey⟩
        obtain rfl := c.endpointKey_inj hc hkey
        rw [Addrman.holdsTried_update, if_pos rfl] at hslot
        obtain ⟨entry, answered, rfl, hplace, rfl⟩ := hslot
        rw [Option.bind_some, Entry.answered_of_place hplace]
        rfl
    · rw [Function.update_of_ne hsame, hm.triedSlotOf]
      have hne : ∀ e', c.endpointKey e' = k → e' ≠ e := by
        rintro e' hkey rfl
        exact hsame hkey.symm
      constructor
      · rintro ⟨e', hslot, hkey⟩
        refine ⟨e', ?_, hkey⟩
        rw [Addrman.holdsTried_update, if_neg (hne e' hkey)]
        exact hslot
      · rintro ⟨e', hslot, hkey⟩
        refine ⟨e', ?_, hkey⟩
        rw [Addrman.holdsTried_update, if_neg (hne e' hkey)] at hslot
        exact hslot
  · intro a
    rw [hu.activeAddresses]
    by_cases hsame : a.endpoint = e
    · rw [if_pos hsame, hsame, Function.update_self]
    · rw [if_neg hsame, Function.update_of_ne hsame]
      exact hm.activeAddresses a

/-- Maps that hold what `A` says change nothing at an endpoint. -/
theorem Memory.updates (hm : t.Memory c A) (hc : c.Lawful) (e : Endpoint) :
    Updates c t t e (A e) := by
  refine ⟨rfl, ?_, ?_, ?_, ?_, ?_, ?_, ?_, ?_, hm.triedOccupant, ?_, hm.activeIndex, hm.stats⟩
  · rw [← hm.rows, Function.update_eq_self]
  · rw [← hm.source, Function.update_eq_self]
  · intro a
    by_cases hsame : a.endpoint = e
    · rw [if_pos hsame, hm.addresses, hm.rows, hsame]
    · rw [if_neg hsame]
  · intro k
    by_cases hsame : k = c.endpointKey e
    · rw [if_pos hsame, hm.knownKeys, hsame]
      constructor
      · rintro ⟨e', hknown, hkey⟩
        obtain rfl := c.endpointKey_inj hc hkey
        rw [hm.rows, Option.isSome_map] at hknown
        exact hknown
      · intro hknown
        refine ⟨e, ?_, rfl⟩
        rw [hm.rows, Option.isSome_map]
        exact hknown
    · rw [if_neg hsame]
  · rw [← hm.slots, Function.update_eq_self]
  · intro slot e'
    by_cases hsame : e' = e
    · rw [if_pos hsame, hm.occupant, hsame]
      exact Iff.rfl
    · rw [if_neg hsame]
  · intro e'
    by_cases hsame : e' = e
    · rw [if_pos hsame, hm.triedEndpoints, hsame]
    · rw [if_neg hsame]
  · funext k
    by_cases hsame : k = c.endpointKey e
    · rw [hsame, Function.update_self]
      apply Option.ext
      intro slot
      rw [hm.triedSlotOf]
      constructor
      · rintro ⟨e', ⟨entry, answered, hentry, hplace, rfl⟩, hkey⟩
        obtain rfl := c.endpointKey_inj hc hkey
        rw [hentry, Option.bind_some, Entry.answered_of_place hplace]
        rfl
      · intro hslot
        obtain ⟨entry, hentry, hslot⟩ := Option.bind_eq_some_iff.mp hslot
        obtain ⟨answered, hanswered, rfl⟩ := Option.map_eq_some_iff.mp hslot
        exact ⟨e, ⟨entry, answered, hentry, Entry.place_of_answered hanswered, rfl⟩, rfl⟩
    · rw [Function.update_of_ne hsame]
  · intro a
    by_cases hsame : a.endpoint = e
    · rw [if_pos hsame, hm.activeAddresses, hsame]
    · rw [if_neg hsame]

end PeerDb

/-! ## Steps of the new table -/

namespace Addrman

theorem SameLeft.refl (A : Addrman) : SameLeft A A := ⟨fun _ => Iff.rfl, fun _ => Iff.rfl⟩

theorem SameLeft.trans {A A' A'' : Addrman} (h : SameLeft A A') (h' : SameLeft A' A'') :
    SameLeft A A'' :=
  ⟨fun e => (h'.tried e).trans (h.tried e), fun e => (h'.moving e).trans (h.moving e)⟩

/-- An endpoint that is in neither table's way is changed. -/
theorem sameLeft_update {x : Option Entry} (he : ∀ entry, A e = some entry → ¬ entry.HasLeft)
    (hx : ∀ entry, x = some entry → ¬ entry.HasLeft) : SameLeft A (Function.update A e x) := by
  constructor
  · intro e'
    unfold Tried
    by_cases hsame : e' = e
    · subst hsame
      rw [Function.update_self]
      constructor
      · rintro ⟨entry, answered, hentry, hplace⟩
        exact absurd (Entry.hasLeft_of_tried hplace) (hx entry hentry)
      · rintro ⟨entry, answered, hentry, hplace⟩
        exact absurd (Entry.hasLeft_of_tried hplace) (he entry hentry)
    · rw [Function.update_of_ne hsame]
  · intro e'
    unfold Moving
    by_cases hsame : e' = e
    · subst hsame
      rw [Function.update_self]
      constructor
      · rintro ⟨entry, hentry, hplace⟩
        exact absurd (Entry.hasLeft_of_moving hplace) (hx entry hentry)
      · rintro ⟨entry, hentry, hplace⟩
        exact absurd (Entry.hasLeft_of_moving hplace) (he entry hentry)
    · rw [Function.update_of_ne hsame]

/-- An endpoint stays where it is. -/
theorem sameLeft_of_place {entry entry' : Entry} (he : A e = some entry)
    (hplace : entry'.place = entry.place) :
    SameLeft A (Function.update A e (some entry')) := by
  constructor
  · intro e'
    unfold Tried
    by_cases hsame : e' = e
    · subst hsame
      rw [Function.update_self, he]
      simp only [Option.some.injEq, exists_and_left, exists_eq_left', hplace]
    · rw [Function.update_of_ne hsame]
  · intro e'
    unfold Moving
    by_cases hsame : e' = e
    · subst hsame
      rw [Function.update_self, he]
      simp only [Option.some.injEq, exists_eq_left', hplace]
    · rw [Function.update_of_ne hsame]

variable {R R' R'' : RowKind → Endpoint → Option Bytes}

theorem Follows.refl (c : AddressCode) (R : RowKind → Endpoint → Option Bytes) (A : Addrman) :
    Follows c R R A A := fun _ _ _ => .inr ⟨rfl, rfl⟩

theorem Follows.trans {A A' A'' : Addrman} (h : Follows c R R' A A')
    (h' : Follows c R' R'' A' A'') : Follows c R R'' A A'' := by
  intro kind e hkind
  rcases h' kind e hkind with hnew | ⟨hrow, hentry⟩
  · exact .inl hnew
  · rw [hrow, hentry]
    exact h kind e hkind

/-- Rows that were those of the entries still are. -/
theorem Follows.records {A A' : Addrman} (h : Follows c (A.records c) R' A A') :
    ∀ kind e, kind ≠ .stats → R' kind e = A'.records c kind e := by
  intro kind e hkind
  rcases h kind e hkind with hnew | ⟨hrow, hentry⟩
  · exact hnew
  · rw [hrow, hentry]

theorem records_update_of_ne {x : Option Entry} {e e' : Endpoint} (he : e' ≠ e) (kind : RowKind) :
    records c (Function.update A e x) kind e' = A.records c kind e' := by
  unfold records
  rw [Function.update_of_ne he]

/-- One endpoint is changed, and its rows. -/
theorem follows_update {x : Option Entry} (hother : ∀ kind e', e' ≠ e → R' kind e' = R kind e')
    (hsame : ∀ kind, kind ≠ .stats → R' kind e = x.bind (Entry.record c kind) ∨
      R' kind e = R kind e ∧ x.bind (Entry.record c kind) = A.records c kind e) :
    Follows c R R' A (Function.update A e x) := by
  intro kind e' hkind
  by_cases he : e' = e
  · subst he
    have hentry : records c (Function.update A e' x) kind e' =
        x.bind (Entry.record c kind) := by
      unfold records
      rw [Function.update_self]
    rw [hentry]
    exact hsame kind hkind
  · exact .inr ⟨hother kind e' he, records_update_of_ne he kind⟩

end Addrman

namespace PeerDb

/-- **A step of the new table**: the maps and the store follow the entries, and nothing enters or
leaves the tried table. -/
structure NewStep (c : AddressCode) (t : PeerDb) (A : Addrman) (t' : PeerDb) (A' : Addrman) :
    Prop where
  sound : A'.Sound c t'.bucketKey
  memory : t'.Memory c A'
  stored : ∀ R, t.Stored c R → ∃ R', t'.Stored c R' ∧ Addrman.Follows c R R' A A'
  left : A.SameLeft A'
  triedEndpoints : t'.triedEndpoints = t.triedEndpoints
  bucketKey : t'.bucketKey = t.bucketKey
  db : t'.db = t.db
  stats : ∀ e, t'.stats e = t.stats e ∨ t'.stats e = none
  collisions : ∀ e ∈ t'.collisions,
    e ∈ t.collisions ∧ t'.stats e = t.stats e ∧ ((A e).isSome → (A' e).isSome)

theorem NewStep.refl (hA : A.Sound c t.bucketKey) (hm : t.Memory c A) : NewStep c t A t A :=
  ⟨hA, hm, fun R hR => ⟨R, hR, Addrman.Follows.refl c R A⟩, .refl A, rfl, rfl, rfl,
    fun _ => .inl rfl, fun _ he => ⟨he, rfl, id⟩⟩

theorem NewStep.trans {t'' : PeerDb} {A' A'' : Addrman} (h : NewStep c t A t' A')
    (h' : NewStep c t' A' t'' A'') : NewStep c t A t'' A'' := by
  refine ⟨h'.sound, h'.memory, ?_, h.left.trans h'.left,
    h'.triedEndpoints.trans h.triedEndpoints, h'.bucketKey.trans h.bucketKey,
    h'.db.trans h.db, ?_, ?_⟩
  · intro R hR
    obtain ⟨R', hR', hfollows⟩ := h.stored R hR
    obtain ⟨R'', hR'', hfollows'⟩ := h'.stored R' hR'
    exact ⟨R'', hR'', hfollows.trans hfollows'⟩
  · intro e
    rcases h'.stats e with hsame | hnone
    · rw [hsame]
      exact h.stats e
    · exact .inr hnone
  · intro e he
    obtain ⟨he', hstats', hknown'⟩ := h'.collisions e he
    obtain ⟨he, hstats, hknown⟩ := h.collisions e he'
    exact ⟨he, hstats'.trans hstats, fun hsome => hknown' (hknown hsome)⟩

/-- The store keeps holding what the entries say. -/
theorem NewStep.stored_records {A' : Addrman} (h : NewStep c t A t' A')
    (ht : t.Stored c (A.records c)) : t'.Stored c (A'.records c) := by
  obtain ⟨R', hR', hfollows⟩ := h.stored _ ht
  exact hR'.congr hfollows.records

end PeerDb

end BtclibNode
