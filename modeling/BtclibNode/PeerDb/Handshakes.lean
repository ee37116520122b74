/-
# Handshakes and collisions

The blocks of `_good` and of `_resolved`, and the calls made of them: where no other call runs in
between, they return and keep the tables.
-/
import Mathlib
import BtclibNode.PeerDb.TriedTable

namespace BtclibNode

open StateExcept

variable {c : AddressCode} {t t' : PeerDb} {A A' : Addrman} {e : Endpoint} {entry : Entry}
  {slot : Slot}

namespace PeerDb

/-! ## The blocks of `_good` -/

/-- A table whose last handshake was at another time. -/
def withLastGood (t : PeerDb) (now : ℚ) : PeerDb := { t with lastGood := now }

/-- **`_good` up to where it lets go of `_addresses_lock`** changes no entry. -/
theorem goodKnown_sat (hc : c.Lawful) (ht : t.Represents c A) (addr : NetworkAddress)
    (now : ClockReading) :
    Sat (goodKnown c addr now.seconds) t
      (fun found t' => t'.Represents c A ∧ SameTables t t' ∧
        match found with
        | none => A addr.endpoint = none
        | some (tried, slot) => (A addr.endpoint).isSome ∧ (t'.stats addr.endpoint).isSome ∧
          slot = c.triedSlot t.bucketKey addr.endpoint ∧
          tried = decide (addr.endpoint ∈ t'.triedEndpoints))
      fun _ _ => False := by
  unfold goodKnown
  rw [sat_writeBatch ht.batch]
  dsimp only
  rw [sat_bind, sat_modify, sat_bind, sat_get]
  have hm₁ : (t.withLastGood now.seconds).Memory c A := { ht.memory with }
  dsimp only
  change Sat _ (t.withLastGood now.seconds) _ _
  cases hrows : t.rows addr.endpoint with
  | none =>
    have hstored : (t.withLastGood now.seconds).Stored c (A.records c) := ht.stored
    refine ⟨⟨ht.sound, hm₁.written, hstored.written, rfl⟩,
      ⟨rfl, Option.isSome_map .., fun _ => id, rfl, ?_⟩, ?_⟩
    · intro hfit hdb
      apply hfit
      rw [← hdb]
      exact (Option.isSome_map ..).symm
    · exact ht.memory.none_iff.mp hrows
  | some known =>
    dsimp only
    rw [sat_bind, sat_get, sat_bind, sat_modify, sat_bind, sat_get]
    obtain ⟨entry, he, rfl⟩ : ∃ entry, A addr.endpoint = some entry ∧ entry.row = known := by
      rw [ht.memory.rows] at hrows
      exact Option.map_eq_some_iff.mp hrows
    have hend := Sound.of_row ht.sound he
    generalize hstats : (⟨now.seconds, 0,
      ((t.stats addr.endpoint).getD .fresh).lastCountAttempt⟩ : Stats) = stats
    have hfits : stats.Fits := by
      rw [← hstats]
      refine ⟨now.fits, ?_⟩
      show 0 < 256 ^ 4
      decide
    show Sat (putStats c addr.endpoint >>= _) ((t.withLastGood now.seconds).tries
      (Function.update t.lastTry (c.endpointKey addr.endpoint) (some now.seconds)) addr.endpoint
      ⟨now.seconds, 0, ((t.stats addr.endpoint).getD .fresh).lastCountAttempt⟩) _ _
    rw [hstats]
    have hm₂ := hm₁.tries (Function.update t.lastTry (c.endpointKey addr.endpoint)
      (some now.seconds)) addr.endpoint stats
    rw [sat_bind]
    refine (putStats_sat (fun _ => ⟨hm₂.rows_of he, hend⟩) stats
      fun _ => Function.update_self ..).mono ?_ ?_
    · rintro _ t₂ ⟨-, value, rfl⟩
      refine ⟨written_stats hc ht hm₂ rfl rfl ht.batch value,
        ⟨rfl, Option.isSome_map .., fun _ => isSome_update, rfl, ?_⟩, ?_, ?_, ?_, rfl⟩
      · intro hfit
        have hfit₁ : (t.withLastGood now.seconds).StatsFit := hfit
        have hfit₂ := hfit₁.tries (Function.update t.lastTry (c.endpointKey addr.endpoint)
          (some now.seconds)) addr.endpoint fun _ => hfits
        intro hdb
        apply hfit₂
        rw [← hdb]
        exact (Option.isSome_map ..).symm
      · rw [he]
        rfl
      · show (Function.update t.stats addr.endpoint (some stats) addr.endpoint).isSome
        rw [Function.update_self]
        rfl
      · show c.triedSlot t.bucketKey entry.row.endpoint = _
        rw [hend]
    · rintro _ _ ⟨-, -, hbad⟩
      exact hbad hfits

/-- `_good` under `_active_lock`. -/
theorem goodAnswered_sat (hc : c.Lawful) (ht : t.Represents c A) {tried : Bool}
    {answered : NetworkAddress} (htime : answered.timestamp < 256 ^ 8)
    (htried : tried = true → A.Tried answered.endpoint) (slot : Slot) :
    Sat (goodAnswered c tried answered slot) t
      (fun holder t' => (∃ A', t'.Represents c A' ∧ Quiet t A t' A') ∧
        (t'.rows = t.rows ∧ t'.stats = t.stats) ∧
        (tried = false → t' = t ∧ holder = t.triedOccupant slot))
      fun _ _ => False := by
  unfold goodAnswered
  rw [sat_bind, sat_get]
  cases tried with
  | false => exact ⟨⟨A, ht, .refl t A⟩, ⟨rfl, rfl⟩, fun _ => ⟨rfl, rfl⟩⟩
  | true =>
    obtain ⟨entry, a, he, hplace⟩ := htried rfl
    have hend : a.endpoint = answered.endpoint := (Sound.answered_fits ht.sound he hplace).1
    obtain ⟨i, hi⟩ := List.mem_iff_getElem?.mp ((ht.memory.activeAddresses a).mpr
      ⟨entry, by rw [hend]; exact he, hplace⟩)
    have hat := ht.memory.activeIndex.at hi
    rw [hend] at hat
    rw [if_pos rfl, hat, sat_bind_of_ok lookup_some, sat_bind]
    refine (setAnswered_sat hc ht hi hend.symm htime).mono ?_ fun _ _ h => h
    intro _ t' h
    exact ⟨h.1, h.2, fun hfalse => Bool.noConfusion hfalse⟩

/-- An endpoint waits, or there is no room for it to. -/
theorem collide_sat (ht : t.Represents c A) (e : Endpoint) :
    Sat (collide e) t (fun _ t' => t'.Represents c A ∧ Frame t t' ∧ t'.stats = t.stats ∧
      ∀ e' ∈ t'.collisions, e' ∈ t.collisions ∨ e' = e) fun _ _ => False := by
  unfold collide
  rw [sat_modify]
  split
  · refine ⟨⟨ht.sound, { ht.memory with }, ht.stored, ht.batch⟩,
      ⟨rfl, rfl, fun _ => .inl rfl⟩, rfl, ?_⟩
    intro e' he'
    exact (Finset.mem_insert.mp he').symm
  · exact ⟨ht, ⟨rfl, rfl, fun _ => .inl rfl⟩, rfl, fun e' he' => .inl he'⟩

/-! ## Between calls -/

/-- **A table no call is in.**  Nothing is on its way, the stats fit in the store, and what waits
is known. -/
structure Resting (c : AddressCode) (t : PeerDb) (A : Addrman) : Prop where
  represents : t.Represents c A
  still : ∀ e, ¬ A.Moving e
  store : t.db.isSome = true
  fit : t.StatsFit
  waiting : ∀ e ∈ t.collisions, (A e).isSome ∧ (t.stats e).isSome

/-- An endpoint that has stats if it is known. -/
def Remembered (t : PeerDb) (e : Endpoint) : Prop := t.rows e = none ∨ (t.stats e).isSome

theorem StatsFit.frame (hfit : t.StatsFit) (hf : Frame t t') : t'.StatsFit := by
  intro hdb e stats hstats
  rcases hf.stats e with hsame | hnone
  · rw [hsame] at hstats
    rw [hf.store] at hdb
    exact hfit hdb e stats hstats
  · rw [hnone] at hstats
    cases hstats

theorem Quiet.frame (hq : Quiet t A t' A') : Frame t t' := ⟨hq.bucketKey, hq.store, hq.stats⟩

/-- A quiet block leaves a table no call is in. -/
theorem Resting.quiet (ht : Resting c t A) (ht' : t'.Represents c A') (hq : Quiet t A t' A') :
    Resting c t' A' := by
  refine ⟨ht', ?_, hq.store.trans ht.store, ht.fit.frame hq.frame, ?_⟩
  · intro e hmoving
    exact ht.still e ((hq.left.moving e).mp hmoving)
  · intro e he
    obtain ⟨hwas, hsame, hknown⟩ := hq.collisions e he
    obtain ⟨hsome, hstats⟩ := ht.waiting e hwas
    rw [hsame]
    exact ⟨hknown hsome, hstats⟩

/-- So does one that changes no entry. -/
theorem Resting.same (ht : Resting c t A) (ht' : t'.Represents c A) (hs : SameTables t t') :
    Resting c t' A := by
  refine ⟨ht', ht.still, hs.store.trans ht.store, hs.fit ht.fit, ?_⟩
  intro e he
  rw [hs.collisions] at he
  obtain ⟨hsome, hstats⟩ := ht.waiting e he
  exact ⟨hsome, hs.stats e hstats⟩

theorem Represents.rows_none (ht : t.Represents c A) (e : Endpoint) :
    t.rows e = none ↔ A e = none := ht.memory.none_iff

theorem isSome_update_iff {e' : Endpoint} {entry' : Entry} (he : A e = some entry) :
    (Function.update A e (some entry') e').isSome ↔ (A e').isSome := by
  by_cases hsame : e' = e
  · rw [hsame, Function.update_self, he]
    exact iff_of_true rfl rfl
  · rw [Function.update_of_ne hsame]

theorem none_update_iff {e' : Endpoint} {entry' : Entry} (he : A e = some entry) :
    Function.update A e (some entry') e' = none ↔ A e' = none := by
  rw [← Option.not_isSome_iff_eq_none, ← Option.not_isSome_iff_eq_none, isSome_update_iff he]

theorem moving_update {e' : Endpoint} {entry' : Entry}
    (h : Addrman.Moving (Function.update A e (some entry')) e') :
    e' = e ∧ entry'.place = .moving ∨ e' ≠ e ∧ A.Moving e' := by
  unfold Addrman.Moving at h
  by_cases hsame : e' = e
  · rw [hsame, Function.update_self, exists_some] at h
    exact .inl ⟨hsame, h⟩
  · rw [Function.update_of_ne hsame] at h
    exact .inr ⟨hsame, h⟩

/-- `_make_tried`, with no other call in between. -/
theorem makeTried_sat (hc : c.Lawful) (ht : Resting c t A) {answered : NetworkAddress}
    (he : A answered.endpoint = some entry) (hnew : ¬ entry.HasLeft)
    (htime : answered.timestamp < 256 ^ 8) (hstats : (t.stats answered.endpoint).isSome)
    (hslot : slot = c.triedSlot t.bucketKey answered.endpoint) :
    Sat (makeTried c answered slot) t
      (fun _ t' => ∃ A', Resting c t' A' ∧ ∀ e, t.Remembered e → t'.Remembered e)
      fun _ _ => False := by
  obtain ⟨stats, hstats⟩ := Option.isSome_iff_exists.mp hstats
  unfold makeTried
  rw [sat_bind]
  refine (leaveNew_sat hc ht.represents he hnew fun _ => hstats).mono ?_ ?_
  · rintro _ t₁ ⟨ht₁, hf₁, hs₁, hcoll₁⟩
    have he₁ : Function.update A answered.endpoint (some { entry with place := .moving })
        answered.endpoint = some { entry with place := .moving } := Function.update_self ..
    rw [← hf₁.bucketKey] at hslot
    rw [sat_bind]
    refine (enterTried_sat hc ht₁ he₁ rfl htime hslot).mono ?_ fun _ _ h => h
    rintro evicted t₂ ⟨⟨hf₂, hs₂, hcoll₂⟩, hentered⟩
    have hstats₂ : t₂.stats = t.stats := hs₂.trans hs₁
    have hcoll : ∀ e ∈ t₂.collisions, e ∈ t.collisions := by
      intro e he
      rw [hcoll₂, hcoll₁] at he
      exact Finset.mem_of_mem_erase he
    have hstore₂ : t₂.db.isSome = true := hf₂.store.trans (hf₁.store.trans ht.store)
    have hfit₂ : t₂.StatsFit := (ht.fit.frame hf₁).frame hf₂
    cases evicted with
    | none =>
      refine ⟨_, ⟨hentered, ?_, hstore₂, hfit₂, ?_⟩, ?_⟩
      · intro e hmoving
        rcases moving_update hmoving with ⟨-, hplace⟩ | ⟨hne, hmoving⟩
        · cases hplace
        · rcases moving_update hmoving with ⟨hsame, -⟩ | ⟨-, hmoving⟩
          · exact hne hsame
          · exact ht.still e hmoving
      · intro e hwaits
        obtain ⟨hsome, hs⟩ := ht.waiting e (hcoll e hwaits)
        rw [isSome_update_iff he₁, isSome_update_iff he, hstats₂]
        exact ⟨hsome, hs⟩
      · intro e hremembered
        unfold Remembered
        rw [hentered.rows_none, none_update_iff he₁, none_update_iff he, hstats₂,
          ← ht.represents.rows_none]
        exact hremembered
    | some row =>
      obtain ⟨old, hold, hplace, ht₂⟩ := hentered
      have hne : row.endpoint ≠ answered.endpoint := by
        intro hsame
        rw [hsame, he₁] at hold
        obtain rfl := Option.some.inj hold
        cases hplace
      have he₂ : Function.update (Function.update A answered.endpoint
          (some { entry with place := .moving })) row.endpoint
          (some { old with place := .moving }) answered.endpoint =
          some { entry with place := .moving } := by
        rw [Function.update_of_ne hne.symm]
        exact he₁
      have hrow₂ : Function.update (Function.update (Function.update A answered.endpoint
          (some { entry with place := .moving })) row.endpoint
          (some { old with place := .moving })) answered.endpoint
          (some { entry with place := .tried answered }) row.endpoint =
          some { old with place := .moving } := by
        rw [Function.update_of_ne hne, Function.update_self]
      have hleft : row.endpoint ∈ t₂.triedEndpoints :=
        (ht₂.memory.triedEndpoints _).mpr ⟨_, hrow₂, Entry.hasLeft_of_moving rfl⟩
      obtain ⟨oldStats, holdStats⟩ := Option.isSome_iff_exists.mp
        (ht₂.memory.stats hstore₂ _ hleft)
      refine (returnToNew_sat hc ht₂ hrow₂ rfl fun _ => holdStats).mono ?_ ?_
      · rintro _ t₃ ⟨⟨A₃, ht₃, -, hmoving₃, hnone₃, hcoll₃⟩, hf₃, hlost₃⟩
        refine ⟨A₃, ⟨ht₃, ?_, hf₃.store.trans hstore₂, hfit₂.frame hf₃, ?_⟩, ?_⟩
        · intro e hmoving
          obtain ⟨hmoving, hother⟩ := (hmoving₃ e).mp hmoving
          rcases moving_update hmoving with ⟨-, hplace⟩ | ⟨hne', hmoving⟩
          · cases hplace
          · rcases moving_update hmoving with ⟨hsame, -⟩ | ⟨-, hmoving⟩
            · exact hother hsame
            · rcases moving_update hmoving with ⟨hsame, -⟩ | ⟨-, hmoving⟩
              · exact hne' hsame
              · exact ht.still e hmoving
        · intro e hwaits
          obtain ⟨hwas, hsame, hknown⟩ := hcoll₃ e hwaits
          obtain ⟨hsome, hs⟩ := ht.waiting e (hcoll e hwas)
          rw [hsame, hstats₂]
          refine ⟨hknown ?_, hs⟩
          rw [isSome_update_iff he₂, isSome_update_iff hold, isSome_update_iff he]
          exact hsome
        · intro e hremembered
          rcases hremembered with hnone | hs
          · left
            rw [ht₃.rows_none]
            apply hnone₃
            rw [none_update_iff he₂, none_update_iff hold, none_update_iff he,
              ← ht.represents.rows_none]
            exact hnone
          · rcases hlost₃ e with hsame | hnone
            · right
              rw [hsame, hstats₂]
              exact hs
            · exact .inl hnone
      · rintro _ _ ⟨-, hdb, hbad⟩
        exact hbad (hfit₂ hdb _ _ holdStats)
  · rintro _ _ ⟨-, hdb, hbad⟩
    exact hbad (ht.fit hdb _ _ hstats)

theorem Resting.tried (ht : Resting c t A) (he : e ∈ t.triedEndpoints) : A.Tried e := by
  obtain ⟨entry, hentry, hleft⟩ := (ht.represents.memory.triedEndpoints e).mp he
  unfold Entry.HasLeft at hleft
  cases hplace : entry.place with
  | new groups =>
    rw [hplace] at hleft
    exact hleft.elim
  | tried answered => exact ⟨entry, answered, hentry, hplace⟩
  | moving => exact absurd ⟨entry, hentry, hplace⟩ (ht.still e)

/-- **`_good`**, with no other call in between, returns and keeps the tables. -/
theorem good_sat (hc : c.Lawful) (ht : Resting c t A) (addr : NetworkAddress)
    (now : ClockReading) (testBeforeEvict : Bool) :
    Sat (good c addr now.seconds testBeforeEvict) t
      (fun _ t' => ∃ A', Resting c t' A' ∧ ∀ e, t.Remembered e → t'.Remembered e)
      fun _ _ => False := by
  unfold good
  rw [sat_bind]
  refine (goodKnown_sat hc ht.represents addr now).mono ?_ fun _ _ h => h
  rintro found t₁ ⟨ht₁, hsame₁, hfound⟩
  have hrest₁ := ht.same ht₁ hsame₁
  have hremembered₁ : ∀ e, t.Remembered e → t₁.Remembered e := by
    intro e hremembered
    rcases hremembered with hnone | hs
    · left
      rw [ht₁.rows_none, ← ht.represents.rows_none]
      exact hnone
    · exact .inr (hsame₁.stats e hs)
  cases found with
  | none => exact ⟨A, hrest₁, hremembered₁⟩
  | some found =>
    obtain ⟨tried, slot⟩ := found
    obtain ⟨hknown, hstats, hslot, htried⟩ := hfound
    dsimp only
    have htried' : tried = true → A.Tried (answeredRow addr now.seconds).endpoint := by
      intro h
      rw [h] at htried
      exact hrest₁.tried (decide_eq_true_eq.mp htried.symm)
    rw [sat_bind]
    refine (goodAnswered_sat hc ht₁ (now.answeredRow_fits addr) htried' slot).mono ?_ fun _ _ h => h
    rintro holder t₂ ⟨⟨A₂, ht₂, hquiet⟩, ⟨hrows₂, hs₂⟩, hheld⟩
    cases tried with
    | true =>
      rw [if_pos rfl]
      refine ⟨A₂, hrest₁.quiet ht₂ hquiet, ?_⟩
      intro e hremembered
      unfold Remembered
      rw [hrows₂, hs₂]
      exact hremembered₁ e hremembered
    | false =>
      obtain ⟨rfl, hholder⟩ := hheld rfl
      rw [if_neg (by decide)]
      split
      · rw [sat_bind]
        refine (collide_sat ht₁ addr.endpoint).mono ?_ fun _ _ h => h
        rintro _ t₃ ⟨ht₃, hf₃, hs₃, hcoll₃⟩
        refine ⟨A, ⟨ht₃, hrest₁.still, hf₃.store.trans hrest₁.store, hrest₁.fit.frame hf₃, ?_⟩, ?_⟩
        · intro e he
          rw [hs₃]
          rcases hcoll₃ e he with hwas | rfl
          · exact hrest₁.waiting e hwas
          · exact ⟨hknown, hstats⟩
        · intro e hremembered
          unfold Remembered
          rw [hs₃, ht₃.rows_none, ← ht₁.rows_none]
          exact hremembered₁ e hremembered
      · obtain ⟨entry, he⟩ := Option.isSome_iff_exists.mp hknown
        have hnew : ¬ entry.HasLeft := by
          apply ht₁.memory.not_left _ he
          exact decide_eq_false_iff_not.mp htried.symm
        have he' : A (answeredRow addr now.seconds).endpoint = some entry := he
        rw [← hsame₁.bucketKey] at hslot
        rw [sat_bind]
        refine (makeTried_sat hc hrest₁ he' hnew (now.answeredRow_fits addr) hstats hslot).mono ?_ fun _ _ h => h
        rintro _ t₃ ⟨A₃, hrest₃, hremembered₃⟩
        exact ⟨A₃, hrest₃, fun e h => hremembered₃ e (hremembered₁ e h)⟩

/-! ## The blocks of `_resolved` -/

/-- `_resolved` under `_addresses_lock`, of an endpoint that has stats if it is known. -/
theorem resolvedKnown_sat (ht : t.Represents c A) (he : t.Remembered e) :
    Sat (resolvedKnown c e) t (fun found t' => t' = t ∧ ∀ known waiting slot,
      found = some (known, waiting, slot) → known.endpoint = e) fun _ _ => False := by
  unfold resolvedKnown
  rw [sat_bind, sat_get]
  cases hrows : t.rows e with
  | none => exact ⟨rfl, nofun⟩
  | some known =>
    rcases he with hnone | hstats
    · rw [hrows] at hnone
      cases hnone
    · obtain ⟨stats, hstats⟩ := Option.isSome_iff_exists.mp hstats
      dsimp only
      rw [hstats, sat_bind_of_ok lookup_some]
      refine ⟨rfl, ?_⟩
      rintro _ _ _ hfound
      obtain ⟨rfl, -⟩ := Prod.mk.inj (Option.some.inj hfound)
      rw [ht.memory.rows] at hrows
      obtain ⟨entry, hentry, rfl⟩ := Option.map_eq_some_iff.mp hrows
      exact Sound.of_row ht.sound hentry

/-- `_resolved` under `_active_lock`: the row that holds the slot is of a tried endpoint. -/
theorem resolvedOld_sat (ht : t.Represents c A) (slot : Slot) :
    Sat (resolvedOld slot) t (fun old t' => t' = t ∧ ∀ key row,
      old = some (key, row) → A.Tried row.endpoint) fun _ _ => False := by
  unfold resolvedOld
  rw [sat_bind, sat_get]
  cases hholder : t.triedOccupant slot with
  | none => exact ⟨rfl, nofun⟩
  | some key =>
    obtain ⟨e, ⟨entry, a, hentry, hplace, -⟩, hkey⟩ := (ht.memory.triedSlotOf _ _).mp
      ((ht.memory.triedOccupant _ _).mp hholder)
    have hend : a.endpoint = e := (Sound.answered_fits ht.sound hentry hplace).1
    subst hend
    subst hkey
    obtain ⟨i, hi⟩ := List.mem_iff_getElem?.mp ((ht.memory.activeAddresses a).mpr
      ⟨entry, hentry, hplace⟩)
    have hat : t.activeIndex (c.endpointKey a.endpoint) = some i := ht.memory.activeIndex.at hi
    dsimp only
    rw [hat, sat_bind_of_ok lookup_some, hi]
    refine ⟨rfl, ?_⟩
    intro _ _ hold
    obtain ⟨-, rfl⟩ := Prod.mk.inj (Option.some.inj hold)
    exact ⟨entry, a, hentry, hplace⟩

/-- `_resolved` with no lock, where the old entry has stats. -/
theorem resolvedWait_sat {old : Option (Bytes × NetworkAddress)}
    (hold : ∀ key row, old = some (key, row) → (t.stats row.endpoint).isSome) (waiting now : ℚ) :
    Sat (resolvedWait old waiting now) t (fun _ t' => t' = t) fun _ _ => False := by
  unfold resolvedWait
  cases old with
  | none => exact rfl
  | some held =>
    obtain ⟨key, row⟩ := held
    obtain ⟨stats, hstats⟩ := Option.isSome_iff_exists.mp (hold key row rfl)
    rw [sat_bind, sat_get, hstats, sat_bind_of_ok lookup_some]
    dsimp only
    split
    · exact rfl
    · split
      · split
        · exact rfl
        · exact rfl
      · split
        · exact rfl
        · exact rfl

theorem Resting.stats_of_tried (ht : Resting c t A) (he : A.Tried e) : (t.stats e).isSome := by
  obtain ⟨entry, answered, hentry, hplace⟩ := he
  apply ht.represents.memory.stats ht.store
  rw [ht.represents.memory.triedEndpoints]
  exact ⟨entry, hentry, Entry.hasLeft_of_tried hplace⟩

/-- **`_resolved`**, with no other call in between, returns and keeps the tables. -/
theorem resolved_sat (hc : c.Lawful) (ht : Resting c t A) (he : t.Remembered e)
    (now : ClockReading) :
    Sat (resolved c e now.seconds) t
      (fun _ t' => ∃ A', Resting c t' A' ∧ ∀ e, t.Remembered e → t'.Remembered e)
      fun _ _ => False := by
  unfold resolved
  rw [sat_bind]
  refine (resolvedKnown_sat ht.represents he).mono ?_ fun _ _ h => h
  rintro found _ ⟨rfl, -⟩
  cases found with
  | none => exact ⟨A, ht, fun _ => id⟩
  | some found =>
    obtain ⟨known, waiting, slot⟩ := found
    dsimp only
    rw [sat_bind]
    refine (resolvedOld_sat ht.represents slot).mono ?_ fun _ _ h => h
    rintro old _ ⟨rfl, hold⟩
    rw [sat_bind]
    refine (resolvedWait_sat (fun key row h => ht.stats_of_tried (hold key row h)) waiting
      now.seconds).mono ?_ fun _ _ h => h
    rintro answer _ rfl
    cases answer with
    | some answer => exact ⟨A, ht, fun _ => id⟩
    | none =>
      dsimp only
      rw [sat_bind]
      exact good_sat hc ht known now false

/-- The loop of `resolve_collisions`. -/
theorem resolveLoop_sat (hc : c.Lawful) (now : ClockReading) (waiting : List Endpoint) :
    ∀ (t : PeerDb) (A : Addrman), Resting c t A → (∀ e ∈ waiting, t.Remembered e) →
      Sat (resolveLoop c now.seconds waiting) t (fun _ t' => ∃ A', Resting c t' A')
        fun _ _ => False := by
  induction waiting with
  | nil => exact fun t A ht _ => ⟨A, ht⟩
  | cons e waiting ih =>
    intro t A ht hwaiting
    unfold resolveLoop
    rw [sat_bind]
    refine (resolved_sat hc ht (hwaiting e List.mem_cons_self) now).mono ?_ fun _ _ h => h
    rintro settled t₁ ⟨A₁, ht₁, hremembered⟩
    have hrest : ∀ e' ∈ waiting, t₁.Remembered e' := by
      intro e' he'
      exact hremembered e' (hwaiting e' (List.mem_cons_of_mem _ he'))
    cases settled with
    | false => exact ih t₁ A₁ ht₁ hrest
    | true =>
      rw [if_pos rfl]
      unfold settle
      rw [sat_bind, sat_modify]
      refine ih { t₁ with collisions := t₁.collisions.erase e } A₁ ?_ hrest
      refine ⟨⟨ht₁.represents.sound, { ht₁.represents.memory with }, ht₁.represents.stored,
        ht₁.represents.batch⟩, ht₁.still, ht₁.store, ht₁.fit, ?_⟩
      intro e' he'
      exact ht₁.waiting e' (Finset.mem_of_mem_erase he')

/-- **`resolve_collisions`**, with no other call in between, returns and keeps the tables. -/
theorem resolveCollisions_sat (hc : c.Lawful) (ht : Resting c t A) (now : ClockReading)
    (order : SetOrder) :
    Sat (resolveCollisions c now.seconds order) t (fun _ t' => ∃ A', Resting c t' A')
      fun _ _ => False := by
  unfold resolveCollisions
  rw [sat_bind, sat_get]
  apply resolveLoop_sat hc now _ t A ht
  intro e he
  exact .inr (ht.waiting e ((order.mem_list _ e).mp he)).2

end PeerDb

end BtclibNode
