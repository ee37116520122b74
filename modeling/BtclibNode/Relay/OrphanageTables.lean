/-
# The tables of the orphanage

The tables and the counts of a `TxOrphanage` are those of one finite set of
announcements, the pairs of a transaction and a peer.  `_announce` adds a pair
to it, `_erase` takes one away and neither raises.
-/
import BtclibNode.Lib.Incidence
import BtclibNode.Relay.Orphanage

namespace BtclibNode

open Incidence

namespace TxOrphanage

/-- The announcements held: which transactions, of which peers. -/
abbrev Held := Finset (OrphanTx × PeerId)

/-- What a peer's announcements use. -/
def useOf (A : Held) (p : PeerId) : PeerUse :=
  ⟨load OrphanTx.weight A p, load (fun _ => 1) A p, load OrphanTx.latencyScore A p⟩

/-- The tables and the counts are those of the announcements `A`. -/
structure Holds (A : Held) (s : TxOrphanage) : Prop where
  commits : ∀ x ∈ A, ∀ y ∈ A, x.1.hash = y.1.hash → x.1 = y.1
  vin_nodup : ∀ x ∈ A, x.1.vin.Nodup
  get_mem : ∀ w p a, s.get w p = some a →
    a.wtxid = w ∧ a.announcer = p ∧ a.tx.hash = w ∧ (a.tx, p) ∈ A
  mem_get : ∀ x ∈ A, ∃ a, s.get x.1.hash x.2 = some a
  announced : ∀ w announcers, s.byWtxid.get? w = some announcers → announcers.keys ≠ []
  byPeer_nodup : ∀ p wtxids, s.byPeer.get? p = some wtxids → wtxids.Nodup
  byPeer_mem : ∀ p w, w ∈ (s.byPeer.get? p).getD [] ↔ ∃ a, s.get w p = some a
  use_eq : ∀ p, s.use.get? p = if p ∈ holders A then some (useOf A p) else none
  announcements_eq : s.announcements = A.card
  uniqueWeight_eq : s.uniqueWeight = once OrphanTx.weight A
  uniqueInputScores_eq : s.uniqueInputScores = once (fun tx => tx.latencyScore - 1) A
  spenders_mem : ∀ o w, w ∈ s.spendersOf o ↔ ∃ x ∈ A, x.1.hash = w ∧ o ∈ x.1.vin
  marks : ∀ w p, s.reconsiderable.get? w = some p ↔
    ∃ a, s.get w p = some a ∧ a.reconsider = true

variable {A : Held} {s t : TxOrphanage} {a b : OrphanAnnouncement} {tx : OrphanTx} {w : Hash}
  {p : PeerId}

namespace Holds

theorem init : Holds ∅ init where
  commits := by simp
  vin_nodup := by simp
  get_mem w p a h := by simp [TxOrphanage.get, TxOrphanage.init] at h
  mem_get := by simp
  announced w announcers h := by simp [TxOrphanage.init] at h
  byPeer_nodup p wtxids h := by simp [TxOrphanage.init] at h
  byPeer_mem p w := by simp [TxOrphanage.get, TxOrphanage.init]
  use_eq p := by simp [TxOrphanage.init, holders]
  announcements_eq := rfl
  uniqueWeight_eq := rfl
  uniqueInputScores_eq := rfl
  spenders_mem o w := by simp [spendersOf, TxOrphanage.init]
  marks w p := by simp [TxOrphanage.get, TxOrphanage.init]

theorem mem (hs : Holds A s) (h : s.get w p = some a) : (a.tx, a.announcer) ∈ A := by
  obtain ⟨-, rfl, -, hmem⟩ := hs.get_mem w p a h
  exact hmem

/-- The one announcement of a pair. -/
theorem get_tx (hs : Holds A s) (h : (tx, p) ∈ A) :
    ∃ a, s.get tx.hash p = some a ∧ a.tx = tx := by
  obtain ⟨a, ha⟩ := hs.mem_get _ h
  obtain ⟨-, -, hhash, hmem⟩ := hs.get_mem _ _ _ ha
  exact ⟨a, ha, hs.commits _ hmem _ h hhash⟩

/-- The peers in use are the holders. -/
theorem use_keys (hs : Holds A s) : p ∈ s.use.keys ↔ p ∈ holders A := by
  rw [s.use.mem_keys_iff, hs.use_eq]
  split <;> simp_all

theorem use_length (hs : Holds A s) : s.use.keys.length = (holders A).card := by
  rw [← List.toFinset_card_of_nodup s.use.nodup]
  apply congrArg
  ext p
  rw [List.mem_toFinset]
  exact hs.use_keys

end Holds

/-! ## Emptied sets of spenders -/

/-- **`discard` of a wtxid from the spenders of each of its inputs.** -/
theorem discardSpends_eq {vin : List OutPoint} (hvin : vin.Nodup)
    {m : Std.ExtTreeMap OutPoint (Std.ExtTreeSet Hash)} (hm : ∀ o ∈ vin, ∃ x, m[o]? = some x) :
    ∃ m', discardSpends w vin m = some m' ∧
      ∀ o v, v ∈ (m'[o]?).getD ∅ ↔ v ∈ (m[o]?).getD ∅ ∧ ¬(v = w ∧ o ∈ vin) := by
  induction vin generalizing m with
  | nil => exact ⟨m, rfl, fun o v => by simp⟩
  | cons o vin ih =>
    obtain ⟨hnew, hvin⟩ := List.nodup_cons.mp hvin
    obtain ⟨x, hx⟩ := hm o List.mem_cons_self
    have hne : ∀ o' ∈ vin, o ≠ o' := by
      rintro o' ho' rfl
      exact hnew ho'
    obtain ⟨m', hm', hmem⟩ := ih hvin
      (m := if (x.erase w).isEmpty then m.erase o else m.insert o (x.erase w)) fun o' ho' => by
        split
        · rw [FiniteMap.getElem?_erase_ne m (hne o' ho')]
          exact hm o' (List.mem_cons_of_mem o ho')
        · rw [FiniteMap.getElem?_insert_ne m _ (hne o' ho')]
          exact hm o' (List.mem_cons_of_mem o ho')
    refine ⟨m', ?_, fun o' v => ?_⟩
    · rw [discardSpends, hx, Option.bind_eq_bind, Option.bind_some]
      exact hm'
    rw [hmem, List.mem_cons]
    by_cases ho : o = o'
    · subst ho
      have hself : v ∈ ((if (x.erase w).isEmpty then m.erase o
          else m.insert o (x.erase w))[o]?).getD ∅ ↔ v ∈ x.erase w := by
        split
        · next hempty =>
          rw [FiniteMap.getElem?_erase, if_pos rfl]
          simp [Std.ExtTreeSet.isEmpty_iff.mp hempty]
        · rw [FiniteMap.getElem?_insert, if_pos rfl]
          rfl
      rw [hself, FiniteMap.mem_erase, hx]
      simp [hnew, and_comm, eq_comm]
    · have hother : (if (x.erase w).isEmpty then m.erase o
          else m.insert o (x.erase w))[o']? = m[o']? := by
        split
        · exact FiniteMap.getElem?_erase_ne m ho
        · exact FiniteMap.getElem?_insert_ne m _ ho
      rw [hother]
      simp [Ne.symm ho]

/-! ## One announcement less -/

/-- What `_erase` leaves in the tables. -/
def eraseTables (a : OrphanAnnouncement) (use : PeerUse) (wtxids : List Hash)
    (announcers : Dict PeerId OrphanAnnouncement)
    (spenders : Std.ExtTreeMap OutPoint (Std.ExtTreeSet Hash)) (s : TxOrphanage) : TxOrphanage :=
  let last := (announcers.erase a.announcer).keys = []
  { s with
    announcements := s.announcements - 1
    use := if use.count - 1 = 0 then s.use.erase a.announcer
      else s.use.set a.announcer
        ⟨use.weight - a.weight, use.count - 1, use.latencyScore - a.latencyScore⟩
    byPeer := if wtxids.erase a.wtxid = [] then s.byPeer.erase a.announcer
      else s.byPeer.set a.announcer (wtxids.erase a.wtxid)
    byWtxid := if last then (s.byWtxid.set a.wtxid (announcers.erase a.announcer)).erase a.wtxid
      else s.byWtxid.set a.wtxid (announcers.erase a.announcer)
    uniqueWeight := if last then s.uniqueWeight - a.weight else s.uniqueWeight
    uniqueInputScores :=
      if last then s.uniqueInputScores - (a.latencyScore - 1) else s.uniqueInputScores
    spenders := if last then spenders else s.spenders
    reconsiderable := if a.reconsider then s.reconsiderable.erase a.wtxid else s.reconsiderable }

theorem erase_tables {use : PeerUse} {wtxids : List Hash}
    {announcers : Dict PeerId OrphanAnnouncement}
    {spenders : Std.ExtTreeMap OutPoint (Std.ExtTreeSet Hash)}
    (huse : s.use.get? a.announcer = some use) (hwtxids : s.byPeer.get? a.announcer = some wtxids)
    (hmem : a.wtxid ∈ wtxids) (hannouncers : s.byWtxid.get? a.wtxid = some announcers)
    (ha : announcers.get? a.announcer = some a)
    (hspenders : discardSpends a.wtxid a.tx.vin s.spenders = some spenders)
    (hmark : a.reconsider = true → ∃ q, s.reconsiderable.get? a.wtxid = some q) :
    erase a s = some (eraseTables a use wtxids announcers spenders s) := by
  unfold erase
  simp only [huse, hwtxids, hannouncers, ha, if_pos hmem, Option.bind_eq_bind, Option.bind_some]
  by_cases hlast : (announcers.erase a.announcer).keys = []
  · simp only [if_pos hlast, forgetTx, hspenders, Option.bind_eq_bind, Option.bind_some,
      Option.pure_def, unmark, eraseTables]
    cases hre : a.reconsider with
    | false => simp
    | true =>
      obtain ⟨q, hq⟩ := hmark hre
      simp [hq]
  · simp only [if_neg hlast, unmark, eraseTables]
    cases hre : a.reconsider with
    | false => simp
    | true =>
      obtain ⟨q, hq⟩ := hmark hre
      simp [hq]

/-- Its last announcement takes a transaction off the tables. -/
theorem Holds.last_iff (hs : Holds A s) {announcers : Dict PeerId OrphanAnnouncement}
    (hannouncers : s.byWtxid.get? a.wtxid = some announcers)
    (ha : announcers.get? a.announcer = some a) :
    (announcers.erase a.announcer).keys = [] ↔
      a.tx ∉ items (A.erase (a.tx, a.announcer)) := by
  have hget : ∀ q, s.get a.wtxid q = announcers.get? q := fun q => by
    rw [TxOrphanage.get, hannouncers, Option.bind_some]
  obtain ⟨-, -, hhash, -⟩ := hs.get_mem _ _ _ ((hget _).trans ha)
  rw [Dict.keys_eq_nil_iff, mem_items]
  constructor
  · rintro hnone ⟨q, hq⟩
    obtain ⟨hne, hmem⟩ := Finset.mem_erase.mp hq
    obtain ⟨b, hb, -⟩ := hs.get_tx hmem
    rw [hhash, hget] at hb
    have hq := hnone q
    rw [Dict.get?_erase, if_neg (fun h => hne (by rw [h])), hb] at hq
    cases hq
  · intro hnone q
    rw [Dict.get?_erase]
    split
    · rfl
    · next hne =>
      cases hb : announcers.get? q with
      | none => rfl
      | some b =>
        obtain ⟨-, -, hbhash, hmem⟩ := hs.get_mem _ _ _ ((hget q).trans hb)
        have htx : b.tx = a.tx := hs.commits _ hmem _
          (hs.mem ((hget _).trans ha)) (hbhash.trans hhash.symm)
        rw [htx] at hmem
        refine absurd ⟨q, Finset.mem_erase.mpr ⟨?_, hmem⟩⟩ hnone
        rintro ⟨⟩
        exact hne rfl

section EraseTables

variable {use : PeerUse} {wtxids : List Hash} {announcers : Dict PeerId OrphanAnnouncement}
  {spenders : Std.ExtTreeMap OutPoint (Std.ExtTreeSet Hash)}

theorem byWtxid_eraseTables (v : Hash) :
    (eraseTables a use wtxids announcers spenders s).byWtxid.get? v =
      if a.wtxid = v then
        if (announcers.erase a.announcer).keys = [] then none
        else some (announcers.erase a.announcer)
      else s.byWtxid.get? v := by
  unfold eraseTables
  by_cases hlast : (announcers.erase a.announcer).keys = []
  · simp only [if_pos hlast, Dict.get?_erase, Dict.get?_set]
    split <;> rfl
  · simp only [if_neg hlast, Dict.get?_set]

/-- The announcements `_erase` leaves. -/
theorem get_eraseTables (hannouncers : s.byWtxid.get? a.wtxid = some announcers) (v : Hash)
    (q : PeerId) :
    (eraseTables a use wtxids announcers spenders s).get v q =
      if a.wtxid = v ∧ a.announcer = q then none else s.get v q := by
  unfold get
  rw [byWtxid_eraseTables]
  by_cases hv : a.wtxid = v
  · subst hv
    rw [if_pos rfl, hannouncers, Option.bind_some]
    have herase := Dict.get?_erase announcers a.announcer q
    by_cases hlast : (announcers.erase a.announcer).keys = []
    · rw [Dict.get?_eq_none_of_keys hlast] at herase
      rw [if_pos hlast, Option.bind_none, herase]
      split <;> simp_all
    · rw [if_neg hlast, Option.bind_some, herase]
      simp
  · rw [if_neg hv, if_neg (fun h => hv h.1)]

theorem byPeer_eraseTables (q : PeerId) :
    ((eraseTables a use wtxids announcers spenders s).byPeer.get? q).getD [] =
      if a.announcer = q then wtxids.erase a.wtxid else (s.byPeer.get? q).getD [] := by
  unfold eraseTables
  by_cases hnil : wtxids.erase a.wtxid = []
  · simp only [if_pos hnil, Dict.get?_erase]
    split
    · rw [hnil]
      rfl
    · rfl
  · simp only [if_neg hnil, Dict.get?_set]
    split <;> rfl

/-- The use of a peer follows its load. -/
theorem use_eraseTables (hs : Holds A s) (hmem : (a.tx, a.announcer) ∈ A) (q : PeerId) :
    (eraseTables a (useOf A a.announcer) wtxids announcers spenders s).use.get? q =
      if q ∈ holders (A.erase (a.tx, a.announcer)) then
        some (useOf (A.erase (a.tx, a.announcer)) q)
      else none := by
  have hload : ∀ w : OrphanTx → ℕ, (load w A q : ℤ) =
      load w (A.erase (a.tx, a.announcer)) q + if a.announcer = q then (w a.tx : ℤ) else 0 :=
    fun w => by rw [load_erase w hmem q]; split <;> simp
  have hcount : q ∈ holders A ↔ load (fun _ => 1) A q ≠ 0 := mem_holders_iff_load
  have hcount' : q ∈ holders (A.erase (a.tx, a.announcer)) ↔
      load (fun _ => 1) (A.erase (a.tx, a.announcer)) q ≠ 0 := mem_holders_iff_load
  have h1 := hload fun _ => 1
  have hw := hload OrphanTx.weight
  have hl := hload OrphanTx.latencyScore
  by_cases hq : a.announcer = q
  · subst hq
    rw [if_pos rfl] at h1 hw hl
    have huse : (eraseTables a (useOf A a.announcer) wtxids announcers spenders s).use.get?
        a.announcer = if (load (fun _ => 1) A a.announcer : ℤ) - 1 = 0 then none
          else some (useOf (A.erase (a.tx, a.announcer)) a.announcer) := by
      unfold eraseTables useOf OrphanAnnouncement.weight OrphanAnnouncement.latencyScore
      simp only [h1, hw, hl, add_sub_cancel_right, Nat.cast_one]
      split
      · rw [Dict.get?_erase, if_pos rfl]
      · rw [Dict.get?_set_self]
    rw [huse, h1]
    by_cases hzero : load (fun _ => 1) (A.erase (a.tx, a.announcer)) a.announcer = 0
    · rw [if_pos (by rw [hzero]; rfl), if_neg (fun h => hcount'.mp h hzero)]
    · rw [if_neg (by omega), if_pos (hcount'.mpr hzero)]
  · rw [if_neg hq, add_zero] at h1 hw hl
    have huse : (eraseTables a (useOf A a.announcer) wtxids announcers spenders s).use.get? q =
        s.use.get? q := by
      unfold eraseTables
      dsimp only
      split
      · rw [Dict.get?_erase, if_neg hq]
      · rw [Dict.get?_set_ne _ _ hq]
    rw [huse, hs.use_eq]
    unfold useOf
    rw [hw, hl, h1]
    have hiff : q ∈ holders A ↔ q ∈ holders (A.erase (a.tx, a.announcer)) := by
      rw [hcount, hcount']
      omega
    simp only [hiff]

end EraseTables

/-- `_erase` of an announcement of the tables. -/
theorem erase_eq (hs : Holds A s) (ha : s.get a.wtxid a.announcer = some a) :
    ∃ t, erase a s = some t ∧ Holds (A.erase (a.tx, a.announcer)) t ∧
      ∀ v q, t.get v q = if a.wtxid = v ∧ a.announcer = q then none else s.get v q := by
  have hmem := hs.mem ha
  obtain ⟨-, -, hhash, -⟩ := hs.get_mem _ _ _ ha
  have huse := hs.use_eq a.announcer
  rw [if_pos (mem_holders.mpr ⟨_, hmem⟩)] at huse
  obtain ⟨announcers, hannouncers, hgeta⟩ := Option.bind_eq_some_iff.mp ha
  have hknown := (hs.byPeer_mem a.announcer a.wtxid).mpr ⟨a, ha⟩
  obtain ⟨wtxids, hwtxids⟩ : ∃ wtxids, s.byPeer.get? a.announcer = some wtxids := by
    cases h : s.byPeer.get? a.announcer with
    | none =>
      rw [h] at hknown
      cases hknown
    | some wtxids => exact ⟨wtxids, rfl⟩
  rw [hwtxids, Option.getD_some] at hknown
  obtain ⟨spenders, hspenders, hspends⟩ := discardSpends_eq (w := a.wtxid)
    (hs.vin_nodup _ hmem) (m := s.spenders) fun o ho => by
      have ho' := (hs.spenders_mem o a.wtxid).mpr ⟨_, hmem, hhash, ho⟩
      unfold spendersOf at ho'
      cases h : s.spenders[o]? with
      | none =>
        rw [h] at ho'
        exact absurd ho' Std.ExtTreeSet.not_mem_empty
      | some x => exact ⟨x, rfl⟩
  have hlast := hs.last_iff hannouncers hgeta
  refine ⟨_, erase_tables huse hwtxids hknown hannouncers hgeta hspenders fun hre =>
    ⟨_, (hs.marks _ _).mpr ⟨a, ha, hre⟩⟩, ?_⟩
  set t := eraseTables a (useOf A a.announcer) wtxids announcers spenders s with ht
  have hget : ∀ v q, t.get v q = if a.wtxid = v ∧ a.announcer = q then none else s.get v q := by
    rw [ht]
    exact get_eraseTables hannouncers
  refine ⟨?_, hget⟩
  -- the pair taken away is the one of `a` alone
  have hpair : ∀ {v q b}, s.get v q = some b → ¬(a.wtxid = v ∧ a.announcer = q) →
      (b.tx, q) ∈ A.erase (a.tx, a.announcer) := by
    intro v q b hb hne
    obtain ⟨-, -, hbhash, hbmem⟩ := hs.get_mem v q b hb
    refine Finset.mem_erase.mpr ⟨fun heq => hne ?_, hbmem⟩
    rw [Prod.mk.injEq] at heq
    exact ⟨by rw [← hhash, ← hbhash, heq.1], heq.2.symm⟩
  constructor
  · exact fun x hx y hy => hs.commits x (Finset.mem_of_mem_erase hx) y (Finset.mem_of_mem_erase hy)
  · exact fun x hx => hs.vin_nodup x (Finset.mem_of_mem_erase hx)
  · intro v q b hb
    rw [hget] at hb
    split at hb
    · cases hb
    · next hne =>
      obtain ⟨h1, h2, h3, -⟩ := hs.get_mem v q b hb
      exact ⟨h1, h2, h3, hpair hb hne⟩
  · intro x hx
    obtain ⟨hne, hxmem⟩ := Finset.mem_erase.mp hx
    rw [hget, if_neg]
    · exact hs.mem_get x hxmem
    · rintro ⟨hw, hp⟩
      exact hne (Prod.ext (hs.commits _ hxmem _ hmem (hw ▸ hhash.symm)) hp.symm)
  · intro v d hd
    rw [ht, byWtxid_eraseTables] at hd
    split at hd
    · split at hd
      · cases hd
      · next hne =>
        rw [Option.some.injEq] at hd
        rw [← hd]
        exact hne
    · exact hs.announced v d hd
  · intro q l hl
    rw [ht] at hl
    unfold eraseTables at hl
    dsimp only at hl
    by_cases hq : a.announcer = q
    · subst hq
      split at hl
      · rw [Dict.get?_erase, if_pos rfl] at hl
        cases hl
      · rw [Dict.get?_set_self, Option.some.injEq] at hl
        rw [← hl]
        exact (hs.byPeer_nodup _ _ hwtxids).erase a.wtxid
    · split at hl
      · rw [Dict.get?_erase, if_neg hq] at hl
        exact hs.byPeer_nodup q l hl
      · rw [Dict.get?_set_ne _ _ hq] at hl
        exact hs.byPeer_nodup q l hl
  · intro q v
    rw [ht, byPeer_eraseTables, ← ht, hget]
    by_cases hq : a.announcer = q
    · subst hq
      rw [if_pos rfl, (hs.byPeer_nodup _ _ hwtxids).mem_erase_iff]
      have hv := hs.byPeer_mem a.announcer v
      rw [hwtxids, Option.getD_some] at hv
      by_cases hav : a.wtxid = v
      · simp [hav]
      · simp [hav, hv, Ne.symm hav]
    · rw [if_neg hq, if_neg (fun h => hq h.2)]
      exact hs.byPeer_mem q v
  · exact use_eraseTables hs hmem
  · show s.announcements - 1 = _
    rw [hs.announcements_eq, Finset.card_erase_of_mem hmem]
    have := Finset.card_pos.mpr ⟨_, hmem⟩
    omega
  · show (if _ then _ else _) = _
    split
    · next h =>
      rw [hs.uniqueWeight_eq, once_erase_of_notMem OrphanTx.weight hmem (hlast.mp h)]
      push_cast
      exact add_sub_cancel_right (_ : ℤ) _
    · next h =>
      rw [hs.uniqueWeight_eq, once_erase_of_mem OrphanTx.weight hmem (not_not.mp (mt hlast.mpr h))]
  · show (if _ then _ else _) = _
    have hone : (a.latencyScore : ℤ) - 1 = (a.tx.latencyScore - 1 : ℕ) := by
      unfold OrphanAnnouncement.latencyScore OrphanTx.latencyScore
      omega
    split
    · next h =>
      rw [hs.uniqueInputScores_eq, hone, once_erase_of_notMem _ hmem (hlast.mp h)]
      push_cast
      exact add_sub_cancel_right (_ : ℤ) _
    · next h =>
      rw [hs.uniqueInputScores_eq, once_erase_of_mem _ hmem (not_not.mp (mt hlast.mpr h))]
  · intro o v
    have hbefore := hs.spenders_mem o v
    have hafter : v ∈ t.spendersOf o ↔
        v ∈ s.spendersOf o ∧ ¬((announcers.erase a.announcer).keys = [] ∧
          v = a.wtxid ∧ o ∈ a.tx.vin) := by
      show v ∈ ((if _ then spenders else s.spenders)[o]?).getD ∅ ↔ _
      split
      · next h => simp [h, hspends o v, spendersOf]
      · next h => simp [h, spendersOf]
    rw [hafter, hbefore]
    constructor
    · rintro ⟨⟨x, hx, hxv, hxo⟩, hkeep⟩
      by_cases hxa : x = (a.tx, a.announcer)
      · -- another peer still announces the transaction
        have hmore := not_not.mp (mt hlast.mpr fun h => hkeep
          ⟨h, by rw [← hxv, hxa]; exact hhash, by rw [hxa] at hxo; exact hxo⟩)
        obtain ⟨q, hq⟩ := mem_items.mp hmore
        exact ⟨(a.tx, q), hq, by rw [← hxv, hxa], by rw [hxa] at hxo; exact hxo⟩
      · exact ⟨x, Finset.mem_erase.mpr ⟨hxa, hx⟩, hxv, hxo⟩
    · rintro ⟨x, hx, hxv, hxo⟩
      have hxmem := Finset.mem_of_mem_erase hx
      refine ⟨⟨x, hxmem, hxv, hxo⟩, ?_⟩
      rintro ⟨hnil, hva, -⟩
      apply hlast.mp hnil
      have htx : x.1 = a.tx := hs.commits _ hxmem _ hmem (by rw [hxv, hva, hhash])
      exact mem_items.mpr ⟨x.2, htx ▸ hx⟩
  · intro v q
    have hbefore := hs.marks v q
    have hself := hs.marks a.wtxid a.announcer
    have hmarks : t.reconsiderable.get? v = if a.reconsider = true ∧ a.wtxid = v then none
        else s.reconsiderable.get? v := by
      show (if _ then _ else _ : Dict Hash PeerId).get? v = _
      by_cases hre : a.reconsider = true
      · rw [if_pos hre, Dict.get?_erase]
        simp [hre]
      · simp [hre]
    rw [hmarks, hget]
    by_cases hv : a.wtxid = v
    · subst hv
      by_cases hq : a.announcer = q
      · subst hq
        cases hre : a.reconsider <;> simp_all
      · cases hre : a.reconsider with
        | false => simp [hq, hbefore]
        | true =>
          -- a wtxid has one mark
          have hone := hself.mpr ⟨a, ha, hre⟩
          rw [hone, Option.some.injEq] at hbefore
          simp only [and_self, if_true, hq, and_false, if_false]
          exact iff_of_false nofun fun h => hq (hbefore.mpr h)
    · simp [hv, hbefore]

end TxOrphanage

end BtclibNode
