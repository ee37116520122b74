/-
# The announcements of a call

What each call of a `TxOrphanage` does before `_limit_orphans`, on the set of
announcements its tables hold: one is added, some are taken away, or the marks
alone change.
-/
import BtclibNode.Relay.OrphanageTables

namespace BtclibNode

open Incidence

namespace TxOrphanage

variable {A : Held} {s t : TxOrphanage} {a b : OrphanAnnouncement} {tx : OrphanTx} {w : Hash}
  {p : PeerId}

/-! ## One announcement more -/

/-- Every input names the wtxid as a spender. -/
theorem mem_addSpends (vin : List OutPoint) (m : Std.ExtTreeMap OutPoint (Std.ExtTreeSet Hash))
    (o : OutPoint) (v : Hash) :
    v ∈ ((addSpends w vin m)[o]?).getD ∅ ↔ v ∈ (m[o]?).getD ∅ ∨ v = w ∧ o ∈ vin := by
  unfold addSpends
  induction vin generalizing m with
  | nil => simp
  | cons o' vin ih =>
    rw [List.foldl_cons, ih, FiniteMap.getElem?_insert, List.mem_cons]
    by_cases ho : o' = o
    · subst ho
      rw [if_pos rfl, Option.getD_some, FiniteMap.mem_insert]
      constructor
      · rintro ((rfl | hv) | ⟨rfl, -⟩)
        · exact .inr ⟨rfl, .inl rfl⟩
        · exact .inl hv
        · exact .inr ⟨rfl, .inl rfl⟩
      · rintro (hv | ⟨rfl, -⟩)
        · exact .inl (.inr hv)
        · exact .inl (.inl rfl)
    · rw [if_neg ho]
      simp [Ne.symm ho]

/-- What `add_tx` and `add_announcer` record of an announcement. -/
def record (tx : OrphanTx) (s t : TxOrphanage) : TxOrphanage :=
  if s.haveTx tx.hash then t else addUnique tx tx.hash t

theorem Holds.haveTx_iff (hs : Holds A s) : s.haveTx w = true ↔ ∃ x ∈ A, x.1.hash = w := by
  unfold haveTx
  rw [Option.isSome_iff_exists]
  constructor
  · rintro ⟨announcers, hw⟩
    obtain ⟨p, a, ha⟩ := Dict.exists_get?_of_keys (hs.announced w announcers hw)
    obtain ⟨-, -, hhash, hmem⟩ := hs.get_mem w p a (by
      rw [get, hw]
      exact ha)
    exact ⟨_, hmem, hhash⟩
  · rintro ⟨x, hx, rfl⟩
    obtain ⟨a, ha⟩ := hs.mem_get x hx
    obtain ⟨announcers, hw, -⟩ := Option.bind_eq_some_iff.mp ha
    exact ⟨announcers, hw⟩

theorem announce_eq_none (h : s.get w p = some a) : announce tx w p s = none := by
  obtain ⟨announcers, hw, ha⟩ := Option.bind_eq_some_iff.mp h
  unfold announce
  rw [hw]
  simp only [Option.getD_some, ha]

/-- `_announce` of what is not announced by the peer. -/
theorem announce_eq (hs : Holds A s) (hcommits : ∀ x ∈ A, x.1.hash = tx.hash → x.1 = tx)
    (hvin : tx.vin.Nodup) (hnew : s.get tx.hash p = none) :
    ∃ t, announce tx tx.hash p s = some t ∧ Holds (insert (tx, p) A) (record tx s t) ∧
      ∀ v q, (record tx s t).get v q =
        if tx.hash = v ∧ p = q then some ⟨tx, tx.hash, p, s.sequence, false⟩ else s.get v q := by
  obtain ⟨d, hd⟩ : ∃ d, (s.byWtxid.get? tx.hash).getD .empty = d := ⟨_, rfl⟩
  have hdget : ∀ q, d.get? q = s.get tx.hash q := by
    intro q
    rw [← hd, get]
    cases s.byWtxid.get? tx.hash with
    | none => exact Dict.get?_empty q
    | some d => rfl
  have hdp : d.get? p = none := (hdget p).trans hnew
  have hnotMem : (tx, p) ∉ A := by
    intro h
    obtain ⟨a, ha, -⟩ := hs.get_tx h
    rw [hnew] at ha
    cases ha
  set a : OrphanAnnouncement := ⟨tx, tx.hash, p, s.sequence, false⟩ with ha
  obtain ⟨t, ht⟩ : ∃ t, announce tx tx.hash p s = some t := by
    unfold announce
    simp only [hd, hdp, Option.some.injEq, exists_eq']
  refine ⟨t, ht, ?_⟩
  unfold announce at ht
  simp only [hd, hdp, Option.some.injEq] at ht
  obtain ⟨u, hu⟩ : ∃ u, record tx s t = u := ⟨_, rfl⟩
  have hbyWtxid : u.byWtxid = s.byWtxid.set tx.hash (d.set p a) := by
    rw [← hu, ← ht]
    unfold record addUnique
    split <;> rfl
  have hget : ∀ v q, u.get v q = if tx.hash = v ∧ p = q then some a else s.get v q := by
    intro v q
    rw [get, hbyWtxid, Dict.get?_set]
    by_cases hv : tx.hash = v
    · subst hv
      rw [if_pos rfl, Option.bind_some, Dict.get?_set, hdget]
      simp
    · rw [if_neg hv, if_neg (fun h => hv h.1)]
      rfl
  have hbyPeer : u.byPeer = s.byPeer.set p ((s.byPeer.get? p).getD [] ++ [tx.hash]) := by
    rw [← hu, ← ht]
    unfold record addUnique
    split <;> rfl
  have huse : u.use = s.use.set p (let use := (s.use.get? p).getD ⟨0, 0, 0⟩
      ⟨use.weight + tx.weight, use.count + 1, use.latencyScore + tx.latencyScore⟩) := by
    rw [← hu, ← ht]
    unfold record addUnique
    split <;> rfl
  -- a transaction is new where no peer announces it
  have hkept : s.haveTx tx.hash = true ↔ tx ∈ items A := by
    rw [hs.haveTx_iff, mem_items]
    constructor
    · rintro ⟨x, hx, hhash⟩
      exact ⟨x.2, hcommits x hx hhash ▸ hx⟩
    · rintro ⟨q, hq⟩
      exact ⟨_, hq, rfl⟩
  rw [hu]
  refine ⟨?_, hget⟩
  constructor
  · intro x hx y hy hxy
    rcases Finset.mem_insert.mp hx with rfl | hx <;> rcases Finset.mem_insert.mp hy with rfl | hy
    · rfl
    · exact (hcommits y hy hxy.symm).symm
    · exact hcommits x hx hxy
    · exact hs.commits x hx y hy hxy
  · intro x hx
    rcases Finset.mem_insert.mp hx with rfl | hx
    · exact hvin
    · exact hs.vin_nodup x hx
  · intro v q b hb
    rw [hget] at hb
    split at hb
    · next h =>
      obtain ⟨rfl, rfl⟩ := h
      rw [← Option.some.inj hb]
      exact ⟨rfl, rfl, rfl, Finset.mem_insert_self _ A⟩
    · obtain ⟨h1, h2, h3, h4⟩ := hs.get_mem v q b hb
      exact ⟨h1, h2, h3, Finset.mem_insert_of_mem h4⟩
  · intro x hx
    rw [hget]
    split
    · exact ⟨_, rfl⟩
    · next h =>
      rcases Finset.mem_insert.mp hx with rfl | hx
      · exact absurd ⟨rfl, rfl⟩ h
      · exact hs.mem_get x hx
  · intro v e he
    rw [hbyWtxid, Dict.get?_set] at he
    split at he
    · rw [← Option.some.inj he]
      exact List.ne_nil_of_mem (Dict.mem_keys_of_get? (Dict.get?_set_self d p a))
    · exact hs.announced v e he
  · intro q l hl
    rw [hbyPeer, Dict.get?_set] at hl
    split at hl
    · rw [← Option.some.inj hl, List.nodup_append]
      refine ⟨?_, List.nodup_singleton _, ?_⟩
      · cases hp : s.byPeer.get? p with
        | none => exact List.nodup_nil
        | some l => exact hs.byPeer_nodup p l hp
      · rintro v hv y hy rfl
        rw [List.mem_singleton] at hy
        obtain ⟨b, hb⟩ := (hs.byPeer_mem p v).mp hv
        rw [hy, hnew] at hb
        cases hb
    · exact hs.byPeer_nodup q l hl
  · intro q v
    rw [hbyPeer, Dict.get?_set, hget]
    by_cases hq : p = q
    · subst hq
      rw [if_pos rfl, Option.getD_some, List.mem_append, List.mem_singleton, hs.byPeer_mem]
      by_cases hv : tx.hash = v
      · simp [hv]
      · simp [hv, Ne.symm hv]
    · rw [if_neg hq, if_neg (fun h => hq h.2)]
      exact hs.byPeer_mem q v
  · intro q
    rw [huse, Dict.get?_set, hs.use_eq, hs.use_eq]
    simp only [holders_insert, Finset.mem_insert]
    unfold useOf
    simp only [load_insert _ hnotMem]
    by_cases hq : p = q
    · subst hq
      by_cases hp : p ∈ holders A
      · simp [hp]
      · simp [hp, load_eq_zero _ hp]
    · simp [hq, Ne.symm hq]
  · have hcount : u.announcements = s.announcements + 1 := by
      rw [← hu, ← ht]
      unfold record addUnique
      split <;> rfl
    rw [hcount, hs.announcements_eq, Finset.card_insert_of_notMem hnotMem]
    rfl
  · rw [← hu, ← ht]
    unfold record
    split
    · next h =>
      rw [once_insert_of_mem _ (hkept.mp h)]
      exact hs.uniqueWeight_eq
    · next h =>
      rw [once_insert_of_notMem _ (mt hkept.mpr h)]
      show s.uniqueWeight + _ = _
      rw [hs.uniqueWeight_eq]
      rfl
  · rw [← hu, ← ht]
    unfold record
    split
    · next h =>
      rw [once_insert_of_mem _ (hkept.mp h)]
      exact hs.uniqueInputScores_eq
    · next h =>
      rw [once_insert_of_notMem _ (mt hkept.mpr h)]
      show s.uniqueInputScores + _ = _
      rw [hs.uniqueInputScores_eq]
      unfold OrphanTx.latencyScore
      omega
  · intro o v
    have hold := hs.spenders_mem o v
    have hnew : v ∈ u.spendersOf o ↔ v ∈ s.spendersOf o ∨ v = tx.hash ∧ o ∈ tx.vin := by
      rw [← hu, ← ht]
      unfold record
      split
      · next h =>
        obtain ⟨q, hq⟩ := mem_items.mp (hkept.mp h)
        constructor
        · exact .inl
        · rintro (hv | ⟨rfl, ho⟩)
          · exact hv
          · exact (hs.spenders_mem o _).mpr ⟨_, hq, rfl, ho⟩
      · exact mem_addSpends tx.vin s.spenders o v
    rw [hnew, hold]
    constructor
    · rintro (⟨x, hx, hxv, hxo⟩ | ⟨rfl, ho⟩)
      · exact ⟨x, Finset.mem_insert_of_mem hx, hxv, hxo⟩
      · exact ⟨_, Finset.mem_insert_self _ A, rfl, ho⟩
    · rintro ⟨x, hx, hxv, hxo⟩
      rcases Finset.mem_insert.mp hx with rfl | hx
      · exact .inr ⟨hxv.symm, hxo⟩
      · exact .inl ⟨x, hx, hxv, hxo⟩
  · intro v q
    have hmarks : u.reconsiderable = s.reconsiderable := by
      rw [← hu, ← ht]
      unfold record addUnique
      split <;> rfl
    rw [hmarks, hs.marks, hget]
    split
    · next h =>
      obtain ⟨rfl, rfl⟩ := h
      simp [hnew, ha]
    · rfl

/-! ## Some announcements less -/

/-- `_erase` of some announcements, each of them once. -/
theorem eraseAll_eq {l : List OrphanAnnouncement} (hs : Holds A s)
    (hl : ∀ a ∈ l, s.get a.wtxid a.announcer = some a) (hnodup : l.Nodup) :
    ∃ t B, eraseAll l s = some t ∧ B ⊆ A ∧ Holds B t ∧
      ∀ v q b, s.get v q = some b → b ∉ l → t.get v q = some b := by
  induction l generalizing A s with
  | nil => exact ⟨s, A, rfl, Finset.Subset.refl A, hs, fun v q b hb _ => hb⟩
  | cons a l ih =>
    obtain ⟨hnew, hnodup⟩ := List.nodup_cons.mp hnodup
    obtain ⟨ha, hl⟩ := List.forall_mem_cons.mp hl
    obtain ⟨u, hu, hholds, hget⟩ := erase_eq hs ha
    have hother : ∀ v q b, s.get v q = some b → b ≠ a → u.get v q = some b := by
      intro v q b hb hne
      rw [hget, if_neg]
      · exact hb
      · rintro ⟨rfl, rfl⟩
        exact hne (Option.some.inj (hb.symm.trans ha))
    obtain ⟨t, B, ht, hB, hBholds, hkeep⟩ := ih hholds
      (fun b hb => hother _ _ b (hl b hb) fun h => hnew (h ▸ hb)) hnodup
    refine ⟨t, B, ?_, hB.trans (Finset.erase_subset _ A), hBholds, fun v q b hb hout => ?_⟩
    · rw [eraseAll, hu, Option.bind_eq_bind, Option.bind_some]
      exact ht
    · rw [List.mem_cons, not_or] at hout
      exact hkeep v q b (hother v q b hb hout.1) hout.2

/-! ## The marks -/

/-- The announcement `a` with its mark set or cleared. -/
def remark (a : OrphanAnnouncement) (mark : Bool) (s : TxOrphanage)
    (announcers : Dict PeerId OrphanAnnouncement) : TxOrphanage :=
  { s with
    byWtxid := s.byWtxid.set a.wtxid (announcers.set a.announcer { a with reconsider := mark })
    reconsiderable := if mark then s.reconsiderable.set a.wtxid a.announcer
      else s.reconsiderable.erase a.wtxid }

/-- A change of marks keeps every announcement. -/
theorem Holds.remark (mark : Bool) {announcers : Dict PeerId OrphanAnnouncement}
    (hs : Holds A s) (hannouncers : s.byWtxid.get? a.wtxid = some announcers)
    (ha : announcers.get? a.announcer = some a)
    (hmark : if mark then s.reconsiderable.get? a.wtxid = none else a.reconsider = true) :
    Holds A (remark a mark s announcers) ∧
      ∀ v q, ((remark a mark s announcers).get v q).isSome = (s.get v q).isSome := by
  obtain ⟨u, hu⟩ : ∃ u, TxOrphanage.remark a mark s announcers = u := ⟨_, rfl⟩
  have hsa : s.get a.wtxid a.announcer = some a := by
    rw [get, hannouncers]
    exact ha
  have hbyWtxid : ∀ v, u.byWtxid.get? v = if a.wtxid = v then
      some (announcers.set a.announcer { a with reconsider := mark }) else s.byWtxid.get? v := by
    intro v
    rw [← hu]
    exact Dict.get?_set _ _ _ v
  have hget : ∀ v q, u.get v q = if a.wtxid = v ∧ a.announcer = q then
      some { a with reconsider := mark } else s.get v q := by
    intro v q
    unfold get
    rw [hbyWtxid]
    by_cases hv : a.wtxid = v
    · subst hv
      rw [if_pos rfl, Option.bind_some, Dict.get?_set, hannouncers, Option.bind_some]
      simp
    · rw [if_neg hv, if_neg (fun h => hv h.1)]
  have hsome : ∀ v q, (∃ b, u.get v q = some b) ↔ ∃ b, s.get v q = some b := by
    intro v q
    rw [hget]
    split
    · next h =>
      obtain ⟨rfl, rfl⟩ := h
      exact iff_of_true ⟨_, rfl⟩ ⟨a, hsa⟩
    · rfl
  rw [hu]
  refine ⟨⟨hs.commits, hs.vin_nodup, ?_, ?_, ?_, ?_, ?_, ?_, ?_, ?_, ?_, ?_, ?_⟩, ?_⟩
  · intro v q b hb
    rw [hget] at hb
    split at hb
    · next h =>
      obtain ⟨rfl, rfl⟩ := h
      rw [← Option.some.inj hb]
      exact hs.get_mem _ _ a hsa
    · exact hs.get_mem v q b hb
  · intro x hx
    exact (hsome _ _).mpr (hs.mem_get x hx)
  · intro v d hd
    rw [hbyWtxid] at hd
    split at hd
    · rw [← Option.some.inj hd]
      exact List.ne_nil_of_mem (Dict.mem_keys_of_get? (Dict.get?_set_self announcers _ _))
    · exact hs.announced v d hd
  · rw [← hu]
    exact hs.byPeer_nodup
  · intro q v
    rw [hsome, ← hu]
    exact hs.byPeer_mem q v
  · rw [← hu]
    exact hs.use_eq
  · rw [← hu]
    exact hs.announcements_eq
  · rw [← hu]
    exact hs.uniqueWeight_eq
  · rw [← hu]
    exact hs.uniqueInputScores_eq
  · rw [← hu]
    exact hs.spenders_mem
  · intro v q
    have hbefore := hs.marks v q
    have hmarks : u.reconsiderable.get? v = if a.wtxid = v then
        if mark then some a.announcer else none else s.reconsiderable.get? v := by
      rw [← hu]
      unfold TxOrphanage.remark
      cases mark with
      | true =>
        simp only [if_true]
        exact Dict.get?_set _ _ _ v
      | false =>
        simp only [Bool.false_eq_true, if_false]
        exact Dict.get?_erase _ _ v
    rw [hmarks, hget]
    by_cases hv : a.wtxid = v
    · subst hv
      by_cases hq : a.announcer = q
      · subst hq
        cases mark <;> simp
      · -- no other announcement of the wtxid is marked
        have hnone : ¬∃ b, s.get a.wtxid q = some b ∧ b.reconsider = true := by
          rw [← hbefore]
          intro hmarked
          cases mark with
          | true =>
            rw [if_pos rfl, hmarked] at hmark
            cases hmark
          | false =>
            have hself := (hs.marks a.wtxid a.announcer).mpr ⟨a, hsa, hmark⟩
            exact hq (Option.some.inj (hself.symm.trans hmarked))
        have hneg : ¬(a.wtxid = a.wtxid ∧ a.announcer = q) := fun h => hq h.2
        rw [if_pos rfl, if_neg hneg]
        refine iff_of_false (fun h => ?_) hnone
        cases mark with
        | true => exact hq (Option.some.inj h)
        | false => cases h
    · rw [if_neg hv, if_neg (fun h => hv h.1)]
      exact hbefore
  · intro v q
    rw [Bool.eq_iff_iff, Option.isSome_iff_exists, Option.isSome_iff_exists]
    exact hsome v q

/-- A wtxid kept is marked, or is marked already. -/
theorem markChild_eq (hs : Holds A s) (choice : Hash → ℕ) (hw : ∃ x ∈ A, x.1.hash = w) :
    ∃ t marked, markChild choice w s = some (t, marked) ∧ Holds A t ∧
      ∀ v q, (t.get v q).isSome = (s.get v q).isSome := by
  unfold markChild
  cases hmark : s.reconsiderable.get? w with
  | some q => exact ⟨s, [], rfl, hs, fun _ _ => rfl⟩
  | none =>
    obtain ⟨announcers, hannouncers⟩ := Option.isSome_iff_exists.mp (hs.haveTx_iff.mpr hw)
    obtain ⟨peers, hpeers⟩ : ∃ l, announcers.keys.insertionSort (· ≤ ·) = l := ⟨_, rfl⟩
    have hmem : ∀ p, p ∈ peers ↔ p ∈ announcers.keys := by
      intro p
      rw [← hpeers]
      exact List.mem_insertionSort _
    have hpos : 0 < peers.length := by
      rw [List.length_pos_iff]
      intro hnil
      obtain ⟨p, hp⟩ := List.exists_mem_of_ne_nil _ (hs.announced w announcers hannouncers)
      have := (hmem p).mpr hp
      rw [hnil] at this
      cases this
    have hlt := Nat.mod_lt (choice w) hpos
    obtain ⟨a, ha⟩ := (announcers.mem_keys_iff _).mp ((hmem _).mp (List.getElem_mem hlt))
    obtain ⟨rfl, hp, -⟩ := hs.get_mem w _ a (by
      rw [get, hannouncers]
      exact ha)
    rw [← hp] at ha
    obtain ⟨hholds, hget⟩ := hs.remark true hannouncers ha (by simpa using hmark)
    refine ⟨_, [(a.wtxid, a.announcer)], ?_, hholds, hget⟩
    simp only [hannouncers, hpeers, List.getElem?_eq_getElem hlt, ← hp, ha, write,
      TxOrphanage.remark, Option.bind_eq_bind, Option.bind_some, Option.pure_def, if_true]

theorem markChildren_eq {l : List Hash} (hs : Holds A s) (choice : Hash → ℕ)
    (hl : ∀ w ∈ l, ∃ x ∈ A, x.1.hash = w) :
    ∃ t marked, markChildren choice l s = some (t, marked) ∧ Holds A t ∧
      ∀ v q, (t.get v q).isSome = (s.get v q).isSome := by
  induction l generalizing s with
  | nil => exact ⟨s, [], rfl, hs, fun _ _ => rfl⟩
  | cons w l ih =>
    obtain ⟨hw, hl⟩ := List.forall_mem_cons.mp hl
    obtain ⟨u, marked, hu, hholds, hget⟩ := markChild_eq hs choice hw
    obtain ⟨t, others, ht, htholds, htget⟩ := ih hholds hl
    refine ⟨t, marked ++ others, ?_, htholds, fun v q => (htget v q).trans (hget v q)⟩
    simp only [markChildren, hu, ht, Option.bind_eq_bind, Option.bind_some, Option.pure_def]

end TxOrphanage

end BtclibNode
