/-
# The indexes of the orphanage

Every call of the orphanage, one that raises included, leaves tables and counts of
one set of announcements, and no table inside a table is empty.  A call raises in
one place only, where the shares of `_limit_orphans` are divided by and nothing is
erased yet.
-/
import BtclibNode.Relay.OrphanageRun

namespace BtclibNode

open Incidence

namespace TxOrphanage

variable {lim : OrphanLimits} {setOrder : List Hash → List Hash} {A B : Held}
  {s t m : TxOrphanage} {a : OrphanAnnouncement} {tx : OrphanTx} {w : Hash} {p : PeerId}
  {c : OrphanageCall}

/-! ## No empty table inside a table -/

/-- No peer without an announcement, no outpoint without a spender. -/
structure NoEmpty (s : TxOrphanage) : Prop where
  byPeer : ∀ p wtxids, s.byPeer.get? p = some wtxids → wtxids ≠ []
  spenders : ∀ (o : OutPoint) (x : Std.ExtTreeSet Hash), s.spenders[o]? = some x → x.isEmpty = false

theorem NoEmpty.init : NoEmpty init where
  byPeer p wtxids h := by simp [TxOrphanage.init] at h
  spenders o x h := by simp [TxOrphanage.init] at h

/-- Only two of the tables are looked at. -/
theorem NoEmpty.congr (hs : NoEmpty s) (hpeer : t.byPeer = s.byPeer)
    (hspenders : t.spenders = s.spenders) : NoEmpty t where
  byPeer := hpeer ▸ hs.byPeer
  spenders := hspenders ▸ hs.spenders

theorem discardSpends_noEmpty {vin : List OutPoint}
    {m m' : Std.ExtTreeMap OutPoint (Std.ExtTreeSet Hash)}
    (hm : ∀ (o : OutPoint) (x : Std.ExtTreeSet Hash), m[o]? = some x → x.isEmpty = false)
    (h : discardSpends w vin m = some m') :
    ∀ (o : OutPoint) (x : Std.ExtTreeSet Hash), m'[o]? = some x → x.isEmpty = false := by
  induction vin generalizing m with
  | nil =>
    obtain rfl := Option.some.inj h
    exact hm
  | cons o vin ih =>
    rw [discardSpends, Option.bind_eq_bind, Option.bind_eq_some_iff] at h
    obtain ⟨x, hx, h⟩ := h
    refine ih (fun o' y hy => ?_) h
    split at hy
    · by_cases ho : o = o'
      · subst ho
        rw [FiniteMap.getElem?_erase, if_pos rfl] at hy
        cases hy
      · rw [FiniteMap.getElem?_erase_ne _ ho] at hy
        exact hm o' y hy
    · next hfull =>
      rw [FiniteMap.getElem?_insert] at hy
      split at hy
      · obtain rfl := Option.some.inj hy
        exact Bool.eq_false_iff.mpr hfull
      · exact hm o' y hy

theorem NoEmpty.unmark (hs : NoEmpty m) (h : unmark a m = some t) : NoEmpty t := by
  unfold TxOrphanage.unmark at h
  split at h
  · rw [Option.bind_eq_bind, Option.bind_eq_some_iff] at h
    obtain ⟨_, -, h⟩ := h
    obtain rfl := Option.some.inj h
    exact hs.congr rfl rfl
  · exact Option.some.inj h ▸ hs

theorem NoEmpty.erase (hs : NoEmpty s) (h : erase a s = some t) : NoEmpty t := by
  unfold TxOrphanage.erase at h
  rw [Option.bind_eq_bind, Option.bind_eq_some_iff] at h
  obtain ⟨use, -, h⟩ := h
  rw [Option.bind_eq_bind, Option.bind_eq_some_iff] at h
  obtain ⟨wtxids, -, h⟩ := h
  have hknown : a.wtxid ∈ wtxids := by
    by_contra hmem
    simp only [if_neg hmem, Option.bind_eq_bind, Option.bind_none] at h
    cases h
  simp only [if_pos hknown, Option.bind_eq_bind, Option.bind_some, Option.bind_eq_some_iff] at h
  obtain ⟨announcers, -, _, -, h⟩ := h
  -- the table of the peer goes when it has become empty
  have hbyPeer : ∀ p l, (if wtxids.erase a.wtxid = [] then s.byPeer.erase a.announcer
      else s.byPeer.set a.announcer (wtxids.erase a.wtxid)).get? p = some l → l ≠ [] := by
    intro p l hl
    split at hl
    · rw [Dict.get?_erase] at hl
      split at hl
      · cases hl
      · exact hs.byPeer p l hl
    · next hne =>
      rw [Dict.get?_set] at hl
      split at hl
      · exact Option.some.inj hl ▸ hne
      · exact hs.byPeer p l hl
  split at h
  · rw [Option.bind_eq_some_iff] at h
    obtain ⟨u, hu, h⟩ := h
    unfold forgetTx at hu
    rw [Option.bind_eq_bind, Option.bind_eq_some_iff] at hu
    obtain ⟨spenders, hspenders, hu⟩ := hu
    obtain rfl := Option.some.inj hu
    refine NoEmpty.unmark ?_ h
    exact ⟨hbyPeer, discardSpends_noEmpty hs.spenders hspenders⟩
  · refine NoEmpty.unmark ?_ h
    exact ⟨hbyPeer, hs.spenders⟩

theorem NoEmpty.announce (hs : NoEmpty s) (h : announce tx w p s = some t) : NoEmpty t := by
  unfold TxOrphanage.announce at h
  dsimp only at h
  split at h
  · cases h
  · obtain rfl := Option.some.inj h
    refine ⟨fun q l hl => ?_, hs.spenders⟩
    change (s.byPeer.set p _).get? q = some l at hl
    rw [Dict.get?_set] at hl
    split at hl
    · rw [← Option.some.inj hl]
      simp
    · exact hs.byPeer q l hl

theorem NoEmpty.addUnique (hs : NoEmpty s) : NoEmpty (addUnique tx w s) := by
  have hfold : ∀ (vin : List OutPoint) (m : Std.ExtTreeMap OutPoint (Std.ExtTreeSet Hash)),
      (∀ (o : OutPoint) (x : Std.ExtTreeSet Hash), m[o]? = some x → x.isEmpty = false) →
      ∀ (o : OutPoint) (x : Std.ExtTreeSet Hash), (addSpends w vin m)[o]? = some x →
        x.isEmpty = false := by
    intro vin
    induction vin with
    | nil => exact fun m hm => hm
    | cons o' vin ih =>
      intro m hm
      refine ih _ fun o x hx => ?_
      rw [FiniteMap.getElem?_insert] at hx
      split at hx
      · rw [← Option.some.inj hx, Bool.eq_false_iff, ne_eq, Std.ExtTreeSet.isEmpty_iff]
        exact Std.ExtTreeSet.insert_ne_empty
      · exact hm o x hx
  exact ⟨hs.byPeer, hfold tx.vin s.spenders hs.spenders⟩

theorem NoEmpty.eraseAll {l : List OrphanAnnouncement} (hs : NoEmpty s)
    (h : eraseAll l s = some t) : NoEmpty t := by
  induction l generalizing s with
  | nil => exact Option.some.inj h ▸ hs
  | cons a l ih =>
    rw [TxOrphanage.eraseAll, Option.bind_eq_bind, Option.bind_eq_some_iff] at h
    obtain ⟨u, hu, h⟩ := h
    exact ih (hs.erase hu) h

theorem NoEmpty.eraseWtxid {erased : Bool} (hs : NoEmpty s)
    (h : eraseWtxid w s = some (t, erased)) : NoEmpty t := by
  unfold TxOrphanage.eraseWtxid at h
  split at h
  · cases h
    exact hs
  · rw [Option.bind_eq_bind, Option.bind_eq_some_iff] at h
    obtain ⟨u, hu, h⟩ := h
    cases h
    exact hs.eraseAll hu

theorem NoEmpty.eraseWtxids {l : List Hash} (hs : NoEmpty s) (h : eraseWtxids l s = some t) :
    NoEmpty t := by
  induction l generalizing s with
  | nil => exact Option.some.inj h ▸ hs
  | cons w l ih =>
    rw [TxOrphanage.eraseWtxids, Option.bind_eq_bind, Option.bind_eq_some_iff] at h
    obtain ⟨⟨u, erased⟩, hu, h⟩ := h
    exact ih (hs.eraseWtxid hu) h

theorem NoEmpty.fairEvictions {latency weight : ℤ} {l : List OrphanAnnouncement}
    (hs : NoEmpty s) (h : FairEvictions latency weight s l t) : NoEmpty t := by
  induction h with
  | nil => exact hs
  | cons _ _ herase _ ih => exact ih (hs.erase herase)

/-! ## The marks -/

theorem NoEmpty.write (hs : NoEmpty s) (h : write a s = some t) : NoEmpty t := by
  unfold TxOrphanage.write at h
  rw [Option.bind_eq_bind, Option.bind_eq_some_iff] at h
  obtain ⟨announcers, -, h⟩ := h
  obtain rfl := Option.some.inj h
  exact hs.congr rfl rfl

theorem NoEmpty.markChild {choice : Hash → ℕ} {marked : List (Hash × PeerId)} (hs : NoEmpty s)
    (h : markChild choice w s = some (t, marked)) : NoEmpty t := by
  unfold TxOrphanage.markChild at h
  split at h
  · cases h
    exact hs
  · simp only [Option.bind_eq_bind, Option.bind_eq_some_iff] at h
    obtain ⟨announcers, -, p, -, a, -, u, hu, h⟩ := h
    cases h
    exact (hs.write hu).congr rfl rfl

theorem NoEmpty.markChildren {choice : Hash → ℕ} {l : List Hash} {marked : List (Hash × PeerId)}
    (hs : NoEmpty s) (h : markChildren choice l s = some (t, marked)) : NoEmpty t := by
  induction l generalizing s marked with
  | nil =>
    cases h
    exact hs
  | cons w l ih =>
    simp only [TxOrphanage.markChildren, Option.bind_eq_bind, Option.bind_eq_some_iff] at h
    obtain ⟨⟨u, _⟩, hu, ⟨v, _⟩, hv, h⟩ := h
    cases h
    exact ih (hs.markChild hu) hv

theorem NoEmpty.getTxToReconsider {answer : Option OrphanTx} (hs : NoEmpty s)
    (h : getTxToReconsider p s = some (t, answer)) : NoEmpty t := by
  unfold TxOrphanage.getTxToReconsider at h
  rw [Option.bind_eq_bind, Option.bind_eq_some_iff] at h
  obtain ⟨next, -, h⟩ := h
  split at h
  · cases h
    exact hs
  · simp only [Option.bind_eq_bind, Option.bind_eq_some_iff] at h
    obtain ⟨u, hu, _, -, h⟩ := h
    cases h
    exact (hs.write hu).congr rfl rfl

/-! ## Calls that may raise -/

/-- What a call does before `_limit_orphans`, and whether it comes to it. -/
def body (lim : OrphanLimits) (setOrder : List Hash → List Hash) :
    OrphanageCall → TxOrphanage → Option (TxOrphanage × Bool)
  | .addTx tx p, s =>
    if lim.maxStandardTxWeight < tx.weight then some (s, false)
    else
      match announce tx tx.hash p s with
      | none => some (s, false)
      | some t => some (record tx s t, true)
  | .addAnnouncer w p, s => do
    match ← s.getTx w with
    | none => return (s, false)
    | some tx =>
      match announce tx w p s with
      | none => return (s, false)
      | some t => return (t, true)
  | .eraseTx w, s => (eraseWtxid w s).map fun r => (r.1, true)
  | .eraseForPeer p, s => (eraseAll (s.announcementsOf p) s).map fun t => (t, true)
  | .eraseForBlock transactions, s =>
    if s.byWtxid.keys = [] then some (s, false)
    else (eraseWtxids (setOrder (s.spendersOfBlock transactions).toList) s).map fun t => (t, true)
  | .addChildrenToWorkSet choice tx, s =>
    (addChildrenToWorkSet choice tx s).map fun r => (r.1, false)
  | .getTxToReconsider p, s => (getTxToReconsider p s).map fun r => (r.1, false)

/-- A call is its body, and `_limit_orphans` where it comes to it. -/
theorem call_eq_body (lim : OrphanLimits) (setOrder : List Hash → List Hash) (c : OrphanageCall)
    (s : TxOrphanage) :
    call lim setOrder c s = (body lim setOrder c s).bind fun r =>
      if r.2 then (limitOrphans lim r.1).map fun u => (u.1, some u.2) else some (r.1, none) := by
  cases c with
  | addTx tx p =>
    simp only [call, body, addTx]
    split
    · rfl
    · cases hannounce : announce tx tx.hash p s with
      | none => rfl
      | some t =>
        have hrecord : (if (!s.haveTx tx.hash) = true then addUnique tx tx.hash t else t) =
            record tx s t := by
          unfold record
          cases s.haveTx tx.hash <;> rfl
        simp only [hrecord, Option.bind_some, if_true]
        cases limitOrphans lim (record tx s t) <;> rfl
  | addAnnouncer w p =>
    simp only [call, body, addAnnouncer]
    cases s.getTx w with
    | none => rfl
    | some kept =>
      cases kept with
      | none => rfl
      | some tx =>
        simp only [Option.bind_eq_bind, Option.bind_some]
        cases announce tx w p s with
        | none => rfl
        | some t =>
          simp only [Option.pure_def, Option.bind_some, if_true]
          cases limitOrphans lim t <;> rfl
  | eraseTx w =>
    simp only [call, body, eraseTx]
    cases eraseWtxid w s with
    | none => rfl
    | some r =>
      simp only [Option.bind_eq_bind, Option.bind_some, Option.map_some, if_true]
      cases limitOrphans lim r.1 <;> rfl
  | eraseForPeer p =>
    simp only [call, body, eraseForPeer]
    cases eraseAll (s.announcementsOf p) s with
    | none => rfl
    | some t =>
      simp only [Option.bind_eq_bind, Option.bind_some, Option.map_some, if_true]
      cases limitOrphans lim t <;> rfl
  | eraseForBlock transactions =>
    simp only [call, body, eraseForBlock]
    split
    · rfl
    · cases eraseWtxids (setOrder (s.spendersOfBlock transactions).toList) s with
      | none => rfl
      | some t =>
        simp only [Option.bind_eq_bind, Option.bind_some, Option.map_some, if_true]
        cases limitOrphans lim t <;> rfl
  | addChildrenToWorkSet choice tx =>
    simp only [call, body]
    cases addChildrenToWorkSet choice tx s <;> rfl
  | getTxToReconsider p =>
    simp only [call, body]
    cases getTxToReconsider p s <;> rfl

/-- The scores `_limit_orphans` starts with: `none` where it divides by zero, with nothing
erased yet. -/
def shares (lim : OrphanLimits) (s : TxOrphanage) : Option (List (PeerId × OrphanScore)) :=
  scoresOver (s.maxPeerLatencyScore lim) lim.reservedPeerWeight s.uses

/-- What a call leaves, returned from or raised out of. -/
def leave (lim : OrphanLimits) (setOrder : List Hash → List Hash) (c : OrphanageCall)
    (s : TxOrphanage) : Option TxOrphanage := do
  let (m, trims) ← body lim setOrder c s
  if trims then
    match shares lim m with
    | none => return m
    | some _ => (limitOrphans lim m).map Prod.fst
  else return m

/-- A transaction that repeats no input, and is the one kept under its wtxid, if one is. -/
def Wellformed (s : TxOrphanage) : OrphanageCall → Prop
  | .addTx tx _ => tx.vin.Nodup ∧ ∀ kept ∈ (s.getTx tx.hash).join, kept = tx
  | _ => True

instance (s : TxOrphanage) : DecidablePred (Wellformed s)
  | .addTx tx _ => inferInstanceAs (Decidable (tx.vin.Nodup ∧
      ∀ kept ∈ (s.getTx tx.hash).join, kept = tx))
  | .addAnnouncer _ _ => isTrue trivial
  | .eraseTx _ => isTrue trivial
  | .eraseForPeer _ => isTrue trivial
  | .eraseForBlock _ => isTrue trivial
  | .addChildrenToWorkSet _ _ => isTrue trivial
  | .getTxToReconsider _ => isTrue trivial

/-- The tables and the counts are those of one set of announcements, and no table inside a
table is empty. -/
structure Indexed (s : TxOrphanage) : Prop extends NoEmpty s where
  holds : ∃ A, Holds A s

theorem Indexed.init : Indexed init := ⟨.init, ∅, .init⟩

theorem NoEmpty.record (hs : NoEmpty s) (h : TxOrphanage.announce tx w p s = some t) :
    NoEmpty (record tx s t) := by
  unfold TxOrphanage.record
  split
  · exact hs.announce h
  · exact (hs.announce h).addUnique

/-- **The body of a call returns**, with tables that agree. -/
theorem Indexed.body_eq (hs : Indexed s) (hc : Wellformed s c) :
    ∃ m trims, body lim setOrder c s = some (m, trims) ∧ Indexed m := by
  obtain ⟨hempty, A, hA⟩ := hs
  have hsame : ∃ m trims, some (s, false) = some (m, trims) ∧ Indexed m :=
    ⟨s, false, rfl, hempty, A, hA⟩
  cases c with
  | addTx tx p =>
    rw [body]
    split
    · exact hsame
    · cases hget : s.get tx.hash p with
      | some a =>
        rw [announce_eq_none hget]
        exact hsame
      | none =>
        obtain ⟨t, ht, hholds, -⟩ := announce_eq hA (hA.commits_of_kept hc.2) hc.1 hget
        rw [ht]
        exact ⟨_, true, rfl, hempty.record ht, _, hholds⟩
  | addAnnouncer w p =>
    rw [body]
    rcases getTx_eq hA (w := w) with ⟨-, hnone⟩ | ⟨hhave, tx, htx, rfl, hmem⟩
    · rw [hnone]
      exact hsame
    · rw [htx, Option.bind_eq_bind, Option.bind_some]
      cases hget : s.get tx.hash p with
      | some a =>
        simp only [announce_eq_none hget]
        exact hsame
      | none =>
        obtain ⟨q, hq⟩ := mem_items.mp hmem
        obtain ⟨t, ht, hholds, -⟩ := announce_eq hA
          (fun x hx hhash => hA.commits x hx _ hq hhash) (hA.vin_nodup _ hq) hget
        rw [record, if_pos hhave] at hholds
        simp only [ht]
        exact ⟨t, true, rfl, hempty.announce ht, _, hholds⟩
  | eraseTx w =>
    obtain ⟨m, erased, B, hm, -, hholds, -⟩ := eraseWtxid_eq hA w
    exact ⟨m, true, by rw [body, hm]; rfl, hempty.eraseWtxid hm, B, hholds⟩
  | eraseForPeer p =>
    have hmem : ∀ a, a ∈ s.announcementsOf p → s.get a.wtxid a.announcer = some a := by
      intro a ha
      rw [mem_announcementsOf hA] at ha
      obtain ⟨-, rfl, -⟩ := hA.get_mem _ p a ha
      exact ha
    obtain ⟨m, B, hm, -, hholds, -⟩ := eraseAll_eq hA hmem (nodup_announcementsOf hA)
    exact ⟨m, true, by rw [body, hm]; rfl, hempty.eraseAll hm, B, hholds⟩
  | eraseForBlock transactions =>
    rw [body]
    split
    · exact hsame
    · obtain ⟨m, B, hm, -, hholds, -⟩ := eraseWtxids_eq hA
        (setOrder (s.spendersOfBlock transactions).toList)
      exact ⟨m, true, by rw [hm]; rfl, hempty.eraseWtxids hm, B, hholds⟩
  | addChildrenToWorkSet choice tx =>
    obtain ⟨t, marked, ht, hholds, -⟩ := markChildren_eq hA choice
      (l := tx.outPoints.flatMap fun o =>
        (s.spendersOf o).toList.insertionSort fun v w => reversed v ≤ reversed w) fun w hw => by
          obtain ⟨o, -, hw⟩ := List.mem_flatMap.mp hw
          rw [List.mem_insertionSort, Std.ExtTreeSet.mem_toList, hA.spenders_mem] at hw
          obtain ⟨x, hx, hxw, -⟩ := hw
          exact ⟨x, hx, hxw⟩
    exact ⟨t, false, by rw [body, addChildrenToWorkSet, ht]; rfl, hempty.markChildren ht, A, hholds⟩
  | getTxToReconsider p =>
    obtain ⟨t, answer, ht, hholds, -⟩ := getTxToReconsider_holds hA p
    exact ⟨t, false, by rw [body, ht]; rfl, hempty.getTxToReconsider ht, A, hholds⟩

/-- **Every call leaves tables that agree**, and raises only where it divides by a share. -/
theorem Indexed.leave_eq (hs : Indexed s) (hc : Wellformed s c) :
    ∃ t, leave lim setOrder c s = some t ∧ Indexed t := by
  obtain ⟨m, trims, hbody, hm⟩ := hs.body_eq hc
  unfold leave
  rw [hbody, Option.bind_eq_bind, Option.bind_some]
  dsimp only
  cases trims with
  | false => exact ⟨m, rfl, hm⟩
  | true =>
    rw [if_pos rfl]
    cases hshares : shares lim m with
    | none => exact ⟨m, rfl, hm⟩
    | some scores =>
      obtain ⟨A, hA⟩ := hm.holds
      have hdivides : shares lim m ≠ none := hshares ▸ Option.some_ne_none scores
      obtain ⟨B, t, evicted, ht, -, hholds, hfair⟩ := limitOrphans_of_scores hA hdivides
      exact ⟨t, by rw [ht]; rfl, hm.toNoEmpty.fairEvictions hfair, B, hholds⟩

/-! ## Runs -/

/-- A well-formed call, returned from or raised out of. -/
def leaveStep (lim : OrphanLimits) (setOrder : List Hash → List Hash) (s : TxOrphanage)
    (c : OrphanageCall) : Option TxOrphanage :=
  if Wellformed s c then leave lim setOrder c s else none

/-- **`add_tx` answers whether it is new**, of a transaction of standard weight. -/
theorem addTx_answer {trim : Option Trim} {answer : Bool}
    (h : addTx lim tx p s = some (t, trim, answer)) :
    answer = true ↔ s.haveTx tx.hash = false ∧ tx.weight ≤ lim.maxStandardTxWeight := by
  unfold addTx at h
  split at h
  · next hheavy =>
    cases h
    exact iff_of_false Bool.false_ne_true fun h0 => absurd h0.2 (Nat.not_le_of_lt hheavy)
  · next hlight =>
    dsimp only at h
    split at h
    · next hnone =>
      -- announced by this peer already, so kept
      have hkept : s.haveTx tx.hash = true := by
        unfold announce at hnone
        unfold haveTx
        cases hw : s.byWtxid.get? tx.hash with
        | none =>
          rw [hw] at hnone
          simp [Dict.get?_empty] at hnone
        | some announcers => rfl
      cases h
      exact iff_of_false Bool.false_ne_true fun h0 => by
        rw [hkept] at h0
        exact absurd h0.1 Bool.true_eq_false_eq_False.elim
    · rw [Option.bind_eq_bind, Option.bind_eq_some_iff] at h
      obtain ⟨u, -, h⟩ := h
      cases h
      rw [Bool.not_eq_true']
      exact ⟨fun h0 => ⟨h0, Nat.le_of_not_lt hlight⟩, And.left⟩

theorem indexed_of_run {calls : List OrphanageCall}
    (hrun : Run.exec (leaveStep lim setOrder) init calls = some s) : Indexed s := by
  refine Run.exec_invariant (fun s c t hs hstep => ?_) Indexed.init hrun
  unfold leaveStep at hstep
  split at hstep
  · next hc =>
    obtain ⟨u, hu, ht⟩ := hs.leave_eq hc
    obtain rfl := Option.some.inj (hu.symm.trans hstep)
    exact ht
  · cases hstep

/-- **The indexes agree after any run**, its raises included: every well-formed call leaves
tables and counts of one set of announcements, and `add_tx` answers `True` exactly for a
transaction of standard weight whose wtxid was not kept. -/
theorem indexes_agree_of_run {calls : List OrphanageCall}
    (hrun : Run.exec (leaveStep lim setOrder) init calls = some s) :
    Indexed s ∧ (∀ c, Wellformed s c → ∃ t, leave lim setOrder c s = some t ∧ Indexed t) ∧
      ∀ tx p t trim answer, addTx lim tx p s = some (t, trim, answer) →
        (answer = true ↔ s.haveTx tx.hash = false ∧ tx.weight ≤ lim.maxStandardTxWeight) := by
  have hs := indexed_of_run hrun
  exact ⟨hs, fun c hc => hs.leave_eq hc, fun tx p t trim answer h => addTx_answer h⟩

/-- Four announcers where the latency score is shared by three: the last call raises. -/
theorem indexes_agree_of_run_four :
    ∃ s, Run.exec (leaveStep smallLimits id) init
        [.addTx (smallTx 1) 7, .addAnnouncer 1 8, .addAnnouncer 1 9, .addAnnouncer 1 10] = some s ∧
      s.announcements = 4 ∧ Indexed s := by
  have heval : ((Run.exec (leaveStep smallLimits id) init
      [.addTx (smallTx 1) 7, .addAnnouncer 1 8, .addAnnouncer 1 9, .addAnnouncer 1 10]).map
        TxOrphanage.announcements) = some 4 := by decide +kernel
  obtain ⟨s, hs, hcount⟩ := Option.map_eq_some_iff.mp heval
  exact ⟨s, hs, hcount, (indexes_agree_of_run hs).1⟩

/-- A wtxid that is not kept, of a transaction over the standard weight: `False`. -/
theorem addTx_of_heavy :
    init.haveTx 1 = false ∧
      (addTx smallLimits ⟨⟨1, [⟨101, 0⟩], []⟩, 1, 401⟩ 7 init).map (fun r => r.2.2) =
        some false := by
  decide +kernel

end TxOrphanage

end BtclibNode
