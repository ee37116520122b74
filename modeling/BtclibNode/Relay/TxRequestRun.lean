/-
# Runs of `TxRequestTracker`

The tracker as a machine over its calls, beside a history of what was asked of
whom.  No call raises, and in every state of every run each `txhash` is asked
of one peer at a time, the best one first, and of each peer once.
-/
import Mathlib.Data.Set.Card
import BtclibNode.Lib.Run
import BtclibNode.Relay.TxRequestTime

namespace BtclibNode.TxRequestTracker

variable {T : Type} [LinearOrder T] {siphash : Hash → ℕ → ℕ} {s t u : TxRequestTracker T}
  {a b : Announcement T} {h h' : Hash} {p q : PeerId} {now : T}

/-! ## A new announcement -/

section ReceivedInv

/-- What `received_inv` of a pair that is not tracked leaves. -/
structure Announced (siphash : Hash → ℕ → ℕ) (h : Hash) (p : PeerId) (reqtime : T)
    (s t : TxRequestTracker T) : Prop extends Sound siphash t where
  self : ∃ a, t.get h p = some a ∧ a.state = .delayed ∧ a.time = reqtime
  others : ∀ h' p', ¬(h' = h ∧ p' = p) → t.get h' p' = s.get h' p'
  lastNow : t.lastNow = s.lastNow

/-- **`received_inv` adds one `DELAYED` announcement.** -/
theorem receivedInv_eq (hs : Sound siphash s) (hnone : s.get h p = none) (preferred : Bool)
    (reqtime : T) (txid : Bool) :
    Announced siphash h p reqtime s (receivedInv p h preferred reqtime txid s) := by
  have hnot : ¬((s.peers.get? p).map fun known => decide (h ∈ known.announcements)).getD false =
      true := fun h0 => by
    obtain ⟨a, ha⟩ := (announced_iff hs.linked).mp h0
    rw [hnone] at ha
    cases ha
  unfold receivedInv
  rw [if_neg hnot]
  dsimp only
  generalize ha : (⟨h, p, preferred, s.sequence, reqtime, .delayed, txid⟩ : Announcement T) = a
  have hdelayed : a.state = .delayed := ha ▸ rfl
  let d : Dict PeerId (Announcement T) := (s.byHash.get? h).getD .empty
  have hd : ∀ q, d.get? q = s.get h q := fun q => by
    show ((s.byHash.get? h).getD .empty).get? q = (s.byHash.get? h).bind fun holders => holders.get? q
    cases s.byHash.get? h with
    | none => exact Dict.get?_empty q
    | some e => rfl
  let r : PeerRequests := (s.peers.get? p).getD ⟨[], [], 0, 0⟩
  let base : TxRequestTracker T := { s with sequence := s.sequence + 1 }
  let m : TxRequestTracker T := { s with
    sequence := s.sequence + 1
    peers := s.peers.set p { r with announcements := addKey r.announcements h }
    waiting := s.waiting + 1
    byHash := s.byHash.set h (d.set p a) }
  have hm : Replaced h p (some a) base m := ⟨get_set (s := base) hd a, rfl⟩
  have hget : ∀ h' p', ¬(h' = h ∧ p' = p) → m.get h' p' = s.get h' p' := fun h' p' hne => by
    rw [hm.get, if_neg hne]
    rfl
  have hpeer : PeerLinked (m.get · p) { r with announcements := addKey r.announcements h } := by
    have hself : ∀ x, x ≠ h → m.get x p = s.get x p := fun x hx => hget x p fun h0 => hx h0.1
    cases hr : s.peers.get? p with
    | some known =>
      have hrk : r = known := by
        show (s.peers.get? p).getD _ = known
        rw [hr]
        rfl
      rw [hrk]
      exact (hs.linked.peers p known hr).add hnone hm.get_self hdelayed hself
    | none =>
      have hrk : r = ⟨[], [], 0, 0⟩ := by
        show (s.peers.get? p).getD _ = _
        rw [hr]
        rfl
      rw [hrk]
      refine PeerLinked.first hm.get_self hdelayed fun x hx => ?_
      show m.get x p = none
      rw [hself x hx]
      cases hx' : s.get x p with
      | none => rfl
      | some b =>
        obtain ⟨e, he⟩ := hs.linked.known x p b hx'
        rw [hr] at he
        cases he
  have hbase : Linked base := hs.linked.congr rfl rfl
  have hlinked : Linked m := by
    refine hbase.of_replaced hm rfl ?_ (fun q => Dict.get?_set _ _ _ q) hpeer
    exact ⟨ha ▸ rfl, ha ▸ rfl⟩
  have hgetsch : ∀ h' p', (schedule a m).get h' p' = m.get h' p' := get_schedule a m
  refine ⟨⟨?_, fun x => ?_, ?_⟩, ⟨a, ?_, hdelayed, ha ▸ rfl⟩, fun h' p' hne => ?_, ?_⟩
  · show Linked (schedule a m)
    rw [schedule_eq]
    exact hlinked.congr rfl rfl
  · have hsame : (schedule a m).get x = m.get x := funext fun q => hgetsch x q
    show Selection siphash ((schedule a m).get x)
    rw [hsame]
    by_cases hx : x = h
    · subst hx
      have hback : ∀ q b, m.get x q = some b → b.state ≠ .delayed → s.get x q = some b := by
        intro q b hb hst
        by_cases hq : q = p
        · rw [hq, hm.get_self, Option.some.injEq] at hb
          exact absurd (hb ▸ hdelayed) hst
        · rwa [hget x q fun h0 => hq h0.2] at hb
      have hforth : ∀ q b, s.get x q = some b → m.get x q = some b := by
        intro q b hb
        rw [hget x q, hb]
        rintro ⟨-, rfl⟩
        rw [hnone] at hb
        cases hb
      refine (hs.selections x).of_same (fun q b hb => ⟨fun h0 => hback q b h0 ?_, hforth q b⟩)
        (fun q b hb hready => hback q b hb (by rw [hready]; simp)) fun _ _ _ => ?_
      · rintro h0
        rw [h0] at hb
        cases hb
      · exact ⟨p, a, hm.get_self, by rw [hdelayed]; simp⟩
    · have hsame' : m.get x = s.get x := funext fun q => hget x q fun h0 => hx h0.1
      rw [hsame']
      exact hs.selections x
  · refine scheduled_schedule hlinked hm.get_self hs.scheduled.sorted fun h' p' b hne hb hwait => ?_
    rw [hget h' p' hne] at hb
    exact hs.scheduled.named h' p' b hb hwait
  · show (schedule a m).get h p = some a
    rw [hgetsch, hm.get_self]
  · show (schedule a m).get h' p' = _
    rw [hgetsch, hget h' p' hne]
  · show (schedule a m).lastNow = _
    rw [schedule_eq]

end ReceivedInv

/-! ## A request -/

section RequestedTx

/-- What `requested_tx` leaves of an announcement that was not asked for. -/
structure Requested (siphash : Hash → ℕ → ℕ) (h : Hash) (p : PeerId) (a : Announcement T)
    (expiry : T) (s t : TxRequestTracker T) : Prop extends Sound siphash t where
  self : t.get h p = some { a with state := .requested, time := expiry }
  others : ∀ h' p' b, ¬(h' = h ∧ p' = p) → t.get h' p' = some b →
    ∃ b', s.get h' p' = some b' ∧ Fades b' b
  lastNow : t.lastNow = s.lastNow

omit [LinearOrder T] in
/-- No other announcement stays selected. -/
theorem unselect_eq (hs : Linked s) (hsel : Selections siphash s) (ha : s.get h p = some a)
    (hnew : a.state.asked = false) :
    ∃ m, unselect a s = some m ∧ Linked m ∧ m.get h p = some a ∧
      (∀ q c, m.get h q = some c → c.state.selected = true → q = p) ∧
      (∀ x, x ≠ h → m.get x = s.get x) ∧ Pointwise Fades s m ∧ TablesMoved s m := by
  obtain ⟨rfl, rfl⟩ := hs.keys h p a ha
  have hkeep : (∀ q c, s.get a.txhash q = some c → c.state.selected = true → q = a.peer) →
      ∃ m, some s = some m ∧ Linked m ∧ m.get a.txhash a.peer = some a ∧
        (∀ q c, m.get a.txhash q = some c → c.state.selected = true → q = a.peer) ∧
        (∀ x, x ≠ a.txhash → m.get x = s.get x) ∧ Pointwise Fades s m ∧ TablesMoved s m :=
    fun honly => ⟨s, rfl, hs, ha, honly, fun _ _ => rfl, .refl Fades.refl s, rfl⟩
  unfold unselect
  by_cases hbest : a.state = .best
  · rw [if_pos hbest]
    exact hkeep fun q c hc hcsel =>
      (hsel a.txhash).unique q a.peer c a hc ha hcsel (by rw [hbest]; rfl)
  · rw [if_neg hbest]
    cases hselected : s.selected a.txhash with
    | none =>
      refine hkeep fun q c hc hcsel => ?_
      rw [selected_eq_none hselected hc] at hcsel
      cases hcsel
    | some b =>
      obtain ⟨hb, -, hbsel⟩ := hs.selected_eq_some hselected
      have hne : a.peer ≠ b.peer := by
        intro heq
        rw [← heq, ha, Option.some.injEq] at hb
        rw [← hb, selected_of_asked hnew hbest] at hbsel
        cases hbsel
      obtain ⟨m, hm, hlinked, hsm⟩ := setState_eq hs hb
        (fun h0 => by rw [h0] at hbsel; cases hbsel) (if b.state = .best then .ready else .completed)
      have hfade : Fades b { b with state := if b.state = .best then .ready else .completed } := by
        split
        · next hbb => exact fades_candidate (by rw [hbb]; rfl) rfl
        · exact fades_completed b
      refine ⟨m, hm, hlinked, by rw [hsm.get_peer hne, ha], fun q c hc hcsel => ?_,
        fun x hx => funext fun q => hsm.get_hash hx, hsm.pointwise hb Fades.refl hfade, hsm.others⟩
      by_cases hq : q = b.peer
      · rw [hq, hsm.get_self, Option.some.injEq] at hc
        rw [← hc] at hcsel
        split at hcsel <;> cases hcsel
      · rw [hsm.get_peer hq] at hc
        exact absurd ((hsel a.txhash).unique q b.peer c b hc hb hcsel hbsel) hq

/-- **`requested_tx` selects the announcement asked for**, and no other. -/
theorem requestedTx_eq (hs : Sound siphash s) (ha : s.get h p = some a)
    (hnew : a.state.asked = false) (expiry : T) :
    ∃ t, requestedTx p h expiry s = some t ∧ Requested siphash h p a expiry s t := by
  obtain ⟨m, hm, hmlinked, hma, honly, hhash, hfades, hmoved⟩ :=
    unselect_eq hs.linked hs.selections ha hnew
  obtain ⟨k, hk, hklinked, hmk⟩ := setState_eq hmlinked hma
    (fun h0 => by rw [h0] at hnew; cases hnew) .requested
  obtain ⟨w, hw, hwlinked, hkw⟩ := write_eq hklinked hmk.get_self expiry
  have hwother : ∀ h' p', ¬(h' = h ∧ p' = p) → w.get h' p' = m.get h' p' := fun h' p' hne => by
    rw [hkw.get, if_neg hne, hmk.get, if_neg hne]
  have hwevents : w.events = s.events := by rw [hkw.events, hmk.events, hmoved]
  generalize ha' : ({ a with state := .requested, time := expiry } : Announcement T) = a' at *
  have hwself : w.get h p = some a' := by
    rw [hkw.get_self, ← ha']
  have hothers : ∀ h' p' b, ¬(h' = h ∧ p' = p) → w.get h' p' = some b →
      ∃ b', s.get h' p' = some b' ∧ Fades b' b := fun h' p' b hne hb => by
    rw [hwother h' p' hne] at hb
    exact hfades h' p' b hb
  have hget : ∀ h' p', (schedule a' w).get h' p' = w.get h' p' := get_schedule a' w
  refine ⟨schedule a' w, ?_, ⟨?_, fun x => ?_, ?_⟩, ?_, fun h' p' b hne hb => ?_, ?_⟩
  · unfold requestedTx
    rw [ha]
    dsimp only
    rw [if_neg (by rw [hnew]; simp), hm, Option.bind_eq_bind, Option.bind_some, hk,
      Option.bind_some]
    show (write { a with state := .requested, time := expiry } k).bind _ = _
    rw [ha', hw, ← ha']
    rfl
  · rw [schedule_eq]
    exact hwlinked.congr rfl rfl
  · have hsame : (schedule a' w).get x = w.get x := funext fun q => hget x q
    rw [hsame]
    by_cases hx : x = h
    · subst hx
      refine Selection.of_selected hwself (by rw [← ha']; rfl) (fun q c hc hcsel => ?_) fun h0 => ?_
      · by_contra hq
        rw [hwother x q fun h0 => hq h0.2] at hc
        exact hq (honly q c hc hcsel)
      · rw [← ha'] at h0
        cases h0
    · have hsame' : w.get x = s.get x := funext fun q => by
        rw [hwother x q fun h0 => hx h0.1, hhash x hx]
      rw [hsame']
      exact hs.selections x
  · refine scheduled_schedule hwlinked hwself (hwevents ▸ hs.scheduled.sorted) ?_
    intro h' p' b hne hb hwait
    obtain ⟨b', hb', hfade⟩ := hothers h' p' b hne hb
    obtain ⟨e, he, hnames⟩ := hs.scheduled.named h' p' b' hb' (by
      rw [hfade.waiting hwait]
      exact hwait)
    refine ⟨e, hwevents ▸ he, ?_⟩
    rw [hfade.same]
    exact hnames
  · rw [hget, hwself, ha']
  · rw [hget] at hb
    exact hothers h' p' b hne hb
  · rw [schedule_eq]
    show w.lastNow = _
    rw [hkw.lastNow, hmk.lastNow, hmoved]

end RequestedTx

/-! ## The machine -/

/-- A call of the tracker. -/
inductive RequestCall (T : Type) where
  | receivedInv (p : PeerId) (h : Hash) (preferred : Bool) (reqtime : T) (txid : Bool)
  | requestedTx (p : PeerId) (h : Hash) (expiry : T)
  | receivedResponse (p : PeerId) (h : Hash)
  | disconnectedPeer (p : PeerId)
  | forgetTxHash (h : Hash)
  | getRequestable (p : PeerId) (now : T)

/-- What a call makes of the tracker. -/
def step (siphash : Hash → ℕ → ℕ) (s : TxRequestTracker T) :
    RequestCall T → Option (TxRequestTracker T)
  | .receivedInv p h preferred reqtime txid => some (receivedInv p h preferred reqtime txid s)
  | .requestedTx p h expiry => requestedTx p h expiry s
  | .receivedResponse p h => receivedResponse siphash p h s
  | .disconnectedPeer p => disconnectedPeer siphash p s
  | .forgetTxHash h => forgetTxHash h s
  | .getRequestable p now => (getRequestable siphash p now s).map Prod.fst

/-- What has been asked since each announcement was made: its `reqtime`, and how
often it became `REQUESTED`. -/
structure History (T : Type) where
  reqtime : Hash → PeerId → Option T
  requests : Hash → PeerId → ℕ

/-- Nothing has been asked. -/
def History.init : History T := ⟨fun _ _ => none, fun _ _ => 0⟩

/-- The history after the call `c` made `t` of `s`. -/
def History.after (c : RequestCall T) (s t : TxRequestTracker T) (H : History T) : History T where
  reqtime h p :=
    match c with
    | .receivedInv p' h' _ reqtime _ =>
      if (h' = h ∧ p' = p) ∧ (s.get h p).isNone then some reqtime else H.reqtime h p
    | _ => H.reqtime h p
  requests h p :=
    if (t.get h p).isNone then 0
    else H.requests h p + if !isIn .requested (s.get h p) && isIn .requested (t.get h p) then 1 else 0

/-- A call, with the history it adds to. -/
def traced (siphash : Hash → ℕ → ℕ) (s : TxRequestTracker T × History T) (c : RequestCall T) :
    Option (TxRequestTracker T × History T) :=
  (step siphash s.1 c).map fun t => (t, s.2.after c s.1 t)

/-! ## What one call does -/

/-- What holds of a tracker between calls. -/
structure Valid (siphash : Hash → ℕ → ℕ) (s : TxRequestTracker T) : Prop
    extends Sound siphash s where
  timely : Timely s.lastNow s

/-- An announcement after the call `c` was there before, or the call made it. -/
def Stepped (c : RequestCall T) (s t : TxRequestTracker T) : Prop :=
  ∀ h p b, t.get h p = some b → (∃ a, s.get h p = some a ∧ Later a b) ∨
    s.get h p = none ∧ b.state = .delayed ∧
      ∃ preferred txid, c = .receivedInv p h preferred b.time txid

section Step

variable {c : RequestCall T}

theorem Faded.step (hst : Faded siphash s t) (hs : Valid siphash s) :
    Valid siphash t ∧ Stepped c s t := by
  have hnow : t.lastNow = s.lastNow := by rw [hst.moved]
  refine ⟨⟨hst.sound hs.scheduled, hnow ▸ hst.timely hs.timely⟩, fun h p b hb => .inl ?_⟩
  obtain ⟨a, ha, hab⟩ := hst.fades h p b hb
  exact ⟨a, ha, hab.later⟩

theorem Valid.stay (hs : Valid siphash s) : Valid siphash s ∧ Stepped c s s :=
  ⟨hs, fun _ _ b hb => .inl ⟨b, hb, .refl b⟩⟩

/-- **No call raises**, and every call keeps the invariant. -/
theorem step_eq (hs : Valid siphash s) (c : RequestCall T) :
    ∃ t, step siphash s c = some t ∧ Valid siphash t ∧ Stepped c s t ∧
      ∀ p now, c = .getRequestable p now → t.lastNow = now ∧
        ∀ h q a, t.get h q = some a → a.state.waiting = true → now < a.time := by
  cases c with
  | receivedInv p h preferred reqtime txid =>
    refine ⟨_, rfl, ?_⟩
    rw [← and_assoc]
    refine ⟨?_, nofun⟩
    cases hget : s.get h p with
    | some a =>
      have hsame : receivedInv p h preferred reqtime txid s = s :=
        if_pos ((announced_iff hs.linked).mpr ⟨a, hget⟩)
      rw [hsame]
      exact hs.stay
    | none =>
      have hann := receivedInv_eq hs.toSound hget preferred reqtime txid
      obtain ⟨a, ha, hdelayed, htime⟩ := hann.self
      refine ⟨⟨hann.toSound, fun h' p' b hb hcand => ?_⟩, fun h' p' b hb => ?_⟩
      · by_cases hself : h' = h ∧ p' = p
        · rw [hself.1, hself.2, ha, Option.some.injEq] at hb
          rw [← hb, hdelayed] at hcand
          cases hcand
        · rw [hann.others h' p' hself] at hb
          rw [hann.lastNow]
          exact hs.timely h' p' b hb hcand
      · by_cases hself : h' = h ∧ p' = p
        · obtain ⟨rfl, rfl⟩ := hself
          obtain rfl : a = b := Option.some.inj (ha.symm.trans hb)
          exact .inr ⟨hget, hdelayed, preferred, txid, by rw [htime]⟩
        · rw [hann.others h' p' hself] at hb
          exact .inl ⟨b, hb, .refl b⟩
  | requestedTx p h expiry =>
    have hstay : ∀ t, some t = some s → ∃ t', some t = some t' ∧ (Valid siphash t' ∧
        Stepped (.requestedTx p h expiry) s t' ∧ ∀ p' now, RequestCall.requestedTx p h expiry =
          .getRequestable p' now → t'.lastNow = now ∧
            ∀ h q a, t'.get h q = some a → a.state.waiting = true → now < a.time) := by
      rintro t ⟨⟩
      exact ⟨s, rfl, hs, hs.stay.2, nofun⟩
    show ∃ t, requestedTx p h expiry s = some t ∧ _
    cases hget : s.get h p with
    | none =>
      have hsame : requestedTx p h expiry s = some s := by
        unfold requestedTx
        rw [hget]
      rw [hsame]
      exact hstay s rfl
    | some a =>
      cases hasked : a.state.asked with
      | true =>
        have hsame : requestedTx p h expiry s = some s := by
          unfold requestedTx
          rw [hget]
          exact if_pos hasked
        rw [hsame]
        exact hstay s rfl
      | false =>
        obtain ⟨t, ht, hreq⟩ := requestedTx_eq hs.toSound hget hasked expiry
        refine ⟨t, ht, ⟨hreq.toSound, fun h' p' b hb hcand => ?_⟩, fun h' p' b hb => .inl ?_, nofun⟩
        · by_cases hself : h' = h ∧ p' = p
          · rw [hself.1, hself.2, hreq.self, Option.some.injEq] at hb
            rw [← hb] at hcand
            cases hcand
          · obtain ⟨b', hb', hfade⟩ := hreq.others h' p' b hself hb
            rw [hreq.lastNow, hfade.time_eq]
            exact hs.timely h' p' b' hb' (hfade.candidate hcand)
        · by_cases hself : h' = h ∧ p' = p
          · obtain ⟨rfl, rfl⟩ := hself
            rw [hreq.self, Option.some.injEq] at hb
            refine ⟨a, hget, hb ▸ ⟨rfl, fun _ => rfl, fun h0 => ?_, nofun⟩⟩
            rw [h0] at hasked
            cases hasked
          · obtain ⟨b', hb', hfade⟩ := hreq.others h' p' b hself hb
            exact ⟨b', hb', hfade.later⟩
  | receivedResponse p h =>
    show ∃ t, receivedResponse siphash p h s = some t ∧ _
    unfold receivedResponse
    cases hget : s.get h p with
    | none => exact ⟨s, rfl, hs, hs.stay.2, nofun⟩
    | some a =>
      obtain ⟨t, remains, ht, hcompleted⟩ := makeCompleted_eq hs.linked hs.selections hget
      obtain ⟨hvalid, hstepped⟩ := hcompleted.toFaded.step (c := .receivedResponse p h) hs
      refine ⟨t, ?_, hvalid, hstepped, nofun⟩
      dsimp only
      rw [ht]
      rfl
  | disconnectedPeer p =>
    show ∃ t, disconnectedPeer siphash p s = some t ∧ _
    unfold disconnectedPeer
    cases hr : s.peers.get? p with
    | none => exact ⟨s, rfl, hs, hs.stay.2, nofun⟩
    | some r =>
      have hpeer := hs.linked.peers p r hr
      obtain ⟨t, ht, hfaded, -⟩ := disconnectAll_eq hs.linked hs.selections hpeer.nodup
        fun h hh => (hpeer.mem h).mp hh
      obtain ⟨hvalid, hstepped⟩ := hfaded.step (c := .disconnectedPeer p) hs
      exact ⟨t, ht, hvalid, hstepped, nofun⟩
  | forgetTxHash h =>
    obtain ⟨t, ht, hfaded, -⟩ := forgetTxHash_faded hs.linked hs.selections h
    obtain ⟨hvalid, hstepped⟩ := hfaded.step (c := .forgetTxHash h) hs
    exact ⟨t, ht, hvalid, hstepped, nofun⟩
  | getRequestable p now =>
    obtain ⟨t, expired, ht, hat⟩ := setTimePoint_eq hs.toSound hs.timely now
    refine ⟨t, ?_, ⟨hat.toSound, hat.lastNow ▸ hat.timely⟩, fun h q b hb => .inl ?_, ?_⟩
    · show (getRequestable siphash p now s).map Prod.fst = some t
      unfold getRequestable
      rw [ht, Option.bind_eq_bind, Option.bind_some]
      dsimp only
      cases t.peers.get? p <;> rfl
    · obtain ⟨a, ha, hab⟩ := hat.later h q b hb
      exact ⟨a, ha, hab⟩
    · rintro p' now' ⟨⟩
      exact ⟨hat.lastNow, hat.past⟩

end Step

/-! ## The counts -/

section Counts

omit [LinearOrder T]

theorem ncard_eq_countP {l : List Hash} (hl : l.Nodup) {P : Hash → Bool} {A : Set Hash}
    (hA : ∀ h, h ∈ A ↔ h ∈ l ∧ P h = true) : (A.ncard : ℤ) = l.countP P := by
  have hset : A = ((l.filter P).toFinset : Set Hash) := by
    ext h
    rw [hA]
    simp
  rw [hset, Set.ncard_coe_finset, List.toFinset_card_of_nodup (hl.filter P),
    List.countP_eq_length_filter]

/-- The announcements of a peer that are neither asked for nor done. -/
theorem countP_candidates (f : Hash → Option (Announcement T)) {l : List Hash}
    (hl : ∀ h ∈ l, ∃ a, f h = some a) :
    (l.length : ℤ) - l.countP (fun h => isIn .requested (f h)) -
      l.countP (fun h => isIn .completed (f h)) =
      l.countP fun h => (f h).any fun a => !a.state.asked := by
  induction l with
  | nil => rfl
  | cons h l ih =>
    obtain ⟨⟨a, ha⟩, hrest⟩ := List.forall_mem_cons.mp hl
    have hih := ih hrest
    have hone : ∀ st : RequestState, (if decide (st = .requested) = true then 1 else 0) +
        (if decide (st = .completed) = true then 1 else 0) +
        (if (!st.asked) = true then 1 else 0) = 1 := fun st => by cases st <;> rfl
    have ha' := hone a.state
    rw [List.length_cons, List.countP_cons, List.countP_cons, List.countP_cons, ha, isIn_some,
      isIn_some, Option.any_some]
    omega

theorem Linked.no_announcement (hs : Linked s) (hr : s.peers.get? p = none) (h : Hash) :
    s.get h p = none := by
  cases hget : s.get h p with
  | none => rfl
  | some a =>
    obtain ⟨r, hr'⟩ := hs.known h p a hget
    rw [hr] at hr'
    cases hr'

/-- A count the tracker keeps for a peer is the number of its announcements. -/
theorem Linked.count_eq_ncard (hs : Linked s) (p : PeerId) {f : PeerRequests → ℤ}
    {P : Option (Announcement T) → Bool} (hP : P none = false)
    (hf : ∀ r, s.peers.get? p = some r → f r = r.announcements.countP fun h => P (s.get h p)) :
    ((s.peers.get? p).map f).getD 0 = {h | P (s.get h p) = true}.ncard := by
  cases hr : s.peers.get? p with
  | none =>
    have hempty : {h | P (s.get h p) = true} = ∅ := by
      ext h
      simp [hs.no_announcement hr, hP]
    rw [hempty, Set.ncard_empty]
    rfl
  | some r =>
    have hpeer := hs.peers p r hr
    rw [Option.map_some, Option.getD_some, hf r hr]
    refine (ncard_eq_countP hpeer.nodup fun h => ?_).symm
    show P (s.get h p) = true ↔ _
    rw [hpeer.mem]
    refine ⟨fun h0 => ⟨?_, h0⟩, fun h0 => h0.2⟩
    rw [← Option.isSome_iff_exists]
    cases hget : s.get h p with
    | none =>
      rw [hget, hP] at h0
      cases h0
    | some a => rfl

end Counts

/-! ## Every run -/

/-- The state machine: what holds of each `txhash` and of each peer. -/
structure StateMachine (siphash : Hash → ℕ → ℕ) (s : TxRequestTracker T) (H : History T) :
    Prop where
  /-- At most one announcement of a `txhash` is `BEST` or `REQUESTED`. -/
  oneSelected : ∀ h p q a b, s.get h p = some a → s.get h q = some b → a.state.selected = true →
    b.state.selected = true → p = q
  /-- One is `BEST` where some are `READY` and none is `REQUESTED`. -/
  bestExists : ∀ h p a, s.get h p = some a → a.state = .ready →
    (∀ q b, s.get h q = some b → b.state ≠ .requested) → ∃ q b, s.get h q = some b ∧ b.state = .best
  /-- The `BEST` one has the highest priority of the candidates. -/
  bestFirst : ∀ h p q a b, s.get h p = some a → s.get h q = some b → a.state = .best →
    b.state = .ready → priority siphash b ≤ priority siphash a
  /-- Not all announcements of a tracked `txhash` are `COMPLETED`. -/
  live : ∀ h p a, s.get h p = some a → ∃ q b, s.get h q = some b ∧ b.state ≠ .completed
  /-- An announcement becomes `REQUESTED` at most once while it is tracked. -/
  once : ∀ h p, H.requests h p ≤ 1
  count : ∀ p, s.count p = {h | (s.get h p).isSome = true}.ncard
  countInFlight : ∀ p, s.countInFlight p = {h | isIn .requested (s.get h p) = true}.ncard
  countCandidates : ∀ p,
    s.countCandidates p = {h | ((s.get h p).any fun a => !a.state.asked) = true}.ncard
  /-- An announcement that waits has an entry of its time in the heap. -/
  named : ∀ h p a, s.get h p = some a → a.state.waiting = true → ∃ e ∈ s.events, Names e h p a

/-- What `get_requestable` at `now` leaves: nothing waits for a time at or before
`now`, and every candidate's `reqtime` is at or before it. -/
structure Settled (now : T) (s : TxRequestTracker T) (H : History T) : Prop where
  past : ∀ h p a, s.get h p = some a → a.state.waiting = true → now < a.time
  timely : ∀ h p a, s.get h p = some a → a.state.candidate = true →
    ∃ reqtime, H.reqtime h p = some reqtime ∧ reqtime ≤ now

/-- What the history says of the announcements that are tracked. -/
structure Recorded (s : TxRequestTracker T) (H : History T) : Prop where
  untracked : ∀ h p, s.get h p = none → H.requests h p = 0
  once : ∀ h p, H.requests h p ≤ 1
  unasked : ∀ h p a, s.get h p = some a → a.state.asked = false →
    H.requests h p = 0 ∧ H.reqtime h p = some a.time

section Run

variable {H : History T}

theorem Valid.stateMachine (hs : Valid siphash s) (hH : Recorded s H) :
    StateMachine siphash s H := by
  refine ⟨fun h => (hs.selections h).unique, fun h p a ha hready hnone => ?_,
    fun h => (hs.selections h).priority, fun h => (hs.selections h).live, hH.once, fun p => ?_,
    fun p => ?_, fun p => ?_, hs.scheduled.named⟩
  · obtain ⟨q, b, hb, hsel⟩ := (hs.selections h).exists_selected p a ha hready
    refine ⟨q, b, hb, ?_⟩
    cases hst : b.state with
    | best => rfl
    | requested => exact absurd hst (hnone q b hb)
    | delayed | ready | completed => rw [hst] at hsel; cases hsel
  · refine hs.linked.count_eq_ncard p rfl fun r hr => ?_
    rw [List.countP_eq_length.mpr]
    exact fun h hh => Option.isSome_iff_exists.mpr (((hs.linked.peers p r hr).mem h).mp hh)
  · exact hs.linked.count_eq_ncard p rfl fun r hr => (hs.linked.peers p r hr).requested
  · refine hs.linked.count_eq_ncard p rfl fun r hr => ?_
    have hpeer := hs.linked.peers p r hr
    rw [hpeer.requested, hpeer.completed]
    exact countP_candidates (s.get · p) fun h hh => (hpeer.mem h).mp hh

omit [LinearOrder T] in
/-- The history goes on as the tracker does. -/
theorem Recorded.after {c : RequestCall T} (hH : Recorded s H) (hst : Stepped c s t) :
    Recorded t (H.after c s t) := by
  have hnone : ∀ h p, t.get h p = none → (H.after c s t).requests h p = 0 := fun h p ht => by
    show (if (t.get h p).isNone = true then 0 else _) = 0
    rw [ht]
    rfl
  have hsome : ∀ h p b, t.get h p = some b → (H.after c s t).requests h p =
      H.requests h p + if (!isIn .requested (s.get h p) && isIn .requested (some b)) = true then 1
        else 0 := fun h p b ht => by
    show (if (t.get h p).isNone = true then 0 else _) = _
    rw [ht]
    rfl
  refine ⟨hnone, fun h p => ?_, fun h p b hb hasked => ?_⟩
  · cases ht : t.get h p with
    | none => exact (hnone h p ht).trans_le (Nat.zero_le 1)
    | some b =>
      rw [hsome h p b ht]
      split
      · next hnew =>
        rw [Bool.and_eq_true, isIn_some, decide_eq_true_iff] at hnew
        -- it was not asked for before, so the history has it asked for never
        rcases hst h p b ht with ⟨a, ha, hab⟩ | ⟨hs, -⟩
        · have hunasked : a.state.asked = false := by
            cases hst' : a.state with
            | delayed | ready | best => rfl
            | requested =>
              rw [ha, isIn_some, hst'] at hnew
              cases hnew.1
            | completed =>
              have := hab.completed hst'
              rw [hnew.2] at this
              cases this
          rw [(hH.unasked h p a ha hunasked).1]
        · rw [hH.untracked h p hs]
      · exact hH.once h p
  · rw [hsome h p b hb]
    have hnot : isIn .requested (some b) = false := by
      rw [isIn_some, decide_eq_false_iff_not]
      intro h0
      rw [h0] at hasked
      cases hasked
    rw [hnot, Bool.and_false, if_neg (by simp), Nat.add_zero]
    rcases hst h p b hb with ⟨a, ha, hab⟩ | ⟨hs, -, preferred, txid, rfl⟩
    · have hunasked : a.state.asked = false := by
        cases hst' : a.state.asked with
        | false => rfl
        | true =>
          have := hab.asked hst'
          rw [hasked] at this
          cases this
      obtain ⟨hzero, htime⟩ := hH.unasked h p a ha hunasked
      refine ⟨hzero, ?_⟩
      rw [hab.time hasked, ← htime]
      cases c with
      | receivedInv p' h' preferred reqtime txid =>
        refine if_neg ?_
        rw [ha]
        simp
      | _ => rfl
    · refine ⟨hH.untracked h p hs, if_pos ⟨⟨rfl, rfl⟩, ?_⟩⟩
      rw [hs]
      rfl

omit [LinearOrder T] in
theorem get_init (h : Hash) (p : PeerId) : (init : TxRequestTracker T).get h p = none := by
  show ((Dict.empty : Dict Hash (Dict PeerId (Announcement T))).get? h).bind _ = none
  rw [Dict.get?_empty, Option.bind_none]

theorem valid_init (siphash : Hash → ℕ → ℕ) : Valid siphash (init : TxRequestTracker T) := by
  have hnone : ∀ h p a, (init : TxRequestTracker T).get h p ≠ some a := fun h p a ha => by
    rw [get_init] at ha
    cases ha
  refine ⟨⟨⟨fun h p a ha => absurd ha (hnone h p a), fun h d hd => ?_, fun p r hr => ?_,
    fun h p a ha => absurd ha (hnone h p a)⟩, fun h => ?_, List.Pairwise.nil,
    fun h p a ha => absurd ha (hnone h p a)⟩, fun h p a ha => absurd ha (hnone h p a)⟩
  · have := (Dict.get?_empty (β := Dict PeerId (Announcement T)) h).symm.trans hd
    cases this
  · have := (Dict.get?_empty (β := PeerRequests) p).symm.trans hr
    cases this
  · exact Selection.of_none (fun p a ha => absurd ha (hnone h p a))
      (fun p a ha => absurd ha (hnone h p a)) fun p a ha => absurd ha (hnone h p a)

omit [LinearOrder T] in
theorem recorded_init : Recorded (init : TxRequestTracker T) History.init := by
  refine ⟨fun _ _ _ => rfl, fun _ _ => Nat.zero_le 1, fun h p a ha => ?_⟩
  rw [get_init] at ha
  cases ha

/-- What every run keeps, and what its last call leaves. -/
theorem exec_eq (calls : List (RequestCall T)) (hs : Valid siphash s) (hH : Recorded s H) :
    ∃ t K, Run.exec (traced siphash) (s, H) calls = some (t, K) ∧ Valid siphash t ∧ Recorded t K ∧
      ∀ p now, calls.getLast? = some (.getRequestable p now) → Settled now t K := by
  induction calls generalizing s H with
  | nil => exact ⟨s, H, rfl, hs, hH, nofun⟩
  | cons c calls ih =>
    obtain ⟨m, hm, hvalid, hstepped, hat⟩ := step_eq hs c
    have hrecorded := hH.after hstepped
    obtain ⟨t, K, ht, htvalid, htrecorded, hsettled⟩ := ih hvalid hrecorded
    refine ⟨t, K, ?_, htvalid, htrecorded, fun p now hlast => ?_⟩
    · refine Run.exec_cons.mpr ⟨(m, H.after c s m), ?_, ht⟩
      show (step siphash s c).map _ = _
      rw [hm]
      rfl
    · cases calls with
      | cons c' calls => exact hsettled p now (by rwa [List.getLast?_cons_cons] at hlast)
      | nil =>
        cases ht
        rw [List.getLast?_singleton, Option.some.injEq] at hlast
        obtain ⟨hnow, hpast⟩ := hat p now hlast
        refine ⟨hpast, fun h q a ha hcand => ?_⟩
        refine ⟨a.time, (hrecorded.unasked h q a ha (asked_of_candidate hcand)).2, ?_⟩
        have htimely := hvalid.timely h q a ha hcand
        rw [hnow] at htimely
        exact WithBot.coe_le_coe.mp htimely

/-- **`TxRequestTracker` keeps its state machine**: for every sequence of calls,
at times that move either way, no call raises and the machine is kept; and right
after `get_requestable` every announcement is where its time puts it. -/
theorem stateMachine_of_run (siphash : Hash → ℕ → ℕ) (calls : List (RequestCall T)) :
    ∃ s H, Run.exec (traced siphash) (init, .init) calls = some (s, H) ∧
      StateMachine siphash s H ∧
      ∀ p now, calls.getLast? = some (.getRequestable p now) → Settled now s H := by
  obtain ⟨s, H, hexec, hs, hH, hsettled⟩ := exec_eq calls (valid_init siphash) recorded_init
  exact ⟨s, H, hexec, hs.stateMachine hH, hsettled⟩

end Run

end BtclibNode.TxRequestTracker
