/-
# The two tables of `TxRequestTracker`

An announcement is found by its `txhash` and by its peer, and counted by its
peer.  `_set_state` and `_erase` change one announcement and keep the tables
and the counts in agreement.
-/
import Mathlib.Data.List.Count
import BtclibNode.Relay.TxRequest

namespace BtclibNode.TxRequestTracker

variable {T : Type} {s t u : TxRequestTracker T} {a b : Announcement T} {h h' : Hash} {p p' : PeerId}
  {state : RequestState}

/-! ## What the tables agree on -/

/-- Whether an announcement is in a state. -/
def isIn (state : RequestState) (x : Option (Announcement T)) : Bool :=
  x.any fun a => a.state = state

/-- `r` is the record of a peer with the announcements `f`. -/
structure PeerLinked (f : Hash → Option (Announcement T)) (r : PeerRequests) : Prop where
  nonempty : r.announcements ≠ []
  nodup : r.announcements.Nodup
  mem : ∀ h, h ∈ r.announcements ↔ ∃ a, f h = some a
  bestNodup : r.best.Nodup
  best : ∀ h, h ∈ r.best ↔ isIn .best (f h) = true
  requested : r.requested = r.announcements.countP fun h => isIn .requested (f h)
  completed : r.completed = r.announcements.countP fun h => isIn .completed (f h)

/-- The tables and the counts agree. -/
structure Linked (s : TxRequestTracker T) : Prop where
  keys : ∀ h p a, s.get h p = some a → a.txhash = h ∧ a.peer = p
  holders : ∀ h d, s.byHash.get? h = some d → d.keys ≠ []
  peers : ∀ p r, s.peers.get? p = some r → PeerLinked (s.get · p) r
  known : ∀ h p a, s.get h p = some a → ∃ r, s.peers.get? p = some r

/-- `t` is `s` with one announcement changed or gone. -/
structure Replaced (h : Hash) (p : PeerId) (new : Option (Announcement T))
    (s t : TxRequestTracker T) : Prop where
  get : ∀ h' p', t.get h' p' = if h' = h ∧ p' = p then new else s.get h' p'
  others : t = { s with waiting := t.waiting, peers := t.peers, byHash := t.byHash }

section Replaced

variable {new : Option (Announcement T)}

theorem Replaced.get_self (hst : Replaced h p new s t) : t.get h p = new := by
  rw [hst.get, if_pos ⟨rfl, rfl⟩]

theorem Replaced.get_hash (hst : Replaced h p new s t) (hne : h' ≠ h) :
    t.get h' p' = s.get h' p' := by
  rw [hst.get, if_neg fun h0 => hne h0.1]

theorem Replaced.get_peer (hst : Replaced h p new s t) (hne : p' ≠ p) :
    t.get h' p' = s.get h' p' := by
  rw [hst.get, if_neg fun h0 => hne h0.2]

theorem Replaced.events (hst : Replaced h p new s t) : t.events = s.events := by
  rw [hst.others]

theorem Replaced.lastNow (hst : Replaced h p new s t) : t.lastNow = s.lastNow := by
  rw [hst.others]

end Replaced

/-! ## Lookups -/

section Lookups

theorem mem_holders : b ∈ s.holders h ↔ ∃ p, s.get h p = some b := by
  unfold holders get
  cases s.byHash.get? h with
  | none => simp
  | some d => exact Dict.mem_values

theorem get_of_byHash {d : Dict PeerId (Announcement T)} (hd : s.byHash.get? h = some d)
    (p : PeerId) : s.get h p = d.get? p := by
  unfold get
  rw [hd]
  rfl

theorem exists_byHash (ha : s.get h p = some a) :
    ∃ d, s.byHash.get? h = some d ∧ d.get? p = some a :=
  Option.bind_eq_some_iff.mp ha

theorem selected_eq_none (hnone : s.selected h = none) {p : PeerId} (ha : s.get h p = some a) :
    a.state.selected = false := by
  have := List.find?_eq_none.mp hnone a (mem_holders.mpr ⟨p, ha⟩)
  rwa [Bool.not_eq_true] at this

theorem Linked.selected_eq_some (hs : Linked s) (hsome : s.selected h = some b) :
    s.get h b.peer = some b ∧ b.txhash = h ∧ b.state.selected = true := by
  obtain ⟨p, hb⟩ := mem_holders.mp (List.mem_of_find?_eq_some hsome)
  obtain ⟨hhash, rfl⟩ := hs.keys h p b hb
  refine ⟨hb, hhash, ?_⟩
  have hfind := List.find?_some hsome
  exact hfind

/-- Which announcements a tracker holds, after one table entry is set. -/
theorem get_set {peers : Dict PeerId PeerRequests} {waiting : ℤ} {d : Dict PeerId (Announcement T)}
    (hd : ∀ q, d.get? q = s.get h q) (a : Announcement T) (h' : Hash) (p' : PeerId) :
    ({ s with
      waiting := waiting
      peers := peers
      byHash := s.byHash.set h (d.set p a) } : TxRequestTracker T).get h' p' =
      if h' = h ∧ p' = p then some a else s.get h' p' := by
  by_cases hh : h' = h
  · subst hh
    simp only [true_and, ← hd p']
    show ((s.byHash.set h' (d.set p a)).get? h').bind _ = _
    rw [Dict.get?_set_self, Option.bind_some, Dict.get?_set]
    simp only [eq_comm]
  · rw [if_neg fun h0 => hh h0.1]
    show ((s.byHash.set h (d.set p a)).get? h').bind _ = _
    rw [Dict.get?_set_ne _ _ (Ne.symm hh)]
    rfl

end Lookups

theorem mem_refs (hs : Linked s) (ha : s.get h p = some a) : (h, p) ∈ s.refs := by
  obtain ⟨r, hr⟩ := hs.known h p a ha
  unfold refs
  rw [List.mem_flatMap]
  refine ⟨p, Dict.mem_keys_of_get? hr, ?_⟩
  rw [hr]
  exact List.mem_map_of_mem (((hs.peers p r hr).mem h).mpr ⟨a, ha⟩)

/-- A tracker with the tables of another. -/
theorem Linked.congr (hs : Linked s) (hpeers : t.peers = s.peers) (hby : t.byHash = s.byHash) :
    Linked t := by
  have hget : t.get = s.get := by
    unfold get
    rw [hby]
  refine ⟨?_, ?_, ?_, ?_⟩
  · rw [hget]
    exact hs.keys
  · rw [hby]
    exact hs.holders
  · rw [hpeers, hget]
    exact hs.peers
  · rw [hpeers, hget]
    exact hs.known

/-! ## The counts -/

section Counts

/-- What one change does to a count over distinct keys. -/
theorem countP_change {l : List Hash} {P Q : Hash → Bool} (hl : l.Nodup) (hh : h ∈ l)
    (hPQ : ∀ x, x ≠ h → Q x = P x) :
    (l.countP Q : ℤ) = l.countP P - ofBool (P h) + ofBool (Q h) := by
  have hperm := List.perm_cons_erase hh
  have hsame : (l.erase h).countP Q = (l.erase h).countP P := by
    refine List.countP_congr fun x hx => ?_
    rw [hPQ x]
    rintro rfl
    exact hl.not_mem_erase hx
  rw [hperm.countP_eq P, hperm.countP_eq Q, List.countP_cons, List.countP_cons, hsame]
  unfold ofBool
  cases P h <;> cases Q h <;> simp

theorem countP_erase {l : List Hash} {P : Hash → Bool} (hh : h ∈ l) :
    ((l.erase h).countP P : ℤ) = l.countP P - ofBool (P h) := by
  rw [(List.perm_cons_erase hh).countP_eq P, List.countP_cons]
  unfold ofBool
  cases P h <;> simp

theorem isIn_some : isIn state (some a) = decide (a.state = state) := rfl

theorem mem_addKey {keys : List Hash} : h' ∈ addKey keys h ↔ h' = h ∨ h' ∈ keys := by
  unfold addKey
  split
  · constructor
    · exact .inr
    · rintro (rfl | hmem)
      · assumption
      · exact hmem
  · rw [List.mem_append, List.mem_singleton, or_comm]

theorem nodup_addKey {keys : List Hash} (hkeys : keys.Nodup) : (addKey keys h).Nodup := by
  unfold addKey
  split
  · exact hkeys
  · next hnot =>
    rw [List.nodup_append]
    refine ⟨hkeys, List.nodup_singleton h, ?_⟩
    rintro x hx y hy rfl
    rw [List.mem_singleton] at hy
    exact hnot (hy ▸ hx)

end Counts

/-! ## One announcement changes -/

section Change

variable {f g : Hash → Option (Announcement T)} {r : PeerRequests}

/-- `del peer.best[…]` of a `BEST` announcement. -/
theorem PeerLinked.delBest (hr : PeerLinked f r) (hf : f h = some a) :
    ∃ best, (if a.state = .best then delKey r.best h else some r.best) = some best ∧
      best.Nodup ∧ ∀ x, x ∈ best ↔ x ≠ h ∧ isIn .best (f x) = true := by
  by_cases hbest : a.state = .best
  · have hmem : h ∈ r.best := by
      rw [hr.best, hf, isIn_some, decide_eq_true hbest]
    refine ⟨r.best.erase h, ?_, hr.bestNodup.erase h, fun x => ?_⟩
    · rw [if_pos hbest]
      exact if_pos hmem
    · rw [hr.bestNodup.mem_erase_iff, hr.best]
  · refine ⟨r.best, if_neg hbest, hr.bestNodup, fun x => ?_⟩
    rw [hr.best]
    refine ⟨fun hx => ⟨?_, hx⟩, fun hx => hx.2⟩
    rintro rfl
    rw [hf, isIn_some, decide_eq_true_iff] at hx
    exact hbest hx

/-- The record of a peer, one of its announcements in another state. -/
theorem PeerLinked.change {best : List Hash} (hr : PeerLinked f r) (hf : f h = some a)
    (hlive : a.state ≠ .completed) (hg : ∀ st, isIn st (g h) = decide (state = st))
    (hsome : ∃ b, g h = some b) (hne : ∀ x, x ≠ h → g x = f x) (hnodup : best.Nodup)
    (hbest : ∀ x, x ∈ best ↔ x ≠ h ∧ isIn .best (f x) = true) :
    PeerLinked g { r with
      best := if state = .best then addKey best h else best
      requested := r.requested - ofBool (a.state = .requested) + ofBool (state = .requested)
      completed := r.completed + ofBool (state = .completed) } := by
  have hmem : h ∈ r.announcements := (hr.mem h).mpr ⟨a, hf⟩
  have hcount := fun st => countP_change (P := fun x => isIn st (f x))
    (Q := fun x => isIn st (g x)) hr.nodup hmem fun x hx => congrArg _ (hne x hx)
  refine ⟨hr.nonempty, hr.nodup, fun x => ?_, ?_, fun x => ?_, ?_, ?_⟩
  · by_cases hx : x = h
    · subst hx
      exact iff_of_true hmem hsome
    · rw [hne x hx]
      exact hr.mem x
  · dsimp only
    split
    · exact nodup_addKey hnodup
    · exact hnodup
  · dsimp only
    by_cases hx : x = h
    · subst hx
      rw [hg, decide_eq_true_iff]
      split
      · next hstate => exact iff_of_true (mem_addKey.mpr (.inl rfl)) hstate
      · next hstate => exact iff_of_false (fun h0 => ((hbest x).mp h0).1 rfl) hstate
    · rw [hne x hx]
      split
      · rw [mem_addKey, hbest]
        simp [hx]
      · rw [hbest]
        simp [hx]
  · dsimp only
    rw [hcount, hr.requested, hf, hg]
    rfl
  · dsimp only
    rw [hcount, hr.completed, hf, hg, isIn_some, decide_eq_false hlive]
    simp [ofBool]

/-- Writing one announcement whose peer keeps its record. -/
theorem Linked.of_replaced (hs : Linked s) {new : Announcement T}
    {d : Dict PeerId (Announcement T)} (hst : Replaced h p (some new) s t) (hby : t.byHash = s.byHash.set h (d.set p new))
    (hnew : new.txhash = h ∧ new.peer = p) {r : PeerRequests}
    (hpeers : ∀ q, t.peers.get? q = if p = q then some r else s.peers.get? q)
    (hr : PeerLinked (t.get · p) r) : Linked t := by
  refine ⟨fun x q b hb => ?_, fun x e he => ?_, fun q e he => ?_, fun x q b hb => ?_⟩
  · rw [hst.get] at hb
    split at hb
    · next heq =>
      cases hb
      rw [heq.1, heq.2]
      exact hnew
    · exact hs.keys x q b hb
  · rw [hby, Dict.get?_set] at he
    split at he
    · cases he
      have hmem := Dict.mem_keys_of_get? (d.get?_set_self p new)
      exact List.ne_nil_of_mem hmem
    · exact hs.holders x e he
  · rw [hpeers] at he
    split at he
    · next heq =>
      cases he
      exact heq ▸ hr
    · next hne =>
      have hsame : (t.get · q) = (s.get · q) := funext fun x => hst.get_peer (Ne.symm hne)
      rw [hsame]
      exact hs.peers q e he
  · rw [hpeers]
    split
    · exact ⟨r, rfl⟩
    · next hne =>
      rw [hst.get_peer (Ne.symm hne)] at hb
      exact hs.known x q b hb

/-- **`_set_state` changes one announcement**, and keeps the tables in agreement. -/
theorem setState_eq (hs : Linked s) (ha : s.get h p = some a) (hlive : a.state ≠ .completed)
    (state : RequestState) :
    ∃ t, setState a state s = some t ∧ Linked t ∧ Replaced h p (some { a with state }) s t := by
  obtain ⟨rfl, rfl⟩ := hs.keys h p a ha
  obtain ⟨d, hd, hget⟩ := exists_byHash ha
  obtain ⟨r, hr⟩ := hs.known _ _ _ ha
  obtain ⟨best, hbest, hnodup, hmem⟩ := (hs.peers _ _ hr).delBest ha
  let peer : PeerRequests := { r with
    best := if state = .best then addKey best a.txhash else best
    requested := r.requested - ofBool (a.state = .requested) + ofBool (state = .requested)
    completed := r.completed + ofBool (state = .completed) }
  let t : TxRequestTracker T := { s with
    waiting := s.waiting + (ofBool state.waiting - ofBool a.state.waiting)
    peers := s.peers.set a.peer peer
    byHash := s.byHash.set a.txhash (d.set a.peer { a with state }) }
  have hst : Replaced a.txhash a.peer (some { a with state }) s t :=
    ⟨get_set (fun q => (get_of_byHash hd q).symm) { a with state }, rfl⟩
  refine ⟨t, ?_, ?_, hst⟩
  · have hdel : delBest a r.best = some best := hbest
    unfold setState write
    simp only [hr, hdel, hd, Option.bind_eq_bind, Option.bind_some]
    rfl
  · refine hs.of_replaced hst rfl ⟨rfl, rfl⟩ (fun q => Dict.get?_set _ _ _ q) ?_
    exact (hs.peers _ _ hr).change ha hlive (fun st => by rw [hst.get_self]; rfl)
      ⟨_, hst.get_self⟩ (fun x hx => hst.get_hash hx) hnodup hmem

/-- Writing an announcement with another time. -/
theorem write_eq (hs : Linked s) (ha : s.get h p = some a) (time : T) :
    ∃ t, write { a with time } s = some t ∧ Linked t ∧
      Replaced h p (some { a with time }) s t := by
  obtain ⟨rfl, rfl⟩ := hs.keys h p a ha
  obtain ⟨d, hd, hget⟩ := exists_byHash ha
  obtain ⟨r, hr⟩ := hs.known _ _ _ ha
  have hpeer := hs.peers _ _ hr
  let t : TxRequestTracker T := { s with
    byHash := s.byHash.set a.txhash (d.set a.peer { a with time }) }
  have hst : Replaced a.txhash a.peer (some { a with time }) s t :=
    ⟨get_set (fun q => (get_of_byHash hd q).symm) { a with time }, rfl⟩
  have hisIn : ∀ st x, isIn st (t.get x a.peer) = isIn st (s.get x a.peer) := fun st x => by
    by_cases hx : x = a.txhash
    · rw [hx, hst.get_self, ha]
      rfl
    · rw [hst.get_hash hx]
  refine ⟨t, ?_, hs.of_replaced hst rfl ⟨rfl, rfl⟩ (fun q => ?_) ⟨hpeer.nonempty, hpeer.nodup,
    fun x => ?_, hpeer.bestNodup, fun x => ?_, ?_, ?_⟩, hst⟩
  · unfold write
    simp only [hd, Option.bind_eq_bind, Option.bind_some]
    rfl
  · split
    · next heq => exact heq ▸ hr
    · rfl
  · rw [hpeer.mem]
    by_cases hx : x = a.txhash
    · rw [hx, hst.get_self, ha]
      simp
    · rw [hst.get_hash hx]
  · rw [hisIn, hpeer.best]
  · simp only [hisIn, hpeer.requested]
  · simp only [hisIn, hpeer.completed]

end Change

/-! ## An announcement is added -/

section Add

/-- Whether the peer has announced the `txhash`. -/
theorem announced_iff (hs : Linked s) :
    ((s.peers.get? p).map fun known => decide (h ∈ known.announcements)).getD false = true ↔
      ∃ a, s.get h p = some a := by
  cases hr : s.peers.get? p with
  | none =>
    refine iff_of_false (by simp) ?_
    rintro ⟨a, ha⟩
    obtain ⟨r, hr'⟩ := hs.known h p a ha
    rw [hr] at hr'
    cases hr'
  | some r =>
    rw [Option.map_some, Option.getD_some, decide_eq_true_iff]
    exact (hs.peers p r hr).mem h

variable {f g : Hash → Option (Announcement T)} {r : PeerRequests}

/-- The record of a peer, one `DELAYED` announcement added. -/
theorem PeerLinked.add (hr : PeerLinked f r) (hf : f h = none) (hg : g h = some a)
    (hdelayed : a.state = .delayed) (hne : ∀ x, x ≠ h → g x = f x) :
    PeerLinked g { r with announcements := addKey r.announcements h } := by
  have hnew : h ∉ r.announcements := fun hmem => by
    obtain ⟨b, hb⟩ := (hr.mem h).mp hmem
    rw [hf] at hb
    cases hb
  have hcount : ∀ st, st ≠ .delayed → (r.announcements ++ [h]).countP (fun x => isIn st (g x)) =
      r.announcements.countP fun x => isIn st (f x) := fun st hst => by
    rw [List.countP_append, List.countP_singleton, hg, isIn_some, hdelayed,
      decide_eq_false (Ne.symm hst)]
    refine List.countP_congr fun x hx => ?_
    rw [hne x]
    rintro rfl
    exact hnew hx
  have hkey : addKey r.announcements h = r.announcements ++ [h] := if_neg hnew
  refine ⟨?_, nodup_addKey hr.nodup, fun x => ?_, hr.bestNodup, fun x => ?_, ?_, ?_⟩
  · dsimp only
    rw [hkey]
    simp
  · dsimp only
    rw [mem_addKey, hr.mem]
    by_cases hx : x = h
    · subst hx
      simp [hg]
    · simp [hx, hne x hx]
  · rw [hr.best]
    by_cases hx : x = h
    · rw [hx, hf, hg, isIn_some, hdelayed]
      simp [isIn]
    · rw [hne x hx]
  · dsimp only
    rw [hkey, hcount _ (by simp), hr.requested]
  · dsimp only
    rw [hkey, hcount _ (by simp), hr.completed]

/-- The record of a peer with its first announcement. -/
theorem PeerLinked.first (hg : g h = some a) (hdelayed : a.state = .delayed)
    (hne : ∀ x, x ≠ h → g x = none) : PeerLinked g ⟨[h], [], 0, 0⟩ := by
  have hisIn : ∀ st, st ≠ .delayed → ∀ x, isIn st (g x) = false := fun st hst x => by
    by_cases hx : x = h
    · rw [hx, hg, isIn_some, hdelayed, decide_eq_false (Ne.symm hst)]
    · rw [hne x hx]
      rfl
  refine ⟨by simp, List.nodup_singleton h, fun x => ?_, List.nodup_nil, fun x => ?_, ?_, ?_⟩
  · rw [List.mem_singleton]
    by_cases hx : x = h
    · simp [hx, hg]
    · simp [hx, hne x hx]
  · simp [hisIn]
  · simp [hisIn]
  · simp [hisIn]

end Add

/-! ## Announcements are erased -/

section Erase

theorem delKey_of_mem {keys : List Hash} (hmem : h ∈ keys) :
    delKey keys h = some (keys.erase h) := if_pos hmem

/-- Which announcements a tracker holds, after one table entry is deleted. -/
theorem get_erase {peers : Dict PeerId PeerRequests} {waiting : ℤ} {d : Dict PeerId (Announcement T)}
    (hd : s.byHash.get? h = some d) (h' : Hash) (p' : PeerId) :
    ({ s with
      waiting := waiting
      peers := peers
      byHash := if (d.erase p).keys = [] then s.byHash.erase h
        else s.byHash.set h (d.erase p) } : TxRequestTracker T).get h' p' =
      if h' = h ∧ p' = p then none else s.get h' p' := by
  have hget : ∀ q, (d.erase p).get? q = if h = h ∧ q = p then none else s.get h q := fun q => by
    rw [Dict.get?_erase, get_of_byHash hd]
    simp only [true_and, eq_comm]
  unfold get at *
  dsimp only
  by_cases hempty : (d.erase p).keys = []
  · rw [if_pos hempty, Dict.get?_erase]
    by_cases hh : h = h'
    · subst hh
      rw [if_pos rfl, Option.bind_none, ← hget, Dict.get?_eq_none_of_keys hempty]
    · rw [if_neg hh, if_neg fun h0 => hh h0.1.symm]
  · rw [if_neg hempty]
    by_cases hh : h = h'
    · subst hh
      rw [Dict.get?_set_self, Option.bind_some, hget]
    · rw [Dict.get?_set_ne _ _ hh, if_neg fun h0 => hh h0.1.symm]

/-- The record of a peer, one of its announcements gone. -/
theorem PeerLinked.forget {f g : Hash → Option (Announcement T)} {r : PeerRequests}
    {best : List Hash} (hr : PeerLinked f r) (hf : f h = some a) (hg : g h = none)
    (hne : ∀ x, x ≠ h → g x = f x) (hnonempty : r.announcements.erase h ≠ [])
    (hnodup : best.Nodup) (hbest : ∀ x, x ∈ best ↔ x ≠ h ∧ isIn .best (f x) = true) :
    PeerLinked g { r with
      announcements := r.announcements.erase h
      best
      requested := r.requested - ofBool (a.state = .requested)
      completed := r.completed - ofBool (a.state = .completed) } := by
  have hmem : h ∈ r.announcements := (hr.mem h).mpr ⟨a, hf⟩
  have hcount : ∀ st, ((r.announcements.erase h).countP (fun x => isIn st (g x)) : ℤ) =
      r.announcements.countP (fun x => isIn st (f x)) - ofBool (a.state = st) := fun st => by
    have hsame : (r.announcements.erase h).countP (fun x => isIn st (g x)) =
        (r.announcements.erase h).countP fun x => isIn st (f x) := by
      refine List.countP_congr fun x hx => ?_
      rw [hne x]
      rintro rfl
      exact hr.nodup.not_mem_erase hx
    rw [hsame, countP_erase hmem, hf]
    rfl
  refine ⟨hnonempty, hr.nodup.erase h, fun x => ?_, hnodup, fun x => ?_, ?_, ?_⟩
  · rw [hr.nodup.mem_erase_iff, hr.mem]
    by_cases hx : x = h
    · subst hx
      rw [hg]
      simp
    · rw [hne x hx]
      exact and_iff_right hx
  · rw [hbest]
    by_cases hx : x = h
    · subst hx
      rw [hg]
      simp [isIn]
    · rw [hne x hx]
      exact and_iff_right hx
  · rw [hcount, hr.requested]
  · rw [hcount, hr.completed]

/-- **`_erase` removes one announcement**, and keeps the tables in agreement. -/
theorem erase_eq (hs : Linked s) (ha : s.get h p = some a) :
    ∃ t, erase a s = some t ∧ Linked t ∧ Replaced h p none s t := by
  obtain ⟨rfl, rfl⟩ := hs.keys h p a ha
  obtain ⟨d, hd, hget⟩ := exists_byHash ha
  obtain ⟨r, hr⟩ := hs.known _ _ _ ha
  have hpeer := hs.peers _ _ hr
  obtain ⟨best, hbest, hnodup, hmem⟩ := hpeer.delBest ha
  have hmema : a.txhash ∈ r.announcements := (hpeer.mem _).mpr ⟨a, ha⟩
  let peer : PeerRequests := { r with
    announcements := r.announcements.erase a.txhash
    best
    requested := r.requested - ofBool (a.state = .requested)
    completed := r.completed - ofBool (a.state = .completed) }
  let t : TxRequestTracker T := { s with
    waiting := s.waiting - ofBool a.state.waiting
    peers := if r.announcements.erase a.txhash = [] then s.peers.erase a.peer
      else s.peers.set a.peer peer
    byHash := if (d.erase a.peer).keys = [] then s.byHash.erase a.txhash
      else s.byHash.set a.txhash (d.erase a.peer) }
  have hst : Replaced a.txhash a.peer none s t := ⟨get_erase hd, rfl⟩
  refine ⟨t, ?_, ⟨fun x q b hb => ?_, fun x e he => ?_, fun q e he => ?_, fun x q b hb => ?_⟩, hst⟩
  · have hdel : delBest a r.best = some best := hbest
    unfold erase
    simp only [hr, hdel, hd, delKey_of_mem hmema, Option.bind_eq_bind, Option.bind_some]
    rfl
  · rw [hst.get] at hb
    split at hb
    · cases hb
    · exact hs.keys x q b hb
  · change (if (d.erase a.peer).keys = [] then s.byHash.erase a.txhash
      else s.byHash.set a.txhash (d.erase a.peer)).get? x = some e at he
    split at he
    · rw [Dict.get?_erase] at he
      split at he
      · cases he
      · exact hs.holders x e he
    · next hne =>
      rw [Dict.get?_set] at he
      split at he
      · cases he
        exact hne
      · exact hs.holders x e he
  · change (if r.announcements.erase a.txhash = [] then s.peers.erase a.peer
      else s.peers.set a.peer peer).get? q = some e at he
    have hsame : a.peer ≠ q → (t.get · q) = (s.get · q) := fun hne =>
      funext fun x => hst.get_peer (Ne.symm hne)
    split at he
    · rw [Dict.get?_erase] at he
      split at he
      · cases he
      · next hne =>
        rw [hsame hne]
        exact hs.peers q e he
    · next hnonempty =>
      rw [Dict.get?_set] at he
      split at he
      · next heq =>
        cases he
        subst heq
        exact hpeer.forget ha hst.get_self (fun x hx => hst.get_hash hx) hnonempty hnodup hmem
      · next hne =>
        rw [hsame hne]
        exact hs.peers q e he
  · change ∃ e, (if r.announcements.erase a.txhash = [] then s.peers.erase a.peer
      else s.peers.set a.peer peer).get? q = some e
    by_cases hq : a.peer = q
    · subst hq
      have hx : x ≠ a.txhash := by
        rintro rfl
        rw [hst.get_self] at hb
        cases hb
      rw [hst.get_hash hx] at hb
      have hxmem : x ∈ r.announcements.erase a.txhash :=
        (hpeer.nodup.mem_erase_iff).mpr ⟨hx, (hpeer.mem x).mpr ⟨b, hb⟩⟩
      rw [if_neg (List.ne_nil_of_mem hxmem)]
      exact ⟨peer, Dict.get?_set_self _ _ _⟩
    · rw [hst.get_peer (Ne.symm hq)] at hb
      obtain ⟨e, he⟩ := hs.known x q b hb
      refine ⟨e, ?_⟩
      split
      · rw [Dict.get?_erase, if_neg hq, he]
      · rw [Dict.get?_set_ne _ _ hq, he]

/-- What `forget_tx_hash` leaves: no announcement of `h`. -/
structure Forgotten (h : Hash) (s t : TxRequestTracker T) : Prop where
  get : ∀ h' p, t.get h' p = if h' = h then none else s.get h' p
  others : t = { s with waiting := t.waiting, peers := t.peers, byHash := t.byHash }

/-- `_erase` of some of the announcements of a `txhash`, all distinct. -/
theorem eraseAll_eq {l : List (Announcement T)} (hs : Linked s) (hnodup : (l.map (·.peer)).Nodup)
    (hl : ∀ a ∈ l, a.txhash = h ∧ s.get h a.peer = some a) :
    ∃ t, eraseAll l s = some t ∧ Linked t ∧
      (∀ h' p, t.get h' p = if h' = h ∧ p ∈ l.map (·.peer) then none else s.get h' p) ∧
      t = { s with waiting := t.waiting, peers := t.peers, byHash := t.byHash } := by
  induction l generalizing s with
  | nil => exact ⟨s, rfl, hs, fun _ _ => by simp, rfl⟩
  | cons a l ih =>
    rw [List.map_cons, List.nodup_cons] at hnodup
    obtain ⟨⟨hhash, ha⟩, hrest⟩ := List.forall_mem_cons.mp hl
    subst hhash
    obtain ⟨t, ht, hlinked, hst⟩ := erase_eq hs ha
    obtain ⟨u, hu, hlinked', hget, hothers⟩ := ih hlinked hnodup.2 fun b hb => by
      obtain ⟨hhash, hb'⟩ := hrest b hb
      refine ⟨hhash, ?_⟩
      rw [hst.get_peer, hb']
      intro heq
      exact hnodup.1 (heq ▸ List.mem_map_of_mem hb)
    refine ⟨u, ?_, hlinked', fun h' p => ?_, ?_⟩
    · rw [eraseAll, ht]
      exact hu
    · simp only [hget, hst.get, List.map_cons, List.mem_cons]
      by_cases hh : h' = a.txhash
      · by_cases hp : p = a.peer <;> simp [hh, hp]
      · simp [hh]
    · rw [hothers, hst.others]

/-- The peers of the announcements of a `txhash` are distinct. -/
theorem Linked.nodup_holders (hs : Linked s) (h : Hash) :
    ((s.holders h).map (·.peer)).Nodup := by
  unfold TxRequestTracker.holders
  cases hd : s.byHash.get? h with
  | none => exact List.nodup_nil
  | some d =>
    have hpeer : ∀ q ∈ d.keys, (d.get? q).map (·.peer) = some q := fun q hq => by
      obtain ⟨a, ha⟩ := (d.mem_keys_iff q).mp hq
      rw [ha, Option.map_some, Option.some.injEq]
      exact (hs.keys h q a (by rw [get_of_byHash hd, ha])).2
    have hkeys : d.values.map (·.peer) = d.keys := by
      unfold Dict.values
      rw [List.map_filterMap]
      calc d.keys.filterMap (fun q => (d.get? q).map (·.peer))
          = d.keys.filterMap some := List.filterMap_congr hpeer
        _ = d.keys := List.filterMap_some
    show (d.values.map (·.peer)).Nodup
    rw [hkeys]
    exact d.nodup

/-- **`forget_tx_hash` removes every announcement of a `txhash`.** -/
theorem forgetTxHash_eq (hs : Linked s) (h : Hash) :
    ∃ t, forgetTxHash h s = some t ∧ Linked t ∧ Forgotten h s t := by
  obtain ⟨t, ht, hlinked, hget, hothers⟩ := eraseAll_eq hs (hs.nodup_holders h) fun a ha => by
    obtain ⟨p, hp⟩ := mem_holders.mp ha
    obtain ⟨hhash, rfl⟩ := hs.keys h p a hp
    exact ⟨hhash, hp⟩
  refine ⟨t, ht, hlinked, fun h' p => ?_, hothers⟩
  rw [hget]
  by_cases hh : h' = h
  · subst hh
    rw [if_pos rfl]
    split
    · rfl
    · next hnot =>
      cases hp : s.get h' p with
      | none => rfl
      | some a =>
        refine absurd ⟨rfl, ?_⟩ hnot
        obtain ⟨-, rfl⟩ := hs.keys h' p a hp
        exact List.mem_map_of_mem (mem_holders.mpr ⟨_, hp⟩)
  · rw [if_neg hh, if_neg fun h0 => hh h0.1]

end Erase

end BtclibNode.TxRequestTracker
