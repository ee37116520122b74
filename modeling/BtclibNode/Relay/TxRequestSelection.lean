/-
# The selection of an announcer

Of the announcements of one `txhash` at most one is `BEST` or `REQUESTED`, and
one is wherever one is `READY`.  Every change of state that the tracker makes
keeps that, and hands the selection to the best of the `READY` ones.
-/
import BtclibNode.Relay.TxRequestTable

namespace BtclibNode.TxRequestTracker

variable {T : Type} {siphash : Hash → ℕ → ℕ} {s t u : TxRequestTracker T} {a b : Announcement T}
  {h h' : Hash} {p q : PeerId} {state : RequestState}

/-! ## The invariant of one `txhash` -/

/-- What holds of the announcements `f` of one `txhash`, by peer. -/
structure Selection (siphash : Hash → ℕ → ℕ) (f : PeerId → Option (Announcement T)) : Prop where
  unique : ∀ p q a b, f p = some a → f q = some b → a.state.selected = true →
    b.state.selected = true → p = q
  exists_selected : ∀ p a, f p = some a → a.state = .ready →
    ∃ q b, f q = some b ∧ b.state.selected = true
  priority : ∀ p q a b, f p = some a → f q = some b → a.state = .best → b.state = .ready →
    priority siphash b ≤ priority siphash a
  live : ∀ p a, f p = some a → ∃ q b, f q = some b ∧ b.state ≠ .completed

section Selection

variable {f g : PeerId → Option (Announcement T)}

/-- One announcement is selected. -/
theorem Selection.of_selected (hb : f q = some b) (hselected : b.state.selected = true)
    (honly : ∀ p a, f p = some a → a.state.selected = true → p = q)
    (hpriority : b.state = .best → ∀ p a, f p = some a → a.state = .ready →
      TxRequestTracker.priority siphash a ≤ TxRequestTracker.priority siphash b) :
    Selection siphash f := by
  refine ⟨fun p p' a a' ha ha' hs hs' => ?_, fun _ _ _ _ => ⟨q, b, hb, hselected⟩,
    fun p p' a a' ha ha' hbest hready => ?_, fun _ _ _ => ⟨q, b, hb, ?_⟩⟩
  · rw [honly p a ha hs, honly p' a' ha' hs']
  · obtain rfl := honly p a ha (by rw [hbest]; rfl)
    obtain rfl : b = a := Option.some.inj (hb.symm.trans ha)
    exact hpriority hbest p' a' ha' hready
  · rintro h0
    rw [h0] at hselected
    cases hselected

/-- No announcement is selected, and none is to be. -/
theorem Selection.of_none (hselected : ∀ p a, f p = some a → a.state.selected = false)
    (hready : ∀ p a, f p = some a → a.state ≠ .ready)
    (hlive : ∀ p a, f p = some a → ∃ q b, f q = some b ∧ b.state ≠ .completed) :
    Selection siphash f := by
  refine ⟨fun p q a b ha hb hs _ => ?_, fun p a ha h0 => absurd h0 (hready p a ha),
    fun p q a b ha hb hbest h0 => absurd h0 (hready q b hb), hlive⟩
  rw [hselected p a ha] at hs
  cases hs

/-- Announcements that are not selected leave or change among themselves. -/
theorem Selection.of_same (hf : Selection siphash f)
    (hselected : ∀ p a, a.state.selected = true → (g p = some a ↔ f p = some a))
    (hready : ∀ p a, g p = some a → a.state = .ready → f p = some a)
    (hlive : ∀ p a, g p = some a → ∃ q b, g q = some b ∧ b.state ≠ .completed) :
    Selection siphash g := by
  refine ⟨fun p q a b ha hb hs hs' => ?_, fun p a ha h0 => ?_,
    fun p q a b ha hb hbest h0 => ?_, hlive⟩
  · exact hf.unique p q a b ((hselected p a hs).mp ha) ((hselected q b hs').mp hb) hs hs'
  · obtain ⟨q, b, hb, hs⟩ := hf.exists_selected p a (hready p a ha h0) h0
    exact ⟨q, b, (hselected q b hs).mpr hb, hs⟩
  · have hsel : a.state.selected = true := by rw [hbest]; rfl
    exact hf.priority p q a b ((hselected p a hsel).mp ha) (hready q b hb h0) hbest h0

/-- An announcement leaves the selection, and leaves no candidate if it was selected. -/
theorem Selection.leave (hf : Selection siphash f) (ha : f p = some a)
    (hself : g p = some { a with state }) (hne : ∀ q, q ≠ p → g q = f q)
    (hselected : state.selected = false) (hunready : state ≠ .ready)
    (hready : ∀ q b, f q = some b → b.state = .ready → a.state.selected = false)
    (hlive : ∃ q b, g q = some b ∧ b.state ≠ .completed) : Selection siphash g := by
  have hold : ∀ q b, g q = some b → b.state.selected = true ∨ b.state = .ready →
      q ≠ p ∧ f q = some b := by
    intro q b hb hst
    have hq : q ≠ p := by
      rintro rfl
      rw [hself, Option.some.injEq] at hb
      subst hb
      rcases hst with hst | hst
      · exact absurd (hselected.symm.trans hst) (by simp)
      · exact hunready hst
    exact ⟨hq, hne q hq ▸ hb⟩
  refine ⟨fun q q' b b' hb hb' hs hs' => ?_, fun q b hb hst => ?_, fun q q' b b' hb hb' hs hs' => ?_,
    fun _ _ _ => hlive⟩
  · exact hf.unique q q' b b' (hold q b hb (.inl hs)).2 (hold q' b' hb' (.inl hs')).2 hs hs'
  · have hfq := (hold q b hb (.inr hst)).2
    obtain ⟨q', b', hb', hs'⟩ := hf.exists_selected q b hfq hst
    refine ⟨q', b', ?_, hs'⟩
    rw [hne, hb']
    rintro rfl
    obtain rfl : a = b' := Option.some.inj (ha.symm.trans hb')
    exact absurd ((hready q b hfq hst).symm.trans hs') (by simp)
  · exact hf.priority q q' b b' (hold q b hb (.inl (by rw [hs]; rfl))).2
      (hold q' b' hb' (.inr hs')).2 hs hs'

end Selection

/-! ## How an announcement moves -/

/-- `b` is `a` later on: once asked for it stays so, and its time moves only
when it is asked for. -/
structure Later (a b : Announcement T) : Prop where
  same : b = { a with time := b.time, state := b.state }
  asked : a.state.asked = true → b.state.asked = true
  completed : a.state = .completed → b.state = .completed
  time : b.state.asked = false → b.time = a.time

/-- `b` is `a` later on, and neither waits nor is a candidate if `a` was not. -/
structure Fades (a b : Announcement T) : Prop where
  same : b = { a with state := b.state }
  asked : a.state.asked = true → b.state.asked = true
  completed : a.state = .completed → b.state = .completed
  candidate : b.state.candidate = true → a.state.candidate = true
  waiting : b.state.waiting = true → a.state = b.state

theorem Later.refl (a : Announcement T) : Later a a := ⟨rfl, id, id, fun _ => rfl⟩

theorem Later.trans {c : Announcement T} (hab : Later a b) (hbc : Later b c) : Later a c := by
  refine ⟨?_, fun h0 => hbc.asked (hab.asked h0), fun h0 => hbc.completed (hab.completed h0),
    fun h0 => ?_⟩
  · rw [hbc.same, hab.same]
  · rw [hbc.time h0, hab.time]
    cases hb : b.state.asked with
    | false => rfl
    | true => rw [hbc.asked hb] at h0; cases h0

theorem Fades.refl (a : Announcement T) : Fades a a := ⟨rfl, id, id, id, fun _ => rfl⟩

theorem Fades.trans {c : Announcement T} (hab : Fades a b) (hbc : Fades b c) : Fades a c := by
  refine ⟨?_, fun h0 => hbc.asked (hab.asked h0), fun h0 => hbc.completed (hab.completed h0),
    fun h0 => hab.candidate (hbc.candidate h0), fun h0 => ?_⟩
  · rw [hbc.same, hab.same]
  · have hb := hbc.waiting h0
    rw [← hb] at h0
    rw [hab.waiting h0, hb]

theorem Fades.time_eq (hab : Fades a b) : b.time = a.time := by rw [hab.same]

theorem Fades.later (hab : Fades a b) : Later a b := by
  refine ⟨?_, hab.asked, hab.completed, fun _ => hab.time_eq⟩
  rw [hab.time_eq]
  exact hab.same

/-- Every announcement of `t` was one of `s`, and has moved along `R`. -/
def Pointwise (R : Announcement T → Announcement T → Prop) (s t : TxRequestTracker T) : Prop :=
  ∀ h p b, t.get h p = some b → ∃ a, s.get h p = some a ∧ R a b

/-- `t` is `s` but for its two tables. -/
def TablesMoved (s t : TxRequestTracker T) : Prop :=
  t = { s with waiting := t.waiting, peers := t.peers, byHash := t.byHash }

theorem TablesMoved.trans (hst : TablesMoved s t) (htu : TablesMoved t u) : TablesMoved s u := by
  unfold TablesMoved at *
  rw [htu, hst]

theorem Pointwise.refl {R : Announcement T → Announcement T → Prop} (hR : ∀ a, R a a)
    (s : TxRequestTracker T) : Pointwise R s s := fun _ _ b hb => ⟨b, hb, hR b⟩

theorem Pointwise.trans {R : Announcement T → Announcement T → Prop}
    (hR : ∀ a b c, R a b → R b c → R a c) (hst : Pointwise R s t) (htu : Pointwise R t u) :
    Pointwise R s u := by
  intro h p c hc
  obtain ⟨b, hb, hbc⟩ := htu h p c hc
  obtain ⟨a, ha, hab⟩ := hst h p b hb
  exact ⟨a, ha, hR a b c hab hbc⟩

/-- What one changed announcement does to the rest. -/
theorem Replaced.pointwise {R : Announcement T → Announcement T → Prop} {new : Announcement T}
    (hst : Replaced h p (some new) s t) (ha : s.get h p = some a) (hR : ∀ a, R a a)
    (hnew : R a new) : Pointwise R s t := by
  intro h' p' b hb
  rw [hst.get] at hb
  split at hb
  · next heq =>
    cases hb
    exact ⟨a, by rw [heq.1, heq.2, ha], hnew⟩
  · exact ⟨b, hb, hR b⟩

theorem Replaced.pointwise_none {R : Announcement T → Announcement T → Prop}
    (hst : Replaced h p none s t) (hR : ∀ a, R a a) : Pointwise R s t := by
  intro h' p' b hb
  rw [hst.get] at hb
  split at hb
  · cases hb
  · exact ⟨b, hb, hR b⟩

/-- The selection invariant of every `txhash`. -/
def Selections (siphash : Hash → ℕ → ℕ) (s : TxRequestTracker T) : Prop :=
  ∀ h, Selection siphash (s.get h)

/-- Only one `txhash` has changed. -/
theorem Selections.of_replaced {new : Option (Announcement T)} (hs : Selections siphash s)
    (hst : Replaced h p new s t) (hh : Selection siphash (t.get h)) : Selections siphash t := by
  intro x
  by_cases hx : x = h
  · rw [hx]
    exact hh
  · have hsame : t.get x = s.get x := funext fun q => hst.get_hash hx
    rw [hsame]
    exact hs x

/-! ## The selection moves on -/

theorem asked_of_candidate (h : state.candidate = true) : state.asked = false := by
  cases state <;> first | rfl | cases h

theorem waiting_of_candidate (h : state.candidate = true) : state.waiting = false := by
  cases state <;> first | rfl | cases h

theorem selected_of_asked (h : state.asked = false) (hbest : state ≠ .best) :
    state.selected = false := by
  cases state with
  | best => exact absurd rfl hbest
  | requested => exact h
  | delayed | ready | completed => rfl

theorem fades_completed (a : Announcement T) : Fades a { a with state := .completed } := by
  refine ⟨rfl, fun _ => rfl, fun _ => rfl, fun h0 => ?_, fun h0 => ?_⟩
  · cases h0
  · cases h0

theorem fades_candidate (ha : a.state.candidate = true) (hstate : state.candidate = true) :
    Fades a { a with state } := by
  refine ⟨rfl, fun h0 => ?_, fun h0 => ?_, fun _ => ha, fun h0 => ?_⟩
  · rw [asked_of_candidate ha] at h0
    cases h0
  · rw [h0] at ha
    cases ha
  · rw [waiting_of_candidate hstate] at h0
    cases h0

/-- Anything may become of a `DELAYED` announcement. -/
theorem later_of_delayed (ha : a.state = .delayed) : Later a { a with state } := by
  refine ⟨rfl, fun h0 => ?_, fun h0 => ?_, fun _ => rfl⟩
  · rw [ha] at h0
    cases h0
  · rw [ha] at h0
    cases h0

/-- `b` is `a` later on, and is no candidate if `a` was not. -/
def Withdraws (a b : Announcement T) : Prop :=
  Later a b ∧ (b.state.candidate = true → a.state.candidate = true)

theorem Withdraws.refl (a : Announcement T) : Withdraws a a := ⟨.refl a, id⟩

theorem Withdraws.trans {c : Announcement T} (hab : Withdraws a b) (hbc : Withdraws b c) :
    Withdraws a c := ⟨hab.1.trans hbc.1, fun h0 => hab.2 (hbc.2 h0)⟩

theorem Fades.withdraws (hab : Fades a b) : Withdraws a b := ⟨hab.later, hab.candidate⟩

/-- A candidate sent back to `DELAYED`. -/
theorem withdraws_delayed (ha : a.state.candidate = true) :
    Withdraws a { a with state := .delayed } := by
  refine ⟨⟨rfl, fun h0 => ?_, fun h0 => ?_, fun _ => rfl⟩, fun h0 => by cases h0⟩
  · rw [asked_of_candidate ha] at h0
    cases h0
  · rw [h0] at ha
    cases ha

/-- The selection of a `txhash` once `a` is out of it. -/
structure Reselected (siphash : Hash → ℕ → ℕ) (a : Announcement T) (state : RequestState)
    (s t : TxRequestTracker T) : Prop where
  linked : Linked t
  selections : Selections siphash t
  self : t.get a.txhash a.peer = some { a with state }
  others : ∀ h p b, ¬(h = a.txhash ∧ p = a.peer) → t.get h p = some b →
    ∃ b', s.get h p = some b' ∧ Fades b' b
  known : ∀ h p, (t.get h p).isSome = (s.get h p).isSome
  moved : TablesMoved s t

theorem Replaced.isSome_eq {new : Announcement T} (hst : Replaced h p (some new) s t)
    (ha : s.get h p = some a) (h' : Hash) (p' : PeerId) :
    (t.get h' p').isSome = (s.get h' p').isSome := by
  rw [hst.get]
  split
  · next heq =>
    rw [heq.1, heq.2, ha]
    rfl
  · rfl

/-- **`_change_and_reselect` hands the selection on.** -/
theorem changeAndReselect_eq (hs : Linked s) (hsel : Selections siphash s)
    (ha : s.get a.txhash a.peer = some a) (hlive : a.state ≠ .completed)
    (hstate : state = .completed ∨ state = .delayed)
    (hother : state = .completed →
      ∃ q b, s.get a.txhash q = some b ∧ q ≠ a.peer ∧ b.state ≠ .completed) :
    ∃ t, changeAndReselect siphash a state s = some t ∧ Reselected siphash a state s t := by
  have hunselected : state.selected = false := by rcases hstate with rfl | rfl <;> rfl
  have hunready : state ≠ .ready := by rcases hstate with rfl | rfl <;> simp
  unfold changeAndReselect
  dsimp only
  cases hbest : (if a.state.selected = true then
      ((s.holders a.txhash).filter fun b => decide (b.state = .ready)).argmax (priority siphash)
      else none) with
  | none =>
    obtain ⟨t, heq, hlinked, hst⟩ := setState_eq hs ha hlive state
    -- a selected one that leaves no candidate behind, or one that was not selected
    have hnone : ∀ q b, s.get a.txhash q = some b → b.state = .ready →
        a.state.selected = false := by
      intro q b hb hready
      cases hasel : a.state.selected with
      | false => rfl
      | true =>
        rw [hasel, if_pos rfl, List.argmax_eq_none] at hbest
        have hmem : b ∈ (s.holders a.txhash).filter fun b => decide (b.state = .ready) :=
          List.mem_filter.mpr ⟨mem_holders.mpr ⟨q, hb⟩, decide_eq_true hready⟩
        rw [hbest] at hmem
        cases hmem
    refine ⟨t, heq, hlinked, hsel.of_replaced hst ?_, hst.get_self, fun h p b hne hb => ?_,
      hst.isSome_eq ha, hst.others⟩
    · refine (hsel a.txhash).leave ha hst.get_self (fun q hq => hst.get_peer hq) hunselected
        hunready hnone ?_
      rcases hstate with rfl | rfl
      · obtain ⟨q, b, hb, hq, hblive⟩ := hother rfl
        exact ⟨q, b, by rw [hst.get_peer hq, hb], hblive⟩
      · exact ⟨a.peer, _, hst.get_self, by simp⟩
    · rw [hst.get, if_neg hne] at hb
      exact ⟨b, hb, .refl b⟩
  | some b =>
    have hasel : a.state.selected = true := by
      cases hasel : a.state.selected with
      | true => rfl
      | false => rw [hasel] at hbest; cases hbest
    rw [hasel, if_pos rfl] at hbest
    have hmem := List.mem_filter.mp (List.argmax_mem hbest)
    have hready : b.state = .ready := of_decide_eq_true hmem.2
    obtain ⟨q, hb⟩ := mem_holders.mp hmem.1
    obtain ⟨-, rfl⟩ := hs.keys _ _ _ hb
    have hpeer : a.peer ≠ b.peer := by
      intro heq
      rw [← heq, ha, Option.some.injEq] at hb
      rw [hb, hready] at hasel
      cases hasel
    obtain ⟨m, hm, hmlinked, hsm⟩ := setState_eq hs hb (by rw [hready]; simp) .best
    have ham : m.get a.txhash a.peer = some a := by rw [hsm.get_peer hpeer, ha]
    obtain ⟨t, ht, hlinked, hmt⟩ := setState_eq hmlinked ham hlive state
    have hbt : t.get a.txhash b.peer = some { b with state := .best } := by
      rw [hmt.get_peer (Ne.symm hpeer), hsm.get_self]
    have hrest : ∀ q, q ≠ a.peer → q ≠ b.peer → t.get a.txhash q = s.get a.txhash q :=
      fun q hqa hqb => by rw [hmt.get_peer hqa, hsm.get_peer hqb]
    refine ⟨t, ?_, hlinked, fun x => ?_, hmt.get_self, fun h p c hne hc => ?_, fun h p => ?_,
      .trans hsm.others hmt.others⟩
    · dsimp only
      rw [hm]
      exact ht
    · by_cases hx : x = a.txhash
      · subst hx
        have hcases : ∀ q c, t.get a.txhash q = some c →
            c.state = state ∨ q = b.peer ∨ q ≠ a.peer ∧ s.get a.txhash q = some c := by
          intro q c hc
          by_cases hqa : q = a.peer
          · subst hqa
            rw [hmt.get_self, Option.some.injEq] at hc
            exact .inl (hc ▸ rfl)
          · by_cases hqb : q = b.peer
            · exact .inr (.inl hqb)
            · exact .inr (.inr ⟨hqa, hrest q hqa hqb ▸ hc⟩)
        refine Selection.of_selected hbt rfl (fun q c hc hcsel => ?_) fun _ q c hc hcready => ?_
        · rcases hcases q c hc with hst | hq | ⟨hq, hc'⟩
          · rw [hst, hunselected] at hcsel
            cases hcsel
          · exact hq
          · exact absurd ((hsel a.txhash).unique q a.peer c a hc' ha hcsel hasel) hq
        · rcases hcases q c hc with hst | hq | ⟨-, hc'⟩
          · exact absurd (hst ▸ hcready) hunready
          · rw [hq, hbt, Option.some.injEq] at hc
            rw [← hc] at hcready
            cases hcready
          · show priority siphash c ≤ priority siphash b
            refine List.le_of_mem_argmax ?_ hbest
            exact List.mem_filter.mpr ⟨mem_holders.mpr ⟨q, hc'⟩, decide_eq_true hcready⟩
      · have hsame : t.get x = s.get x := funext fun q => by
          rw [hmt.get_hash hx, hsm.get_hash hx]
        rw [hsame]
        exact hsel x
    · rw [hmt.get, if_neg hne, hsm.get] at hc
      split at hc
      · next heq =>
        cases hc
        refine ⟨b, by rw [heq.1, heq.2, hb], fades_candidate (by rw [hready]; rfl) rfl⟩
      · exact ⟨c, hc, .refl c⟩
    · rw [hmt.isSome_eq ham, hsm.isSome_eq hb]

/-! ## A candidate more -/

/-- What `_promote` makes of a `DELAYED` announcement and of the rest. -/
structure Promoted (siphash : Hash → ℕ → ℕ) (h : Hash) (p : PeerId) (a : Announcement T)
    (s t : TxRequestTracker T) : Prop where
  linked : Linked t
  selections : Selections siphash t
  self : ∃ state, t.get h p = some { a with state } ∧ state.candidate = true
  others : ∀ h' p' b, ¬(h' = h ∧ p' = p) → t.get h' p' = some b →
    ∃ b', s.get h' p' = some b' ∧ Fades b' b
  moved : TablesMoved s t

/-- **`_promote` adds a candidate**, and selects it where it is the best. -/
theorem promote_eq (hs : Linked s) (hsel : Selections siphash s) (ha : s.get h p = some a)
    (hdelayed : a.state = .delayed) :
    ∃ t, promote siphash a s = some t ∧ Promoted siphash h p a s t := by
  obtain ⟨rfl, rfl⟩ := hs.keys h p a ha
  obtain ⟨m, hm, hmlinked, hsm⟩ := setState_eq hs ha (by rw [hdelayed]; simp) .ready
  have hmself := hsm.get_self
  have hmother : ∀ q b, q ≠ a.peer → (m.get a.txhash q = some b ↔ s.get a.txhash q = some b) :=
    fun q b hq => by rw [hsm.get_peer hq]
  have hback : ∀ h' p' b, ¬(h' = a.txhash ∧ p' = a.peer) → m.get h' p' = some b →
      s.get h' p' = some b := fun h' p' b hne hb => by
    rwa [hsm.get, if_neg hne] at hb
  unfold promote
  rw [hm, Option.bind_eq_bind, Option.bind_some]
  dsimp only
  cases hselected : m.selected a.txhash with
  | none =>
    have hnone : ∀ q b, s.get a.txhash q = some b → b.state.selected = false := by
      intro q b hb
      by_cases hq : q = a.peer
      · obtain rfl : a = b := Option.some.inj (ha.symm.trans (hq ▸ hb))
        rw [hdelayed]
        rfl
      · exact selected_eq_none hselected ((hmother q b hq).mpr hb)
    obtain ⟨t, ht, hlinked, hmt⟩ := setState_eq hmlinked hmself (by simp) .best
    have hrest : ∀ q, q ≠ a.peer → t.get a.txhash q = s.get a.txhash q := fun q hq => by
      rw [hmt.get_peer hq, hsm.get_peer hq]
    refine ⟨t, ht, hlinked, fun x => ?_, ⟨.best, hmt.get_self, rfl⟩, fun h' p' b hne hb => ?_,
      .trans hsm.others hmt.others⟩
    · by_cases hx : x = a.txhash
      · subst hx
        have honly : ∀ q b, t.get a.txhash q = some b →
            b.state.selected = true ∨ b.state = .ready → q = a.peer := by
          intro q b hb hst
          by_contra hq
          rw [hrest q hq] at hb
          rcases hst with hst | hst
          · rw [hnone q b hb] at hst
            cases hst
          · obtain ⟨q', b', hb', hs'⟩ := (hsel a.txhash).exists_selected q b hb hst
            rw [hnone q' b' hb'] at hs'
            cases hs'
        refine Selection.of_selected hmt.get_self rfl (fun q b hb hst => honly q b hb (.inl hst))
          fun _ q b hb hst => ?_
        obtain rfl := honly q b hb (.inr hst)
        rw [hmt.get_self, Option.some.injEq] at hb
        rw [← hb] at hst
        cases hst
      · have hsame : t.get x = s.get x := funext fun q => by
          rw [hmt.get_hash hx, hsm.get_hash hx]
        rw [hsame]
        exact hsel x
    · rw [hmt.get, if_neg hne] at hb
      exact ⟨b, hback h' p' b hne hb, .refl b⟩
  | some b =>
    obtain ⟨hb, -, hbsel⟩ := hmlinked.selected_eq_some hselected
    have hpeer : b.peer ≠ a.peer := by
      intro heq
      rw [heq, hmself, Option.some.injEq] at hb
      rw [← hb] at hbsel
      cases hbsel
    have hbs : s.get a.txhash b.peer = some b := (hmother _ _ hpeer).mp hb
    have honly : ∀ q c, s.get a.txhash q = some c → c.state.selected = true → q = b.peer :=
      fun q c hc hcsel => (hsel a.txhash).unique q b.peer c b hc hbs hcsel hbsel
    dsimp only
    split
    · next hbeats =>
      obtain ⟨hbest, hlt⟩ := hbeats
      obtain ⟨k, hk, hklinked, hmk⟩ := setState_eq hmlinked hb (by rw [hbest]; simp) .ready
      have hkself : k.get a.txhash a.peer = some { a with state := .ready } := by
        rw [hmk.get_peer (Ne.symm hpeer), hmself]
      obtain ⟨t, ht, hlinked, hkt⟩ := setState_eq hklinked hkself (by simp) .best
      have hrest : ∀ q, q ≠ a.peer → q ≠ b.peer → t.get a.txhash q = s.get a.txhash q :=
        fun q hqa hqb => by rw [hkt.get_peer hqa, hmk.get_peer hqb, hsm.get_peer hqa]
      have htb : t.get a.txhash b.peer = some { b with state := .ready } := by
        rw [hkt.get_peer hpeer, hmk.get_self]
      refine ⟨t, ?_, hlinked, fun x => ?_, ⟨.best, hkt.get_self, rfl⟩, fun h' p' c hne hc => ?_,
        .trans hsm.others (.trans hmk.others hkt.others)⟩
      · rw [hk]
        exact ht
      · by_cases hx : x = a.txhash
        · subst hx
          refine Selection.of_selected hkt.get_self rfl (fun q c hc hcsel => ?_)
            fun _ q c hc hcready => ?_
          · by_contra hqa
            by_cases hqb : q = b.peer
            · rw [hqb, htb, Option.some.injEq] at hc
              rw [← hc] at hcsel
              cases hcsel
            · rw [hrest q hqa hqb] at hc
              exact hqb (honly q c hc hcsel)
          · show priority siphash c ≤ priority siphash a
            by_cases hqa : q = a.peer
            · rw [hqa, hkt.get_self, Option.some.injEq] at hc
              rw [← hc] at hcready
              cases hcready
            · by_cases hqb : q = b.peer
              · rw [hqb, htb, Option.some.injEq] at hc
                rw [← hc]
                exact hlt.le
              · rw [hrest q hqa hqb] at hc
                exact ((hsel a.txhash).priority b.peer q b c hbs hc hbest hcready).trans hlt.le
        · have hsame : t.get x = s.get x := funext fun q => by
            rw [hkt.get_hash hx, hmk.get_hash hx, hsm.get_hash hx]
          rw [hsame]
          exact hsel x
      · rw [hkt.get, if_neg hne, hmk.get] at hc
        split at hc
        · next heq =>
          cases hc
          exact ⟨b, by rw [heq.1, heq.2, hbs], fades_candidate (by rw [hbest]; rfl) rfl⟩
        · exact ⟨c, hback h' p' c hne hc, .refl c⟩
    · next hnot =>
      refine ⟨m, rfl, hmlinked, hsel.of_replaced hsm ?_, ⟨.ready, hmself, rfl⟩,
        fun h' p' c hne hc => ⟨c, hback h' p' c hne hc, .refl c⟩, hsm.others⟩
      refine Selection.of_selected hb hbsel (fun q c hc hcsel => ?_) fun hbest q c hc hcready => ?_
      · by_cases hq : q = a.peer
        · rw [hq, hmself, Option.some.injEq] at hc
          rw [← hc] at hcsel
          cases hcsel
        · exact honly q c ((hmother q c hq).mp hc) hcsel
      · by_cases hq : q = a.peer
        · rw [hq, hmself, Option.some.injEq] at hc
          rw [← hc]
          by_contra hlt
          exact hnot ⟨hbest, not_le.mp hlt⟩
        · exact (hsel a.txhash).priority b.peer q b c hbs ((hmother q c hq).mp hc) hbest hcready

/-! ## Completing and forgetting -/

/-- `t` is `s` with announcements gone or moved on, none to where time matters. -/
structure Faded (siphash : Hash → ℕ → ℕ) (s t : TxRequestTracker T) : Prop where
  linked : Linked t
  selections : Selections siphash t
  fades : Pointwise Fades s t
  moved : TablesMoved s t

theorem Faded.refl (hs : Linked s) (hsel : Selections siphash s) : Faded siphash s s :=
  ⟨hs, hsel, .refl Fades.refl s, rfl⟩

theorem Faded.trans (hst : Faded siphash s t) (htu : Faded siphash t u) : Faded siphash s u :=
  ⟨htu.linked, htu.selections, hst.fades.trans (fun _ _ _ => Fades.trans) htu.fades,
    hst.moved.trans htu.moved⟩

theorem Selections.of_forgotten (hsel : Selections siphash s) (hst : Forgotten h s t) :
    Selections siphash t := by
  intro x
  by_cases hx : x = h
  · have hnone : ∀ q, t.get x q = none := fun q => by rw [hst.get, if_pos hx]
    refine Selection.of_none (fun q b hb => ?_) (fun q b hb => ?_) fun q b hb => ?_
    all_goals rw [hnone] at hb; cases hb
  · have hsame : t.get x = s.get x := funext fun q => by rw [hst.get, if_neg hx]
    rw [hsame]
    exact hsel x

/-- **`forget_tx_hash` keeps the invariant.** -/
theorem forgetTxHash_faded (hs : Linked s) (hsel : Selections siphash s) (h : Hash) :
    ∃ t, forgetTxHash h s = some t ∧ Faded siphash s t ∧ Forgotten h s t := by
  obtain ⟨t, heq, hlinked, hst⟩ := forgetTxHash_eq hs h
  refine ⟨t, heq, ⟨hlinked, hsel.of_forgotten hst, fun x q b hb => ?_, hst.others⟩, hst⟩
  rw [hst.get] at hb
  split at hb
  · cases hb
  · exact ⟨b, hb, .refl b⟩

/-- What `_make_completed` leaves, and whether the announcement remains. -/
structure Completed (siphash : Hash → ℕ → ℕ) (h : Hash) (p : PeerId) (remains : Bool)
    (s t : TxRequestTracker T) : Prop extends Faded siphash s t where
  self : remains = true → ∃ b, t.get h p = some b ∧ b.state = .completed
  gone : remains = false → ∀ q, t.get h q = none
  known : ∀ h' q, h' ≠ h → (t.get h' q).isSome = (s.get h' q).isSome

/-- **`_make_completed` completes an announcement**, or forgets its `txhash` with it. -/
theorem makeCompleted_eq (hs : Linked s) (hsel : Selections siphash s) (ha : s.get h p = some a) :
    ∃ t remains, makeCompleted siphash a s = some (t, remains) ∧
      Completed siphash h p remains s t := by
  obtain ⟨rfl, rfl⟩ := hs.keys h p a ha
  unfold makeCompleted
  by_cases hdone : a.state = .completed
  · rw [if_pos hdone]
    exact ⟨s, true, rfl, .refl hs hsel, fun _ => ⟨a, ha, hdone⟩, nofun,
      fun _ _ _ => rfl⟩
  · obtain ⟨d, hd, -⟩ := exists_byHash ha
    rw [if_neg hdone, hd, Option.bind_eq_bind, Option.bind_some]
    split
    · obtain ⟨t, heq, hfaded, hst⟩ := forgetTxHash_faded hs hsel a.txhash
      refine ⟨t, false, ?_, hfaded, nofun, fun _ q => ?_, fun h' q hne => ?_⟩
      · rw [heq]
        rfl
      · rw [hst.get, if_pos rfl]
      · rw [hst.get, if_neg hne]
    · next hnot =>
      obtain ⟨q, b, hb, hq, hblive⟩ : ∃ q b, s.get a.txhash q = some b ∧ q ≠ a.peer ∧
          b.state ≠ .completed := by
        rw [List.all_eq_true, not_forall] at hnot
        obtain ⟨b, hb⟩ := hnot
        rw [Classical.not_imp, Bool.or_eq_true, decide_eq_true_iff, decide_eq_true_iff,
          not_or] at hb
        obtain ⟨q, hq⟩ := Dict.mem_values.mp hb.1
        rw [← get_of_byHash hd] at hq
        obtain ⟨-, rfl⟩ := hs.keys _ _ _ hq
        exact ⟨_, b, hq, hb.2.1, hb.2.2⟩
      obtain ⟨t, heq, hre⟩ := changeAndReselect_eq hs hsel ha hdone (.inl rfl)
        fun _ => ⟨q, b, hb, hq, hblive⟩
      refine ⟨t, true, ?_, ⟨hre.linked, hre.selections, fun h' q' c hc => ?_, hre.moved⟩,
        fun _ => ⟨_, hre.self, rfl⟩, nofun, fun h' q' _ => hre.known h' q'⟩
      · rw [heq]
        rfl
      · by_cases hself : h' = a.txhash ∧ q' = a.peer
        · rw [hself.1, hself.2] at hc ⊢
          rw [hre.self, Option.some.injEq] at hc
          exact ⟨a, ha, hc ▸ fades_completed a⟩
        · exact hre.others h' q' c hself hc

/-- Erasing a `COMPLETED` announcement keeps the invariant. -/
theorem erase_completed (hs : Linked s) (hsel : Selections siphash s) (ha : s.get h p = some a)
    (hdone : a.state = .completed) :
    ∃ t, erase a s = some t ∧ Faded siphash s t ∧ Replaced h p none s t := by
  obtain ⟨t, heq, hlinked, hst⟩ := erase_eq hs ha
  refine ⟨t, heq, ⟨hlinked, hsel.of_replaced hst ?_, hst.pointwise_none Fades.refl, hst.others⟩,
    hst⟩
  have hback : ∀ q b, t.get h q = some b → s.get h q = some b := by
    intro q b hb
    rw [hst.get] at hb
    split at hb
    · cases hb
    · exact hb
  have hforth : ∀ q b, b.state ≠ .completed → s.get h q = some b → t.get h q = some b := by
    intro q b hlive hb
    rw [hst.get_peer, hb]
    rintro rfl
    rw [ha, Option.some.injEq] at hb
    exact hlive (hb ▸ hdone)
  refine (hsel h).of_same (fun q b hb => ⟨hback q b, hforth q b ?_⟩) (fun q b hb _ => hback q b hb)
    fun q b hb => ?_
  · rintro h0
    rw [h0] at hb
    cases hb
  · obtain ⟨q', b', hb', hlive⟩ := (hsel h).live q b (hback q b hb)
    exact ⟨q', b', hforth q' b' hlive hb', hlive⟩

/-- **`disconnected_peer` keeps the invariant**, and forgets the peer's announcements. -/
theorem disconnectAll_eq {l : List Hash} (hs : Linked s) (hsel : Selections siphash s)
    (hl : l.Nodup) (hknown : ∀ h ∈ l, ∃ a, s.get h p = some a) :
    ∃ t, disconnectAll siphash p l s = some t ∧ Faded siphash s t ∧
      ∀ h ∈ l, t.get h p = none := by
  induction l generalizing s with
  | nil => exact ⟨s, rfl, .refl hs hsel, by simp⟩
  | cons h l ih =>
    rw [List.nodup_cons] at hl
    obtain ⟨⟨a, ha⟩, hrest⟩ := List.forall_mem_cons.mp hknown
    obtain ⟨m, remains, hm, hcompleted⟩ := makeCompleted_eq hs hsel ha
    have hmknown : ∀ x ∈ l, ∃ b, m.get x p = some b := fun x hx => by
      have hne : x ≠ h := fun h0 => hl.1 (h0 ▸ hx)
      rw [← Option.isSome_iff_exists, hcompleted.known x p hne, Option.isSome_iff_exists]
      exact hrest x hx
    -- what the loop goes on from no longer holds this announcement
    obtain ⟨u, hu, hfaded, hgone, hknown'⟩ : ∃ u,
        (if remains then do
          let a ← m.get h p
          erase a m
        else some m) = some u ∧ Faded siphash m u ∧ u.get h p = none ∧
        ∀ x ∈ l, ∃ b, u.get x p = some b := by
      cases remains with
      | false => exact ⟨m, rfl, .refl hcompleted.linked hcompleted.selections,
          hcompleted.gone rfl p, hmknown⟩
      | true =>
        obtain ⟨b, hb, hdone⟩ := hcompleted.self rfl
        obtain ⟨u, hu, hfaded, hst⟩ :=
          erase_completed hcompleted.linked hcompleted.selections hb hdone
        refine ⟨u, ?_, hfaded, hst.get_self, fun x hx => ?_⟩
        · rw [if_pos rfl, hb]
          exact hu
        · rw [hst.get_hash fun h0 => hl.1 (h0 ▸ hx)]
          exact hmknown x hx
    obtain ⟨t, ht, hut, hnone⟩ := ih hfaded.linked hfaded.selections hl.2 hknown'
    refine ⟨t, ?_, hcompleted.toFaded.trans (hfaded.trans hut), ?_⟩
    · rw [disconnectAll, ha, Option.bind_eq_bind, Option.bind_some, hm]
      cases remains with
      | false =>
        cases hu
        exact ht
      | true =>
        rw [if_pos rfl] at hu
        obtain ⟨b, hb, hub⟩ := Option.bind_eq_some_iff.mp hu
        show (m.get h p).bind _ = _
        rw [hb, Option.bind_some]
        show (erase b m).bind _ = _
        rw [hub]
        exact ht
    · refine List.forall_mem_cons.mpr ⟨?_, hnone⟩
      cases htp : t.get h p with
      | none => rfl
      | some b =>
        obtain ⟨a', ha', -⟩ := hut.fades h p b htp
        rw [hgone] at ha'
        cases ha'

end BtclibNode.TxRequestTracker
