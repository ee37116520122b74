/-
# Time in `TxRequestTracker`

Every announcement that waits has an entry of its own time in the heap, so that
`_set_time_point`, popping every entry up to `now`, leaves none waiting for a
time at or before it.  Going back, it first sends the candidates whose time is
again to come back to `DELAYED`.
-/
import BtclibNode.Relay.TxRequestSelection

namespace BtclibNode.TxRequestTracker

variable {T : Type} [LinearOrder T] {siphash : Hash → ℕ → ℕ} {s t u : TxRequestTracker T}
  {a b : Announcement T} {h h' : Hash} {p q : PeerId} {now : T}

/-! ## The heap -/

section Heap

instance : IsTrans (RequestEvent T) RequestEvent.le where
  trans e f g hef hfg := by
    rcases hef with hef | ⟨hef, hef'⟩
    · rcases hfg with hfg | ⟨hfg, -⟩
      · exact .inl (hef.trans hfg)
      · exact .inl (hfg ▸ hef)
    · rcases hfg with hfg | ⟨hfg, hfg'⟩
      · exact .inl (hef ▸ hfg)
      · exact .inr ⟨hef.trans hfg, hef'.trans hfg'⟩

instance : Std.Total (RequestEvent.le (T := T)) where
  total e f := by
    unfold RequestEvent.le
    rcases lt_trichotomy e.time f.time with hlt | heq | hlt
    · exact .inl (.inl hlt)
    · rcases Nat.le_total e.tie f.tie with hle | hle
      · exact .inl (.inr ⟨heq, hle⟩)
      · exact .inr (.inr ⟨heq.symm, hle⟩)
    · exact .inr (.inl hlt)

theorem time_le_of_le {e f : RequestEvent T} (hef : e.le f) : e.time ≤ f.time := by
  rcases hef with hlt | ⟨heq, -⟩
  · exact hlt.le
  · exact heq.le

/-- An entry is of the announcement as it stands. -/
def Names (e : RequestEvent T) (h : Hash) (p : PeerId) (a : Announcement T) : Prop :=
  e.time = a.time ∧ e.txhash = h ∧ e.peer = p ∧ e.sequence = a.sequence

/-- The heap is in order, and names every announcement that waits. -/
structure Scheduled (s : TxRequestTracker T) : Prop where
  sorted : s.events.Pairwise RequestEvent.le
  named : ∀ h p a, s.get h p = some a → a.state.waiting = true → ∃ e ∈ s.events, Names e h p a

/-- `_compact` rebuilds the heap alone. -/
theorem compact_eq (s : TxRequestTracker T) :
    compact s = { s with events := (compact s).events, tie := (compact s).tie } := by
  unfold compact
  split <;> rfl

theorem get_compact (s : TxRequestTracker T) (h : Hash) (p : PeerId) :
    (compact s).get h p = s.get h p := by
  rw [compact_eq]
  rfl

/-- **`_compact` drops no entry that is needed.** -/
theorem scheduled_compact (hs : Linked s) (hsch : Scheduled s) : Scheduled (compact s) := by
  refine ⟨?_, fun h p a ha hwait => ?_⟩
  · unfold compact
    split
    · exact hsch.sorted
    · exact List.pairwise_insertionSort _ _
  · rw [get_compact] at ha
    unfold compact
    split
    · exact hsch.named h p a ha hwait
    · have hlive : a ∈ (s.refs.filterMap fun ref => s.get ref.1 ref.2).filter
          fun a => a.state.waiting :=
        List.mem_filter.mpr ⟨List.mem_filterMap.mpr ⟨(h, p), mem_refs hs ha, ha⟩, hwait⟩
      obtain ⟨i, hi⟩ := List.getElem?_of_mem hlive
      refine ⟨eventOf a (s.tie + i), ?_, rfl, (hs.keys h p a ha).1, (hs.keys h p a ha).2, rfl⟩
      dsimp only
      rw [List.mem_insertionSort, List.mem_map]
      exact ⟨(a, s.tie + i), List.mk_add_mem_zipIdx_iff_getElem?.mpr hi, rfl⟩

/-- **`_schedule` names the announcement**, all the others being named. -/
theorem scheduled_schedule (hs : Linked s) (ha : s.get h p = some a)
    (hsorted : s.events.Pairwise RequestEvent.le)
    (hnamed : ∀ h' p' b, ¬(h' = h ∧ p' = p) → s.get h' p' = some b → b.state.waiting = true →
      ∃ e ∈ s.events, Names e h' p' b) : Scheduled (schedule a s) := by
  unfold schedule
  refine scheduled_compact (hs.congr rfl rfl) ⟨hsorted.orderedInsert _ _, fun h' p' b hb hwait => ?_⟩
  change s.get h' p' = some b at hb
  by_cases hself : h' = h ∧ p' = p
  · obtain ⟨rfl, rfl⟩ := hself
    obtain rfl : a = b := Option.some.inj (ha.symm.trans hb)
    obtain ⟨hhash, hpeer⟩ := hs.keys _ _ _ ha
    exact ⟨eventOf a s.tie, (List.mem_orderedInsert _).mpr (.inl rfl), rfl, hhash, hpeer, rfl⟩
  · obtain ⟨e, he, hname⟩ := hnamed h' p' b hself hb hwait
    exact ⟨e, (List.mem_orderedInsert _).mpr (.inr he), hname⟩

theorem schedule_eq (a : Announcement T) (s : TxRequestTracker T) :
    schedule a s = { s with events := (schedule a s).events, tie := (schedule a s).tie } := by
  unfold schedule
  rw [compact_eq]

theorem get_schedule (a : Announcement T) (s : TxRequestTracker T) (h : Hash) (p : PeerId) :
    (schedule a s).get h p = s.get h p := by
  rw [schedule_eq]
  rfl

end Heap

/-! ## The invariant -/

/-- The candidates are past their time. -/
def Timely (bound : WithBot T) (s : TxRequestTracker T) : Prop :=
  ∀ h p a, s.get h p = some a → a.state.candidate = true → (a.time : WithBot T) ≤ bound

/-- What holds of a tracker between calls, the time of its candidates apart. -/
structure Sound (siphash : Hash → ℕ → ℕ) (s : TxRequestTracker T) : Prop where
  linked : Linked s
  selections : Selections siphash s
  scheduled : Scheduled s

section Faded

/-- What fades away leaves the heap as it is needed. -/
theorem Faded.sound (hst : Faded siphash s t) (hs : Scheduled s) : Sound siphash t := by
  have hevents : t.events = s.events := by rw [hst.moved]
  refine ⟨hst.linked, hst.selections, hevents ▸ hs.sorted, fun h p b hb hwait => ?_⟩
  obtain ⟨a, ha, hab⟩ := hst.fades h p b hb
  obtain ⟨e, he, htime, hrest⟩ := hs.named h p a ha (by rw [hab.waiting hwait]; exact hwait)
  refine ⟨e, hevents ▸ he, ?_, ?_⟩
  · rw [htime, hab.time_eq]
  · rw [hab.same]
    exact hrest

theorem Faded.timely (hst : Faded siphash s t) {bound : WithBot T} (hs : Timely bound s) :
    Timely bound t := by
  intro h p b hb hcand
  obtain ⟨a, ha, hab⟩ := hst.fades h p b hb
  rw [hab.time_eq]
  exact hs h p a ha (hab.candidate hcand)

end Faded

/-! ## Time goes back -/

/-- What the loop over the announcements leaves, past the keys `l`. -/
structure Rewound (siphash : Hash → ℕ → ℕ) (now : T) (l : List (Hash × PeerId))
    (s t : TxRequestTracker T) : Prop extends Sound siphash t where
  withdraws : Pointwise Withdraws s t
  lastNow : t.lastNow = s.lastNow
  timely : ∀ ref ∈ l, ∀ a, t.get ref.1 ref.2 = some a → a.state.candidate = true → a.time ≤ now

/-- A turn of the loop for a candidate whose time is to come again. -/
theorem withdraw_eq (now : T) (hs : Sound siphash s) (ha : s.get h p = some a)
    (hcand : a.state.candidate = true) :
    ∃ t, changeAndReselect siphash a .delayed s = some t ∧
      Rewound siphash now [] s (schedule { a with state := .delayed } t) ∧
      (schedule { a with state := .delayed } t).get h p = some { a with state := .delayed } ∧
      ∀ h p, ((schedule { a with state := .delayed } t).get h p).isSome = (s.get h p).isSome := by
  obtain ⟨rfl, rfl⟩ := hs.linked.keys h p a ha
  obtain ⟨t, heq, hre⟩ := changeAndReselect_eq hs.linked hs.selections ha
    (fun h0 => by rw [h0] at hcand; cases hcand) (.inr rfl) nofun
  have hevents : t.events = s.events := by rw [hre.moved]
  refine ⟨t, heq, ⟨⟨?_, fun x => ?_, ?_⟩, fun h p b hb => ?_, ?_, by simp⟩, ?_, fun h p => ?_⟩
  · rw [schedule_eq]
    exact hre.linked.congr rfl rfl
  · have hsame : (schedule { a with state := .delayed } t).get x = t.get x :=
      funext fun q => get_schedule _ _ _ _
    rw [hsame]
    exact hre.selections x
  · refine scheduled_schedule hre.linked hre.self (hevents ▸ hs.scheduled.sorted) ?_
    intro h p b hne hb hwait
    obtain ⟨b', hb', hfade⟩ := hre.others h p b hne hb
    obtain ⟨e, he, htime, hrest⟩ := hs.scheduled.named h p b' hb' (by
      rw [hfade.waiting hwait]
      exact hwait)
    refine ⟨e, hevents ▸ he, by rw [htime, hfade.time_eq], ?_⟩
    rw [hfade.same]
    exact hrest
  · rw [get_schedule] at hb
    by_cases hself : h = a.txhash ∧ p = a.peer
    · obtain ⟨rfl, rfl⟩ := hself
      rw [hre.self, Option.some.injEq] at hb
      exact ⟨a, ha, hb ▸ withdraws_delayed hcand⟩
    · obtain ⟨b', hb', hfade⟩ := hre.others h p b hself hb
      exact ⟨b', hb', hfade.withdraws⟩
  · rw [schedule_eq]
    show t.lastNow = _
    rw [hre.moved]
  · rw [get_schedule]
    exact hre.self
  · rw [get_schedule]
    exact hre.known h p

/-- **After the loop no candidate has its time to come.** -/
theorem rewind_eq (now : T) {l : List (Hash × PeerId)} (hs : Sound siphash s)
    (hl : ∀ ref ∈ l, (s.get ref.1 ref.2).isSome = true) :
    ∃ t, rewind siphash now l s = some t ∧ Rewound siphash now l s t := by
  induction l generalizing s with
  | nil => exact ⟨s, rfl, hs, .refl Withdraws.refl s, rfl, by simp⟩
  | cons ref l ih =>
    obtain ⟨hhead, hrest⟩ := List.forall_mem_cons.mp hl
    obtain ⟨a, ha⟩ := Option.isSome_iff_exists.mp hhead
    rw [rewind, ha, Option.bind_eq_bind, Option.bind_some]
    -- a candidate here at the end was one already here, and of the same time
    have hkeep : ∀ {m t : TxRequestTracker T}, Rewound siphash now l m t →
        (∀ b, m.get ref.1 ref.2 = some b → b.state.candidate = true → b.time ≤ now) →
        ∀ r ∈ ref :: l, ∀ c, t.get r.1 r.2 = some c → c.state.candidate = true → c.time ≤ now := by
      intro m t ht hm
      refine List.forall_mem_cons.mpr ⟨fun c hc hcand => ?_, ht.timely⟩
      obtain ⟨b, hb, hbc⟩ := ht.withdraws _ _ c hc
      rw [hbc.1.time (asked_of_candidate hcand)]
      exact hm b hb (hbc.2 hcand)
    split
    · next hgo =>
      obtain ⟨m, hm, hwithdrawn, hself, hknown⟩ := withdraw_eq now hs ha hgo.1
      obtain ⟨t, ht, hrewound⟩ := ih hwithdrawn.toSound fun r hr => by
        rw [hknown]
        exact hrest r hr
      refine ⟨t, ?_, hrewound.toSound,
        hwithdrawn.withdraws.trans (fun _ _ _ => Withdraws.trans) hrewound.withdraws,
        hrewound.lastNow.trans hwithdrawn.lastNow, hkeep hrewound fun b hb hcand => ?_⟩
      · rw [hm]
        exact ht
      · rw [hself, Option.some.injEq] at hb
        rw [← hb] at hcand
        cases hcand
    · next hstay =>
      obtain ⟨t, ht, hrewound⟩ := ih hs hrest
      refine ⟨t, ht, hrewound.toSound, hrewound.withdraws, hrewound.lastNow,
        hkeep hrewound fun b hb hcand => ?_⟩
      obtain rfl : a = b := Option.some.inj (ha.symm.trans hb)
      rw [not_and, not_lt] at hstay
      exact hstay hcand

/-! ## The events up to now -/

/-- Which announcements may wait, and how they have moved, past the entry `e`. -/
theorem Scheduled.of_popped {e : RequestEvent T} {rest : List (RequestEvent T)}
    (hs : Scheduled s) (hevents : s.events = e :: rest) (ht : t.events = rest)
    (hwait : ∀ h p b, t.get h p = some b → b.state.waiting = true →
      ∃ a, s.get h p = some a ∧ Fades a b ∧ ¬Names e h p a) : Scheduled t := by
  have hsorted := hs.sorted
  rw [hevents, List.pairwise_cons] at hsorted
  refine ⟨ht ▸ hsorted.2, fun h p b hb hwaits => ?_⟩
  obtain ⟨a, ha, hab, hnot⟩ := hwait h p b hb hwaits
  obtain ⟨f, hf, hnames⟩ := hs.named h p a ha (by rw [hab.waiting hwaits]; exact hwaits)
  have hmem : f ∈ rest := by
    rw [hevents, List.mem_cons] at hf
    rcases hf with rfl | hf
    · exact absurd hnames hnot
    · exact hf
  refine ⟨f, ht ▸ hmem, ?_⟩
  rw [hab.same]
  exact hnames

/-- What a turn of the loop over the heap leaves. -/
structure Fired (siphash : Hash → ℕ → ℕ) (now : T) (rest : List (RequestEvent T))
    (s t : TxRequestTracker T) : Prop extends Sound siphash t where
  later : Pointwise Later s t
  timely : Timely now t
  events : t.events = rest
  lastNow : t.lastNow = s.lastNow

/-- **A turn of the loop** moves the announcement its entry is of. -/
theorem fire_eq {e : RequestEvent T} {rest : List (RequestEvent T)} (hs : Sound siphash s)
    (htimely : Timely (now : WithBot T) s) (hevents : s.events = e :: rest) (hnow : e.time ≤ now) :
    ∃ t expired, fire siphash e { s with events := rest } = some (t, expired) ∧
      Fired siphash now rest s t := by
  have hpopped : Linked { s with events := rest } := hs.linked.congr rfl rfl
  have hpoppedSel : Selections siphash { s with events := rest } := hs.selections
  have hskip : (∀ h p a, s.get h p = some a → a.state.waiting = true → ¬Names e h p a) →
      Fired siphash now rest s { s with events := rest } := by
    intro hnot
    refine ⟨⟨hpopped, hpoppedSel, hs.scheduled.of_popped hevents rfl ?_⟩,
      .refl Later.refl s, htimely, rfl, rfl⟩
    exact fun h p b hb hwait => ⟨b, hb, .refl b, hnot h p b hb hwait⟩
  unfold fire
  cases hfind : (s.get e.txhash e.peer).filter fun a => a.sequence = e.sequence ∧ a.time = e.time with
  | none =>
    have hfind' : (TxRequestTracker.get { s with events := rest } e.txhash e.peer).filter
        (fun a => a.sequence = e.sequence ∧ a.time = e.time) = none := hfind
    rw [hfind']
    refine ⟨_, _, rfl, hskip fun h p a ha _ hnames => ?_⟩
    obtain ⟨htime, rfl, rfl, hseq⟩ := hnames
    rw [ha, Option.filter_eq_none_iff] at hfind
    exact hfind a rfl (by simp [htime, hseq])
  | some a =>
    have hfind' : (TxRequestTracker.get { s with events := rest } e.txhash e.peer).filter
        (fun a => a.sequence = e.sequence ∧ a.time = e.time) = some a := hfind
    rw [hfind']
    rw [Option.filter_eq_some_iff] at hfind
    obtain ⟨ha, hkeys⟩ := hfind
    have htime : a.time = e.time := (of_decide_eq_true hkeys).2
    dsimp only
    have hother : ∀ h p b, ¬(h = e.txhash ∧ p = e.peer) → ¬Names e h p b :=
      fun h p b hne hnames => hne ⟨hnames.2.1.symm, hnames.2.2.1.symm⟩
    have hstill : a.state.waiting = false → Fired siphash now rest s { s with events := rest } := by
      intro hwait
      refine hskip fun h p b hb hbwait hnames => ?_
      obtain ⟨-, rfl, rfl, -⟩ := hnames
      obtain rfl : a = b := Option.some.inj (ha.symm.trans hb)
      rw [hwait] at hbwait
      cases hbwait
    cases hstate : a.state with
    | delayed =>
      obtain ⟨t, ht, hpromoted⟩ := promote_eq hpopped hpoppedSel ha hstate
      have htevents : t.events = rest := by rw [hpromoted.moved]
      refine ⟨t, [], ?_, ⟨hpromoted.linked, hpromoted.selections, ?_⟩, fun h p b hb => ?_,
        fun h p b hb hcand => ?_, htevents, ?_⟩
      · dsimp only
        rw [ht]
        rfl
      · refine hs.scheduled.of_popped hevents htevents fun h p b hb hwait => ?_
        by_cases hself : h = e.txhash ∧ p = e.peer
        · obtain ⟨state, hb', hcand⟩ := hpromoted.self
          rw [hself.1, hself.2, hb', Option.some.injEq] at hb
          rw [← hb, waiting_of_candidate hcand] at hwait
          cases hwait
        · obtain ⟨b', hb', hfade⟩ := hpromoted.others h p b hself hb
          exact ⟨b', hb', hfade, hother h p b' hself⟩
      · by_cases hself : h = e.txhash ∧ p = e.peer
        · obtain ⟨state, hb', -⟩ := hpromoted.self
          rw [hself.1, hself.2] at hb ⊢
          rw [hb', Option.some.injEq] at hb
          refine ⟨a, ha, ?_⟩
          exact hb ▸ later_of_delayed hstate
        · obtain ⟨b', hb', hfade⟩ := hpromoted.others h p b hself hb
          exact ⟨b', hb', hfade.later⟩
      · by_cases hself : h = e.txhash ∧ p = e.peer
        · obtain ⟨state, hb', -⟩ := hpromoted.self
          rw [hself.1, hself.2, hb', Option.some.injEq] at hb
          rw [← hb]
          show ((a.time : T) : WithBot T) ≤ now
          rw [htime]
          exact WithBot.coe_le_coe.mpr hnow
        · obtain ⟨b', hb', hfade⟩ := hpromoted.others h p b hself hb
          rw [hfade.time_eq]
          exact htimely h p b' hb' (hfade.candidate hcand)
      · rw [hpromoted.moved]
    | requested =>
      obtain ⟨t, remains, ht, hcompleted⟩ := makeCompleted_eq hpopped hpoppedSel ha
      have htevents : t.events = rest := by rw [hcompleted.moved]
      refine ⟨t, [(a.peer, a.txhash)], ?_, ⟨hcompleted.linked, hcompleted.selections, ?_⟩,
        fun h p b hb => ?_, hcompleted.toFaded.timely htimely, htevents, ?_⟩
      · dsimp only
        rw [ht]
        rfl
      · refine hs.scheduled.of_popped hevents htevents fun h p b hb hwait => ?_
        obtain ⟨b', hb', hfade⟩ := hcompleted.fades h p b hb
        refine ⟨b', hb', hfade, hother h p b' ?_⟩
        rintro ⟨rfl, rfl⟩
        cases remains with
        | false =>
          rw [hcompleted.gone rfl] at hb
          cases hb
        | true =>
          obtain ⟨c, hc, hdone⟩ := hcompleted.self rfl
          obtain rfl : c = b := Option.some.inj (hc.symm.trans hb)
          rw [hdone] at hwait
          cases hwait
      · obtain ⟨b', hb', hfade⟩ := hcompleted.fades h p b hb
        exact ⟨b', hb', hfade.later⟩
      · rw [hcompleted.moved]
    | ready => exact ⟨_, _, rfl, hstill (by rw [hstate]; rfl)⟩
    | best => exact ⟨_, _, rfl, hstill (by rw [hstate]; rfl)⟩
    | completed => exact ⟨_, _, rfl, hstill (by rw [hstate]; rfl)⟩

/-- What the loop over the heap leaves: every entry is past `now`. -/
structure Drained (siphash : Hash → ℕ → ℕ) (now : T) (s t : TxRequestTracker T) : Prop
    extends Sound siphash t where
  later : Pointwise Later s t
  timely : Timely now t
  past : ∀ e ∈ t.events, now < e.time
  lastNow : t.lastNow = s.lastNow

/-- **The loop over the heap ends**, each turn popping one entry. -/
theorem drain_eq {fuel : ℕ} (hs : Sound siphash s) (htimely : Timely (now : WithBot T) s)
    (hfuel : s.events.length ≤ fuel) :
    ∃ t expired, drain siphash now fuel s = some (t, expired) ∧ Drained siphash now s t := by
  induction fuel generalizing s with
  | zero =>
    have hnil : s.events = [] := List.length_eq_zero_iff.mp (Nat.le_zero.mp hfuel)
    refine ⟨s, [], ?_, hs, .refl Later.refl s, htimely, by simp [hnil], rfl⟩
    unfold drain
    rw [hnil]
  | succ fuel ih =>
    unfold drain
    cases hevents : s.events with
    | nil => exact ⟨s, [], rfl, hs, .refl Later.refl s, htimely, by simp [hevents], rfl⟩
    | cons e rest =>
      dsimp only
      split
      · next hle =>
        obtain ⟨m, expired, hm, hfired⟩ := fire_eq hs htimely hevents hle
        have hlen : m.events.length ≤ fuel := by
          rw [hfired.events]
          rw [hevents, List.length_cons] at hfuel
          omega
        obtain ⟨t, others, ht, hdrained⟩ := ih hfired.toSound hfired.timely hlen
        refine ⟨t, expired ++ others, ?_, hdrained.toSound,
          hfired.later.trans (fun _ _ _ => Later.trans) hdrained.later, hdrained.timely,
          hdrained.past, hdrained.lastNow.trans hfired.lastNow⟩
        rw [hm, Option.bind_eq_bind, Option.bind_some]
        dsimp only
        rw [ht]
        rfl
      · next hlt =>
        refine ⟨s, [], rfl, hs, .refl Later.refl s, htimely, ?_, rfl⟩
        have hsorted := hs.scheduled.sorted
        rw [hevents, List.pairwise_cons] at hsorted
        rw [hevents]
        refine List.forall_mem_cons.mpr ⟨not_le.mp hlt, fun f hf => ?_⟩
        exact lt_of_lt_of_le (not_le.mp hlt) (time_le_of_le (hsorted.1 f hf))

/-- What `_set_time_point` leaves. -/
structure AtTime (siphash : Hash → ℕ → ℕ) (now : T) (s t : TxRequestTracker T) : Prop
    extends Sound siphash t where
  later : Pointwise Later s t
  timely : Timely now t
  past : ∀ h p a, t.get h p = some a → a.state.waiting = true → now < a.time
  lastNow : t.lastNow = now

/-- **`_set_time_point` brings every announcement to `now`.** -/
theorem setTimePoint_eq (hs : Sound siphash s) (htimely : Timely s.lastNow s) (now : T) :
    ∃ t expired, setTimePoint siphash now s = some (t, expired) ∧ AtTime siphash now s t := by
  obtain ⟨m, hm, hsound, hwithdraws, hmtimely⟩ : ∃ m, rewound siphash now s = some m ∧
      Sound siphash m ∧ Pointwise Withdraws s m ∧ Timely (now : WithBot T) m := by
    unfold rewound
    split
    · obtain ⟨m, hm, hrewound⟩ := rewind_eq now hs (l := s.refs) fun ref href => by
        obtain ⟨p, -, hp⟩ := List.mem_flatMap.mp href
        obtain ⟨h, hh, rfl⟩ := List.mem_map.mp hp
        cases hr : s.peers.get? p with
        | none =>
          rw [hr] at hh
          cases hh
        | some r =>
          rw [hr] at hh
          rw [Option.isSome_iff_exists]
          exact ((hs.linked.peers p r hr).mem h).mp hh
      refine ⟨m, hm, hrewound.toSound, hrewound.withdraws, fun h p b hb hcand => ?_⟩
      obtain ⟨a, ha, -⟩ := hrewound.withdraws h p b hb
      exact WithBot.coe_le_coe.mpr (hrewound.timely (h, p) (mem_refs hs.linked ha) b hb hcand)
    · next hnot =>
      exact ⟨s, rfl, hs, .refl Withdraws.refl s,
        fun h p a ha hcand => (htimely h p a ha hcand).trans (not_lt.mp hnot)⟩
  have hsound' : Sound siphash { m with lastNow := (now : WithBot T) } :=
    ⟨hsound.linked.congr rfl rfl, hsound.selections, hsound.scheduled.sorted,
      hsound.scheduled.named⟩
  obtain ⟨t, expired, ht, hdrained⟩ := drain_eq hsound' hmtimely le_rfl
  refine ⟨compact t, expired, ?_, ⟨?_, fun x => ?_, ?_⟩, fun h p b hb => ?_, fun h p b hb => ?_,
    fun h p b hb hwait => ?_, ?_⟩
  · unfold setTimePoint
    rw [hm, Option.bind_eq_bind, Option.bind_some]
    show (drain siphash now m.events.length { m with lastNow := (now : WithBot T) }).bind _ = _
    rw [ht]
    rfl
  · rw [compact_eq]
    exact hdrained.linked.congr rfl rfl
  · have hsame : (compact t).get x = t.get x := funext fun q => get_compact t x q
    rw [hsame]
    exact hdrained.selections x
  · exact scheduled_compact hdrained.linked hdrained.scheduled
  · rw [get_compact] at hb
    obtain ⟨a, ha, hab⟩ := hdrained.later h p b hb
    obtain ⟨a', ha', ha'a⟩ := hwithdraws h p a ha
    exact ⟨a', ha', ha'a.1.trans hab⟩
  · rw [get_compact] at hb
    exact hdrained.timely h p b hb
  · rw [get_compact] at hb
    obtain ⟨e, he, htime, -⟩ := hdrained.scheduled.named h p b hb hwait
    exact htime ▸ hdrained.past e he
  · rw [compact_eq]
    exact hdrained.lastNow

end BtclibNode.TxRequestTracker
