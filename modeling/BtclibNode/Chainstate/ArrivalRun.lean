/-
# Arrival numbers along a run

Of the calls of the index only `precious` and an arrival touch the numbers.  From a
loaded store none of whose active blocks has been pruned, the numbers are therefore
read off the log of what arrived, in every state that is reached without `precious`
and without a prune.
-/
import BtclibNode.Chainstate.Arrivals

namespace BtclibNode.BlockIndex

open HeightTree

/-- Neither `precious` nor a prune. -/
def IndexCall.ordinary : IndexCall → Bool
  | .precious _ => false
  | .setDownloaded _ downloaded => downloaded
  | _ => true

/-- What arrives with a call. -/
def arrivals (s : BlockIndex) : IndexCall → List Hash
  | .setDownloaded h true =>
    if (s.getBlockInfo h).any fun info => !info.downloaded then [h] else []
  | _ => []

/-- What arrives along a run, in order. -/
def arrivalsAlong (chain : Chain) : BlockIndex → List IndexCall → List Hash
  | _, [] => []
  | s, c :: calls =>
    s.arrivals c ++ (s.step chain c).elim [] fun t => arrivalsAlong chain t calls

section Calls

variable {chain : Chain} {s t u s₀ : BlockIndex} {h p x : Hash} {info : BlockInfo}
  {log order : List Hash} {c : IndexCall}

/-! ## Calls that bring nothing -/

theorem SameArrivals.trans (hst : SameArrivals s t) (htu : SameArrivals t u) :
    SameArrivals s u where
  nodes x y h := htu.nodes x y (hst.nodes x y h)
  arrived x := (htu.arrived x).trans (hst.arrived x)
  sequenceId := htu.sequenceId.trans hst.sequenceId
  nextSequenceId := htu.nextSequenceId.trans hst.nextSequenceId
  unlinked := htu.unlinked.trans hst.unlinked

/-- The record of a header is there as it was, but perhaps its status. -/
theorem arrived_iff_of_info {f : BlockInfo → BlockInfo} (hf : ∀ i, (f i).downloaded = i.downloaded)
    (hinfo : t.getBlockInfo x = s.getBlockInfo x ∨ t.getBlockInfo x = (s.getBlockInfo x).map f) :
    t.Arrived x ↔ s.Arrived x := by
  unfold Arrived
  rcases hinfo with hinfo | hinfo
  · rw [hinfo]
  · rw [hinfo]
    constructor
    · rintro ⟨info, h, hd⟩
      obtain ⟨i, hi, rfl⟩ := Option.map_eq_some_iff.mp h
      exact ⟨i, hi, hf i ▸ hd⟩
    · rintro ⟨info, h, hd⟩
      exact ⟨f info, by rw [h]; rfl, (hf info).trans hd⟩

theorem RecordsSet.sameArrivals {status : BlockStatus} {r : List Hash}
    (hst : StatusesSet status r s t) : SameArrivals s t where
  nodes x y hx := by rwa [hst.rewrites.nodes_eq]
  arrived x := by
    refine arrived_iff_of_info (f := (·.withStatus status)) (fun _ => rfl) ?_
    rw [hst.info x]
    split
    · exact .inr rfl
    · exact .inl rfl
  sequenceId := by rw [hst.others]
  nextSequenceId := by rw [hst.others]
  unlinked := by rw [hst.others]

theorem StatusStaged.sameArrivals {status : BlockStatus} (hst : StatusStaged status h s t) :
    SameArrivals s t where
  nodes x y hx := by rwa [hst.rewrites.nodes_eq]
  arrived x := by
    refine arrived_iff_of_info (f := (·.withStatus status)) (fun _ => rfl) ?_
    rw [hst.info x]
    split
    · exact .inr rfl
    · exact .inl rfl
  sequenceId := by rw [hst.others]
  nextSequenceId := by rw [hst.others]
  unlinked := by rw [hst.others]

/-- A new header has no data yet. -/
theorem HeadersAdded.sameArrivals (hadd : HeadersAdded chain s t) : SameArrivals s t := by
  induction hadd with
  | refl => exact .refl s
  | @tail t u header parentHeight _ init hn hi ht ih =>
    refine ih.trans ⟨fun x y hx => ?_, fun x => ?_, ?_, ?_, ?_⟩
    · obtain ⟨info, hinfo, rfl⟩ := exists_info hx
      apply nodes_eq
      rw [hi.info, if_neg (hn.ne hinfo), hinfo]
    · unfold Arrived
      rw [hi.info]
      split
      · next hx =>
        subst hx
        rw [hn.fresh]
        simp [newInfo]
      · exact Iff.rfl
    · rw [hi.others]
    · rw [hi.others]
    · rw [hi.others]

/-- **A call that is neither `precious` nor an arrival brings nothing.** -/
theorem Consistent.call_sameArrivals (hs : Consistent chain s) (ha : s.allowed chain c = true)
    (hc : c.ordinary = true) (hnot : ∀ h, c ≠ .setDownloaded h true)
    (hcall : s.call chain c = some t) : SameArrivals s t := by
  have hsame : ∀ {u : BlockIndex}, s.call chain c = some u → SameArrivals s u →
      SameArrivals s t := by
    intro u hu hr
    rw [hcall, Option.some.injEq] at hu
    exact hu ▸ hr
  cases c with
  | addHeaders headers punish minPow now =>
    obtain ⟨u, result, heq, hadd, -⟩ := hs.addHeaders_eq headers punish minPow now
    exact hsame (congrArg (Option.map Prod.fst) heq) hadd.sameArrivals
  | invalidate h =>
    unfold allowed at ha
    rw [Bool.and_eq_true, Option.isSome_iff_exists, decide_eq_true_iff] at ha
    obtain ⟨⟨info, hinfo⟩, hoff⟩ := ha
    obtain ⟨u, heq, hi, -⟩ := hs.invalidate_eq hinfo hoff
    obtain ⟨v, hst, hu⟩ := hi.statuses
    refine hsame heq (hst.sameArrivals.trans ?_)
    rw [hu]
    exact ⟨fun _ _ h => h, fun _ => Iff.rfl, rfl, rfl, rfl⟩
  | reconsider h =>
    obtain ⟨info, hinfo⟩ := Option.isSome_iff_exists.mp ha
    obtain ⟨u, heq, hr, -⟩ := hs.reconsider_eq hinfo
    obtain ⟨r, v, hst, -, hu⟩ := hr.statuses
    refine hsame heq (hst.sameArrivals.trans ?_)
    rw [hu]
    exact ⟨fun _ _ h => h, fun _ => Iff.rfl, rfl, rfl, rfl⟩
  | weighInvalid h =>
    obtain ⟨info, hinfo⟩ := Option.isSome_iff_exists.mp ha
    obtain ⟨b, heq, -⟩ := hs.weighInvalid_eq hinfo
    exact hsame heq ⟨fun _ _ h => h, fun _ => Iff.rfl, rfl, rfl, rfl⟩
  | connectTip h =>
    obtain ⟨u, heq, hst, -⟩ := hs.connectTip_eq (isNextTip_of_allowed ha)
    refine hsame heq (SameArrivals.trans ?_ hst.sameArrivals)
    exact ⟨fun _ _ h => h, fun _ => Iff.rfl, rfl, rfl, rfl⟩
  | disconnectTip h =>
    unfold allowed at ha
    rw [Bool.and_eq_true, decide_eq_true_iff, decide_eq_true_iff] at ha
    obtain ⟨u, heq, hst, -⟩ := hs.disconnectTip_eq ha.1 ha.2
    refine hsame heq (SameArrivals.trans ?_ hst.sameArrivals)
    exact ⟨fun _ _ h => h, fun _ => Iff.rfl, rfl, rfl, rfl⟩
  | setDownloaded h downloaded =>
    cases downloaded with
    | true => exact absurd rfl (hnot h)
    | false => cases hc
  | precious h => cases hc
  | generateBlockCandidates =>
    obtain ⟨tip, -, heq, -⟩ := hs.toSound.generateBlockCandidates_eq
    exact hsame heq ⟨fun _ _ h => h, fun _ => Iff.rfl, rfl, rfl, rfl⟩
  | getFirstCandidate =>
    obtain ⟨tip, answer, -, heq, -⟩ := hs.getFirstCandidate_eq
    exact hsame (congrArg (Option.map Prod.fst) heq)
      ⟨fun _ _ h => h, fun _ => Iff.rfl, rfl, rfl, rfl⟩
  | finalize => exact hsame rfl ⟨fun _ _ h => h, fun _ => Iff.rfl, rfl, rfl, rfl⟩

/-! ## Arrivals -/

/-- What a call makes of the arrivals: nothing, one more that waits, or one more
that is served with those behind it. -/
inductive Arriving (s : BlockIndex) (c : IndexCall) (t : BlockIndex) : Prop
  | same (none : s.arrivals c = []) (same : SameArrivals s t)
  | waits {h p : Hash} (one : s.arrivals c = [h]) (came : DataCame h s t)
      (child : Child s.nodes p h) (unnumbered : p ∉ s.sequenceId)
      (sequenceId : t.sequenceId = s.sequenceId) (next : t.nextSequenceId = s.nextSequenceId)
      (unlinked : t.unlinked = appendAt s.unlinked p h)
  | serves {h p : Hash} {order : List Hash} (one : s.arrivals c = [h]) (serves : Serves h order s t)
      (child : Child s.nodes p h) (numbered : p ∈ s.sequenceId)

theorem arrivals_setDownloaded (hinfo : s.getBlockInfo h = some info) :
    s.arrivals (.setDownloaded h true) = if info.downloaded then [] else [h] := by
  simp only [arrivals, hinfo, Option.any_some]
  cases info.downloaded <;> rfl

/-- **`set_downloaded`**: a block that was not here waits or is served. -/
theorem Logged.setDownloaded (hl : Logged chain s log) (ht : HeaderTree chain s)
    (hinfo : s.getBlockInfo h = some info) (hcall : s.setDownloaded h true = some t) :
    Arriving s (.setDownloaded h true) t := by
  have hst := ht.updateBlockInfo_eq (keepsHeader_withDownloaded true) hinfo
  obtain ⟨u, hu⟩ : ∃ u, u = s.updateBlockInfo (info.withDownloaded true) := ⟨_, rfl⟩
  rw [← hu] at hst
  have hnodes : u.nodes = s.nodes := hst.rewrites.nodes_eq
  have hids : u.sequenceId = s.sequenceId := by rw [hst.others]
  have hnext : u.nextSequenceId = s.nextSequenceId := by rw [hst.others]
  have hunlinked : u.unlinked = s.unlinked := by rw [hst.others]
  have harrived : ∀ x, u.Arrived x ↔ s.Arrived x ∨ x = h := by
    intro x
    unfold Arrived
    rw [hst.info x]
    by_cases hx : x = h
    · subst hx
      rw [if_pos (List.mem_singleton_self x), hinfo]
      exact iff_of_true ⟨_, rfl, rfl⟩ (.inr rfl)
    · rw [if_neg fun h0 => hx (List.mem_singleton.mp h0)]
      exact ⟨.inl, fun h0 => h0.resolve_right hx⟩
  unfold BlockIndex.setDownloaded at hcall
  rw [hinfo, Option.bind_eq_bind, Option.bind_some, ← hu] at hcall
  dsimp only at hcall
  cases hd : info.downloaded with
  | true =>
    rw [hd] at hcall
    obtain rfl : u = t := Option.some.inj hcall
    refine .same ?_ ⟨fun x y hx => by rwa [hnodes], fun x => ?_, hids, hnext, hunlinked⟩
    · rw [arrivals_setDownloaded hinfo, hd, if_pos rfl]
    · rw [harrived]
      exact ⟨fun h0 => h0.elim id fun hx => ⟨info, hx ▸ hinfo, hd⟩, .inl⟩
  | false =>
    rw [hd] at hcall
    have hmissing : ¬ s.Arrived h := by
      rintro ⟨i, hi, hdown⟩
      rw [hinfo, Option.some.injEq] at hi
      rw [← hi, hd] at hdown
      cases hdown
    have hone : s.arrivals (.setDownloaded h true) = [h] := by
      rw [arrivals_setDownloaded hinfo, hd]
      rfl
    have hindex : info.index ≠ 0 := by
      intro h0
      have hroot := ht.tree.height_zero (h0 ▸ nodes_eq hinfo)
      exact hmissing ((hl.mem_log h).mp (hroot ▸ hl.mem_of_numbered _ hl.genesis))
    obtain ⟨n, hn⟩ := Nat.exists_eq_succ_of_ne_zero hindex
    have hchild : Child s.nodes info.header.previousBlockHash h :=
      ⟨n, by rw [nodes_eq hinfo, hn]⟩
    have hcame : ∀ {v : BlockIndex}, v.nodes = u.nodes → (∀ x, v.Arrived x ↔ u.Arrived x) →
        DataCame h s v := fun hv ha =>
      ⟨hv.trans hnodes, fun x => (ha x).trans (harrived x), hmissing, _, hchild⟩
    obtain ⟨info', hinfo', hheader, -⟩ := hst.rewrites.exists_info hinfo
    change u.link h = some t at hcall
    unfold link at hcall
    rw [hinfo', Option.bind_eq_bind, Option.bind_some] at hcall
    dsimp only at hcall
    rw [hheader] at hcall
    split at hcall
    · next hp =>
      have hstart : Queued u.nodes (fun p => s.unlinked[p]?.getD []) h [] [h] := .init _ _ _
      have hfuel : u.allWaiting.length + 1 ≤
          u.unlinked.foldl (fun n _ waiting => n + waiting.length) 1 + ([] : List Hash).length :=
        le_of_eq (length_allWaiting u).symm
      obtain ⟨order, heq, hq⟩ := linkFrom_eq (hst.rewrites.headerTree ht)
        (fun p => by rw [hunlinked]) (fun p c hc => by rw [hnodes]; exact (hl.of_waiting hc).2.1)
        hl.nodup_waiting hstart hfuel
      have hnone : u.withNumbered [] = u := by
        simp [withNumbered, numberFrom]
      rw [hnone] at heq
      rw [heq] at hcall
      obtain rfl := Option.some.inj hcall
      rw [hnodes] at hq
      exact .serves hone ⟨hcame rfl fun _ => Iff.rfl, hq, by rw [← hids, ← hnext]; rfl,
        by rw [← hnext]; rfl, by rw [← hunlinked]; rfl⟩ hchild (hids ▸ hp)
    · next hp =>
      obtain rfl := Option.some.inj hcall
      exact .waits hone (hcame rfl fun _ => Iff.rfl) hchild (hids ▸ hp) hids hnext
        (by rw [← hunlinked])

/-- **What an ordinary call does to the arrivals.** -/
theorem Logged.step (hl : Logged chain s log) (hs : Consistent chain s) (hc : c.ordinary = true)
    (hstep : s.step chain c = some t) : Arriving s c t := by
  unfold BlockIndex.step at hstep
  split at hstep
  · next ha =>
    by_cases hdata : ∃ h, c = .setDownloaded h true
    · obtain ⟨h, rfl⟩ := hdata
      obtain ⟨info, hinfo⟩ := Option.isSome_iff_exists.mp ha
      exact hl.setDownloaded hs.headerTree hinfo hstep
    · have hnot : ∀ h, c ≠ .setDownloaded h true := fun h h0 => hdata ⟨h, h0⟩
      refine .same ?_ (hs.call_sameArrivals ha hc hnot hstep)
      unfold arrivals
      split
      · next h => exact absurd rfl (hnot h)
      · rfl
  · cases hstep

theorem Logged.arriving (hl : Logged chain s log) (ha : Arriving s c t) :
    Logged chain t (log ++ s.arrivals c) := by
  cases ha with
  | same hnone hsame =>
    rw [hnone, List.append_nil]
    exact hl.same hsame
  | waits hone hcame hchild hnew hids hnext hunlinked =>
    rw [hone]
    exact hl.waits hcame hchild hnew hids hunlinked
  | serves hone hserves hchild hnum =>
    rw [hone]
    exact hl.serves hserves hchild hnum

theorem HandedOut.arriving (ho : HandedOut s₀ s) (hl : Logged chain s log)
    (ht : HeaderTree chain s) (ha : Arriving s c t) : HandedOut s₀ t := by
  cases ha with
  | same hnone hsame => exact ho.same hl hsame
  | waits hone hcame hchild hnew hids hnext hunlinked => exact ho.waits hcame hids hnext
  | serves hone hserves hchild hnum => exact ho.serves hl ht hserves

/-- **Along a run of ordinary calls** the log grows by what arrives. -/
theorem Logged.run (hl : Logged chain s log) (ho : HandedOut s₀ s) (hs : Consistent chain s)
    {calls : List IndexCall} (hcalls : ∀ c ∈ calls, c.ordinary = true)
    (hrun : Run.exec (BlockIndex.step chain) s calls = some t) :
    Logged chain t (log ++ arrivalsAlong chain s calls) ∧ HandedOut s₀ t ∧ Consistent chain t := by
  induction calls generalizing s log with
  | nil =>
    obtain rfl : s = t := Option.some.inj hrun
    rw [arrivalsAlong, List.append_nil]
    exact ⟨hl, ho, hs⟩
  | cons c calls ih =>
    obtain ⟨u, hstep, hrest⟩ := Run.exec_cons.mp hrun
    obtain ⟨hc, hcalls⟩ := List.forall_mem_cons.mp hcalls
    have ha := hl.step hs hc hstep
    have hfinal := ih (hl.arriving ha) (ho.arriving hl hs.headerTree ha) (hs.step hstep) hcalls
      hrest
    rw [arrivalsAlong, hstep, Option.elim_some, ← List.append_assoc]
    exact hfinal

/-! ## The load -/

/-- Whether the data of `h` is here. -/
def hasData (s : BlockIndex) (h : Hash) : Bool := (s.getBlockInfo h).any BlockInfo.downloaded

theorem hasData_iff : s.hasData x = true ↔ s.Arrived x := by
  unfold hasData Arrived
  rw [Option.any_eq_true]

/-- What `_load_sequence_ids` has made of the headers `done`, which hold their
ancestors. -/
structure Numbering (s : BlockIndex) (done : List Hash) (t : BlockIndex) : Prop where
  others : t = { s with sequenceId := t.sequenceId, unlinked := t.unlinked }
  parent_mem : ∀ p c, Child s.nodes p c → c ∈ done → p ∈ done
  mem_done : ∀ x ∈ t.sequenceId, x ∈ done ∧ s.Arrived x
  active_mem : ∀ x ∈ s.activeChain, x ∈ done → x ∈ t.sequenceId
  numbered_iff : ∀ p c, Child s.nodes p c → c ∈ done →
    (c ∈ t.sequenceId ↔ s.Arrived c ∧ p ∈ t.sequenceId)
  waiting : ∀ p : Hash, t.unlinked[p]?.getD [] =
    if p ∈ t.sequenceId then [] else s.arrivedUnder (done.filter s.hasData) p
  low : ∀ (x : Hash) (n : ℤ), t.sequenceId[x]? = some n → n < 2

variable {done : List Hash} {n : ℤ}

theorem mem_insert_iff (ids : Std.ExtTreeMap Hash ℤ) (n : ℤ) :
    x ∈ ids.insert h n ↔ x = h ∨ x ∈ ids := by
  rw [FiniteMap.mem_iff_exists, FiniteMap.getElem?_insert, FiniteMap.mem_iff_exists]
  by_cases hx : h = x
  · rw [if_pos hx]
    exact iff_of_true ⟨n, rfl⟩ (.inl hx.symm)
  · rw [if_neg hx]
    exact ⟨.inr, fun h0 => h0.resolve_left (Ne.symm hx)⟩

/-- A header that takes a number. -/
theorem Numbering.number (hn : Numbering s done t) (hnew : h ∉ done) (harrived : s.Arrived h)
    (hparent : ∀ p, Child s.nodes p h → p ∈ t.sequenceId) (hlow : n < 2) :
    Numbering s (done ++ [h]) { t with sequenceId := t.sequenceId.insert h n } := by
  have hother : ∀ p c, Child s.nodes p c → c ∈ done → p ≠ h := by
    rintro p c hpc hc rfl
    exact hnew (hn.parent_mem p c hpc hc)
  have hpdone : ∀ p, Child s.nodes p h → p ∈ done := fun p hpc =>
    (hn.mem_done p (hparent p hpc)).1
  refine ⟨?_, fun p c hpc hc => ?_, fun x hx => ?_, fun x hx hd => ?_, fun p c hpc hc => ?_,
    fun p => ?_, fun x m hm => ?_⟩
  · have heq := hn.others
    rw [heq]
  · rw [List.mem_append, List.mem_singleton] at hc ⊢
    rcases hc with hc | rfl
    · exact .inl (hn.parent_mem p c hpc hc)
    · exact .inl (hpdone p hpc)
  · rw [List.mem_append, List.mem_singleton]
    rcases (mem_insert_iff _ _).mp hx with rfl | hx
    · exact ⟨.inr rfl, harrived⟩
    · exact ⟨.inl (hn.mem_done x hx).1, (hn.mem_done x hx).2⟩
  · rw [List.mem_append, List.mem_singleton] at hd
    refine (mem_insert_iff _ _).mpr ?_
    rcases hd with hd | rfl
    · exact .inr (hn.active_mem x hx hd)
    · exact .inl rfl
  · show c ∈ t.sequenceId.insert h n ↔ s.Arrived c ∧ p ∈ t.sequenceId.insert h n
    rw [mem_insert_iff, mem_insert_iff]
    rw [List.mem_append, List.mem_singleton] at hc
    rcases hc with hc | rfl
    · have hch : c ≠ h := fun h0 => hnew (h0 ▸ hc)
      rw [or_iff_right hch, or_iff_right (hother p c hpc hc)]
      exact hn.numbered_iff p c hpc hc
    · exact iff_of_true (.inl rfl) ⟨harrived, .inr (hparent p hpc)⟩
  · show t.unlinked[p]?.getD [] = if p ∈ t.sequenceId.insert h n then [] else _
    rw [hn.waiting]
    by_cases hp : p ∈ t.sequenceId
    · rw [if_pos hp, if_pos ((mem_insert_iff _ _).mpr (.inr hp))]
    · have hno : ¬ s.hangsFrom p h = true := fun h0 => hp (hparent p (hangsFrom_iff.mp h0))
      rw [if_neg hp]
      unfold arrivedUnder
      by_cases hph : p = h
      · -- no child of `h` has been seen
        rw [if_pos ((mem_insert_iff _ _).mpr (.inl hph)), List.filter_eq_nil_iff]
        intro c hc h0
        exact hother p c (hangsFrom_iff.mp h0) (List.mem_filter.mp hc).1 hph
      · rw [if_neg fun h0 => ((mem_insert_iff _ _).mp h0).elim hph hp, List.filter_append,
          List.filter_append, List.filter_cons_of_pos (hasData_iff.mpr harrived), List.filter_nil,
          List.filter_cons_of_neg hno, List.filter_nil, List.append_nil]
  · change (t.sequenceId.insert h n)[x]? = some m at hm
    rw [FiniteMap.getElem?_insert] at hm
    by_cases hx : h = x
    · rw [if_pos hx, Option.some.injEq] at hm
      exact hm ▸ hlow
    · rw [if_neg hx] at hm
      exact hn.low x m hm

/-- A header that takes none: its data is missing, or its parent has no number and
it waits. -/
theorem Numbering.skip (hn : Numbering s done t) (hoff : h ∉ s.activeChain)
    (hparent : ∀ q, Child s.nodes q h → q ∈ done) (hnew : h ∉ done)
    {unlinked : Std.ExtTreeMap Hash (List Hash)}
    (hwaits : (¬ s.Arrived h ∧ unlinked = t.unlinked) ∨
      ∃ p, Child s.nodes p h ∧ s.Arrived h ∧ p ∉ t.sequenceId ∧
        unlinked = appendAt t.unlinked p h) :
    Numbering s (done ++ [h]) { t with unlinked := unlinked } := by
  refine ⟨?_, fun p c hpc hc => ?_, fun x hx => ?_, fun x hx hd => ?_, fun p c hpc hc => ?_,
    fun q => ?_, hn.low⟩
  · have heq := hn.others
    rw [heq]
  · rw [List.mem_append, List.mem_singleton] at hc ⊢
    rcases hc with hc | rfl
    · exact .inl (hn.parent_mem p c hpc hc)
    · exact .inl (hparent p hpc)
  · exact ⟨List.mem_append_left _ (hn.mem_done x hx).1, (hn.mem_done x hx).2⟩
  · rw [List.mem_append, List.mem_singleton] at hd
    rcases hd with hd | rfl
    · exact hn.active_mem x hx hd
    · exact absurd hx hoff
  · rw [List.mem_append, List.mem_singleton] at hc
    rcases hc with hc | rfl
    · exact hn.numbered_iff p c hpc hc
    · refine iff_of_false (fun h0 => hnew (hn.mem_done c h0).1) ?_
      rintro ⟨ha, hp⟩
      rcases hwaits with ⟨hmissing, -⟩ | ⟨r, hr, -, hno, -⟩
      · exact hmissing ha
      · exact hno (hr.parent_unique hpc ▸ hp)
  · show unlinked[q]?.getD [] = if q ∈ t.sequenceId then [] else _
    unfold arrivedUnder
    rw [List.filter_append, List.filter_append]
    rcases hwaits with ⟨hmissing, rfl⟩ | ⟨p, hp, ha, hno, rfl⟩
    · rw [List.filter_cons_of_neg fun h0 => hmissing (hasData_iff.mp h0), List.filter_nil,
        List.filter_nil, List.append_nil]
      exact hn.waiting q
    · rw [List.filter_cons_of_pos (hasData_iff.mpr ha), List.filter_nil]
      unfold appendAt
      rw [FiniteMap.getElem?_insert]
      have hold := hn.waiting q
      unfold arrivedUnder at hold
      by_cases hq : p = q
      · subst hq
        rw [if_neg hno] at hold ⊢
        rw [if_pos rfl, Option.getD_some, hold,
          List.filter_cons_of_pos (hangsFrom_iff.mpr hp), List.filter_nil]
      · have hnot : ¬ s.hangsFrom q h = true :=
          fun h0 => hq (hp.parent_unique (hangsFrom_iff.mp h0))
        rw [if_neg hq, List.filter_cons_of_neg hnot, List.filter_nil, List.append_nil]
        exact hold

/-- **`_load_sequence_ids` numbers the stored blocks**, their parents before them. -/
theorem Numbering.loadSequenceIds (ht : IsTree s.nodes chain.genesis.hash)
    (hactive : ∀ x ∈ s.activeChain, s.Arrived x)
    (hclosed : ∀ p c, Child s.nodes p c → c ∈ s.activeChain → p ∈ s.activeChain)
    (hroot : chain.genesis.hash ∈ s.activeChain) (hn : Numbering s done t) (rest : List Hash)
    (hnodup : (done ++ rest).Nodup)
    (hsorted : (done ++ rest).Pairwise fun a b => s.heightOf a ≤ s.heightOf b)
    (hall : ∀ x, x ∈ done ++ rest ↔ ∃ info, s.getBlockInfo x = some info) :
    ∃ u, BlockIndex.loadSequenceIds rest t = some u ∧ Numbering s (done ++ rest) u := by
  induction rest generalizing t done with
  | nil => exact ⟨t, rfl, by rwa [List.append_nil]⟩
  | cons h rest ih =>
    obtain ⟨info, hinfo⟩ := (hall h).mp (by simp)
    have hnew : h ∉ done := fun hmem =>
      (List.nodup_append.mp hnodup).2.2 h hmem h (by simp) rfl
    have hparent : ∀ p, Child s.nodes p h → p ∈ done := fun p hpc =>
      parent_mem_of_sorted ht hsorted hall hpc
    have happend : done ++ h :: rest = done ++ [h] ++ rest := by simp
    rw [happend] at hnodup hsorted hall ⊢
    have hinfot : t.getBlockInfo h = some info := by
      rw [hn.others]
      exact hinfo
    have hmain : t.activeChain = s.activeChain := by rw [hn.others]
    rw [BlockIndex.loadSequenceIds, hinfot, Option.bind_eq_bind, Option.bind_some]
    dsimp only
    by_cases hon : h ∈ s.activeChain
    · rw [if_pos (hmain ▸ hon)]
      refine ih (hn.number (n := 0) hnew (hactive h hon) (fun p hpc => ?_) (by decide)) hnodup
        hsorted hall
      exact hn.active_mem p (hclosed p h hpc hon) (hparent p hpc)
    · rw [if_neg fun h0 => hon (hmain ▸ h0)]
      have hindex : info.index ≠ 0 := by
        intro h0
        have := ht.height_zero (h0 ▸ nodes_eq hinfo)
        exact hon (this ▸ hroot)
      obtain ⟨k, hk⟩ := Nat.exists_eq_succ_of_ne_zero hindex
      have hchild : Child s.nodes info.header.previousBlockHash h :=
        ⟨k, by rw [nodes_eq hinfo, hk]⟩
      cases hd : info.downloaded with
      | false =>
        have hmissing : ¬ s.Arrived h := by
          rintro ⟨i, hi, hdown⟩
          rw [hinfo, Option.some.injEq] at hi
          rw [← hi, hd] at hdown
          cases hdown
        rw [if_pos (show (!false) = true from rfl)]
        exact ih (hn.skip hon hparent hnew (.inl ⟨hmissing, rfl⟩)) hnodup hsorted hall
      | true =>
        have harrived : s.Arrived h := ⟨info, hinfo, hd⟩
        rw [if_neg (show ¬ (!true) = true by decide)]
        by_cases hp : info.header.previousBlockHash ∈ t.sequenceId
        · rw [if_pos hp]
          refine ih (hn.number (n := 1) hnew harrived (fun p hpc => ?_) (by decide)) hnodup
            hsorted hall
          exact hpc.parent_unique hchild ▸ hp
        · rw [if_neg hp]
          exact ih (hn.skip hon hparent hnew (.inr ⟨_, hchild, harrived, hp, rfl⟩)) hnodup
            hsorted hall

/-- Every active block of the store has its data. -/
def Unpruned (chain : Chain) (db : BlockTable) : Prop :=
  ∀ h info, storedInfo chain db h = some info → info.status = .inActiveChain →
    info.downloaded = true

/-- What has arrived with a load, in the order it numbers. -/
def loadedLog (s : BlockIndex) : List Hash := s.sortedHeaders.filter s.hasData

/-- **A load numbers by the log of what it has found.** -/
theorem StoredTree.logged {db : BlockTable} {main : List Hash} (hdb : StoredTree chain db main)
    (hfull : Unpruned chain db) (hload : initFromDb chain db = some s) :
    Logged chain s s.loadedLog ∧ HandedOut s s := by
  obtain ⟨r, tip, hinit, hinfo, hmain, -, -, htree, hpath, hstatus, -, hids, hnext, hunlinked⟩ :=
    hdb.exists_activeChain
  have hactive : ∀ x ∈ r.activeChain, r.Arrived x := by
    intro x hx
    obtain ⟨info, hi, hst⟩ := exists_info_of_status ((hstatus x).mpr hx)
    exact ⟨info, hi, hfull x info (hinfo x ▸ hi) hst⟩
  have hclosed : ∀ p c, Child r.nodes p c → c ∈ r.activeChain → p ∈ r.activeChain := by
    intro p c hpc hc
    rw [hpath.mem_iff_descends htree.tree] at hc ⊢
    exact (Descends.of_child hpc).trans hc
  have hroot : chain.genesis.hash ∈ r.activeChain := by
    rw [hpath.mem_iff_descends htree.tree]
    obtain ⟨info, hi, -⟩ := htree.genesis_info
    exact (hpath.mem_iff_descends htree.tree).mp (List.mem_of_mem_head? hpath.head?)
  have hstart : Numbering r [] r := by
    have hno : ∀ x : Hash, x ∉ r.sequenceId := by
      intro x
      rw [hids]
      exact Std.ExtTreeMap.not_mem_empty
    refine ⟨rfl, fun _ _ _ hc => (by cases hc), fun x hx => absurd hx (hno x),
      fun _ _ hd => (by cases hd), fun _ _ _ hc => (by cases hc), fun p => ?_, fun x n hn => ?_⟩
    · rw [if_neg (hno p), hunlinked]
      simp [arrivedUnder]
    · rw [hids] at hn
      simp at hn
  have hnodup : r.sortedHeaders.Nodup :=
    (List.perm_insertionSort _ _).nodup_iff.mpr r.headerDict.nodup
  obtain ⟨u, hnumbers, hn⟩ := hstart.loadSequenceIds htree.tree hactive hclosed hroot
    r.sortedHeaders hnodup r.sortedHeaders_pairwise r.mem_sortedHeaders
  rw [List.nil_append] at hn
  rw [hinit, hnumbers, Option.bind_eq_bind, Option.bind_some, Option.bind_eq_some_iff] at hload
  obtain ⟨v, hcands, hindex⟩ := hload
  unfold generateBlockCandidates at hcands
  rw [Option.bind_eq_bind, Option.bind_eq_some_iff] at hcands
  obtain ⟨tip', -, hcands⟩ := hcands
  rw [Option.bind_eq_bind, Option.bind_eq_some_iff] at hcands
  obtain ⟨cands, -, hv⟩ := hcands
  obtain rfl := Option.some.inj hv
  have honly := (extendHeaderIndex_only hindex).eq
  -- the records of `s` are those of `r`, and its numbers those of `u`
  have hdict : s.headerDict = r.headerDict := by
    rw [honly]
    show u.headerDict = r.headerDict
    rw [hn.others]
  have hids' : s.sequenceId = u.sequenceId := by rw [honly]
  have hwait' : s.unlinked = u.unlinked := by rw [honly]
  have hnext' : s.nextSequenceId = 2 := by
    rw [honly]
    show u.nextSequenceId = 2
    rw [hn.others, hnext]
  have hget : s.getBlockInfo = r.getBlockInfo := by
    unfold getBlockInfo
    rw [hdict]
  have hnodes : s.nodes = r.nodes := by
    unfold nodes
    rw [hget]
  have harrived : ∀ x, s.Arrived x ↔ r.Arrived x := by
    unfold Arrived
    rw [hget]
    exact fun _ => Iff.rfl
  have hlog : s.loadedLog = r.sortedHeaders.filter r.hasData := by
    unfold loadedLog sortedHeaders heightOf hasData
    rw [hget, hdict]
  have hknown : ∀ x, r.Arrived x → x ∈ r.sortedHeaders := by
    rintro x ⟨info, hi, -⟩
    exact (r.mem_sortedHeaders x).mpr ⟨info, hi⟩
  refine ⟨⟨?_, fun x => ?_, ?_, fun x hx => ?_, fun p c hpc => ?_, fun p => ?_⟩, fun _ _ h => h,
    le_refl _, fun x n hx => ?_,
    fun x n hx hx' => absurd ((FiniteMap.mem_iff_exists _ _).mpr ⟨n, hx'⟩) hx,
    fun x y n hx _ hx' _ => absurd ((FiniteMap.mem_iff_exists _ _).mpr ⟨n, hx'⟩) hx,
    fun p c m n _ hc _ hc' => absurd ((FiniteMap.mem_iff_exists _ _).mpr ⟨n, hc'⟩) hc⟩
  · rw [hlog]
    exact hnodup.filter _
  · rw [hlog, List.mem_filter, hasData_iff, harrived]
    exact ⟨And.right, fun h0 => ⟨hknown x h0, h0⟩⟩
  · rw [hids']
    exact hn.active_mem _ hroot
      ((r.mem_sortedHeaders _).mpr (htree.genesis_info.imp fun _ h => h.1))
  · rw [hids'] at hx
    rw [hlog, List.mem_filter, hasData_iff]
    exact hn.mem_done x hx
  · rw [hnodes] at hpc
    obtain ⟨info, hi, -⟩ := exists_info hpc.choose_spec
    rw [hids', hn.numbered_iff p c hpc ((r.mem_sortedHeaders c).mpr ⟨info, hi⟩), hlog,
      List.mem_filter, hasData_iff]
    exact ⟨fun h0 => ⟨⟨hknown c h0.1, h0.1⟩, h0.2⟩, fun h0 => ⟨h0.1.2, h0.2⟩⟩
  · rw [hwait', hids', hn.waiting, hlog,
      arrivedUnder_congr (s := r) (t := s) fun c _ => by rw [hnodes]]
  · rw [hids'] at hx
    rw [hnext']
    exact hn.low x n hx

/-! ## Every state reached -/

/-- The arrival numbers of `s`, loaded as `s₀`, where `log` has arrived since. -/
structure ArrivalNumbers (chain : Chain) (s₀ s : BlockIndex) (log : List Hash) : Prop where
  numbered_iff : ∀ h, h ∈ s.sequenceId ↔ ∀ x, Descends s.nodes x h → s.Arrived x
  waits : ∀ h info, s.getBlockInfo h = some info → s.Arrived h → h ∉ s.sequenceId →
    (s.unlinked[info.header.previousBlockHash]?.getD []).count h = 1 ∧
      ∀ p : Hash, h ∈ s.unlinked[p]?.getD [] → p = info.header.previousBlockHash
  distinct : ∀ (x y : Hash) (n : ℤ), x ∉ s₀.sequenceId → y ∉ s₀.sequenceId →
    s.sequenceId[x]? = some n → s.sequenceId[y]? = some n → x = y
  parent_lt : ∀ (p c : Hash) (m n : ℤ), Child s.nodes p c → c ∉ s₀.sequenceId →
    s.sequenceId[p]? = some m → s.sequenceId[c]? = some n → m < n
  released : ∀ c t, c.ordinary = true → s.step chain c = some t →
    t.sequenceId = s.sequenceId ∨ ∃ h, s.arrivals c = [h] ∧ ∀ (x : Hash) (n : ℤ),
      x ∉ s.sequenceId ∧ t.sequenceId[x]? = some n ↔
        ∃ i : ℕ, (s.releasedBy log h)[i]? = some x ∧ n = s.nextSequenceId + i

theorem Logged.arrivalNumbers (hl : Logged chain s log) (ho : HandedOut s₀ s)
    (hs : Consistent chain s) : ArrivalNumbers chain s₀ s log where
  numbered_iff := hl.numbered_iff_line hs.headerTree
  waits _ _ hinfo := hl.waits_once hs.headerTree hinfo
  distinct := ho.distinct
  parent_lt := ho.parent_lt
  released c t hc hstep := by
    cases hl.step hs hc hstep with
    | same hnone hsame => exact .inl hsame.sequenceId
    | waits hone hcame hchild hnew hids => exact .inl hids
    | @serves h p order hone hserves hchild hnum =>
      refine .inr ⟨h, hone, fun x n => ?_⟩
      rw [← hserves.eq_releasedBy hl hs.headerTree]
      exact hserves.newly_iff hl x n

end Calls

/-- **The arrival numbers after a load**, in every state reached without `precious`
and without a prune. -/
theorem arrivalNumbers_of_run {chain : Chain} {db : BlockTable} {main : List Hash}
    (hdb : StoredTree chain db main) (hclosed : StoredClosed chain db) (hfull : Unpruned chain db)
    (calls : List IndexCall) (hcalls : ∀ c ∈ calls, c.ordinary = true) :
    ∃ s₀, initFromDb chain db = some s₀ ∧ ∀ s, Run.exec (step chain) s₀ calls = some s →
      ArrivalNumbers chain s₀ s (s₀.loadedLog ++ arrivalsAlong chain s₀ calls) := by
  obtain ⟨s₀, hload, -, hcons⟩ := hdb.exists_consistent hclosed
  obtain ⟨hl, ho⟩ := hdb.logged hfull hload
  refine ⟨s₀, hload, fun s hrun => ?_⟩
  obtain ⟨hl', ho', hs⟩ := hl.run ho hcons hcalls hrun
  exact hl'.arrivalNumbers ho' hs

/-- A store of genesis alone is not pruned. -/
theorem unpruned_empty (chain : Chain) : Unpruned chain ∅ := by
  intro h info hinfo _
  rw [storedInfo_empty] at hinfo
  split at hinfo
  · cases hinfo
    rfl
  · cases hinfo

/-- Four headers, the last two under the second: their data comes before that of
their parents, and `4` before `3`. -/
def waitingCalls : List IndexCall :=
  [.addHeaders [lightHeader 2 1, lightHeader 3 2] true true 0,
    .addHeaders [lightHeader 4 2, lightHeader 5 4] true true 0, .setDownloaded 5 true,
    .setDownloaded 4 true, .setDownloaded 3 true, .setDownloaded 2 true]

/-- A run where one arrival releases three. -/
theorem arrivalNumbers_of_run_waiting : ∃ s₀ s, initFromDb lightChain ∅ = some s₀ ∧
    Run.exec (step lightChain) s₀ waitingCalls = some s ∧
    s.sequenceId.toList = [(1, 0), (2, 2), (3, 4), (4, 3), (5, 5)] ∧
    ArrivalNumbers lightChain s₀ s [1, 5, 4, 3, 2] := by
  obtain ⟨s₀, hload, hrun⟩ := arrivalNumbers_of_run (storedTree_empty lightChain)
    (storedClosed_empty lightChain) (unpruned_empty lightChain) waitingCalls (by decide)
  have heval : ((initFromDb lightChain ∅).bind fun s =>
      (Run.exec (step lightChain) s waitingCalls).map fun t =>
        (t.sequenceId.toList, s.loadedLog ++ arrivalsAlong lightChain s waitingCalls)) =
      some ([(1, 0), (2, 2), (3, 4), (4, 3), (5, 5)], [1, 5, 4, 3, 2]) := by decide +kernel
  rw [hload, Option.bind_some, Option.map_eq_some_iff] at heval
  obtain ⟨s, hs, heq⟩ := heval
  obtain ⟨hids, hlog⟩ := Prod.mk.inj heq
  exact ⟨s₀, s, hload, hs, hids, hlog ▸ hrun s hs⟩

end BtclibNode.BlockIndex
