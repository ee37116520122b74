/-
# The calls of the index

Each call of `BlockIndex` on a consistent index returns, and leaves it
consistent: arrivals, marks of invalidity and their removal, batches of headers,
and questions for the next block to connect.
-/
import BtclibNode.Chainstate.Candidates

namespace BtclibNode.BlockIndex

open HeightTree

section Calls

variable {chain : Chain} {s t u : BlockIndex} {h x : Hash} {info : BlockInfo}

/-! ## Candidates -/

theorem Consistent.withCandidates (hs : Consistent chain s) {cands : List (Hash × ℕ)}
    (hcands : ∀ c ∈ cands, IsCandidateEntry chain s c ∧ s.statusOf c.1 ≠ some .invalid) :
    Consistent chain { s with blockCandidates := cands } :=
  hs.frame ⟨rfl, rfl, rfl, rfl, rfl, rfl⟩ rfl rfl (fun c hc => (hcands c hc).1)
    fun c hc => (hcands c hc).2

/-- **`get_first_candidate` returns**, and only evicts. -/
theorem Consistent.getFirstCandidate_eq (hs : Consistent chain s) :
    ∃ tip answer, s.activeChain.getLast? = some tip ∧
      s.getFirstCandidate =
        some ({ s with blockCandidates := s.freshCandidates tip }, answer) ∧
      Consistent chain { s with blockCandidates := s.freshCandidates tip } := by
  obtain ⟨tip, info, htip, hinfo, hpath, hwork⟩ := hs.exists_tip
  obtain ⟨answer, heq, -⟩ := hs.headerTree.getFirstCandidate_eq hpath hs.candidates
  refine ⟨tip, answer, htip, heq, hs.withCandidates fun c hc => ?_⟩
  have hmem := (List.dropWhile_suffix _).mem hc
  exact ⟨hs.candidates c hmem, hs.candidatesValid c hmem⟩

theorem Sound.generateBlockCandidates_eq (hs : Sound chain s) :
    ∃ tip, s.activeChain.getLast? = some tip ∧
      s.generateBlockCandidates = some { s with
        blockCandidates := (s.sortedHeaders.filter (s.isNewCandidate tip)).map
          fun h => (h, s.weight h) } ∧
      ∀ c ∈ (s.sortedHeaders.filter (s.isNewCandidate tip)).map fun h => (h, s.weight h),
        IsCandidateEntry chain s c ∧ s.statusOf c.1 ≠ some .invalid := by
  obtain ⟨tip, info, htip, hinfo, hpath, hwork⟩ := hs.exists_tip
  exact ⟨tip, htip, hs.headerTree.generateBlockCandidates_eq hpath,
    isCandidateEntry_of_isNewCandidate hpath⟩

/-- **`precious` returns**, and moves no record. -/
theorem Consistent.precious_eq (hs : Consistent chain s) (hinfo : s.getBlockInfo h = some info) :
    ∃ t b, s.precious h = some (t, b) ∧ Consistent chain t ∧
      t = { s with
        blockCandidates := t.blockCandidates
        sequenceId := t.sequenceId
        preciousSequenceId := t.preciousSequenceId
        preciousChainwork := t.preciousChainwork } := by
  obtain ⟨tip, tinfo, htip, htinfo, hpath, hwork⟩ := hs.exists_tip
  unfold precious
  rw [htip, Option.bind_eq_bind, Option.bind_some, hwork, Option.bind_some,
    hs.headerTree.work_eq hinfo, Option.bind_some]
  by_cases hlt : s.weight h < s.weight tip
  · rw [if_pos hlt]
    exact ⟨s, false, rfl, hs, rfl⟩
  · rw [if_neg hlt]
    dsimp only
    obtain ⟨u, hu⟩ : ∃ u : BlockIndex, u = { s with
      preciousChainwork := s.weight tip
      preciousSequenceId :=
        (if s.preciousChainwork < s.weight tip then -1 else s.preciousSequenceId) - 1
      sequenceId := if h ∈ s.sequenceId then s.sequenceId.insert h
          (if s.preciousChainwork < s.weight tip then -1 else s.preciousSequenceId)
        else s.sequenceId } := ⟨_, rfl⟩
    rw [← hu]
    have hsu : Consistent chain u := by
      rw [hu]
      exact hs.frame ⟨rfl, rfl, rfl, rfl, rfl, rfl⟩ rfl rfl hs.candidates hs.candidatesValid
    obtain ⟨tip', -, hgen, hcands⟩ := hsu.generateBlockCandidates_eq
    rw [hgen, Option.bind_eq_bind, Option.bind_some]
    refine ⟨_, true, rfl, hsu.withCandidates hcands, ?_⟩
    rw [hu]

/-! ## Arrivals -/

/-- What `_link` may move. -/
structure Linked (s t : BlockIndex) : Prop where
  eq : t = { s with
    sequenceId := t.sequenceId
    nextSequenceId := t.nextSequenceId
    unlinked := t.unlinked }

theorem linkFrom_linked (fuel : ℕ) (queue : List Hash) (s : BlockIndex) :
    Linked s (linkFrom fuel queue s) := by
  induction fuel generalizing queue s with
  | zero => exact ⟨rfl⟩
  | succ fuel ih =>
    cases queue with
    | nil => exact ⟨rfl⟩
    | cons a queue =>
      rw [linkFrom]
      obtain ⟨heq⟩ := ih (queue ++ s.unlinked[a]?.getD []) { s with
        sequenceId := s.sequenceId.insert a s.nextSequenceId
        nextSequenceId := s.nextSequenceId + 1
        unlinked := s.unlinked.erase a }
      exact ⟨heq⟩

theorem link_eq (hinfo : s.getBlockInfo h = some info) :
    ∃ t, s.link h = some t ∧ Linked s t := by
  unfold link
  rw [hinfo, Option.bind_eq_bind, Option.bind_some]
  dsimp only
  split
  · exact ⟨_, rfl, linkFrom_linked _ _ s⟩
  · exact ⟨_, rfl, ⟨rfl⟩⟩

theorem Linked.consistent (hl : Linked s t) (hs : Consistent chain s) : Consistent chain t := by
  have heq := hl.eq
  refine hs.frame ⟨?_, ?_, ?_, ?_, ?_, ?_⟩ ?_ ?_ ?_ ?_ <;> rw [heq]
  · exact hs.candidates
  · exact hs.candidatesValid

/-- A change of records that keeps their statuses. -/
theorem Consistent.recordsSet {f : BlockInfo → BlockInfo} {r : List Hash}
    (hst : RecordsSet f r s t) (hf : ∀ info, (f info).status = info.status)
    (hbest : t.bestInvalid = s.bestInvalid) (hs : Consistent chain s) : Consistent chain t := by
  have hstatus : ∀ x, t.statusOf x = s.statusOf x := by
    intro x
    unfold statusOf
    rw [hst.info x]
    split
    · rw [Option.map_map]
      exact congrArg (fun g => Option.map g _) (funext hf)
    · rfl
  have hactive : t.activeChain = s.activeChain := by rw [hst.others]
  refine hs.rewrites hst.rewrites (fun x => by rw [hstatus]) ?_ (fun x => ?_) hbest ?_ ?_
  · rw [hactive]
    exact hs.active
  · rw [hstatus, hactive]
    exact hs.activeStatus x
  · rw [hst.others]
    exact hs.candidates
  · rw [hst.others]
    exact hs.candidatesValid

/-- **`set_downloaded` returns**: the record changes, and the arrival numbers may. -/
theorem Consistent.setDownloaded_eq (hs : Consistent chain s)
    (hinfo : s.getBlockInfo h = some info) (downloaded : Bool) :
    ∃ u t, s.setDownloaded h downloaded = some t ∧
      RecordsSet (·.withDownloaded downloaded) [h] s u ∧ u.bestInvalid = s.bestInvalid ∧
      Linked u t ∧ Consistent chain t := by
  have hst := hs.headerTree.updateBlockInfo_eq (keepsHeader_withDownloaded downloaded) hinfo
  have hbest : (s.updateBlockInfo (info.withDownloaded downloaded)).bestInvalid =
      s.bestInvalid := by
    unfold updateBlockInfo
    split <;> rfl
  have hsu := hs.recordsSet hst (fun _ => rfl) hbest
  obtain ⟨info', hinfo', -⟩ := hst.rewrites.exists_info hinfo
  unfold setDownloaded
  rw [hinfo, Option.bind_eq_bind, Option.bind_some]
  dsimp only
  split
  · obtain ⟨t, heq, hlink⟩ := link_eq hinfo'
    exact ⟨_, t, heq, hst, hbest, hlink, hlink.consistent hsu⟩
  · exact ⟨_, _, rfl, hst, hbest, ⟨rfl⟩, hsu⟩

/-! ## Invalidity -/

theorem setStatus_bestInvalid {status : BlockStatus} (heq : s.setStatus h status = some t) :
    t.bestInvalid = s.bestInvalid := by
  unfold setStatus at heq
  rw [Option.bind_eq_bind, Option.bind_eq_some_iff] at heq
  obtain ⟨info, -, hupdate⟩ := heq
  cases hupdate
  unfold updateBlockInfo
  split <;> rfl

theorem invalidateFrom_bestInvalid {fuel : ℕ} {stack invalidated : List Hash}
    {result : List Hash × BlockIndex}
    (heq : invalidateFrom fuel stack invalidated s = some result) :
    result.2.bestInvalid = s.bestInvalid := by
  induction fuel generalizing stack invalidated s with
  | zero =>
    cases stack with
    | nil => cases heq; rfl
    | cons a stack => cases heq
  | succ fuel ih =>
    cases stack with
    | nil => cases heq; rfl
    | cons a stack =>
      rw [invalidateFrom, Option.bind_eq_bind, Option.bind_eq_some_iff] at heq
      obtain ⟨t, hset, hrest⟩ := heq
      rw [ih hrest, setStatus_bestInvalid hset]

theorem Sound.weighInvalid_eq (hs : Sound chain s) (hinfo : s.getBlockInfo h = some info) :
    ∃ b, s.weighInvalid h = some { s with bestInvalid := some b } ∧
      ∃ binfo, s.getBlockInfo b = some binfo := by
  unfold weighInvalid
  cases hb : s.bestInvalid with
  | none => exact ⟨h, rfl, info, hinfo⟩
  | some b =>
    obtain ⟨binfo, hbinfo⟩ := hs.bestInvalid b hb
    simp only
    rw [hs.headerTree.work_eq hbinfo, hs.headerTree.work_eq hinfo, Option.bind_eq_bind,
      Option.bind_some, Option.bind_some]
    split
    · exact ⟨h, rfl, info, hinfo⟩
    · refine ⟨b, ?_, binfo, hbinfo⟩
      rw [← hb]
      rfl

/-- **`weigh_invalid` returns** for a known header. -/
theorem Consistent.weighInvalid_eq (hs : Consistent chain s)
    (hinfo : s.getBlockInfo h = some info) :
    ∃ b, s.weighInvalid h = some { s with bestInvalid := some b } ∧
      Consistent chain { s with bestInvalid := some b } := by
  obtain ⟨b, heq, hb⟩ := hs.toSound.weighInvalid_eq hinfo
  have hr : Rewrites s { s with bestInvalid := some b } :=
    SameRecords.rewrites ⟨rfl, rfl, rfl, rfl, rfl, rfl⟩
  refine ⟨b, heq, ⟨?_, hs.best.rewrites hr (fun x hx => ?_) fun _ => id⟩⟩
  · refine hs.toSound.rewrites hr
      hs.invalidClosed hs.active hs.activeStatus (fun b' hb' => ?_) hs.candidates hs.candidatesValid
    cases hb'
    exact hb
  · obtain ⟨tip, hpath, -⟩ := hs.best
    exact hpath.valid x hx

/-- What `invalidate` does: the statuses of a block and of everything built on
it, the candidates among them dropped, and the header index. -/
structure Invalidated (h : Hash) (s t : BlockIndex) : Prop where
  statuses : ∃ u, StatusesSet .invalid (s.invalidationOrder h) s u ∧
    t = { u with
      blockCandidates := s.blockCandidates.filter fun c => c.1 ∉ s.invalidationOrder h
      headerIndex := t.headerIndex
      headerIndexPos := t.headerIndexPos }

/-- The statuses that `invalidate` sets, before it looks at the header index. -/
theorem Sound.invalidateFrom_eq (hs : Sound chain s) (hinfo : s.getBlockInfo h = some info)
    (b : Option Hash) :
    ∃ u, invalidateFrom s.headerDict.keys.length [h] [] { s with bestInvalid := b } =
        some ((s.invalidationOrder h).reverse, u) ∧
      StatusesSet .invalid (s.invalidationOrder h) s u ∧ u.bestInvalid = b := by
  have ht : HeaderTree chain { s with bestInvalid := b } := hs.headerTree.congr rfl rfl rfl rfl
  obtain ⟨u, heq, hst⟩ := ht.invalidateFrom_eq [] (Visiting.init s.nodes _ h)
    (Nat.le_add_right _ _) fun x hx => known_of_descends hinfo hx
  have hbest := invalidateFrom_bestInvalid heq
  rw [List.append_nil] at heq
  exact ⟨u, heq, hst.of_bestInvalid, hbest⟩

/-- **`invalidate` returns** for a header off the active chain. -/
theorem Consistent.invalidate_eq (hs : Consistent chain s) (hinfo : s.getBlockInfo h = some info)
    (hoff : h ∉ s.activeChain) :
    ∃ t, s.invalidate h = some t ∧ Invalidated h s t ∧ Consistent chain t := by
  obtain ⟨b, hweigh, hbknown⟩ := hs.toSound.weighInvalid_eq hinfo
  obtain ⟨u, hloop, hst, hbest⟩ := hs.toSound.invalidateFrom_eq hinfo (some b)
  obtain ⟨hnodup, hmem⟩ := hs.headerTree.invalidationOrder_spec hinfo
  have hactive : u.activeChain = s.activeChain := by rw [hst.others]
  have hcands : u.blockCandidates = s.blockCandidates := by rw [hst.others]
  -- the active chain holds no descendant of a header off it
  have hactiveOff : ∀ x ∈ s.activeChain, x ∉ s.invalidationOrder h := fun x hx hxr =>
    hoff (hs.active_of_descends ((hmem x).mp hxr) hx)
  have hstatus : ∀ x, u.statusOf x =
      if x ∈ s.invalidationOrder h then (s.getBlockInfo x).map fun _ => .invalid
      else s.statusOf x := by
    intro x
    unfold statusOf
    rw [hst.info x]
    split
    · rw [Option.map_map]
      rfl
    · rfl
  obtain ⟨v, hv⟩ : ∃ v, v = ({ u with
      blockCandidates := s.blockCandidates.filter fun c => c.1 ∉ s.invalidationOrder h } :
      BlockIndex) := ⟨_, rfl⟩
  have hrv : Rewrites s v := by
    rw [hv]
    obtain ⟨hheaders, hkeys, hwork, hskip, hchildren, hindex, hpos⟩ := hst.rewrites
    exact ⟨hheaders, hkeys, hwork, hskip, hchildren, hindex, hpos⟩
  have hstatusv : v.statusOf = u.statusOf := by rw [hv]; rfl
  have hactivev : v.activeChain = s.activeChain := by rw [hv]; exact hactive
  have hsound : Sound chain v := by
    refine hs.toSound.rewrites hrv ?_ ?_ (fun x => ?_) ?_ ?_ ?_
    · rw [hv]
      exact hst.invalidClosed hmem hs.invalidClosed
    · rw [hactivev]
      exact hs.active
    · rw [hstatusv, hactivev, hstatus, ← hs.activeStatus]
      split
      · next hx =>
        constructor
        · intro h0
          rw [Option.map_eq_some_iff] at h0
          obtain ⟨_, -, h1⟩ := h0
          cases h1
        · intro h0
          exact absurd hx (hactiveOff x ((hs.activeStatus x).mp h0))
      · exact Iff.rfl
    · intro b' hb'
      rw [hv] at hb'
      rw [show u.bestInvalid = some b' from hb', Option.some.injEq] at hbest
      rw [hbest]
      exact hbknown
    · intro c hc
      rw [hv] at hc
      exact hs.candidates c (List.mem_of_mem_filter hc)
    · intro c hc
      rw [hv, List.mem_filter] at hc
      rw [hstatusv, hstatus, if_neg (by simpa using hc.2)]
      exact hs.candidatesValid c hc.1
  have hcall : s.invalidate h =
      if v.headerIndex.any (fun x => decide (x ∈ (s.invalidationOrder h).reverse)) then
        v.rebuildHeaderIndex
      else some v := by
    unfold invalidate
    rw [hweigh, Option.bind_eq_bind, Option.bind_some, hloop, Option.bind_eq_bind,
      Option.bind_some, hv, ← hcands]
    simp only [List.mem_reverse]
    rfl
  have hout : ∀ l d, Invalidated h s { v with headerIndex := l, headerIndexPos := d } := by
    intro l d
    refine ⟨u, hst, ?_⟩
    rw [hv]
  rw [hcall]
  by_cases hany : v.headerIndex.any (fun x => decide (x ∈ (s.invalidationOrder h).reverse)) = true
  · rw [if_pos hany]
    obtain ⟨l, d, heq, hcons⟩ := hsound.rebuildHeaderIndex
    exact ⟨_, heq, hout l d, hcons⟩
  · rw [if_neg hany]
    refine ⟨v, rfl, hout v.headerIndex v.headerIndexPos, hsound, ?_⟩
    rw [List.any_eq_true] at hany
    refine hs.best.rewrites hrv (fun x hx => ?_) fun x hx => ?_
    · have hxr : x ∉ s.invalidationOrder h := fun hxr =>
        hany ⟨x, hrv.headerIndex ▸ hx, by simpa using hxr⟩
      obtain ⟨tip, hpath, -⟩ := hs.best
      rw [hstatusv, hstatus, if_neg hxr]
      exact hpath.valid x hx
    · obtain ⟨xinfo, hxinfo, -⟩ := exists_info_of_status hx
      rw [hstatusv, hstatus]
      split
      · rw [hxinfo]
        rfl
      · exact hx

/-- **The statuses after `invalidate`**: a block and everything built on it is
invalid, and nothing else has changed. -/
theorem Invalidated.statuses_after (hi : Invalidated h s t) (hs : HeaderTree chain s)
    (hinfo : s.getBlockInfo h = some info) (x : Hash) :
    (Descends s.nodes h x → t.statusOf x = some .invalid) ∧
      (¬Descends s.nodes h x → t.statusOf x = s.statusOf x) := by
  obtain ⟨u, hst, ht⟩ := hi.statuses
  obtain ⟨-, hmem⟩ := hs.invalidationOrder_spec hinfo
  have hinfot : t.getBlockInfo x = u.getBlockInfo x := by
    rw [ht]
    rfl
  unfold statusOf
  rw [hinfot, hst.info x]
  constructor
  · intro hx
    obtain ⟨xinfo, hxinfo⟩ := known_of_descends hinfo hx
    rw [if_pos ((hmem x).mpr hx), hxinfo]
    rfl
  · intro hx
    rw [if_neg fun h0 => hx ((hmem x).mp h0)]

/-- What `reconsider` does: the invalid headers of the lineage of `h` are valid
headers, and candidates and header index are made again. -/
structure Reconsidered (h : Hash) (s t : BlockIndex) : Prop where
  statuses : ∃ r u, StatusesSet .validHeader r s u ∧
    (∀ x, x ∈ r ↔ s.statusOf x = some .invalid ∧ SharesLineage s x h) ∧
    t = { u with
      blockCandidates := t.blockCandidates
      headerIndex := t.headerIndex
      headerIndexPos := t.headerIndexPos }

theorem reconsiderFrom_bestInvalid {keys : List Hash} {height : ℕ} {b : Hash}
    (heq : reconsiderFrom h height keys s = some t) (hb : t.bestInvalid = some b) :
    s.bestInvalid = some b := by
  induction keys generalizing s with
  | nil =>
    cases heq
    exact hb
  | cons other keys ih =>
    rw [reconsiderFrom, Option.bind_eq_bind, Option.bind_eq_some_iff] at heq
    obtain ⟨info, -, heq⟩ := heq
    split at heq
    · rw [Option.bind_eq_bind, Option.bind_eq_some_iff] at heq
      obtain ⟨shares, -, heq⟩ := heq
      split at heq
      · rw [Option.bind_eq_bind, Option.bind_eq_some_iff] at heq
        obtain ⟨u, hset, hrest⟩ := heq
        have hforget := ih hrest
        unfold forgetBestInvalid at hforget
        rw [← setStatus_bestInvalid hset]
        by_cases hu : u.bestInvalid = some other
        · rw [if_pos hu] at hforget
          cases hforget
        · rwa [if_neg hu] at hforget
      · exact ih heq
    · exact ih heq

/-- **`reconsider` returns** for a known header. -/
theorem Consistent.reconsider_eq (hs : Consistent chain s)
    (hinfo : s.getBlockInfo h = some info) :
    ∃ t, s.reconsider h = some t ∧ Reconsidered h s t ∧ Consistent chain t := by
  obtain ⟨u, r, hloop, hst, hr⟩ := hs.headerTree.reconsiderFrom_eq hinfo s.headerDict.keys
    s.headerDict.nodup fun x hx => (s.headerDict.mem_keys_iff x).mp hx
  have hlineage : ∀ x, x ∈ r ↔ s.statusOf x = some .invalid ∧ SharesLineage s x h := by
    intro x
    rw [hr]
    constructor
    · exact And.right
    · intro hx
      obtain ⟨xinfo, hxinfo, -⟩ := exists_info_of_status hx.1
      exact ⟨mem_keys_of_info hxinfo, hx⟩
  have hactive : u.activeChain = s.activeChain := by rw [hst.others]
  have hsound : Sound chain u := by
    refine hs.toSound.rewrites hst.rewrites (hst.invalidClosed_of_lineage hlineage hs.invalidClosed)
      ?_ (fun x => ?_) (fun b hb => hs.bestInvalid b (reconsiderFrom_bestInvalid hloop hb)) ?_ ?_
    · rw [hactive]
      exact hs.active
    · rw [hactive, ← hs.activeStatus]
      unfold statusOf
      rw [hst.info x]
      split
      · next hx =>
        obtain ⟨xinfo, hxinfo, hxs⟩ := exists_info_of_status ((hlineage x).mp hx).1
        rw [hxinfo]
        simp [BlockInfo.withStatus, hxs]
      · exact Iff.rfl
    · rw [show u.blockCandidates = s.blockCandidates by rw [hst.others]]
      exact hs.candidates
    · rw [show u.blockCandidates = s.blockCandidates by rw [hst.others]]
      intro c hc h0
      obtain ⟨cinfo, hcinfo, hcs⟩ := exists_info_of_status h0
      rw [hst.info c.1] at hcinfo
      split at hcinfo
      · rw [Option.map_eq_some_iff] at hcinfo
        obtain ⟨_, -, rfl⟩ := hcinfo
        cases hcs
      · exact hs.candidatesValid c hc (by rw [statusOf_eq hcinfo, hcs])
  obtain ⟨tip, -, hgen, hcands⟩ := hsound.generateBlockCandidates_eq
  unfold reconsider
  rw [hinfo, Option.bind_eq_bind, Option.bind_some, hloop, Option.bind_eq_bind, Option.bind_some,
    hgen, Option.bind_some]
  obtain ⟨v, hv⟩ : ∃ v, v = ({ u with
      blockCandidates := (u.sortedHeaders.filter (u.isNewCandidate tip)).map
        fun h => (h, u.weight h) } : BlockIndex) := ⟨_, rfl⟩
  rw [← hv]
  have hsoundv : Sound chain v := by
    rw [hv]
    refine hsound.rewrites (SameRecords.rewrites ?_) hsound.invalidClosed hsound.active
      hsound.activeStatus hsound.bestInvalid (fun c hc => (hcands c hc).1)
      fun c hc => (hcands c hc).2
    exact ⟨rfl, rfl, rfl, rfl, rfl, rfl⟩
  obtain ⟨l, d, heq, hcons⟩ := hsoundv.rebuildHeaderIndex
  refine ⟨_, heq, ⟨r, u, hst, hlineage, ?_⟩, hcons⟩
  rw [hv]

/-! ## New headers -/

/-- What a batch of headers does: new headers inserted, one after the other. -/
inductive HeadersAdded (chain : Chain) (s : BlockIndex) : BlockIndex → Prop
  | refl : HeadersAdded chain s s
  | tail {t u : BlockIndex} {header : BlockHeader} {parentHeight currentWork : ℕ}
      (init : HeadersAdded chain s t) (new : NewHeader chain t header parentHeight)
      (inserted : HeaderInserted chain t currentWork header parentHeight u)
      (tree : HeaderTree chain u) : HeadersAdded chain s u

theorem HeadersAdded.trans (hst : HeadersAdded chain s t) (htu : HeadersAdded chain t u) :
    HeadersAdded chain s u := by
  induction htu with
  | refl => exact hst
  | tail _ hn hi ht ih => exact .tail ih hn hi ht

/-- A header that is admitted is new, and its parent is known and not invalid. -/
theorem fresh_of_admitHeader {header : BlockHeader} {punish minPow : Bool} {now : ℤ}
    {parentHeight : ℕ}
    (hadmitted : s.admitHeader chain header punish minPow now = .ok (some parentHeight)) :
    s.getBlockInfo header.hash = none ∧
      ∃ pinfo, s.getBlockInfo header.previousBlockHash = some pinfo ∧
        pinfo.index = parentHeight ∧ pinfo.status ≠ .invalid := by
  unfold admitHeader isIndexed indexedParent at hadmitted
  cases hknown : s.getBlockInfo header.hash with
  | some known =>
    rw [hknown] at hadmitted
    by_cases hinv : known.status = .invalid
    · cases punish <;> simp [hinv, bind, Except.bind, throw, throwThe, MonadExceptOf.throw]
        at hadmitted
    · simp [hinv, bind, Except.bind, pure, Except.pure] at hadmitted
  | none =>
    cases hparent : s.getBlockInfo header.previousBlockHash with
    | none =>
      rw [hknown, hparent] at hadmitted
      simp [bind, Except.bind, pure, Except.pure] at hadmitted
    | some pinfo =>
      rw [hknown, hparent] at hadmitted
      by_cases hinv : pinfo.status = .invalid
      · simp [hinv, bind, Except.bind, pure, Except.pure, throw, throwThe, MonadExceptOf.throw]
          at hadmitted
      · refine ⟨rfl, pinfo, rfl, ?_, hinv⟩
        simp only [hinv, bind, Except.bind, pure, Except.pure, if_false] at hadmitted
        cases hctx : chain.assertValidInContext header pinfo.header pinfo.index s.parentOf now with
        | error e =>
          rw [hctx] at hadmitted
          cases hadmitted
        | ok _ =>
          rw [hctx] at hadmitted
          cases minPow with
          | false => simp [throw, throwThe, MonadExceptOf.throw] at hadmitted
          | true =>
            simp only [Bool.false_eq_true, if_false, if_true, Except.ok.injEq,
              Option.some.injEq] at hadmitted
            exact hadmitted

theorem newHeader_of_admitHeader {header : BlockHeader} {punish minPow : Bool} {now : ℤ}
    {parentHeight : ℕ} (hpow : chain.validPow header = true)
    (hadmitted : s.admitHeader chain header punish minPow now = .ok (some parentHeight)) :
    NewHeader chain s header parentHeight := by
  obtain ⟨hfresh, hparent⟩ := fresh_of_admitHeader hadmitted
  exact ⟨hfresh, hparent, hpow⟩

/-- **One admitted header keeps the index consistent.** -/
theorem Consistent.insertHeader_eq (hs : Consistent chain s) {header : BlockHeader}
    {parentHeight : ℕ} (hn : NewHeader chain s header parentHeight) (currentWork : ℕ) :
    ∃ t, s.insertHeader chain currentWork header parentHeight = some t ∧
      HeaderInserted chain s currentWork header parentHeight t ∧ Consistent chain t := by
  obtain ⟨t, heq, hins, ht, hc, hbest⟩ :=
    hn.insertHeader_eq hs.headerTree hs.invalidClosed hs.best currentWork
  have hknown : ∀ h info, s.getBlockInfo h = some info → t.getBlockInfo h = some info := by
    intro h info hinfo
    rw [hins.info, if_neg (hn.ne hinfo), hinfo]
  have hstatus : ∀ h info, s.getBlockInfo h = some info → t.statusOf h = s.statusOf h := by
    intro h info hinfo
    rw [statusOf_eq hinfo, statusOf_eq (hknown h info hinfo)]
  have hweight : ∀ h, header.hash ≠ h → t.weight h = s.weight h := by
    intro h hne
    unfold weight
    rw [hins.chainwork, FiniteMap.getElem?_insert, if_neg hne]
  have hactive : t.activeChain = s.activeChain := by rw [hins.others]
  have hnew : header.hash ≠ chain.genesis.hash := by
    obtain ⟨ginfo, hginfo, -⟩ := hs.headerTree.genesis_info
    exact hn.ne hginfo
  refine ⟨t, heq, hins, ⟨ht, hc, ?_, fun x => ?_, fun b hb => ?_, fun c hc' => ?_,
    fun c hc' => ?_⟩, hbest⟩
  · obtain ⟨tip, hpath⟩ := hs.active
    rw [hactive]
    refine ⟨tip, hpath.mono fun x hx y hy => ?_⟩
    obtain ⟨info, hinfo, rfl⟩ := exists_info hy
    exact nodes_eq (hknown x info hinfo)
  · rw [hactive, ← hs.activeStatus]
    cases hx : s.getBlockInfo x with
    | some info => rw [hstatus x info hx]
    | none =>
      unfold statusOf
      rw [hins.info, hx]
      split <;> simp [newInfo]
  · rw [show t.bestInvalid = s.bestInvalid by rw [hins.others]] at hb
    obtain ⟨info, hinfo⟩ := hs.bestInvalid b hb
    exact ⟨info, hknown b info hinfo⟩
  · have hold : ∀ c ∈ s.blockCandidates, IsCandidateEntry chain t c := by
      intro c hc
      obtain ⟨⟨info, hinfo⟩, hwork, hne⟩ := hs.candidates c hc
      exact ⟨⟨info, hknown _ _ hinfo⟩, by rw [hwork, hweight _ (hn.ne hinfo)], hne⟩
    rw [hins.blockCandidates] at hc'
    split at hc'
    · rcases List.mem_append.mp hc' with hc' | hc'
      · exact hold c hc'
      · rw [List.mem_singleton.mp hc']
        refine ⟨⟨newInfo header parentHeight, by rw [hins.info, if_pos rfl]⟩, ?_, hnew⟩
        unfold weight
        rw [hins.chainwork, FiniteMap.getElem?_insert, if_pos rfl]
        rfl
    · exact hold c hc'
  · have hold : ∀ c ∈ s.blockCandidates, t.statusOf c.1 ≠ some .invalid := by
      intro c hc
      obtain ⟨⟨info, hinfo⟩, -⟩ := hs.candidates c hc
      rw [hstatus _ _ hinfo]
      exact hs.candidatesValid c hc
    rw [hins.blockCandidates] at hc'
    split at hc'
    · rcases List.mem_append.mp hc' with hc' | hc'
      · exact hold c hc'
      · rw [List.mem_singleton.mp hc', statusOf_ne (by rw [hins.info, if_pos rfl])]
        simp [newInfo]
    · exact hold c hc'

/-- The loop of `_insert_valid_headers` returns. -/
theorem Consistent.insertValidHeaders_eq (hs : Consistent chain s) (currentWork : ℕ)
    (punish minPow : Bool) (now : ℤ) (headers : List BlockHeader)
    (hpow : ∀ header ∈ headers, chain.validPow header = true) :
    ∃ t result, insertValidHeaders chain currentWork punish minPow now headers s =
        some (t, result) ∧
      HeadersAdded chain s t ∧ Consistent chain t := by
  induction headers generalizing s with
  | nil => exact ⟨s, .ok (), rfl, .refl, hs⟩
  | cons header headers ih =>
    obtain ⟨hhead, hrest⟩ := List.forall_mem_cons.mp hpow
    rw [insertValidHeaders]
    cases hadmitted : s.admitHeader chain header punish minPow now with
    | error e => exact ⟨s, .error e, rfl, .refl, hs⟩
    | ok answer =>
      cases answer with
      | none => exact ih hs hrest
      | some parentHeight =>
        have hnew := newHeader_of_admitHeader hhead hadmitted
        obtain ⟨t, heq, hins, hcons⟩ := hs.insertHeader_eq hnew currentWork
        obtain ⟨u, result, hloop, hadded', hcons'⟩ := ih hcons hrest
        simp only [heq, Option.bind_eq_bind, Option.bind_some]
        have hadded : HeadersAdded chain s t := .tail .refl hnew hins hcons.headerTree
        exact ⟨u, result, hloop, hadded.trans hadded', hcons'⟩

/-- **`add_headers` returns**, whatever it is given. -/
theorem Consistent.addHeaders_eq (hs : Consistent chain s) (headers : List BlockHeader)
    (punish minPow : Bool) (now : ℤ) :
    ∃ t result, addHeaders chain s headers punish minPow now = some (t, result) ∧
      HeadersAdded chain s t ∧ Consistent chain t := by
  unfold addHeaders
  cases hcheck : chain.checkHeadersPow headers with
  | error e => exact ⟨s, .error e, rfl, .refl, hs⟩
  | ok _ =>
    have hpow : ∀ header ∈ headers, chain.validPow header = true := by
      unfold Chain.checkHeadersPow at hcheck
      cases hall : headers.all chain.validPow with
      | true => exact List.all_eq_true.mp hall
      | false => simp [hall, bind, Except.bind, throw, throwThe, MonadExceptOf.throw] at hcheck
    obtain ⟨tip, info, htip, hinfo, hpath, hwork⟩ := hs.exists_tip
    obtain ⟨t, result, hloop, hadded, hcons⟩ :=
      hs.insertValidHeaders_eq (s.weight tip) punish minPow now headers hpow
    simp only [htip, hwork, hloop, Option.bind_eq_bind, Option.bind_some]
    exact ⟨t, _, rfl, hadded, hcons⟩

end Calls

end BtclibNode.BlockIndex
