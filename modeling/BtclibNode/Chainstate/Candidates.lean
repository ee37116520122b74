/-
# Candidates

What `generate_block_candidates` and `get_first_candidate` answer on an index
whose tree and active chain are sound: the headers that beat the tip, and, of
the first entries of the queue, one whose branch is there to connect.
-/
import BtclibNode.Chainstate.IndexInvariant

namespace BtclibNode.BlockIndex

open HeightTree

/-! ## `_outranks` -/

/-- What `_outranks` answers for two indexed headers. -/
def beats (s : BlockIndex) (h other : Hash) : Bool :=
  if s.weight h ≠ s.weight other then decide (s.weight other < s.weight h)
  else seqLt s.sequenceId[h]? s.sequenceId[other]?

section Beats

variable {chain : Chain} {s : BlockIndex} {h other tip x : Hash} {info oinfo : BlockInfo}
  {l main : List Hash}

theorem HeaderTree.outranks_eq (ht : HeaderTree chain s) (hinfo : s.getBlockInfo h = some info)
    (hother : s.getBlockInfo other = some oinfo) :
    s.outranks h other = some (s.beats h other) := by
  unfold outranks beats
  rw [ht.work_eq hinfo, ht.work_eq hother, Option.bind_eq_bind, Option.bind_some,
    Option.bind_some]
  by_cases hw : s.weight h = s.weight other
  · simp [hw]
  · simp [hw]

theorem weight_le_of_beats (hb : s.beats h other = true) : s.weight other ≤ s.weight h := by
  unfold beats at hb
  split at hb
  · exact Nat.le_of_lt (of_decide_eq_true hb)
  · next hw =>
    rw [ne_eq, not_not] at hw
    exact Nat.le_of_eq hw.symm

theorem seqLt_irrefl (a : Option ℤ) : seqLt a a = false := by
  cases a <;> simp [seqLt]

theorem beats_irrefl (s : BlockIndex) (h : Hash) : s.beats h h = false := by
  unfold beats
  rw [if_neg (by simp), seqLt_irrefl]

/-- No block of the active chain beats its tip. -/
theorem HeaderTree.beats_active (ht : HeaderTree chain s) (hmain : IsPath chain s s.activeChain tip)
    (hh : h ∈ s.activeChain) : s.beats h tip = false := by
  rw [Bool.eq_false_iff]
  intro hb
  have hle := weight_le_of_beats hb
  by_cases hne : h = tip
  · rw [hne, beats_irrefl] at hb
    cases hb
  · have hlt : s.weight h < s.weight tip :=
      Path.weight_lt (fun hx => ht.work_lt ⟨_, hx⟩) hmain hh hne
    omega

/-! ## `generate_block_candidates` -/

/-- The headers `generate_block_candidates` keeps. -/
def isNewCandidate (s : BlockIndex) (tip h : Hash) : Bool :=
  decide (h ∉ s.activeChain) && (s.getBlockInfo h).any isCandidate && s.beats h tip

theorem HeaderTree.candidatesFrom_eq (ht : HeaderTree chain s)
    (htip : s.getBlockInfo tip = some info) (keys : List Hash)
    (hknown : ∀ x ∈ keys, ∃ xinfo, s.getBlockInfo x = some xinfo) :
    s.candidatesFrom tip keys =
      some ((keys.filter (s.isNewCandidate tip)).map fun h => (h, s.weight h)) := by
  induction keys with
  | nil => rfl
  | cons h keys ih =>
    obtain ⟨⟨hinfo, hhinfo⟩, hrest⟩ := List.forall_mem_cons.mp hknown
    rw [candidatesFrom, ih hrest]
    by_cases hactive : h ∈ s.activeChain
    · rw [if_pos hactive, List.filter_cons_of_neg (by simp [isNewCandidate, hactive])]
    · rw [if_neg hactive, hhinfo, Option.bind_eq_bind, Option.bind_some]
      by_cases hcand : isCandidate hinfo = true
      · rw [if_pos hcand, ht.outranks_eq hhinfo htip, Option.bind_eq_bind, Option.bind_some]
        by_cases hb : s.beats h tip = true
        · rw [if_pos hb, ht.work_eq hhinfo,
            List.filter_cons_of_pos (by simp [isNewCandidate, hactive, hhinfo, hcand, hb])]
          rfl
        · rw [if_neg hb, List.filter_cons_of_neg (by simp [isNewCandidate, hb])]
      · rw [if_neg hcand,
          List.filter_cons_of_neg (by simp [isNewCandidate, hhinfo, hcand])]

/-- **`generate_block_candidates` queues, in height order, the candidates that
beat the tip.** -/
theorem HeaderTree.generateBlockCandidates_eq (ht : HeaderTree chain s)
    (hmain : IsPath chain s s.activeChain tip) :
    s.generateBlockCandidates = some { s with
      blockCandidates := (s.sortedHeaders.filter (s.isNewCandidate tip)).map
        fun h => (h, s.weight h) } := by
  obtain ⟨info, hinfo, -⟩ := ht.info_of_mem hmain hmain.tip_mem
  unfold generateBlockCandidates
  rw [hmain.getLast?, Option.bind_eq_bind, Option.bind_some,
    ht.candidatesFrom_eq hinfo _ fun x hx => (s.mem_sortedHeaders x).mp hx]
  rfl

theorem isCandidateEntry_of_isNewCandidate (hmain : IsPath chain s s.activeChain tip) :
    ∀ c ∈ (s.sortedHeaders.filter (s.isNewCandidate tip)).map fun h => (h, s.weight h),
      IsCandidateEntry chain s c ∧ s.statusOf c.1 ≠ some .invalid := by
  intro c hc
  rw [List.mem_map] at hc
  obtain ⟨x, hx, rfl⟩ := hc
  rw [List.mem_filter] at hx
  obtain ⟨info, hinfo⟩ := (s.mem_sortedHeaders x).mp hx.1
  refine ⟨⟨⟨info, hinfo⟩, rfl, ?_⟩, ?_⟩
  · rintro rfl
    have hgenesis : chain.genesis.hash ∈ s.activeChain := List.mem_of_head? hmain.head?
    simp [isNewCandidate, hgenesis] at hx
  · rw [statusOf_ne hinfo]
    intro hinv
    simp [isNewCandidate, hinfo, isCandidate, hinv] at hx

/-! ## `_branch_is_downloaded` -/

/-- A header and its ancestors off the active chain are downloaded. -/
def BranchDownloaded (s : BlockIndex) (h : Hash) : Prop :=
  ∀ x info, Descends s.nodes x h → x ∉ s.activeChain → s.getBlockInfo x = some info →
    info.downloaded = true

/-- What a fork adds for a header off `main` is what its path has off `main`. -/
theorem IsFork.mem_add_iff {add remove : List Hash} {k : ℕ} (hf : IsFork l main add remove k)
    (ht : HeaderTree chain s) (hl : IsPath chain s l h) (hmain : IsPath chain s main tip)
    (hnot : h ∉ main) (x : Hash) : x ∈ add ↔ x ∈ l ∧ x ∉ main := by
  rw [hf.add_eq]
  constructor
  · intro hx
    refine ⟨List.mem_of_mem_drop hx, fun hxm => ?_⟩
    obtain ⟨i, hi⟩ := List.mem_iff_getElem?.mp hx
    rw [List.getElem?_drop] at hi
    obtain ⟨p, hp⟩ := hl.node_getElem? ht.tree hi
    have hm := hmain.getElem?_of_mem ht.tree hxm hp
    have hlt := (List.getElem?_eq_some_iff.mp hi).1
    have hltm := (List.getElem?_eq_some_iff.mp hm).1
    by_cases hlast : k + i + 1 < l.length
    · exact hf.differ (k + i) (by omega) hlast hltm (hi.trans hm.symm)
    · have htip := hl.tip_getElem?
      rw [show l.length - 1 = k + i by omega, hi, Option.some.injEq] at htip
      exact hnot (htip ▸ hxm)
  · rintro ⟨hx, hnotx⟩
    rw [← List.take_append_drop k l, List.mem_append, hf.take_eq] at hx
    exact hx.resolve_left fun hm => hnotx (List.mem_of_mem_take hm)

/-- Reading known records, and asking all of them. -/
theorem exists_mapM_getBlockInfo (s : BlockIndex) (l : List Hash)
    (hknown : ∀ x ∈ l, ∃ info, s.getBlockInfo x = some info) :
    ∃ infos, l.mapM s.getBlockInfo = some infos ∧
      (infos.all BlockInfo.downloaded = true ↔
        ∀ x ∈ l, ∀ info, s.getBlockInfo x = some info → info.downloaded = true) := by
  induction l with
  | nil => exact ⟨[], rfl, by simp⟩
  | cons h l ih =>
    obtain ⟨⟨info, hinfo⟩, hrest⟩ := List.forall_mem_cons.mp hknown
    obtain ⟨infos, hinfos, hall⟩ := ih hrest
    refine ⟨info :: infos, ?_, ?_⟩
    · rw [List.mapM_cons, hinfo, hinfos]
      rfl
    · rw [List.all_cons, Bool.and_eq_true, hall, List.forall_mem_cons, hinfo]
      simp

/-- **`_branch_is_downloaded` answers for the branch** of a header off the active chain. -/
theorem HeaderTree.branchIsDownloaded_eq (ht : HeaderTree chain s)
    (hmain : IsPath chain s s.activeChain tip) (hinfo : s.getBlockInfo h = some info)
    (hne : h ≠ chain.genesis.hash) :
    ∃ b, s.branchIsDownloaded h = some b ∧
      (h ∉ s.activeChain → (b = true ↔ s.BranchDownloaded h)) := by
  obtain ⟨l, hl, -⟩ := ht.exists_path hinfo
  obtain ⟨add, remove, k, hfork, hisFork⟩ := ht.getForkDetails_eq hl hmain hne
  have hnil : s.getForkDetails h [] = s.getForkDetails h s.activeChain := by
    unfold getForkDetails
    rw [if_pos rfl, if_neg (List.ne_nil_of_length_pos hmain.length_pos)]
  obtain ⟨infos, hinfos, hall⟩ := s.exists_mapM_getBlockInfo add fun x hx => by
    rw [hisFork.add_eq] at hx
    obtain ⟨xinfo, hxinfo, -⟩ := ht.info_of_mem hl (List.mem_of_mem_drop hx)
    exact ⟨xinfo, hxinfo⟩
  refine ⟨infos.all BlockInfo.downloaded, ?_, fun hnot => ?_⟩
  · unfold branchIsDownloaded
    rw [hnil, hfork, Option.bind_eq_bind, Option.bind_some]
    dsimp only
    rw [hinfos]
    rfl
  · rw [hall]
    constructor
    · intro hd x xinfo hx hxnot hxinfo
      exact hd x ((hisFork.mem_add_iff ht hl hmain hnot x).mpr
        ⟨(hl.mem_iff_descends ht.tree).mpr hx, hxnot⟩) xinfo hxinfo
    · intro hd x hx xinfo hxinfo
      obtain ⟨hxl, hxnot⟩ := (hisFork.mem_add_iff ht hl hmain hnot x).mp hx
      exact hd x xinfo ((hl.mem_iff_descends ht.tree).mp hxl) hxnot hxinfo

/-! ## `get_first_candidate` -/

/-- What the loop of `get_first_candidate` has made of the entries `done`. -/
structure Scanned (s : BlockIndex) (tip : Hash) (done : List (Hash × ℕ))
    (first ready : Option Hash) : Prop where
  first_some : ∀ f, first = some f → f ∈ done.map Prod.fst ∧
    (∃ info, s.getBlockInfo f = some info) ∧ s.beats f tip = true
  first_none : first = none → ∀ c ∈ done, s.beats c.1 tip = false
  ready_some : ∀ r, ready = some r → r ∈ done.map Prod.fst ∧
    (∃ info, s.getBlockInfo r = some info) ∧ s.beats r tip = true ∧ s.BranchDownloaded r
  ready_none : ready = none → ∀ c ∈ done, s.beats c.1 tip = true → ¬s.BranchDownloaded c.1

section Scan

variable {done : List (Hash × ℕ)} {first ready : Option Hash} {work : ℕ}

/-- What is taken is among the entries, and among more of them. -/
theorem mem_fst_append {done more : List (Hash × ℕ)} {f : Hash} {P : Prop}
    (h : f ∈ done.map Prod.fst ∧ P) : f ∈ (done ++ more).map Prod.fst ∧ P := by
  rw [List.map_append, List.mem_append]
  exact ⟨.inl h.1, h.2⟩

theorem Scanned.skip (hs : Scanned s tip done first ready) (hb : s.beats h tip = false) :
    Scanned s tip (done ++ [(h, work)]) first ready := by
  refine ⟨fun f hf => mem_fst_append (hs.first_some f hf), fun h0 c hc => ?_,
    fun r hr => mem_fst_append (hs.ready_some r hr), fun h0 c hc => ?_⟩ <;>
    rcases List.mem_append.mp hc with hc | hc
  · exact hs.first_none h0 c hc
  · rw [List.mem_singleton.mp hc]
    exact hb
  · exact hs.ready_none h0 c hc
  · rw [List.mem_singleton.mp hc, hb]
    exact fun h1 => by cases h1

/-- An entry that beats the tip is the first if there was none. -/
theorem Scanned.keep (hs : Scanned s tip done first ready)
    (hinfo : s.getBlockInfo h = some info) (hb : s.beats h tip = true)
    (hnot : ready = none → ¬s.BranchDownloaded h) :
    Scanned s tip (done ++ [(h, work)]) (first.or (some h)) ready := by
  refine ⟨fun f hf => ?_, fun h0 => ?_, fun r hr => mem_fst_append (hs.ready_some r hr),
    fun h0 c hc => ?_⟩
  · cases first with
    | some f' => exact mem_fst_append (hs.first_some f hf)
    | none =>
      cases hf
      exact ⟨by simp, ⟨info, hinfo⟩, hb⟩
  · cases first <;> cases h0
  · rcases List.mem_append.mp hc with hc | hc
    · exact hs.ready_none h0 c hc
    · rw [List.mem_singleton.mp hc]
      exact fun _ => hnot h0

/-- And ready, where its branch is downloaded. -/
theorem Scanned.take (hs : Scanned s tip done first ready)
    (hinfo : s.getBlockInfo h = some info) (hb : s.beats h tip = true)
    (hdown : s.BranchDownloaded h) :
    Scanned s tip (done ++ [(h, work)]) (first.or (some h)) (some h) := by
  refine ⟨fun f hf => ?_, fun h0 => ?_, fun r hr => ?_, fun h0 => ?_⟩
  · cases first with
    | some f' => exact mem_fst_append (hs.first_some f hf)
    | none =>
      cases hf
      exact ⟨by simp, ⟨info, hinfo⟩, hb⟩
  · cases first <;> cases h0
  · cases hr
    exact ⟨by simp, ⟨info, hinfo⟩, hb, hdown⟩
  · cases h0

/-- **The loop of `get_first_candidate` returns**, and what it takes for ready
is ready. -/
theorem HeaderTree.scanCandidates_eq (ht : HeaderTree chain s)
    (hmain : IsPath chain s s.activeChain tip) (window : List (Hash × ℕ))
    (hwindow : ∀ c ∈ window, IsCandidateEntry chain s c)
    (hs : Scanned s tip done first ready) :
    ∃ first' ready', s.scanCandidates tip window first ready = some (first', ready') ∧
      Scanned s tip (done ++ window) first' ready' := by
  obtain ⟨tinfo, htinfo, -⟩ := ht.info_of_mem hmain hmain.tip_mem
  induction window generalizing done first ready with
  | nil => exact ⟨first, ready, rfl, by rwa [List.append_nil]⟩
  | cons c window ih =>
    obtain ⟨h, work⟩ := c
    obtain ⟨hentry, hrest⟩ := List.forall_mem_cons.mp hwindow
    obtain ⟨info, hinfo⟩ := hentry.known
    rw [show done ++ (h, work) :: window = done ++ [(h, work)] ++ window by simp,
      scanCandidates, ht.outranks_eq hinfo htinfo, Option.bind_eq_bind, Option.bind_some]
    cases hb : s.beats h tip with
    | false => exact ih hrest (hs.skip hb)
    | true =>
      have hoff : h ∉ s.activeChain := fun hmem => by
        rw [ht.beats_active hmain hmem] at hb
        cases hb
      obtain ⟨d, hd, hdiff⟩ := ht.branchIsDownloaded_eq hmain hinfo hentry.ne_genesis
      have hiff := hdiff hoff
      -- with a ready one kept, the branch may be there or not
      have hkeep : ∀ r, ready = some r → ∃ first' ready',
          s.scanCandidates tip window (first.or (some h)) ready = some (first', ready') ∧
          Scanned s tip (done ++ [(h, work)] ++ window) first' ready' := fun r hr =>
        ih hrest (hs.keep hinfo hb fun h0 => by rw [hr] at h0; cases h0)
      have hask : ∃ first' ready', (do
            if ← s.branchIsDownloaded h then
              s.scanCandidates tip window (first.or (some h)) (some h)
            else s.scanCandidates tip window (first.or (some h)) ready) =
            some (first', ready') ∧
          Scanned s tip (done ++ [(h, work)] ++ window) first' ready' := by
        rw [hd, Option.bind_eq_bind, Option.bind_some]
        cases d with
        | true => exact ih hrest (hs.take hinfo hb (hiff.mp rfl))
        | false =>
          refine ih hrest (hs.keep hinfo hb fun _ hdown => ?_)
          rw [← hiff] at hdown
          cases hdown
      cases ready with
      | none => exact hask
      | some r =>
        obtain ⟨-, ⟨rinfo, hrinfo⟩, -⟩ := hs.ready_some r rfl
        simp only [Bool.not_true, Bool.false_eq_true, if_false]
        rw [ht.work_eq hrinfo, ht.outranks_eq hinfo hrinfo]
        simp only [Option.bind_eq_bind, Option.bind_some, Option.pure_def]
        by_cases hwork : work = s.weight r
        · rw [if_pos hwork]
          cases hbetter : s.beats h r with
          | true => exact hask
          | false => exact hkeep r rfl
        · rw [if_neg hwork]
          exact hkeep r rfl

end Scan

/-- The entries `get_first_candidate` does not evict. -/
def freshCandidates (s : BlockIndex) (tip : Hash) : List (Hash × ℕ) :=
  s.blockCandidates.dropWhile fun c => c.2 < s.weight tip

/-- **What `get_first_candidate` answers**: a header that beats the tip, one with
its branch downloaded if there is one in the window, and none if no entry of
the window beats it. -/
theorem HeaderTree.getFirstCandidate_eq (ht : HeaderTree chain s)
    (hmain : IsPath chain s s.activeChain tip)
    (hcands : ∀ c ∈ s.blockCandidates, IsCandidateEntry chain s c) :
    ∃ answer, s.getFirstCandidate =
        some ({ s with blockCandidates := s.freshCandidates tip }, answer) ∧
      ((∃ info, answer = some info ∧ s.getBlockInfo info.header.hash = some info ∧
          info.header.hash ∈ s.blockCandidates.map Prod.fst ∧
          s.beats info.header.hash tip = true ∧
          ((∃ c ∈ (s.freshCandidates tip).take candidateWindow,
            s.beats c.1 tip = true ∧ s.BranchDownloaded c.1) →
            s.BranchDownloaded info.header.hash)) ∨
        answer = none ∧
          ∀ c ∈ (s.freshCandidates tip).take candidateWindow, s.beats c.1 tip = false) := by
  obtain ⟨info, hinfo, -⟩ := ht.info_of_mem hmain hmain.tip_mem
  have ht' : HeaderTree chain { s with blockCandidates := s.freshCandidates tip } :=
    ht.congr rfl rfl rfl rfl
  have hstart : Scanned { s with blockCandidates := s.freshCandidates tip } tip [] none none :=
    ⟨by simp, by simp, by simp, by simp⟩
  obtain ⟨first, ready, hscan, hs⟩ := ht'.scanCandidates_eq hmain
    ((s.freshCandidates tip).take candidateWindow) (fun c hc => by
      obtain ⟨hk, hw, hne⟩ := hcands c ((List.dropWhile_suffix _).mem (List.mem_of_mem_take hc))
      exact ⟨hk, hw, hne⟩) hstart
  rw [List.nil_append] at hs
  unfold getFirstCandidate
  rw [hmain.getLast?, Option.bind_eq_bind, Option.bind_some, ht.work_eq hinfo, Option.bind_eq_bind,
    Option.bind_some]
  show ∃ answer, (scanCandidates { s with blockCandidates := s.freshCandidates tip } tip
    ((s.freshCandidates tip).take candidateWindow) none none).bind _ = _ ∧ _
  rw [hscan, Option.bind_some]
  dsimp only
  -- the answer is the record of a header that beats the tip
  have hqueued : ∀ c, c ∈ ((s.freshCandidates tip).take candidateWindow).map Prod.fst →
      c ∈ s.blockCandidates.map Prod.fst := by
    intro c hc
    obtain ⟨e, he, rfl⟩ := List.mem_map.mp hc
    exact List.mem_map_of_mem ((List.dropWhile_suffix _).mem (List.mem_of_mem_take he))
  have hchosen : ∀ c, ready.or first = some c → c ∈ s.blockCandidates.map Prod.fst ∧
      (∃ info, s.getBlockInfo c = some info) ∧ s.beats c tip = true ∧
        (∀ r, ready = some r → c = r) := by
    intro c hc
    cases ready with
    | some r =>
      cases hc
      obtain ⟨hq, hk, hb, -⟩ := hs.ready_some c rfl
      exact ⟨hqueued c hq, hk, hb, fun r hr => Option.some.inj hr⟩
    | none =>
      obtain ⟨hq, hk, hb⟩ := hs.first_some c hc
      exact ⟨hqueued c hq, hk, hb, fun r hr => by cases hr⟩
  cases hor : ready.or first with
  | none =>
    rw [Option.or_eq_none_iff] at hor
    exact ⟨none, rfl, .inr ⟨rfl, hs.first_none hor.2⟩⟩
  | some c =>
    obtain ⟨hq, ⟨cinfo, hcinfo⟩, hb, hready⟩ := hchosen c hor
    have hhash : cinfo.header.hash = c := ht.hash_eq hcinfo
    refine ⟨some cinfo, ?_, .inl ⟨cinfo, rfl, ?_, ?_, ?_, ?_⟩⟩
    · show (s.getBlockInfo c).bind _ = _
      rw [hcinfo]
      rfl
    · rw [hhash, hcinfo]
    · rw [hhash]
      exact hq
    · rw [hhash]
      exact hb
    · rintro ⟨e, he, heb, hed⟩
      rw [hhash]
      cases hr : ready with
      | none => exact absurd hed (hs.ready_none hr e he heb)
      | some r =>
        rw [hready r hr]
        exact (hs.ready_some r hr).2.2.2

end Beats

end BtclibNode.BlockIndex
