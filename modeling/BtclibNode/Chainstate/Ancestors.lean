/-
# Ancestors and fork points

The skip pointers give the plain answers: `get_ancestor` is the block a number of
parents back, and `last_common_ancestor` is the highest block on both parent
paths, in every index that calls and reopenings of the store lead to.
-/
import BtclibNode.Chainstate.CommonAncestor
import BtclibNode.Chainstate.IndexStore

namespace BtclibNode.BlockIndex

open HeightTree

variable {chain : Chain} {s t : BlockIndex} {db : BlockTable} {h a c x : Hash} {l : List Hash}

/-! ## The plain walk -/

/-- `get_ancestor` of a known hash, of any height; no ancestor is the inner `none`. -/
def getAncestorAt (s : BlockIndex) (h : Hash) (height : ℤ) : Option (Option Hash) := do
  let info ← s.getBlockInfo h
  if info.index < height ∨ height < 0 then return none
  else return some (← s.ancestor h info.index height.toNat)

/-- `previous_block_hash`, followed `n` times and not past genesis. -/
def parentWalk (s : BlockIndex) : ℕ → Hash → Option Hash
  | 0, h => some h
  | n + 1, h => do
    let info ← s.getBlockInfo h
    if info.index = 0 then none else s.parentWalk n info.header.previousBlockHash

/-- `c` is on the parent path of `a`. -/
def OnParentPath (s : BlockIndex) (c a : Hash) : Prop := ∃ n, s.parentWalk n a = some c

/-- The walk goes down the path. -/
theorem HeaderTree.parentWalk_eq (ht : HeaderTree chain s) (hl : IsPath chain s l a) {n i : ℕ}
    (hx : l[i]? = some x) (hn : n ≤ i) : s.parentWalk n x = l[i - n]? := by
  induction n generalizing i x with
  | zero => rw [parentWalk, Nat.sub_zero, hx]
  | succ n ih =>
    obtain ⟨j, rfl⟩ : ∃ j, i = j + 1 := ⟨i - 1, by omega⟩
    obtain ⟨info, hinfo, hindex⟩ := ht.info_of_getElem? hl hx
    obtain ⟨p, hp, hnode⟩ := hl.parent_getElem? hx
    rw [nodes_eq hinfo, Option.some.injEq, Prod.mk.injEq] at hnode
    rw [parentWalk, hinfo, Option.bind_eq_bind, Option.bind_some, if_neg (by omega), hnode.1,
      ih hp (by omega)]
    congr 1
    omega

/-- The walk ends at genesis. -/
theorem HeaderTree.parentWalk_eq_none (ht : HeaderTree chain s) (hl : IsPath chain s l a)
    {n i : ℕ} (hx : l[i]? = some x) (hn : i < n) : s.parentWalk n x = none := by
  induction n generalizing i x with
  | zero => omega
  | succ n ih =>
    obtain ⟨info, hinfo, hindex⟩ := ht.info_of_getElem? hl hx
    rw [parentWalk, hinfo, Option.bind_eq_bind, Option.bind_some]
    split
    · rfl
    · next hne =>
      obtain ⟨j, rfl⟩ : ∃ j, i = j + 1 := ⟨i - 1, by omega⟩
      obtain ⟨p, hp, hnode⟩ := hl.parent_getElem? hx
      rw [nodes_eq hinfo, Option.some.injEq, Prod.mk.injEq] at hnode
      rw [hnode.1]
      exact ih hp (by omega)

/-- What is on the parent path of a tip is an entry of its path. -/
theorem HeaderTree.mem_iff_onParentPath (ht : HeaderTree chain s) (hl : IsPath chain s l a) :
    s.OnParentPath c a ↔ c ∈ l := by
  have htip := hl.tip_getElem?
  have hpos := hl.length_pos
  constructor
  · rintro ⟨n, hn⟩
    by_cases hle : n ≤ l.length - 1
    · rw [ht.parentWalk_eq hl htip hle] at hn
      exact List.mem_of_getElem? hn
    · rw [ht.parentWalk_eq_none hl htip (by omega)] at hn
      cases hn
  · intro hc
    obtain ⟨i, hi⟩ := List.mem_iff_getElem?.mp hc
    have hlt := (List.getElem?_eq_some_iff.mp hi).1
    refine ⟨l.length - 1 - i, ?_⟩
    rw [ht.parentWalk_eq hl htip (by omega), ← hi]
    congr 1
    omega

/-! ## The pointers -/

/-- Every header above genesis has its pointer. -/
def Skipped (s : BlockIndex) : Prop :=
  ∀ x info, s.getBlockInfo x = some info → info.index ≠ 0 → x ∈ s.skip

theorem skipped_insertHeader {currentWork parentHeight : ℕ} {header : BlockHeader}
    (hs : Skipped s) (heq : s.insertHeader chain currentWork header parentHeight = some t) :
    Skipped t := by
  unfold insertHeader at heq
  simp only [Option.bind_eq_bind, Option.bind_eq_some_iff] at heq
  obtain ⟨work, -, s₃, hbuild, heq⟩ := heq
  obtain ⟨hkept, hnew⟩ := buildSkip_skip hbuild
  have hskip : Skipped s₃ := by
    intro x info hinfo hne
    rw [hkept.info] at hinfo
    have hset : (s.headerDict.set header.hash
        ⟨header, parentHeight + 1, .validHeader, false⟩).get? x = some info := hinfo
    rw [Dict.get?_set] at hset
    split at hset
    · next hx =>
      rw [← hx]
      exact hnew (Nat.succ_ne_zero _)
    · exact hkept.mem x (hs x info hset hne)
  generalize hcand : (if currentWork < work + chain.calculateWork header then _ else s₃) = s₄ at heq
  have hskip₄ : Skipped s₄ := by
    rw [← hcand]
    split
    · exact hskip
    · exact hskip
  rw [(growHeaderIndex_only heq).eq]
  exact hskip₄

theorem skipped_insertValidHeaders {currentWork : ℕ} {punish minPow : Bool} {now : ℤ}
    {headers : List BlockHeader} {result : Except HeaderError Unit} (hs : Skipped s)
    (heq : insertValidHeaders chain currentWork punish minPow now headers s = some (t, result)) :
    Skipped t := by
  induction headers generalizing s with
  | nil =>
    cases heq
    exact hs
  | cons header rest ih =>
    unfold insertValidHeaders at heq
    split at heq
    · cases heq
      exact hs
    · exact ih hs heq
    · rw [Option.bind_eq_bind, Option.bind_eq_some_iff] at heq
      obtain ⟨u, hu, heq⟩ := heq
      exact ih (skipped_insertHeader hs hu) heq

theorem skipped_addHeaders {headers : List BlockHeader} {punish minPow : Bool} {now : ℤ}
    {result : Except HeaderError (Option Hash)} (hs : Skipped s)
    (heq : s.addHeaders chain headers punish minPow now = some (t, result)) : Skipped t := by
  unfold BlockIndex.addHeaders at heq
  split at heq
  · cases heq
    exact hs
  · simp only [Option.bind_eq_bind, Option.bind_eq_some_iff] at heq
    obtain ⟨_, -, _, -, ⟨u, outcome⟩, hu, heq⟩ := heq
    cases heq
    exact skipped_insertValidHeaders hs hu

/-- A change of records keeps the pointers. -/
theorem Rewrites.skipped (hr : Rewrites s t) (hs : Skipped s) : Skipped t := by
  intro x info hinfo hne
  obtain ⟨info', hinfo', hsame⟩ : ∃ info', s.getBlockInfo x = some info' ∧
      info'.index = info.index := by
    have hheaders := hr.headers x
    rw [hinfo, Option.map_some] at hheaders
    obtain ⟨info', hinfo', heq⟩ := Option.map_eq_some_iff.mp hheaders.symm
    exact ⟨info', hinfo', congrArg Prod.snd heq⟩
  rw [hr.skip]
  exact hs x info' hinfo' (hsame ▸ hne)

/-- **Every call keeps the pointers.** -/
theorem Consistent.skipped_call {c : IndexCall} (hs : Consistent chain s) (hskip : Skipped s)
    (ha : s.allowed chain c = true) (hcall : s.call chain c = some t) : Skipped t := by
  have hsame : ∀ {u : BlockIndex}, s.call chain c = some u → SameRecords s u → Skipped t := by
    intro u hu hr
    rw [hcall, Option.some.injEq] at hu
    subst hu
    exact hr.rewrites.skipped hskip
  cases c with
  | addHeaders headers punish minPow now =>
    obtain ⟨⟨u, result⟩, heq, rfl⟩ := Option.map_eq_some_iff.mp hcall
    exact skipped_addHeaders hskip heq
  | invalidate h =>
    unfold allowed at ha
    rw [Bool.and_eq_true, Option.isSome_iff_exists, decide_eq_true_iff] at ha
    obtain ⟨⟨info, hinfo⟩, hoff⟩ := ha
    obtain ⟨u, heq, hi, -⟩ := hs.invalidate_eq hinfo hoff
    obtain rfl : u = t := Option.some.inj (heq.symm.trans hcall)
    obtain ⟨v, hst, hu⟩ := hi.statuses
    rw [hu]
    exact hst.rewrites.skipped hskip
  | reconsider h =>
    obtain ⟨info, hinfo⟩ := Option.isSome_iff_exists.mp ha
    obtain ⟨u, heq, hr, -⟩ := hs.reconsider_eq hinfo
    obtain rfl : u = t := Option.some.inj (heq.symm.trans hcall)
    obtain ⟨r, v, hst, -, hu⟩ := hr.statuses
    rw [hu]
    exact hst.rewrites.skipped hskip
  | weighInvalid h =>
    obtain ⟨info, hinfo⟩ := Option.isSome_iff_exists.mp ha
    obtain ⟨b, heq, -⟩ := hs.weighInvalid_eq hinfo
    exact hsame heq ⟨rfl, rfl, rfl, rfl, rfl, rfl⟩
  | connectTip h =>
    obtain ⟨u, heq, hst, -⟩ := hs.connectTip_eq (isNextTip_of_allowed ha)
    obtain rfl : u = t := Option.some.inj (heq.symm.trans hcall)
    exact hst.rewrites.skipped hskip
  | disconnectTip h =>
    unfold allowed at ha
    rw [Bool.and_eq_true, decide_eq_true_iff, decide_eq_true_iff] at ha
    obtain ⟨u, heq, hst, -⟩ := hs.disconnectTip_eq ha.1 ha.2
    obtain rfl : u = t := Option.some.inj (heq.symm.trans hcall)
    exact hst.rewrites.skipped hskip
  | setDownloaded h downloaded =>
    obtain ⟨info, hinfo⟩ := Option.isSome_iff_exists.mp ha
    obtain ⟨v, u, heq, hst, -, hlink, -⟩ := hs.setDownloaded_eq hinfo downloaded
    obtain rfl : u = t := Option.some.inj (heq.symm.trans hcall)
    rw [hlink.eq]
    exact hst.rewrites.skipped hskip
  | precious h =>
    obtain ⟨info, hinfo⟩ := Option.isSome_iff_exists.mp ha
    obtain ⟨u, b, heq, -, hu⟩ := hs.precious_eq hinfo
    refine hsame (u := u) (congrArg (Option.map Prod.fst) heq) ⟨?_, ?_, ?_, ?_, ?_, ?_⟩ <;>
      rw [hu]
  | generateBlockCandidates =>
    obtain ⟨tip, -, heq, -⟩ := hs.toSound.generateBlockCandidates_eq
    exact hsame heq ⟨rfl, rfl, rfl, rfl, rfl, rfl⟩
  | getFirstCandidate =>
    obtain ⟨tip, answer, -, heq, -⟩ := hs.getFirstCandidate_eq
    exact hsame (congrArg (Option.map Prod.fst) heq) ⟨rfl, rfl, rfl, rfl, rfl, rfl⟩
  | finalize =>
    cases hcall
    exact hskip

/-! ## Calls and reopenings -/

/-- A call of the index, or the store opened again. -/
inductive StoreCall where
  | call (c : IndexCall)
  | reopen

/-- The step of a call, with what the store is left with. -/
def IndexStore.reopenStep (chain : Chain) (s : IndexStore) : StoreCall → Option IndexStore
  | .call c => s.step chain c
  | .reopen => do return { s with index := ← initFromDb chain s.db }

/-- An index that agrees with its store and has its pointers. -/
structure IndexStore.Pointed (chain : Chain) (s : IndexStore) : Prop extends s.Agrees chain where
  skipped : Skipped s.index

theorem IndexStore.Pointed.step {s t : IndexStore} {c : StoreCall} (hs : s.Pointed chain)
    (hstep : s.reopenStep chain c = some t) : t.Pointed chain := by
  cases c with
  | call c =>
    refine ⟨hs.toAgrees.step hstep, ?_⟩
    simp only [reopenStep, IndexStore.step, Option.bind_eq_bind, Option.bind_eq_some_iff] at hstep
    obtain ⟨u, hu, hstep⟩ := hstep
    cases hstep
    unfold BlockIndex.step at hu
    split at hu
    · next ha =>
      have hskip : Skipped u := hs.consistent.skipped_call hs.skipped ha hu
      exact hskip
    · cases hu
  | reopen =>
    simp only [reopenStep, Option.bind_eq_bind, Option.bind_eq_some_iff] at hstep
    obtain ⟨u, hload, hstep⟩ := hstep
    cases hstep
    obtain ⟨main, ha⟩ := hs.store
    obtain ⟨v, hload', hloaded, hcons⟩ :=
      ha.stored.exists_consistent (ha.storedClosed hs.consistent)
    obtain rfl : v = u := Option.some.inj (hload'.symm.trans hload)
    exact ⟨⟨hcons, ⟨main, hloaded.storeAgrees ha.stored⟩, hloaded.puts⟩, initFromDb_skip hload⟩

/-! ## The plain answers -/

/-- **The plain answers of an index.** -/
structure PlainAncestors (s : BlockIndex) : Prop where
  outside : ∀ b info (height : ℤ), s.getBlockInfo b = some info →
    info.index < height ∨ height < 0 → s.getAncestorAt b height = some none
  ancestor : ∀ b info (height : ℤ), s.getBlockInfo b = some info →
    0 ≤ height → height ≤ info.index → ∃ p pinfo, s.getAncestorAt b height = some (some p) ∧
      s.parentWalk (info.index - height).toNat b = some p ∧
      s.getBlockInfo p = some pinfo ∧ pinfo.index = height
  common : ∀ a b ainfo binfo, s.getBlockInfo a = some ainfo → s.getBlockInfo b = some binfo →
    ∃ c cinfo, s.lastCommonAncestor a b = some c ∧ s.getBlockInfo c = some cinfo ∧
      s.OnParentPath c a ∧ s.OnParentPath c b ∧
      ∀ d dinfo, s.OnParentPath d a → s.OnParentPath d b → s.getBlockInfo d = some dinfo →
        dinfo.index ≤ cinfo.index

theorem HeaderTree.plainAncestors (ht : HeaderTree chain s) (hskip : Skipped s) :
    PlainAncestors s where
  outside b info height hinfo hout := by
    unfold getAncestorAt
    rw [hinfo, Option.bind_eq_bind, Option.bind_some, if_pos hout]
    rfl
  ancestor b info height hinfo hnonneg hle := by
    obtain ⟨l, hl, hlen⟩ := ht.exists_path hinfo
    obtain ⟨n, rfl⟩ := Int.eq_ofNat_of_zero_le hnonneg
    have htip : l[info.index]? = some b := by
      rw [← hl.tip_getElem?, hlen, Nat.add_sub_cancel]
    obtain ⟨p, hp⟩ : ∃ p, l[n]? = some p := ⟨_, List.getElem?_eq_getElem (by omega)⟩
    obtain ⟨pinfo, hpinfo, hpindex⟩ := ht.info_of_getElem? hl hp
    refine ⟨p, pinfo, ?_, ?_, hpinfo, by omega⟩
    · unfold getAncestorAt
      rw [hinfo, Option.bind_eq_bind, Option.bind_some, if_neg (by omega), Int.toNat_natCast,
        ht.ancestor_eq hl htip (by omega), hp]
      rfl
    · rw [ht.parentWalk_eq hl htip (by omega), ← hp]
      congr 1
      omega
  common a b ainfo binfo ha hb := by
    obtain ⟨l, hl, -⟩ := ht.exists_path ha
    obtain ⟨m, hm, -⟩ := ht.exists_path hb
    obtain ⟨c, k, hc, hlk, hmk, hlast⟩ := ht.lastCommonAncestor_paths hskip hl hm
    obtain ⟨cinfo, hcinfo, hcindex⟩ := ht.info_of_getElem? hl hlk
    refine ⟨c, cinfo, hc, hcinfo, (ht.mem_iff_onParentPath hl).mpr (List.mem_of_getElem? hlk),
      (ht.mem_iff_onParentPath hm).mpr (List.mem_of_getElem? hmk), fun d dinfo hda hdb hd => ?_⟩
    -- a block on both paths is the entry of both at its height
    have hdl := hl.getElem?_of_mem ht.tree ((ht.mem_iff_onParentPath hl).mp hda) (nodes_eq hd)
    have hdm := hm.getElem?_of_mem ht.tree ((ht.mem_iff_onParentPath hm).mp hdb) (nodes_eq hd)
    by_contra hlt
    exact hlast dinfo.index (by omega) (List.getElem?_eq_some_iff.mp hdl).1 (hdl.trans hdm.symm)

/-- Every state that calls and reopenings lead to from a consistent store. -/
theorem IndexStore.pointed_of_run {main : List Hash} {s₀ : BlockIndex} {calls : List StoreCall}
    {s : IndexStore} (hdb : StoredTree chain db main) (hclosed : StoredClosed chain db)
    (hload : initFromDb chain db = some s₀)
    (hrun : Run.exec (IndexStore.reopenStep chain) ⟨s₀, db⟩ calls = some s) : s.Pointed chain := by
  obtain ⟨s', hload', hloaded, hcons⟩ := hdb.exists_consistent hclosed
  obtain rfl : s' = s₀ := Option.some.inj (hload'.symm.trans hload)
  refine Run.exec_invariant (P := IndexStore.Pointed chain)
    (fun _ _ _ hr hstep => hr.step hstep) ?_ hrun
  exact ⟨⟨hcons, ⟨main, hloaded.storeAgrees hdb⟩, hloaded.puts⟩, initFromDb_skip hload⟩

/-- **Skip pointers give the plain answers**, in every state that calls of the
index and reopenings of its store lead to. -/
theorem plainAncestors_of_run {main : List Hash} (hdb : StoredTree chain db main)
    (hclosed : StoredClosed chain db) (calls : List StoreCall) :
    ∃ s₀, initFromDb chain db = some s₀ ∧
      ∀ s, Run.exec (IndexStore.reopenStep chain) ⟨s₀, db⟩ calls = some s →
        PlainAncestors s.index := by
  obtain ⟨s₀, hload, -⟩ := hdb.exists_consistent hclosed
  refine ⟨s₀, hload, fun s hrun => ?_⟩
  have hs := IndexStore.pointed_of_run hdb hclosed hload hrun
  exact hs.consistent.headerTree.plainAncestors hs.skipped

/-- Two branches, over a reopening of the store. -/
theorem plainAncestors_of_run_fork : ∃ s₀ s, initFromDb lightChain ∅ = some s₀ ∧
    Run.exec (IndexStore.reopenStep lightChain) ⟨s₀, ∅⟩
      [.call (.addHeaders [lightHeader 2 1, lightHeader 3 2] true true 0), .reopen,
        .call (.addHeaders [lightHeader 5 2, lightHeader 6 5] true true 0)] = some s ∧
      s.index.lastCommonAncestor 3 6 = some 2 ∧ PlainAncestors s.index := by
  obtain ⟨s₀, hload, hrun⟩ := plainAncestors_of_run (storedTree_empty lightChain)
    (storedClosed_empty lightChain)
    [.call (.addHeaders [lightHeader 2 1, lightHeader 3 2] true true 0), .reopen,
      .call (.addHeaders [lightHeader 5 2, lightHeader 6 5] true true 0)]
  have heval : ((initFromDb lightChain ∅).bind fun s =>
      Run.exec (IndexStore.reopenStep lightChain) ⟨s, ∅⟩
        [.call (.addHeaders [lightHeader 2 1, lightHeader 3 2] true true 0), .reopen,
          .call (.addHeaders [lightHeader 5 2, lightHeader 6 5] true true 0)]).map
      (fun s => s.index.lastCommonAncestor 3 6) = some (some 2) := by decide +kernel
  rw [hload, Option.bind_some, Option.map_eq_some_iff] at heval
  obtain ⟨s, hs, hcommon⟩ := heval
  exact ⟨s₀, s, hload, hs, hcommon, hrun s hs⟩

end BtclibNode.BlockIndex
