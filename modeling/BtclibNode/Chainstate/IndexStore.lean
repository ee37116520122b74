/-
# The index and its store

What the `blkinfo-` records of the store say while the index runs.  A record is
written when it changes, except those of headers whose place in the active
chain has moved since the last `finalize`, which wait for the next one.  So the
active headers of the store are those of the last `finalize`, and what is built
on a header stored invalid is stored invalid.
-/
import BtclibNode.Chainstate.IndexRun

namespace BtclibNode.BlockIndex

open HeightTree

/-! ## Writes -/

/-- The store after the records `infos` are put, one after the other. -/
def writeAll (db : BlockTable) (infos : List BlockInfo) : BlockTable :=
  infos.foldl (fun d info => d.insert info.header.hash info) db

theorem writeAll_append (db : BlockTable) (infos infos' : List BlockInfo) :
    writeAll db (infos ++ infos') = writeAll (writeAll db infos) infos' :=
  List.foldl_append

/-- Writes of records that are a function of their hash. -/
theorem getElem?_writeAll (g : Hash → Option BlockInfo) (infos : List BlockInfo)
    (hg : ∀ info ∈ infos, g info.header.hash = some info) (db : BlockTable) (x : Hash) :
    (writeAll db infos)[x]? =
      if x ∈ infos.map fun info => info.header.hash then g x else db[x]? := by
  induction infos generalizing db with
  | nil => rfl
  | cons info infos ih =>
    obtain ⟨hhead, hrest⟩ := List.forall_mem_cons.mp hg
    show (writeAll (db.insert info.header.hash info) infos)[x]? = _
    rw [ih hrest, FiniteMap.getElem?_insert, List.map_cons]
    by_cases hx : x ∈ infos.map fun info => info.header.hash
    · rw [if_pos hx, if_pos (List.mem_cons_of_mem _ hx)]
    · rw [if_neg hx]
      by_cases hh : info.header.hash = x
      · rw [if_pos hh, if_pos (by simp [hh]), ← hh, hhead]
      · rw [if_neg hh, if_neg (by simp [Ne.symm hh, hx])]

/-! ## What the store says -/

/-- The store beside the index: `main` is the active chain of the last `finalize`. -/
structure StoreAgrees (chain : Chain) (main : List Hash) (s : BlockIndex) (db : BlockTable) :
    Prop where
  stored : StoredTree chain db main
  headers : ∀ x, (storedInfo chain db x).map (fun info => (info.header, info.index)) =
    (s.getBlockInfo x).map fun info => (info.header, info.index)
  same : ∀ x, x ∉ s.pending → storedInfo chain db x = s.getBlockInfo x
  pending : ∀ (x : Hash) (info : BlockInfo), s.pending[x]? = some info →
    s.getBlockInfo x = some info
  pendingValid : ∀ x info, x ∈ s.pending → storedInfo chain db x = some info →
    info.status ≠ .invalid
  pendingParent : ∀ p c, Child s.nodes p c → c ∈ s.pending → p ∈ s.pending ∨ p ∈ s.activeChain

section StoreAgrees

variable {chain : Chain} {main : List Hash} {s t u : BlockIndex} {db : BlockTable} {h x : Hash}
  {info : BlockInfo}

theorem StoreAgrees.nodes_eq (ha : StoreAgrees chain main s db) :
    storedNodes chain db = s.nodes := by
  funext x
  have hx := congrArg (Option.map fun p : BlockHeader × ℕ => (p.1.previousBlockHash, p.2))
    (ha.headers x)
  rw [Option.map_map, Option.map_map] at hx
  exact hx

/-- **Invalidity is closed in the store** as it is in the index. -/
theorem StoreAgrees.storedClosed (ha : StoreAgrees chain main s db) (hs : Consistent chain s) :
    StoredClosed chain db := by
  intro p c pinfo cinfo hpc hp hc hinv
  rw [ha.nodes_eq] at hpc
  -- a record that waits is not stored invalid, so the parent's is as in the index
  have hpp : p ∉ s.pending := fun hmem => ha.pendingValid p pinfo hmem hp hinv
  rw [ha.same p hpp] at hp
  have hpinv : s.statusOf p = some .invalid := by rw [statusOf_eq hp, hinv]
  have hcp : c ∉ s.pending := by
    intro hmem
    rcases ha.pendingParent p c hpc hmem with hp' | hp'
    · exact hpp hp'
    · exact hs.active_valid p hp' hpinv
  rw [ha.same c hcp] at hc
  have hcinv := hs.invalidClosed p c hpc hpinv
  rwa [statusOf_eq hc, Option.some.injEq] at hcinv

/-- A load agrees with its store. -/
theorem Loaded.storeAgrees (hl : Loaded chain db main s) (hdb : StoredTree chain db main) :
    StoreAgrees chain main s db := by
  have hpending : ∀ x : Hash, x ∉ s.pending := by
    intro x
    rw [hl.pending]
    exact Std.ExtTreeMap.not_mem_empty
  refine ⟨hdb, fun x => by rw [hl.info], fun x _ => (hl.info x).symm, fun x info hx => ?_,
    fun x _ hx => absurd hx (hpending x), fun _ c _ hx => absurd hx (hpending c)⟩
  exact absurd ((FiniteMap.mem_iff_exists _ _).mpr ⟨info, hx⟩) (hpending x)

/-- The index is asked for its records, what it stages and its active chain. -/
theorem StoreAgrees.congr (ha : StoreAgrees chain main s db)
    (hinfo : t.getBlockInfo = s.getBlockInfo) (hpending : t.pending = s.pending)
    (hactive : t.activeChain = s.activeChain) : StoreAgrees chain main t db := by
  have hnodes : t.nodes = s.nodes := by
    unfold nodes
    rw [hinfo]
  refine ⟨ha.stored, ?_, ?_, ?_, ?_, ?_⟩
  · rw [hinfo]; exact ha.headers
  · rw [hinfo, hpending]; exact ha.same
  · rw [hinfo, hpending]; exact ha.pending
  · rw [hpending]; exact ha.pendingValid
  · rw [hnodes, hpending, hactive]; exact ha.pendingParent

/-! ## Records written through -/

section Records

variable {f : BlockInfo → BlockInfo} {r w : List Hash}

/-- The records of `w` in the index, changed by `f`. -/
def changedRecords (s : BlockIndex) (f : BlockInfo → BlockInfo) (w : List Hash) : List BlockInfo :=
  w.filterMap fun x => (s.getBlockInfo x).map f

/-- Records that do not wait, written: each is stored as it was, changed by `f`. -/
theorem StoreAgrees.storedInfo_write (ha : StoreAgrees chain main s db) (hf : KeepsHeader f)
    (ht : HeaderTree chain s) (hw : ∀ x ∈ w, x ∉ s.pending) (x : Hash) :
    storedInfo chain (writeAll db (s.changedRecords f w)) x =
      if x ∈ w then (storedInfo chain db x).map f else storedInfo chain db x := by
  have hhash : ∀ {y yinfo}, s.getBlockInfo y = some yinfo → (f yinfo).header.hash = y := by
    intro y yinfo hy
    rw [hf.header]
    exact ht.hash_eq hy
  have hg : ∀ info ∈ s.changedRecords f w, (s.getBlockInfo info.header.hash).map f =
      some info := by
    intro info hinfo
    obtain ⟨y, -, hy⟩ := List.mem_filterMap.mp hinfo
    obtain ⟨yinfo, hyinfo, rfl⟩ := Option.map_eq_some_iff.mp hy
    rw [hhash hyinfo, hyinfo]
    rfl
  have hmem : x ∈ (s.changedRecords f w).map (fun info => info.header.hash) ↔
      x ∈ w ∧ ∃ info, s.getBlockInfo x = some info := by
    rw [List.mem_map]
    constructor
    · rintro ⟨info, hinfo, rfl⟩
      obtain ⟨y, hyw, hy⟩ := List.mem_filterMap.mp hinfo
      obtain ⟨yinfo, hyinfo, rfl⟩ := Option.map_eq_some_iff.mp hy
      rw [hhash hyinfo]
      exact ⟨hyw, yinfo, hyinfo⟩
    · rintro ⟨hxw, info, hinfo⟩
      exact ⟨f info, List.mem_filterMap.mpr ⟨x, hxw, by rw [hinfo]; rfl⟩, hhash hinfo⟩
  unfold storedInfo
  rw [getElem?_writeAll (fun y => (s.getBlockInfo y).map f) _ hg]
  by_cases hxw : x ∈ w
  · rw [if_pos hxw]
    have hsame := ha.same x (hw x hxw)
    unfold storedInfo at hsame
    rw [hsame]
    cases hinfo : s.getBlockInfo x with
    | some info => rw [if_pos (hmem.mpr ⟨hxw, info, hinfo⟩)]; rfl
    | none =>
      rw [if_neg fun hc => by
        obtain ⟨-, info, h0⟩ := hmem.mp hc
        rw [hinfo] at h0
        cases h0]
      rw [hinfo] at hsame
      rw [hsame]
      rfl
  · rw [if_neg hxw, if_neg fun hc => hxw (hmem.mp hc).1]

/-- **A store with some of the records written still loads**, its active headers
the same. -/
theorem StoreAgrees.storedTree_write (ha : StoreAgrees chain main s db) (hf : KeepsHeader f)
    (ht : HeaderTree chain s) (hw : ∀ x ∈ w, x ∉ s.pending)
    (hstatus : ∀ x ∈ w, ∀ info, s.getBlockInfo x = some info →
      ((f info).status = .inActiveChain ↔ info.status = .inActiveChain)) :
    StoredTree chain (writeAll db (s.changedRecords f w)) main := by
  have hget := fun x => ha.storedInfo_write hf ht hw x
  have hinfos : ∀ {x info}, storedInfo chain (writeAll db (s.changedRecords f w)) x = some info →
      ∃ info', storedInfo chain db x = some info' ∧ info.header = info'.header ∧
        (info.status = .inActiveChain ↔ info'.status = .inActiveChain) := by
    intro x info hx
    rw [hget] at hx
    split at hx
    · next hxw =>
      obtain ⟨info', hinfo', rfl⟩ := Option.map_eq_some_iff.mp hx
      exact ⟨info', hinfo', hf.header info', hstatus x hxw info' (by rw [← ha.same x (hw x hxw), hinfo'])⟩
    · exact ⟨info, hx, rfl, Iff.rfl⟩
  have hnodes : storedNodes chain (writeAll db (s.changedRecords f w)) = storedNodes chain db := by
    funext x
    unfold storedNodes
    rw [hget]
    split
    · rw [Option.map_map]
      exact congrArg (fun g => Option.map g _) (funext fun i => by simp [hf.header, hf.index])
    · rfl
  have hdb : ∀ {x : Hash} {info : BlockInfo},
      (writeAll db (s.changedRecords f w))[x]? = some info →
      storedInfo chain (writeAll db (s.changedRecords f w)) x = some info := by
    intro x info hx
    unfold storedInfo
    rw [hx]
    rfl
  refine ⟨fun x info hx => ?_, fun x info hx => ?_, ?_, ?_, fun x info hx => ?_⟩
  · obtain ⟨info', hinfo', hheader, -⟩ := hinfos (hdb hx)
    rw [hheader]
    exact ha.stored.info_hash hinfo'
  · obtain ⟨info', hinfo', hheader, -⟩ := hinfos (hdb hx)
    rw [hheader]
    exact ha.stored.info_validPow hinfo'
  · rw [hnodes]
    exact ha.stored.tree
  · rw [hnodes]
    exact ha.stored.active
  · obtain ⟨info', hinfo', -, hst⟩ := hinfos hx
    rw [hst]
    exact ha.stored.activeStatus x info' hinfo'

/-- Records changed and written through, or staged, keep the agreement. -/
theorem StoreAgrees.recordsSet (ha : StoreAgrees chain main s db) (hf : KeepsHeader f)
    (ht : HeaderTree chain s) (hst : RecordsSet f r s t) (hputs : s.puts = [])
    (hknown : ∀ x ∈ r, ∃ info, s.getBlockInfo x = some info)
    (hstatus : ∀ x ∈ r, ∀ info, s.getBlockInfo x = some info →
      ((f info).status = .inActiveChain ↔ info.status = .inActiveChain)) :
    StoreAgrees chain main t (writeAll db t.puts) := by
  have hw : ∀ x ∈ r.filter (· ∉ s.pending), x ∉ s.pending := fun x hx => by
    simpa using (List.mem_filter.mp hx).2
  have hwr : t.puts = s.changedRecords f (r.filter (· ∉ s.pending)) := by
    rw [hst.puts, hputs, List.nil_append]
    rfl
  have hget := fun x => ha.storedInfo_write hf ht hw x
  have hmem := hst.mem_pending hknown
  have hactive : t.activeChain = s.activeChain := by rw [hst.others]
  rw [hwr]
  constructor
  case stored =>
    exact ha.storedTree_write hf ht hw fun x hx => hstatus x (List.mem_filter.mp hx).1
  case headers =>
    intro x
    rw [hst.rewrites.headers, ← ha.headers, hget]
    split
    · rw [Option.map_map]
      exact congrArg (fun g => Option.map g _) (funext fun i => by simp [hf.header, hf.index])
    · rfl
  case same =>
    intro x hx
    rw [hmem] at hx
    rw [hget, hst.info, ha.same x hx]
    by_cases hxr : x ∈ r
    · rw [if_pos hxr, if_pos (List.mem_filter.mpr ⟨hxr, by simpa using hx⟩)]
    · rw [if_neg hxr, if_neg fun hc => hxr (List.mem_filter.mp hc).1]
  case pending =>
    intro x info hx
    rw [hst.pending] at hx
    rw [hst.info]
    by_cases hxr : x ∈ r
    · by_cases hxp : x ∈ s.pending
      · rw [if_pos ⟨hxr, hxp⟩] at hx
        rwa [if_pos hxr]
      · rw [if_neg fun hc => hxp hc.2] at hx
        exact absurd ((FiniteMap.mem_iff_exists _ _).mpr ⟨info, hx⟩) hxp
    · rw [if_neg fun hc => hxr hc.1] at hx
      rw [if_neg hxr]
      exact ha.pending x info hx
  case pendingValid =>
    intro x info hx hinfo
    rw [hmem] at hx
    rw [hget, if_neg fun hc => hw x hc hx] at hinfo
    exact ha.pendingValid x info hx hinfo
  case pendingParent =>
    intro p c hpc hc
    rw [hst.rewrites.nodes_eq] at hpc
    rw [hmem] at hc
    rw [hmem, hactive]
    exact ha.pendingParent p c hpc hc

end Records

/-! ## New records -/

/-- A new header's record, written, keeps the agreement. -/
theorem StoreAgrees.headerInserted {header : BlockHeader} {parentHeight currentWork : ℕ}
    (ha : StoreAgrees chain main s db) (ht : HeaderTree chain t)
    (hn : NewHeader chain s header parentHeight)
    (hi : HeaderInserted chain s currentWork header parentHeight t) :
    StoreAgrees chain main t (writeAll db [newInfo header parentHeight]) := by
  have hfresh : storedInfo chain db header.hash = none := by
    have h0 := ha.headers header.hash
    rw [hn.fresh, Option.map_none, Option.map_eq_none_iff] at h0
    exact h0
  have hpending : t.pending = s.pending := by rw [hi.others]
  have hactive : t.activeChain = s.activeChain := by rw [hi.others]
  have hnotPending : header.hash ∉ s.pending := by
    rw [FiniteMap.notMem_iff]
    cases hx : s.pending[header.hash]? with
    | none => rfl
    | some info =>
      have h0 := ha.pending _ _ hx
      rw [hn.fresh] at h0
      cases h0
  have hget : ∀ x, storedInfo chain (writeAll db [newInfo header parentHeight]) x =
      if header.hash = x then some (newInfo header parentHeight) else storedInfo chain db x := by
    intro x
    show (db.insert header.hash (newInfo header parentHeight))[x]?.or _ = _
    rw [FiniteMap.getElem?_insert]
    split
    · rfl
    · rfl
  have hdb : ∀ {x : Hash} {info : BlockInfo},
      (writeAll db [newInfo header parentHeight])[x]? = some info →
      header.hash = x ∧ info = newInfo header parentHeight ∨ db[x]? = some info := by
    intro x info hx
    change (db.insert header.hash (newInfo header parentHeight))[x]? = some info at hx
    rw [FiniteMap.getElem?_insert] at hx
    split at hx
    · next hh => exact .inl ⟨hh, (Option.some.inj hx).symm⟩
    · exact .inr hx
  have hnodes : storedNodes chain (writeAll db [newInfo header parentHeight]) = t.nodes := by
    funext x
    unfold storedNodes nodes
    rw [hget, hi.info]
    split
    · rfl
    · have := congrFun ha.nodes_eq x
      unfold storedNodes nodes at this
      exact this
  have hknown : ∀ {x y}, storedNodes chain db x = some y → header.hash ≠ x := by
    rintro x y hx rfl
    unfold storedNodes at hx
    rw [hfresh] at hx
    cases hx
  obtain ⟨tip, hmain⟩ := ha.stored.active
  have hmain' : Path t.nodes chain.genesis.hash main tip := by
    refine hmain.mono fun x _ y hx => ?_
    rw [← hnodes]
    unfold storedNodes
    rw [hget, if_neg (hknown hx)]
    exact hx
  constructor
  case stored =>
    refine ⟨fun x info hx => ?_, fun x info hx => ?_, ?_, ⟨tip, ?_⟩, fun x info hx => ?_⟩
    · rcases hdb hx with ⟨rfl, rfl⟩ | hx
      · rfl
      · exact ha.stored.hash_eq x info hx
    · rcases hdb hx with ⟨rfl, rfl⟩ | hx
      · exact hn.pow
      · exact ha.stored.pow x info hx
    · rw [hnodes]
      exact ht.tree
    · rw [hnodes]
      exact hmain'
    · rw [hget] at hx
      split at hx
      · next hh =>
        cases hx
        refine iff_of_false (by simp [newInfo]) fun hmem => ?_
        obtain ⟨p, n, hp, -⟩ := hmain.node_of_mem ha.stored.tree hmem
        exact hknown hp hh
      · exact ha.stored.activeStatus x info hx
  case headers =>
    intro x
    rw [hget, hi.info]
    split
    · rfl
    · exact ha.headers x
  case same =>
    intro x hx
    rw [hpending] at hx
    rw [hget, hi.info, ha.same x hx]
  case pending =>
    intro x info hx
    rw [hpending] at hx
    have hinfo := ha.pending x info hx
    rw [hi.info, if_neg (hn.ne hinfo), hinfo]
  case pendingValid =>
    intro x info hx hinfo
    rw [hpending] at hx
    rw [hget, if_neg fun hc : header.hash = x => hnotPending (hc ▸ hx)] at hinfo
    exact ha.pendingValid x info hx hinfo
  case pendingParent =>
    intro p c hpc hc
    rw [hpending] at hc
    rw [hpending, hactive]
    refine ha.pendingParent p c ?_ hc
    obtain ⟨n, hn'⟩ := hpc
    refine ⟨n, ?_⟩
    rw [← hnodes] at hn'
    unfold storedNodes at hn'
    rw [hget, if_neg fun hh : header.hash = c => hnotPending (hh ▸ hc)] at hn'
    rw [← ha.nodes_eq]
    exact hn'

/-! ## Moves of the active chain -/

/-- A status staged for a block whose parent is on the active chain, and which
is not invalid. -/
theorem StoreAgrees.statusStaged {status : BlockStatus} {l : List Hash}
    (ha : StoreAgrees chain main s db)
    (hst : StatusStaged status h { s with activeChain := l } t)
    (hvalid : s.statusOf h ≠ some .invalid) (hparent : ∀ p, Child s.nodes p h → p ∈ l)
    (hkeep : ∀ p ∈ s.activeChain, p ∈ l ∨ p = h) :
    StoreAgrees chain main t db := by
  have hinfo : ∀ x, t.getBlockInfo x =
      if h = x then (s.getBlockInfo x).map (·.withStatus status) else s.getBlockInfo x := hst.info
  have hpending : ∀ x : Hash, t.pending[x]? =
      if h = x then t.getBlockInfo x else s.pending[x]? := hst.pending
  have hheaders : ∀ x, (t.getBlockInfo x).map (fun info => (info.header, info.index)) =
      (s.getBlockInfo x).map fun info => (info.header, info.index) := hst.rewrites.headers
  have hnodes : t.nodes = s.nodes := hst.rewrites.nodes_eq
  have hactive : t.activeChain = l := by rw [hst.others]
  have hmem : ∀ x, x ∈ t.pending → x = h ∨ x ∈ s.pending := by
    intro x hx
    rw [FiniteMap.mem_iff_exists, hpending] at hx
    by_cases hh : h = x
    · exact .inl hh.symm
    · rw [if_neg hh] at hx
      exact .inr ((FiniteMap.mem_iff_exists _ _).mpr hx)
  have hmem' : ∀ x, x ∈ s.pending → x ∈ t.pending := by
    intro x hx
    rw [FiniteMap.mem_iff_exists, hpending]
    obtain ⟨info, hx⟩ := (FiniteMap.mem_iff_exists _ _).mp hx
    by_cases hh : h = x
    · rw [if_pos hh, hinfo, if_pos hh, ha.pending x info hx]
      exact ⟨_, rfl⟩
    · rw [if_neg hh]
      exact ⟨info, hx⟩
  have hself : (∃ info, s.getBlockInfo h = some info) → h ∈ t.pending := by
    rintro ⟨info, hh⟩
    rw [FiniteMap.mem_iff_exists, hpending, if_pos rfl, hinfo, if_pos rfl, hh]
    exact ⟨_, rfl⟩
  constructor
  case stored => exact ha.stored
  case headers =>
    intro x
    rw [hheaders]
    exact ha.headers x
  case same =>
    intro x hx
    have hxs : x ∉ s.pending := fun hc => hx (hmem' x hc)
    rw [hinfo]
    by_cases hh : h = x
    · subst hh
      cases hs : s.getBlockInfo h with
      | none => rw [if_pos rfl, ha.same h hxs, hs]; rfl
      | some info => exact absurd (hself ⟨info, hs⟩) hx
    · rw [if_neg hh]
      exact ha.same x hxs
  case pending =>
    intro x info hx
    rw [hpending] at hx
    by_cases hh : h = x
    · rwa [if_pos hh] at hx
    · rw [if_neg hh] at hx
      rw [hinfo, if_neg hh]
      exact ha.pending x info hx
  case pendingValid =>
    intro x info hx hstored
    by_cases hxs : x ∈ s.pending
    · exact ha.pendingValid x info hxs hstored
    · obtain rfl := (hmem x hx).resolve_right hxs
      rw [ha.same x hxs] at hstored
      exact (statusOf_ne hstored).mp hvalid
  case pendingParent =>
    intro p c hpc hc
    rw [hnodes] at hpc
    rw [hactive]
    rcases hmem c hc with rfl | hcs
    · exact .inr (hparent p hpc)
    · rcases ha.pendingParent p c hpc hcs with hp | hp
      · exact .inl (hmem' p hp)
      · rcases hkeep p hp with hp | rfl
        · exact .inr hp
        · obtain ⟨n, hn⟩ := hpc
          have hpknown : ∃ info, s.getBlockInfo p = some info := by
            have hnode := ha.stored.tree.parent_node (a := c) (p := p) (n := n)
              (by rw [ha.nodes_eq]; exact hn)
            obtain ⟨q, hq⟩ := hnode
            rw [ha.nodes_eq] at hq
            obtain ⟨info, hinfo', -⟩ := exists_info hq
            exact ⟨info, hinfo'⟩
          exact .inl (hself hpknown)

/-! ## `finalize` -/

/-- What `finalize` writes: of every header whose record waits, that record. -/
theorem getElem?_writeAll_finalize
    (hkeyed : ∀ (y : Hash) (info : BlockInfo), s.pending[y]? = some info → info.header.hash = y)
    (db : BlockTable) (x : Hash) :
    (writeAll db s.finalize.1)[x]? = if x ∈ s.pending then s.pending[x]? else db[x]? := by
  have hrows : ∀ info, info ∈ s.finalize.1 ↔ s.pending[info.header.hash]? = some info := by
    intro info
    unfold BlockIndex.finalize
    rw [List.mem_map]
    constructor
    · rintro ⟨⟨y, info'⟩, hp, rfl⟩
      have hget := (FiniteMap.mem_toList _ _ _).mp hp
      rwa [hkeyed y info' hget]
    · intro hget
      exact ⟨(info.header.hash, info), (FiniteMap.mem_toList _ _ _).mpr hget, rfl⟩
  rw [getElem?_writeAll (fun y => s.pending[y]?) _ fun info hinfo => (hrows info).mp hinfo]
  have hmem : x ∈ s.finalize.1.map (fun info => info.header.hash) ↔ x ∈ s.pending := by
    rw [List.mem_map, FiniteMap.mem_iff_exists]
    constructor
    · rintro ⟨info, hinfo, rfl⟩
      exact ⟨info, (hrows info).mp hinfo⟩
    · rintro ⟨info, hx⟩
      have hhash := hkeyed x info hx
      exact ⟨info, (hrows info).mpr (by rw [hhash]; exact hx), hhash⟩
  simp only [hmem]

/-- **After `finalize` the store has the records of the index.** -/
theorem StoreAgrees.finalize (ha : StoreAgrees chain main s db) (hs : Consistent chain s) :
    StoreAgrees chain s.activeChain s.finalize.2 (writeAll db s.finalize.1) := by
  have hget := fun x => getElem?_writeAll_finalize
    (fun y info hy => hs.headerTree.hash_eq (ha.pending y info hy)) db x
  have hinfo : ∀ x, storedInfo chain (writeAll db s.finalize.1) x = s.getBlockInfo x := by
    intro x
    unfold storedInfo
    rw [hget]
    by_cases hx : x ∈ s.pending
    · rw [if_pos hx]
      obtain ⟨info, hinfo⟩ := (FiniteMap.mem_iff_exists _ _).mp hx
      rw [hinfo, ha.pending x info hinfo]
      rfl
    · rw [if_neg hx]
      exact ha.same x hx
  have hnodes : storedNodes chain (writeAll db s.finalize.1) = s.nodes := by
    unfold storedNodes nodes
    rw [funext hinfo]
  have hdb : ∀ {x : Hash} {info : BlockInfo}, (writeAll db s.finalize.1)[x]? = some info →
      s.getBlockInfo x = some info := by
    intro x info hx
    rw [← hinfo]
    unfold storedInfo
    rw [hx]
    rfl
  have hempty : ∀ x : Hash, x ∉ s.finalize.2.pending := fun x => Std.ExtTreeMap.not_mem_empty
  obtain ⟨tip, hactive⟩ := hs.active
  refine ⟨⟨fun x info hx => hs.headerTree.hash_eq (hdb hx), fun x info hx => ?_, ?_, ⟨tip, ?_⟩,
    fun x info hx => ?_⟩, fun x => ?_, fun x _ => hinfo x, fun x info hx => ?_,
    fun x _ hx => absurd hx (hempty x), fun _ c _ hc => absurd hc (hempty c)⟩
  · have hheader := ha.headers x
    rw [hdb hx, Option.map_some, Option.map_eq_some_iff] at hheader
    obtain ⟨info', hinfo', heq⟩ := hheader
    rw [Prod.mk.injEq] at heq
    rw [← heq.1]
    exact ha.stored.info_validPow hinfo'
  · rw [hnodes]
    exact hs.headerTree.tree
  · rw [hnodes]
    exact hactive
  · rw [hinfo] at hx
    rw [← hs.activeStatus, statusOf_eq hx, Option.some.injEq]
  · rw [hinfo]
    rfl
  · exact absurd ((FiniteMap.mem_iff_exists _ _).mpr ⟨info, hx⟩) (hempty x)

end StoreAgrees

/-! ## Runs over the store -/

/-- The index, and the `blkinfo-` records of the store. -/
structure IndexStore where
  index : BlockIndex
  db : BlockTable

/-- A call with the writes it makes, none of which the index remembers. -/
def IndexStore.step (chain : Chain) (s : IndexStore) (c : IndexCall) : Option IndexStore := do
  let t ← s.index.step chain c
  return {
    index := { t with puts := [] }
    db := match c with
      | .finalize => writeAll s.db s.index.finalize.1
      | _ => writeAll s.db t.puts }

/-- The store's index is consistent and agrees with it. -/
structure IndexStore.Agrees (chain : Chain) (s : IndexStore) : Prop where
  consistent : Consistent chain s.index
  store : ∃ main, StoreAgrees chain main s.index s.db
  puts : s.index.puts = []

section IndexStore

variable {chain : Chain} {s t : IndexStore} {main : List Hash}

/-- A batch of headers, its records written one after the other. -/
theorem StoreAgrees.headersAdded {s t : BlockIndex} {db : BlockTable}
    (ha : StoreAgrees chain main s db) (hadd : HeadersAdded chain s t) :
    ∃ infos, t.puts = s.puts ++ infos ∧ StoreAgrees chain main t (writeAll db infos) := by
  induction hadd with
  | refl => exact ⟨[], by simp, ha⟩
  | @tail t u header parentHeight _ init hn hi ht ih =>
    obtain ⟨infos, hputs, hagrees⟩ := ih
    refine ⟨infos ++ [newInfo header parentHeight], ?_, ?_⟩
    · rw [hi.puts, hputs, List.append_assoc]
    · rw [writeAll_append]
      exact hagrees.headerInserted ht hn hi

theorem Invalidated.storeAgrees {s t : BlockIndex} {db : BlockTable} {h : Hash} {info : BlockInfo}
    (hi : Invalidated h s t) (ha : StoreAgrees chain main s db) (hs : Consistent chain s)
    (hinfo : s.getBlockInfo h = some info) (hoff : h ∉ s.activeChain) (hputs : s.puts = []) :
    StoreAgrees chain main t (writeAll db t.puts) := by
  obtain ⟨u, hst, ht⟩ := hi.statuses
  obtain ⟨-, hmem⟩ := hs.headerTree.invalidationOrder_spec hinfo
  have hu := ha.recordsSet (keepsHeader_withStatus .invalid) hs.headerTree hst hputs
    (fun x hx => known_of_descends hinfo ((hmem x).mp hx)) (fun x hx xinfo hxinfo => by
      refine iff_of_false (by simp [BlockInfo.withStatus]) fun hstatus => hoff ?_
      refine hs.active_of_descends ((hmem x).mp hx) ?_
      rw [← hs.activeStatus, statusOf_eq hxinfo, hstatus])
  have htputs : t.puts = u.puts := by rw [ht]
  rw [htputs]
  exact hu.congr (by rw [ht]; rfl) (by rw [ht]) (by rw [ht])

theorem Reconsidered.storeAgrees {s t : BlockIndex} {db : BlockTable} {h : Hash}
    (hr : Reconsidered h s t) (ha : StoreAgrees chain main s db) (hs : Consistent chain s)
    (hputs : s.puts = []) : StoreAgrees chain main t (writeAll db t.puts) := by
  obtain ⟨r, u, hst, hmem, ht⟩ := hr.statuses
  have hu := ha.recordsSet (keepsHeader_withStatus .validHeader) hs.headerTree hst hputs
    (fun x hx => by
      obtain ⟨xinfo, hxinfo, -⟩ := exists_info_of_status ((hmem x).mp hx).1
      exact ⟨xinfo, hxinfo⟩) (fun x hx xinfo hxinfo => by
      have hinv := ((hmem x).mp hx).1
      rw [statusOf_eq hxinfo, Option.some.injEq] at hinv
      simp [BlockInfo.withStatus, hinv])
  have htputs : t.puts = u.puts := by rw [ht]
  rw [htputs]
  exact hu.congr (by rw [ht]; rfl) (by rw [ht]) (by rw [ht])

/-- What a call that is not `finalize` makes of the index agrees with what it
makes of the store. -/
theorem StoreAgrees.call {s t : BlockIndex} {db : BlockTable} {c : IndexCall}
    (ha : StoreAgrees chain main s db) (hs : Consistent chain s) (hputs : s.puts = [])
    (hallowed : s.allowed chain c = true) (hne : c ≠ .finalize) (hcall : s.call chain c = some t) :
    StoreAgrees chain main t (writeAll db t.puts) := by
  have hsame : ∀ {u : BlockIndex}, s.call chain c = some u → u.getBlockInfo = s.getBlockInfo →
      u.pending = s.pending → u.activeChain = s.activeChain → u.puts = s.puts →
      StoreAgrees chain main t (writeAll db t.puts) := by
    intro u hu hinfo hpending hactive hup
    rw [hcall, Option.some.injEq] at hu
    subst hu
    rw [hup, hputs]
    exact ha.congr hinfo hpending hactive
  cases c with
  | addHeaders headers punish minPow now =>
    obtain ⟨u, result, heq, hadd, -⟩ := hs.addHeaders_eq headers punish minPow now
    obtain rfl : u = t :=
      Option.some.inj ((congrArg (Option.map Prod.fst) heq).symm.trans hcall)
    obtain ⟨infos, hinfos, hagrees⟩ := ha.headersAdded hadd
    rw [hinfos, hputs, List.nil_append]
    exact hagrees
  | invalidate h =>
    unfold allowed at hallowed
    rw [Bool.and_eq_true, Option.isSome_iff_exists, decide_eq_true_iff] at hallowed
    obtain ⟨⟨info, hinfo⟩, hoff⟩ := hallowed
    obtain ⟨u, heq, hi, -⟩ := hs.invalidate_eq hinfo hoff
    obtain rfl : u = t := Option.some.inj (heq.symm.trans hcall)
    exact hi.storeAgrees ha hs hinfo hoff hputs
  | reconsider h =>
    obtain ⟨info, hinfo⟩ := Option.isSome_iff_exists.mp hallowed
    obtain ⟨u, heq, hr, -⟩ := hs.reconsider_eq hinfo
    obtain rfl : u = t := Option.some.inj (heq.symm.trans hcall)
    exact hr.storeAgrees ha hs hputs
  | weighInvalid h =>
    obtain ⟨info, hinfo⟩ := Option.isSome_iff_exists.mp hallowed
    obtain ⟨b, heq, -⟩ := hs.weighInvalid_eq hinfo
    exact hsame heq rfl rfl rfl rfl
  | connectTip h =>
    have hnext := isNextTip_of_allowed hallowed
    obtain ⟨u, heq, hst, -⟩ := hs.connectTip_eq hnext
    obtain rfl : u = t := Option.some.inj (heq.symm.trans hcall)
    have hup : u.puts = [] := by
      rw [hst.others]
      exact hputs
    rw [hup]
    refine ha.statusStaged hst hnext.valid (fun p hp => ?_) fun p hp =>
      .inl (List.mem_append_left _ hp)
    obtain ⟨tip, htip, hchild⟩ := hnext.child
    rw [hp.parent_unique hchild]
    exact List.mem_append_left _ (List.mem_of_getLast? htip)
  | disconnectTip h =>
    unfold allowed at hallowed
    rw [Bool.and_eq_true, decide_eq_true_iff, decide_eq_true_iff] at hallowed
    obtain ⟨htip, hne⟩ := hallowed
    obtain ⟨u, heq, hst, -⟩ := hs.disconnectTip_eq htip hne
    obtain rfl : u = t := Option.some.inj (heq.symm.trans hcall)
    have hup : u.puts = [] := by
      rw [hst.others]
      exact hputs
    rw [hup]
    have hsplit := List.dropLast_append_getLast? h htip
    refine ha.statusStaged hst (hs.active_valid h (List.mem_of_getLast? htip)) (fun p hp => ?_)
      fun p hp => ?_
    · obtain ⟨tip, hpath⟩ := hs.active
      rw [hpath.getLast?, Option.some.injEq] at htip
      obtain ⟨q, hq, hnode⟩ := hpath.exists_dropLast (htip ▸ hne)
      obtain ⟨n, hn⟩ := hp
      rw [← htip, hnode, Option.some.injEq, Prod.mk.injEq] at hn
      rw [← hn.1]
      exact hq.tip_mem
    · rw [← hsplit, List.mem_append, List.mem_singleton] at hp
      exact hp
  | setDownloaded h downloaded =>
    obtain ⟨info, hinfo⟩ := Option.isSome_iff_exists.mp hallowed
    obtain ⟨v, u, heq, hst, -, hlink, -⟩ := hs.setDownloaded_eq hinfo downloaded
    obtain rfl : u = t := Option.some.inj (heq.symm.trans hcall)
    have hv := ha.recordsSet (keepsHeader_withDownloaded downloaded) hs.headerTree hst hputs
      (fun x hx => ⟨info, List.mem_singleton.mp hx ▸ hinfo⟩) fun _ _ _ _ => Iff.rfl
    have hup : u.puts = v.puts := by rw [hlink.eq]
    rw [hup]
    exact hv.congr (by rw [hlink.eq]; rfl) (by rw [hlink.eq]) (by rw [hlink.eq])
  | precious h =>
    obtain ⟨info, hinfo⟩ := Option.isSome_iff_exists.mp hallowed
    obtain ⟨u, b, heq, -, hu⟩ := hs.precious_eq hinfo
    exact hsame (u := u) (congrArg (Option.map Prod.fst) heq) (by rw [hu]; rfl) (by rw [hu])
      (by rw [hu]) (by rw [hu])
  | generateBlockCandidates =>
    obtain ⟨tip, -, heq, -⟩ := hs.toSound.generateBlockCandidates_eq
    exact hsame heq rfl rfl rfl rfl
  | getFirstCandidate =>
    obtain ⟨tip, answer, -, heq, -⟩ := hs.getFirstCandidate_eq
    exact hsame (congrArg (Option.map Prod.fst) heq) rfl rfl rfl rfl
  | finalize => exact absurd rfl hne

/-- **Every call keeps the index and the store in agreement.** -/
theorem IndexStore.Agrees.step {c : IndexCall} (hs : s.Agrees chain)
    (hstep : s.step chain c = some t) : t.Agrees chain := by
  obtain ⟨main, ha⟩ := hs.store
  unfold IndexStore.step at hstep
  rw [Option.bind_eq_bind, Option.bind_eq_some_iff] at hstep
  obtain ⟨u, hu, hstep⟩ := hstep
  cases hstep
  have hcons : Consistent chain { u with puts := [] } :=
    (hs.consistent.step hu).frame ⟨rfl, rfl, rfl, rfl, rfl, rfl⟩ rfl rfl
      (hs.consistent.step hu).candidates (hs.consistent.step hu).candidatesValid
  refine ⟨hcons, ?_, rfl⟩
  unfold BlockIndex.step at hu
  split at hu
  · next hallowed =>
    by_cases hfin : c = .finalize
    · subst hfin
      obtain rfl : s.index.finalize.2 = u := Option.some.inj hu
      exact ⟨_, (ha.finalize hs.consistent).congr rfl rfl rfl⟩
    · refine ⟨main, ?_⟩
      have hagrees := (ha.call hs.consistent hs.puts hallowed hfin hu).congr
        (t := { u with puts := [] }) rfl rfl rfl
      cases c <;> first | exact absurd rfl hfin | exact hagrees
  · cases hu

/-- From a load of a consistent store, every state of a run. -/
theorem IndexStore.agrees_of_run {db : BlockTable} {s₀ : BlockIndex} {calls : List IndexCall}
    (hdb : StoredTree chain db main) (hclosed : StoredClosed chain db)
    (hload : initFromDb chain db = some s₀)
    (hrun : Run.exec (IndexStore.step chain) ⟨s₀, db⟩ calls = some t) : t.Agrees chain := by
  obtain ⟨s, hload', hloaded, hcons⟩ := hdb.exists_consistent hclosed
  obtain rfl : s = s₀ := Option.some.inj (hload'.symm.trans hload)
  refine Run.exec_invariant (P := IndexStore.Agrees chain)
    (fun _ _ _ hr hstep => hr.step hstep) ?_ hrun
  exact ⟨hcons, ⟨main, hloaded.storeAgrees hdb⟩, hloaded.puts⟩

end IndexStore

end BtclibNode.BlockIndex
