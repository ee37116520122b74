/-
# Staged statuses

A record of the index reaches the store at once, or waits in `pending` for
`finalize`.  The store has a slot for one batch, and while it is open every
write, whoever asks for it, goes into the batch in the order it was asked for.
In any order of the calls the record of the store, replaced by the one that
waits, is the record of the index.
-/
import BtclibNode.Chainstate.IndexStore

namespace BtclibNode.BlockIndex

/-! ## The store and its batch -/

/-- `KeyValueStore`, of which the `blkinfo-` records are read: what is committed, and the
writes of `_pending_batch`. -/
structure KeyValueStore where
  db : BlockTable
  pendingBatch : Option (List BlockInfo)

namespace KeyValueStore

/-- `put` of a record under its header's hash. -/
def put (kv : KeyValueStore) (info : BlockInfo) : KeyValueStore :=
  match kv.pendingBatch with
  | some batch => { kv with pendingBatch := some (batch ++ [info]) }
  | none => { kv with db := kv.db.insert info.header.hash info }

/-- One `put` after the other. -/
def putAll (kv : KeyValueStore) (infos : List BlockInfo) : KeyValueStore := infos.foldl put kv

/-- `write_batch` as its block is entered: a batch does not nest. -/
def openBatch (kv : KeyValueStore) : Option KeyValueStore :=
  match kv.pendingBatch with
  | some _ => none
  | none => some { kv with pendingBatch := some [] }

/-- `write_batch` as its block returns. -/
def closeBatch (kv : KeyValueStore) : Option KeyValueStore :=
  kv.pendingBatch.map fun batch => ⟨writeAll kv.db batch, none⟩

/-- The records, those of an open batch as it will write them. -/
def records (kv : KeyValueStore) : BlockTable := writeAll kv.db (kv.pendingBatch.getD [])

section Records

variable {kv kv' : KeyValueStore}

theorem records_eq_db (h : kv.pendingBatch = none) : kv.records = kv.db := by
  unfold records
  rw [h]
  rfl

theorem records_put (kv : KeyValueStore) (info : BlockInfo) :
    (kv.put info).records = writeAll kv.records [info] := by
  unfold records put
  cases hbatch : kv.pendingBatch with
  | some batch => exact writeAll_append kv.db batch [info]
  | none =>
    simp only
    rfl

theorem records_putAll (kv : KeyValueStore) (infos : List BlockInfo) :
    (kv.putAll infos).records = writeAll kv.records infos := by
  induction infos generalizing kv with
  | nil => rfl
  | cons info infos ih =>
    show ((kv.put info).putAll infos).records = _
    rw [ih, records_put, ← writeAll_append, List.singleton_append]

theorem records_openBatch (h : kv.openBatch = some kv') : kv'.records = kv.records := by
  unfold openBatch at h
  split at h
  · cases h
  · next hbatch =>
    cases h
    rw [records_eq_db hbatch]
    rfl

theorem records_closeBatch (h : kv.closeBatch = some kv') : kv'.records = kv.records := by
  unfold closeBatch at h
  obtain ⟨batch, hbatch, rfl⟩ := Option.map_eq_some_iff.mp h
  rw [records_eq_db rfl]
  unfold records
  rw [hbatch]
  rfl

end Records

end KeyValueStore

/-! ## The machine -/

/-- A call of the index, and the ends of a `write_batch` block of its store.  Of `finalize`
it is said whether it is given the store, which is what `write_batch` yields, or opens a
batch of its own; `set_status` writes to the store given it or not.  `restart` loads a new
index from what is committed. -/
inductive StatusCall where
  | stageStatus (h : Hash) (status : BlockStatus)
  | setStatus (h : Hash) (status : BlockStatus)
  | setDownloaded (h : Hash) (downloaded : Bool)
  | addHeaders (headers : List BlockHeader) (punishCachedInvalid minPowChecked : Bool) (now : ℤ)
  | invalidate (h : Hash)
  | reconsider (h : Hash)
  | addToActiveChain (h : Hash)
  | removeFromActiveChain (h : Hash)
  | finalize (wb : Bool)
  | openBatch
  | closeBatch
  | restart

/-- The index and its store. -/
structure Staging where
  index : BlockIndex
  store : KeyValueStore

namespace Staging

/-- A call that puts what it writes as it writes it. -/
def writing (w : Staging) (t : BlockIndex) : Staging :=
  ⟨{ t with puts := [] }, w.store.putAll t.puts⟩

/-- What a call makes of the index and of the store, where it returns. -/
def step (chain : Chain) (w : Staging) : StatusCall → Option Staging
  | .stageStatus h status => (w.index.stageStatus h status).map w.writing
  | .setStatus h status => (w.index.setStatus h status).map w.writing
  | .setDownloaded h downloaded => (w.index.setDownloaded h downloaded).map w.writing
  | .addHeaders headers punish minPow now =>
    (w.index.addHeaders chain headers punish minPow now).map fun t => w.writing t.1
  | .invalidate h => (w.index.invalidate h).map w.writing
  | .reconsider h => (w.index.reconsider h).map w.writing
  | .addToActiveChain h => some (w.writing (w.index.addToActiveChain h))
  | .removeFromActiveChain h => (w.index.removeFromActiveChain h).map w.writing
  | .finalize wb =>
    let (infos, t) := w.index.finalize
    if wb then some ⟨t, w.store.putAll infos⟩
    else do
      let opened ← w.store.openBatch
      return ⟨t, ← (opened.putAll infos).closeBatch⟩
  | .openBatch => w.store.openBatch.map fun store => { w with store }
  | .closeBatch => w.store.closeBatch.map fun store => { w with store }
  | .restart => (initFromDb chain w.store.db).map fun t => ⟨t, w.store.db, none⟩

/-- The record of the store under the header's key, replaced by the one that waits. -/
def current (w : Staging) (h : Hash) : Option BlockInfo :=
  w.index.pending[h]?.or w.store.records[h]?

end Staging

/-! ## What a write keeps -/

/-- Every record stands under its own hash. -/
def Keyed (db : BlockTable) : Prop :=
  ∀ (h : Hash) (info : BlockInfo), db[h]? = some info → info.header.hash = h

/-- The records of the index are those that wait and those of the store, the store being `db`
after the writes of the call. -/
structure Mirrors (chain : Chain) (db : BlockTable) (s : BlockIndex) : Prop where
  keyed : ∀ h info, s.getBlockInfo h = some info → info.header.hash = h
  staged : ∀ (h : Hash) (info : BlockInfo), s.pending[h]? = some info →
    s.getBlockInfo h = some info
  written : ∀ h info, s.getBlockInfo h = some info → h ∉ s.pending →
    (writeAll db s.puts)[h]? = some info ∨
      h = chain.genesis.hash ∧ (writeAll db s.puts)[h]? = none

/-- `t` has the records of `s`, those that wait and those written. -/
structure SameStaging (s t : BlockIndex) : Prop where
  headerDict : t.headerDict = s.headerDict
  pending : t.pending = s.pending
  puts : t.puts = s.puts

section Writes

variable {chain : Chain} {db : BlockTable} {s t u : BlockIndex} {h x : Hash} {info : BlockInfo}

/-- What a call that returns has taken. -/
theorem exists_of_bind {α β : Type} {x : Option α} {f : α → Option β} {b : β}
    (hx : (x >>= f) = some b) : ∃ a, x = some a ∧ f a = some b :=
  Option.bind_eq_some_iff.mp hx

theorem SameStaging.refl (s : BlockIndex) : SameStaging s s := ⟨rfl, rfl, rfl⟩

theorem SameStaging.trans (h : SameStaging s t) (h' : SameStaging t u) : SameStaging s u :=
  ⟨h'.headerDict.trans h.headerDict, h'.pending.trans h.pending, h'.puts.trans h.puts⟩

theorem Mirrors.congr (hm : Mirrors chain db s) (h : SameStaging s t) : Mirrors chain db t := by
  have hinfo : t.getBlockInfo = s.getBlockInfo := by
    unfold getBlockInfo
    rw [h.headerDict]
  constructor
  · rw [hinfo]
    exact hm.keyed
  · rw [hinfo, h.pending]
    exact hm.staged
  · rw [hinfo, h.pending, h.puts]
    exact hm.written

theorem getBlockInfo_recordBlockInfo (s : BlockIndex) (info : BlockInfo) (x : Hash) :
    (s.recordBlockInfo info).getBlockInfo x =
      if info.header.hash = x then some info else s.getBlockInfo x :=
  Dict.get?_set _ _ _ _

/-- A record that waits. -/
theorem Mirrors.stage (hm : Mirrors chain db s) (info : BlockInfo) :
    Mirrors chain db (s.stage info) := by
  have hget : ∀ x, (s.stage info).getBlockInfo x =
      if info.header.hash = x then some info else s.getBlockInfo x :=
    getBlockInfo_recordBlockInfo s info
  have hpending : ∀ x : Hash, (s.stage info).pending[x]? =
      if info.header.hash = x then some info else s.pending[x]? :=
    fun x => FiniteMap.getElem?_insert s.pending info.header.hash x info
  constructor
  · intro x xinfo hx
    rw [hget] at hx
    split at hx
    · next heq =>
      cases hx
      exact heq
    · exact hm.keyed x xinfo hx
  · intro x xinfo hx
    rw [hpending] at hx
    rw [hget]
    split at hx
    · next heq => rw [if_pos heq, hx]
    · next hne =>
      rw [if_neg hne]
      exact hm.staged x xinfo hx
  · intro x xinfo hx hwait
    rw [FiniteMap.notMem_iff, hpending] at hwait
    split at hwait
    · cases hwait
    · next hne =>
      rw [hget, if_neg hne] at hx
      exact hm.written x xinfo hx ((FiniteMap.notMem_iff _ _).mpr hwait)

/-- A record written through, where none of its hash waits. -/
theorem Mirrors.insertBlockInfo (hm : Mirrors chain db s) (hwait : info.header.hash ∉ s.pending) :
    Mirrors chain db (s.insertBlockInfo info) := by
  have hget : ∀ x, (s.insertBlockInfo info).getBlockInfo x =
      if info.header.hash = x then some info else s.getBlockInfo x :=
    getBlockInfo_recordBlockInfo s info
  have hputs : ∀ x : Hash, (writeAll db (s.insertBlockInfo info).puts)[x]? =
      if info.header.hash = x then some info else (writeAll db s.puts)[x]? := by
    intro x
    show (writeAll db (s.puts ++ [info]))[x]? = _
    rw [writeAll_append]
    exact FiniteMap.getElem?_insert _ _ _ _
  constructor
  · intro x xinfo hx
    rw [hget] at hx
    split at hx
    · next heq =>
      cases hx
      exact heq
    · exact hm.keyed x xinfo hx
  · intro x xinfo hx
    have hne : info.header.hash ≠ x := by
      rintro rfl
      exact hwait ((FiniteMap.mem_iff_exists _ _).mpr ⟨xinfo, hx⟩)
    rw [hget, if_neg hne]
    exact hm.staged x xinfo hx
  · intro x xinfo hx hxwait
    rw [hget] at hx
    rw [hputs]
    split at hx
    · next heq =>
      left
      rw [if_pos heq, hx]
    · next hne =>
      rw [if_neg hne]
      exact hm.written x xinfo hx hxwait

theorem Mirrors.updateBlockInfo (hm : Mirrors chain db s) (info : BlockInfo) :
    Mirrors chain db (s.updateBlockInfo info) := by
  unfold BlockIndex.updateBlockInfo
  split
  · exact hm.stage info
  · next hwait => exact hm.insertBlockInfo hwait

theorem Mirrors.setStatus {status : BlockStatus} (hm : Mirrors chain db s)
    (ht : s.setStatus h status = some t) : Mirrors chain db t := by
  unfold BlockIndex.setStatus at ht
  obtain ⟨info, -, ht⟩ := exists_of_bind ht
  cases ht
  exact hm.updateBlockInfo _

theorem Mirrors.stageStatus {status : BlockStatus} (hm : Mirrors chain db s)
    (ht : s.stageStatus h status = some t) : Mirrors chain db t := by
  unfold BlockIndex.stageStatus at ht
  obtain ⟨info, -, ht⟩ := exists_of_bind ht
  cases ht
  exact hm.stage _

/-! ## What writes nothing -/

theorem growHeaderIndex_sameStaging {header : BlockHeader} {newWork : ℕ}
    (ht : s.growHeaderIndex header h newWork = some t) : SameStaging s t := by
  unfold growHeaderIndex at ht
  obtain ⟨best, -, ht⟩ := exists_of_bind ht
  split at ht
  · cases ht
    exact ⟨rfl, rfl, rfl⟩
  · obtain ⟨work, -, ht⟩ := exists_of_bind ht
    split at ht
    · obtain ⟨⟨add, remove⟩, -, ht⟩ := exists_of_bind ht
      obtain ⟨pos, -, ht⟩ := exists_of_bind ht
      cases ht
      exact ⟨rfl, rfl, rfl⟩
    · cases ht
      exact SameStaging.refl s

theorem extendHeaderIndex_sameStaging {hashes : List Hash}
    (ht : BlockIndex.extendHeaderIndex s hashes = some t) : SameStaging s t := by
  induction hashes generalizing s with
  | nil =>
    cases ht
    exact SameStaging.refl _
  | cons h rest ih =>
    unfold extendHeaderIndex at ht
    split at ht
    · exact ih ht
    · obtain ⟨info, -, ht⟩ := exists_of_bind ht
      split at ht
      · exact ih ht
      · obtain ⟨work, -, ht⟩ := exists_of_bind ht
        obtain ⟨r, hr, ht⟩ := exists_of_bind ht
        exact (growHeaderIndex_sameStaging hr).trans (ih ht)

theorem rebuildHeaderIndex_sameStaging (ht : s.rebuildHeaderIndex = some t) :
    SameStaging s t := by
  have hext := extendHeaderIndex_sameStaging ht
  exact ⟨hext.headerDict, hext.pending, hext.puts⟩

theorem generateBlockCandidates_sameStaging (ht : s.generateBlockCandidates = some t) :
    SameStaging s t := by
  unfold generateBlockCandidates at ht
  obtain ⟨tip, -, ht⟩ := exists_of_bind ht
  obtain ⟨candidates, -, ht⟩ := exists_of_bind ht
  cases ht
  exact ⟨rfl, rfl, rfl⟩

theorem weighInvalid_sameStaging (ht : s.weighInvalid h = some t) : SameStaging s t := by
  unfold weighInvalid at ht
  split at ht
  · cases ht
    exact ⟨rfl, rfl, rfl⟩
  · obtain ⟨best, -, ht⟩ := exists_of_bind ht
    obtain ⟨work, -, ht⟩ := exists_of_bind ht
    split at ht
    · cases ht
      exact ⟨rfl, rfl, rfl⟩
    · cases ht
      exact SameStaging.refl s

theorem buildSkip_sameStaging (ht : s.buildSkip h info = some t) : SameStaging s t := by
  unfold buildSkip at ht
  split at ht
  · cases ht
    exact SameStaging.refl s
  · obtain ⟨target, -, ht⟩ := exists_of_bind ht
    cases ht
    exact ⟨rfl, rfl, rfl⟩

theorem linkFrom_sameStaging (fuel : ℕ) (queue : List Hash) (s : BlockIndex) :
    SameStaging s (linkFrom fuel queue s) := by
  induction fuel generalizing queue s with
  | zero => exact SameStaging.refl s
  | succ fuel ih =>
    cases queue with
    | nil => exact SameStaging.refl s
    | cons current queue =>
      have hrest := ih (queue ++ s.unlinked[current]?.getD [])
        { s with
          sequenceId := s.sequenceId.insert current s.nextSequenceId
          nextSequenceId := s.nextSequenceId + 1
          unlinked := s.unlinked.erase current }
      exact ⟨hrest.headerDict, hrest.pending, hrest.puts⟩

theorem link_sameStaging (ht : s.link h = some t) : SameStaging s t := by
  unfold link at ht
  obtain ⟨info, -, ht⟩ := exists_of_bind ht
  dsimp only at ht
  split at ht
  · cases ht
    exact linkFrom_sameStaging _ _ s
  · cases ht
    exact ⟨rfl, rfl, rfl⟩

/-! ## What every call keeps -/

theorem Mirrors.setDownloaded {downloaded : Bool} (hm : Mirrors chain db s)
    (ht : s.setDownloaded h downloaded = some t) : Mirrors chain db t := by
  unfold BlockIndex.setDownloaded at ht
  obtain ⟨info, -, ht⟩ := exists_of_bind ht
  have hupdate := hm.updateBlockInfo (info.withDownloaded downloaded)
  split at ht
  · exact hupdate.congr (link_sameStaging ht)
  · cases ht
    exact hupdate

/-- A lineage marked invalid, one header after the other. -/
theorem Mirrors.invalidateFrom {fuel : ℕ} {stack invalidated invalidated' : List Hash}
    (hm : Mirrors chain db s)
    (ht : BlockIndex.invalidateFrom fuel stack invalidated s = some (invalidated', t)) :
    Mirrors chain db t := by
  induction fuel generalizing stack invalidated s with
  | zero =>
    cases stack with
    | nil =>
      cases ht
      exact hm
    | cons current stack => cases ht
  | succ fuel ih =>
    cases stack with
    | nil =>
      cases ht
      exact hm
    | cons current stack =>
      unfold BlockIndex.invalidateFrom at ht
      obtain ⟨r, hr, ht⟩ := exists_of_bind ht
      exact ih (hm.setStatus hr) ht

theorem Mirrors.invalidate (hm : Mirrors chain db s) (ht : s.invalidate h = some t) :
    Mirrors chain db t := by
  unfold BlockIndex.invalidate at ht
  obtain ⟨s₁, h₁, ht⟩ := exists_of_bind ht
  obtain ⟨⟨invalidated, s₂⟩, h₂, ht⟩ := exists_of_bind ht
  have hm₂ := (hm.congr (weighInvalid_sameStaging h₁)).invalidateFrom h₂
  have hm₃ : Mirrors chain db { s₂ with
      blockCandidates := s₂.blockCandidates.filter fun c => c.1 ∉ invalidated } :=
    hm₂.congr ⟨rfl, rfl, rfl⟩
  dsimp only at ht
  split at ht
  · exact hm₃.congr (rebuildHeaderIndex_sameStaging ht)
  · cases ht
    exact hm₃

/-- The headers marked again, one after the other. -/
theorem Mirrors.reconsiderFrom {height : ℕ} {hashes : List Hash} (hm : Mirrors chain db s)
    (ht : BlockIndex.reconsiderFrom h height hashes s = some t) : Mirrors chain db t := by
  induction hashes generalizing s with
  | nil =>
    cases ht
    exact hm
  | cons other rest ih =>
    unfold BlockIndex.reconsiderFrom at ht
    obtain ⟨info, -, ht⟩ := exists_of_bind ht
    split at ht
    · obtain ⟨shares, -, ht⟩ := exists_of_bind ht
      split at ht
      · obtain ⟨r, hr, ht⟩ := exists_of_bind ht
        exact ih ((hm.setStatus hr).congr (t := r.forgetBestInvalid other) ⟨rfl, rfl, rfl⟩) ht
      · exact ih hm ht
    · exact ih hm ht

theorem Mirrors.reconsider (hm : Mirrors chain db s) (ht : s.reconsider h = some t) :
    Mirrors chain db t := by
  unfold BlockIndex.reconsider at ht
  obtain ⟨info, -, ht⟩ := exists_of_bind ht
  obtain ⟨s₁, h₁, ht⟩ := exists_of_bind ht
  obtain ⟨s₂, h₂, ht⟩ := exists_of_bind ht
  exact ((hm.reconsiderFrom h₁).congr (generateBlockCandidates_sameStaging h₂)).congr
    (rebuildHeaderIndex_sameStaging ht)

/-- A header the index does not have waits nowhere, and is written through. -/
theorem Mirrors.insertHeader {currentWork parentHeight : ℕ} {header : BlockHeader}
    (hm : Mirrors chain db s) (hfresh : s.getBlockInfo header.hash = none)
    (ht : s.insertHeader chain currentWork header parentHeight = some t) :
    Mirrors chain db t := by
  have hwait : header.hash ∉ s.pending := by
    intro hmem
    obtain ⟨info, hinfo⟩ := (FiniteMap.mem_iff_exists _ _).mp hmem
    rw [hm.staged _ _ hinfo] at hfresh
    cases hfresh
  unfold BlockIndex.insertHeader at ht
  obtain ⟨work, -, ht⟩ := exists_of_bind ht
  obtain ⟨s₃, h₃, ht⟩ := exists_of_bind ht
  have hinsert : Mirrors chain db
      (s.insertBlockInfo ⟨header, parentHeight + 1, .validHeader, false⟩) :=
    hm.insertBlockInfo hwait
  have hm₃ : Mirrors chain db s₃ := by
    refine hinsert.congr ?_
    have hskip := buildSkip_sameStaging h₃
    exact ⟨hskip.headerDict, hskip.pending, hskip.puts⟩
  refine Mirrors.congr ?_ (growHeaderIndex_sameStaging ht)
  split
  · exact hm₃.congr ⟨rfl, rfl, rfl⟩
  · exact hm₃

theorem Mirrors.insertValidHeaders {currentWork : ℕ} {punish minPow : Bool} {now : ℤ}
    {headers : List BlockHeader} {result : Except HeaderError Unit} (hm : Mirrors chain db s)
    (ht : BlockIndex.insertValidHeaders chain currentWork punish minPow now headers s =
      some (t, result)) : Mirrors chain db t := by
  induction headers generalizing s with
  | nil =>
    cases ht
    exact hm
  | cons header rest ih =>
    unfold BlockIndex.insertValidHeaders at ht
    split at ht
    · cases ht
      exact hm
    · exact ih hm ht
    · next parentHeight hadmit =>
      obtain ⟨r, hr, ht⟩ := exists_of_bind ht
      exact ih (hm.insertHeader (fresh_of_admitHeader hadmit).1 hr) ht

theorem Mirrors.addHeaders {headers : List BlockHeader} {punish minPow : Bool} {now : ℤ}
    {result : Except HeaderError (Option Hash)} (hm : Mirrors chain db s)
    (ht : s.addHeaders chain headers punish minPow now = some (t, result)) :
    Mirrors chain db t := by
  unfold BlockIndex.addHeaders at ht
  split at ht
  · cases ht
    exact hm
  · obtain ⟨tip, -, ht⟩ := exists_of_bind ht
    obtain ⟨work, -, ht⟩ := exists_of_bind ht
    obtain ⟨⟨r, outcome⟩, hr, ht⟩ := exists_of_bind ht
    cases ht
    exact hm.insertValidHeaders hr

/-! ## A load -/

/-- What is read is a record that was read, or stood before and was not read over. -/
theorem readRecords_cases {infos : List BlockInfo} (ht : readRecords chain infos s = some t)
    (hinfo : t.getBlockInfo x = some info) :
    info ∈ infos ∧ info.header.hash = x ∨
      s.getBlockInfo x = some info ∧ ∀ other ∈ infos, other.header.hash ≠ x := by
  induction infos generalizing s with
  | nil =>
    cases ht
    exact .inr ⟨hinfo, fun other hother => by cases hother⟩
  | cons first rest ih =>
    unfold readRecords at ht
    split at ht
    · rcases ih ht with ⟨hmem, hhash⟩ | ⟨hbefore, hrest⟩
      · exact .inl ⟨List.mem_cons_of_mem first hmem, hhash⟩
      · change (s.headerDict.set first.header.hash first).get? x = some info at hbefore
        rw [Dict.get?_set] at hbefore
        split at hbefore
        · next heq =>
          cases hbefore
          exact .inl ⟨List.mem_cons_self, heq⟩
        · next hne =>
          right
          refine ⟨hbefore, fun other hother => ?_⟩
          rcases List.mem_cons.mp hother with rfl | hother
          · exact hne
          · exact hrest other hother
    · cases ht

theorem readRecords_others {infos : List BlockInfo} (ht : readRecords chain infos s = some t) :
    t.pending = s.pending ∧ t.puts = s.puts := by
  induction infos generalizing s with
  | nil =>
    cases ht
    exact ⟨rfl, rfl⟩
  | cons first rest ih =>
    unfold readRecords at ht
    split at ht
    · have hrest := ih ht
      exact hrest
    · cases ht

theorem weighHeader_sameStaging (ht : s.weighHeader chain h = some t) : SameStaging s t := by
  unfold weighHeader at ht
  obtain ⟨info, -, ht⟩ := exists_of_bind ht
  dsimp only at ht
  split at ht
  all_goals
    obtain ⟨oldWork, -, ht⟩ := exists_of_bind ht
    obtain ⟨s₂, h₂, ht⟩ := exists_of_bind ht
    have hskip := buildSkip_sameStaging h₂
    have hsame : SameStaging s s₂ := ⟨hskip.headerDict, hskip.pending, hskip.puts⟩
    split at ht
    · exact hsame.trans (weighInvalid_sameStaging ht)
    · cases ht
      exact hsame

theorem calculateChainwork_sameStaging {hashes : List Hash}
    (ht : calculateChainwork chain hashes s = some t) : SameStaging s t := by
  induction hashes generalizing s with
  | nil =>
    cases ht
    exact SameStaging.refl _
  | cons h rest ih =>
    unfold calculateChainwork at ht
    obtain ⟨r, hr, ht⟩ := exists_of_bind ht
    exact (weighHeader_sameStaging hr).trans (ih ht)

theorem loadSequenceIds_sameStaging {hashes : List Hash}
    (ht : loadSequenceIds hashes s = some t) : SameStaging s t := by
  induction hashes generalizing s with
  | nil =>
    cases ht
    exact SameStaging.refl _
  | cons h rest ih =>
    unfold loadSequenceIds at ht
    obtain ⟨info, -, ht⟩ := exists_of_bind ht
    dsimp only at ht
    split at ht
    · have hrest := ih ht
      exact ⟨hrest.headerDict, hrest.pending, hrest.puts⟩
    · split at ht
      · exact ih ht
      · split at ht
        all_goals
          have hrest := ih ht
          exact ⟨hrest.headerDict, hrest.pending, hrest.puts⟩

/-- A load mirrors the store. -/
theorem mirrors_of_load (hkeyed : Keyed db) (ht : initFromDb chain db = some t) :
    Mirrors chain db t ∧ t.puts = [] := by
  unfold initFromDb at ht
  obtain ⟨s₁, h₁, ht⟩ := exists_of_bind ht
  obtain ⟨s₂, h₂, ht⟩ := exists_of_bind ht
  obtain ⟨s₄, h₄, ht⟩ := exists_of_bind ht
  obtain ⟨s₅, h₅, ht⟩ := exists_of_bind ht
  have hsame : SameStaging s₁ t := by
    refine (calculateChainwork_sameStaging h₂).trans ?_
    refine SameStaging.trans (t := s₂.generateActiveChain) ⟨rfl, rfl, rfl⟩ ?_
    refine (loadSequenceIds_sameStaging h₄).trans ?_
    exact (generateBlockCandidates_sameStaging h₅).trans (rebuildHeaderIndex_sameStaging ht)
  obtain ⟨hpending, hputs⟩ := readRecords_others h₁
  have hmem : ∀ info, info ∈ db.toList.map Prod.snd ↔ db[info.header.hash]? = some info := by
    intro info
    rw [List.mem_map]
    constructor
    · rintro ⟨⟨h, info'⟩, hp, rfl⟩
      have hget := (FiniteMap.mem_toList db h info').mp hp
      rwa [hkeyed h info' hget]
    · intro hget
      exact ⟨(info.header.hash, info), (FiniteMap.mem_toList db _ _).mpr hget, rfl⟩
  have hgenesis : ∀ x info, (empty chain).getBlockInfo x = some info →
      x = chain.genesis.hash ∧ info.header.hash = x := by
    intro x info hx
    change (Dict.singleton _ _).get? x = some info at hx
    rw [Dict.get?_singleton] at hx
    split at hx
    · next heq =>
      cases hx
      exact ⟨heq.symm, heq⟩
    · cases hx
  refine ⟨Mirrors.congr ⟨fun x info hx => ?_, fun x info hx => ?_, fun x info hx hwait => ?_⟩ hsame,
    hsame.puts.trans hputs⟩
  · rcases readRecords_cases h₁ hx with ⟨-, hhash⟩ | ⟨hbefore, -⟩
    · exact hhash
    · exact (hgenesis x info hbefore).2
  · rw [hpending] at hx
    exact absurd hx (by simp [empty])
  · rw [hputs]
    show db[x]? = some info ∨ _ ∧ db[x]? = none
    rcases readRecords_cases h₁ hx with ⟨hread, rfl⟩ | ⟨hbefore, hrest⟩
    · exact .inl ((hmem info).mp hread)
    · right
      refine ⟨(hgenesis x info hbefore).1, ?_⟩
      cases hget : db[x]? with
      | none => rfl
      | some other =>
        have hhash := hkeyed x other hget
        exact absurd hhash (hrest other ((hmem other).mpr (by rwa [hhash])))

/-! ## `finalize` -/

/-- **After `finalize` nothing waits**, and its records mirror the index. -/
theorem Mirrors.finalize (hm : Mirrors chain db s) :
    Mirrors chain (writeAll db s.puts) { s.finalize.2 with puts := s.finalize.1 } := by
  have hget := fun x => getElem?_writeAll_finalize
    (fun y info hy => hm.keyed y info (hm.staged y info hy)) (writeAll db s.puts) x
  have hempty : ∀ x : Hash, x ∉ s.finalize.2.pending := fun x => Std.ExtTreeMap.not_mem_empty
  constructor
  · exact hm.keyed
  · intro x info hx
    exact absurd ((FiniteMap.mem_iff_exists _ _).mpr ⟨info, hx⟩) (hempty x)
  · intro x info hx _
    show (writeAll (writeAll db s.puts) s.finalize.1)[x]? = some info ∨
      _ ∧ (writeAll (writeAll db s.puts) s.finalize.1)[x]? = none
    rw [hget]
    by_cases hwait : x ∈ s.pending
    · rw [if_pos hwait]
      obtain ⟨info', hinfo'⟩ := (FiniteMap.mem_iff_exists _ _).mp hwait
      left
      rw [hinfo', ← hm.staged x info' hinfo']
      exact hx
    · rw [if_neg hwait]
      exact hm.written x info hx hwait

/-- The writes made, the store moved to what they left. -/
theorem Mirrors.written_through (hm : Mirrors chain db s) :
    Mirrors chain (writeAll db s.puts) { s with puts := [] } :=
  ⟨hm.keyed, hm.staged, hm.written⟩

theorem keyed_writeAll (hkeyed : Keyed db) (infos : List BlockInfo) :
    Keyed (writeAll db infos) := by
  induction infos generalizing db with
  | nil => exact hkeyed
  | cons info infos ih =>
    apply ih
    intro x xinfo hx
    rw [FiniteMap.getElem?_insert] at hx
    split at hx
    · next heq =>
      cases hx
      exact heq
    · exact hkeyed x xinfo hx

end Writes

/-! ## Runs -/

namespace Staging

/-- What holds between two calls. -/
structure Holds (chain : Chain) (w : Staging) : Prop where
  mirrors : Mirrors chain w.store.records w.index
  puts : w.index.puts = []
  keyed : Keyed w.store.db

section Runs

variable {chain : Chain} {db : BlockTable} {w w' : Staging} {t : BlockIndex}

theorem keyed_putAll {kv : KeyValueStore} (hkeyed : Keyed kv.db) (infos : List BlockInfo) :
    Keyed (kv.putAll infos).db := by
  induction infos generalizing kv with
  | nil => exact hkeyed
  | cons info infos ih =>
    apply ih
    unfold KeyValueStore.put
    split
    · exact hkeyed
    · exact keyed_writeAll hkeyed [info]

theorem Holds.writing (hw : w.Holds chain) (ht : Mirrors chain w.store.records t) :
    (w.writing t).Holds chain := by
  refine ⟨?_, rfl, keyed_putAll hw.keyed t.puts⟩
  show Mirrors chain (w.store.putAll t.puts).records { t with puts := [] }
  rw [KeyValueStore.records_putAll]
  exact ht.written_through

theorem Holds.finalize {wb : Bool} (hw : w.Holds chain)
    (hstep : w.step chain (.finalize wb) = some w') :
    w'.index = w.index.finalize.2 ∧
      w'.store.records = writeAll w.store.records w.index.finalize.1 ∧ Keyed w'.store.db := by
  unfold Staging.step at hstep
  dsimp only at hstep
  split at hstep
  · cases hstep
    exact ⟨rfl, KeyValueStore.records_putAll _ _, keyed_putAll hw.keyed _⟩
  · obtain ⟨opened, hopen, hstep⟩ := exists_of_bind hstep
    obtain ⟨closed, hclose, hstep⟩ := exists_of_bind hstep
    cases hstep
    refine ⟨rfl, ?_, ?_⟩
    · show closed.records = _
      rw [KeyValueStore.records_closeBatch hclose, KeyValueStore.records_putAll,
        KeyValueStore.records_openBatch hopen]
    · have hopened : Keyed opened.db := by
        unfold KeyValueStore.openBatch at hopen
        split at hopen
        · cases hopen
        · cases hopen
          exact hw.keyed
      obtain ⟨batch, -, rfl⟩ := Option.map_eq_some_iff.mp hclose
      exact keyed_writeAll (keyed_putAll hopened _) batch

/-- **Every call keeps the records of the index those that wait and those of the store.** -/
theorem Holds.step {c : StatusCall} (hw : w.Holds chain) (hstep : w.step chain c = some w') :
    w'.Holds chain := by
  have hwriting : ∀ {x : Option BlockIndex},
      (∀ t, x = some t → Mirrors chain w.store.records t) → x.map w.writing = some w' →
        w'.Holds chain := by
    intro x hx hstep
    obtain ⟨t, ht, rfl⟩ := Option.map_eq_some_iff.mp hstep
    exact hw.writing (hx t ht)
  have hm := hw.mirrors
  cases c with
  | stageStatus h status => exact hwriting (fun t ht => hm.stageStatus ht) hstep
  | setStatus h status => exact hwriting (fun t ht => hm.setStatus ht) hstep
  | setDownloaded h downloaded => exact hwriting (fun t ht => hm.setDownloaded ht) hstep
  | addHeaders headers punish minPow now =>
    obtain ⟨⟨t, result⟩, ht, rfl⟩ := Option.map_eq_some_iff.mp hstep
    exact hw.writing (hm.addHeaders ht)
  | invalidate h => exact hwriting (fun t ht => hm.invalidate ht) hstep
  | reconsider h => exact hwriting (fun t ht => hm.reconsider ht) hstep
  | addToActiveChain h =>
    cases hstep
    exact hw.writing (hm.congr ⟨rfl, rfl, rfl⟩)
  | removeFromActiveChain h =>
    refine hwriting (fun t ht => hm.congr ?_) hstep
    unfold BlockIndex.removeFromActiveChain at ht
    split at ht
    · cases ht
      exact ⟨rfl, rfl, rfl⟩
    · cases ht
  | finalize wb =>
    obtain ⟨hindex, hrecords, hkeyed⟩ := hw.finalize hstep
    have hfin := hm.finalize
    rw [hw.puts] at hfin
    refine ⟨?_, by rw [hindex]; exact hw.puts, hkeyed⟩
    rw [hindex, hrecords]
    refine hfin.written_through.congr ⟨rfl, rfl, ?_⟩
    exact hw.puts
  | openBatch =>
    obtain ⟨store, hopen, rfl⟩ := Option.map_eq_some_iff.mp hstep
    refine ⟨?_, hw.puts, ?_⟩
    · rw [KeyValueStore.records_openBatch hopen]
      exact hm
    · unfold KeyValueStore.openBatch at hopen
      split at hopen
      · cases hopen
      · cases hopen
        exact hw.keyed
  | closeBatch =>
    obtain ⟨store, hclose, rfl⟩ := Option.map_eq_some_iff.mp hstep
    refine ⟨?_, hw.puts, ?_⟩
    · rw [KeyValueStore.records_closeBatch hclose]
      exact hm
    · obtain ⟨batch, -, rfl⟩ := Option.map_eq_some_iff.mp hclose
      exact keyed_writeAll hw.keyed batch
  | restart =>
    obtain ⟨t, ht, rfl⟩ := Option.map_eq_some_iff.mp hstep
    obtain ⟨hload, hputs⟩ := mirrors_of_load hw.keyed ht
    exact ⟨hload, hputs, hw.keyed⟩

/-- The record of an indexed header is the one that waits, or else the one of the store. -/
theorem Holds.current (hw : w.Holds chain) {h : Hash} {info : BlockInfo}
    (hinfo : w.index.getBlockInfo h = some info) :
    w.current h = some info ∨ h = chain.genesis.hash ∧ w.current h = none := by
  unfold Staging.current
  cases hwait : w.index.pending[h]? with
  | some other =>
    left
    rw [Option.some_or, ← hw.mirrors.staged h other hwait, hinfo]
  | none =>
    have hwritten := hw.mirrors.written h info hinfo ((FiniteMap.notMem_iff _ _).mpr hwait)
    rw [hw.puts] at hwritten
    rw [Option.none_or]
    exact hwritten

/-- **Staged statuses are neither lost nor undone.** From a load of records under their own
hashes, after any calls in any order, the record of an indexed header other than a genesis
never written is the one of the store, replaced by the one that waits if one does; and once
`finalize` has run, into an open batch or its own, the store has the record of the index. -/
theorem current_of_run {db : BlockTable} {s₀ : BlockIndex} {calls : List StatusCall}
    (hkeyed : Keyed db) (hload : initFromDb chain db = some s₀)
    (hrun : Run.exec (Staging.step chain) ⟨s₀, db, none⟩ calls = some w) :
    (∀ h info, w.index.getBlockInfo h = some info →
      w.current h = some info ∨ h = chain.genesis.hash ∧ w.current h = none) ∧
    ∀ wb w', w.step chain (.finalize wb) = some w' →
      w'.index.headerDict = w.index.headerDict ∧
      ∀ h info, w.index.getBlockInfo h = some info →
        w'.store.records[h]? = some info ∨
          h = chain.genesis.hash ∧ w'.store.records[h]? = none := by
  obtain ⟨hmirrors, hputs⟩ := mirrors_of_load hkeyed hload
  have hstart : Holds chain ⟨s₀, db, none⟩ := ⟨hmirrors, hputs, hkeyed⟩
  have hw : w.Holds chain := Run.exec_invariant (P := Holds chain)
    (fun _ _ _ hr hstep => hr.step hstep) hstart hrun
  refine ⟨fun h info hinfo => hw.current hinfo, fun wb w' hstep => ?_⟩
  obtain ⟨hindex, -, -⟩ := hw.finalize hstep
  refine ⟨by rw [hindex]; rfl, fun h info hinfo => ?_⟩
  have hempty : w'.index.pending[h]? = none := by
    rw [hindex]
    exact Std.ExtTreeMap.getElem?_empty
  have hafter : w'.index.getBlockInfo h = some info := by
    rw [hindex]
    exact hinfo
  have hcurrent := (hw.step hstep).current hafter
  unfold Staging.current at hcurrent
  rwa [hempty, Option.none_or] at hcurrent

end Runs

/-- A header connected, found invalid while it waits, connected again in an open batch. -/
def flipFlop : List StatusCall :=
  [.addHeaders [lightHeader 2 1] true true 0, .stageStatus 2 .inActiveChain, .setStatus 2 .invalid,
    .openBatch, .finalize true, .setStatus 2 .valid, .closeBatch]

theorem current_of_run_flipFlop :
    ∃ s₀ w, initFromDb lightChain ∅ = some s₀ ∧
      Run.exec (Staging.step lightChain) ⟨s₀, ∅, none⟩ flipFlop = some w ∧
      (w.store.db[2]?).map BlockInfo.status = some .valid ∧
      ∀ h info, w.index.getBlockInfo h = some info →
        w.current h = some info ∨ h = lightChain.genesis.hash ∧ w.current h = none := by
  have heval : ((initFromDb lightChain ∅).bind fun s =>
      Run.exec (Staging.step lightChain) ⟨s, ∅, none⟩ flipFlop).map
        (fun w => (w.store.db[2]?).map BlockInfo.status) = some (some .valid) := by
    decide +kernel
  rw [Option.map_eq_some_iff] at heval
  obtain ⟨w, hw, hstatus⟩ := heval
  obtain ⟨s₀, hload, hrun⟩ := Option.bind_eq_some_iff.mp hw
  have hkeyed : Keyed ∅ := by
    intro h info hinfo
    rw [Std.ExtTreeMap.getElem?_empty] at hinfo
    cases hinfo
  exact ⟨s₀, w, hload, hrun, hstatus, (current_of_run hkeyed hload hrun).1⟩

end Staging

end BtclibNode.BlockIndex
