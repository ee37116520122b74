/-
# What every call of the block store keeps

`Kept` is what holds of the store between two calls: the keys say what the memory
says, the sizes are those on disk, every location is in a file of its kind, and a
count is never below the references.  Each method is first put as the state it
leaves, then shown to keep it.
-/
import BtclibNode.BlockDb.BlockDb

namespace BtclibNode.BlockDb

open StateExcept

variable {codec : BlockCodec} {s t : BlockDb} {f g : FlatFile} {h : Hash} {k : Suffix}
  {location : BlockLocation}

/-! ## The invariant -/

/-- How many blocks and patches are located in a file. -/
def located (s : BlockDb) (f : FlatFile) : ℕ :=
  RefCount.count s.blocks BlockLocation.file f + RefCount.count s.revPatches BlockLocation.file f

/-- `live[f]`. -/
def liveAt (s : BlockDb) (f : FlatFile) : ℕ := s.live[f]?.getD 0

/-- The keys of the store say what the memory says. -/
structure KeysKept (s : BlockDb) : Prop where
  files : s.db.files = s.files
  blocks : s.db.blocks = s.blocks
  revPatches : s.db.revPatches = s.revPatches
  fileIndex : s.db.fileIndex.getD 0 = s.fileIndex
  prunedUpTo : (s.db.prunedUpTo.map fun n => (n : ℤ) - 1).getD (-1) = s.prunedUpTo
  pruned_ge : -1 ≤ s.prunedUpTo

/-- The files are those on disk, and the handles are on them; a handle may be left on
an unlinked block file. -/
structure FilesKept (s : BlockDb) : Prop where
  sizes : ∀ f : FlatFile, s.files[f]? = s.disk[f]?.map List.length
  index : ∀ f ∈ s.files, 0 < f.index ∧ f.index ≤ s.fileIndex
  current : s.fileIndex ≠ 0 → FlatFile.mk s.fileIndex .blk ∈ s.files
  blockHandle : ∀ a, s.openBlockFile = some a → a.file.suffix = .blk ∧
    a.file.index ≤ s.fileIndex ∧ (a.unlinked = none ↔ a.file ∈ s.files)
  revHandle : ∀ a, s.openRevFile = some a → a.file.suffix = .rev ∧ a.unlinked = none ∧
    a.file ∈ s.files

/-- Every location is in a file of its kind. -/
structure LocationsKept (s : BlockDb) : Prop where
  block : ∀ (h : Hash) (l : BlockLocation), s.blocks[h]? = some l →
    l.file.suffix = .blk ∧ l.file ∈ s.files
  rev : ∀ (h : Hash) (l : BlockLocation), s.revPatches[h]? = some l →
    l.file.suffix = .rev ∧ l.file ∈ s.files
  pending : (s.pendingRevBlocks.map RevBlock.hash).Nodup

/-- A count is never below the references, and that of a block file is exact. -/
structure CountsKept (s : BlockDb) : Prop where
  le : ∀ f, s.located f ≤ s.liveAt f
  exact : ∀ f, f.suffix = .blk → s.liveAt f = s.located f

/-- What every statement of a call keeps. -/
structure Kept (s : BlockDb) : Prop where
  keys : KeysKept s
  files : FilesKept s
  locations : LocationsKept s
  counts : CountsKept s

/-- A patch is in the file beside that of its block. -/
def Beside (s : BlockDb) : Prop :=
  ∀ (h : Hash) (l : BlockLocation), s.revPatches[h]? = some l →
    ∃ b : BlockLocation, s.blocks[h]? = some b ∧ b.file.index = l.file.index

theorem mem_files_iff (hs : FilesKept s) : f ∈ s.files ↔ f ∈ s.disk := by
  rw [FiniteMap.mem_iff_exists, FiniteMap.mem_iff_exists, hs.sizes f]
  constructor
  · rintro ⟨n, h⟩
    obtain ⟨data, hdata, -⟩ := Option.map_eq_some_iff.mp h
    exact ⟨data, hdata⟩
  · rintro ⟨data, h⟩
    exact ⟨data.length, by rw [h]; rfl⟩

theorem KeysKept.of_eq (hs : KeysKept s) (hdb : t.db = s.db) (hfiles : t.files = s.files)
    (hblocks : t.blocks = s.blocks) (hrev : t.revPatches = s.revPatches)
    (hindex : t.fileIndex = s.fileIndex) (hpruned : t.prunedUpTo = s.prunedUpTo) : KeysKept t :=
  ⟨by rw [hdb, hfiles, hs.files], by rw [hdb, hblocks, hs.blocks], by rw [hdb, hrev, hs.revPatches],
    by rw [hdb, hindex, hs.fileIndex], by rw [hdb, hpruned, hs.prunedUpTo],
    by rw [hpruned]; exact hs.pruned_ge⟩

/-- Locations stay in the files while no file goes. -/
theorem LocationsKept.of_eq (hs : LocationsKept s) (hblocks : t.blocks = s.blocks)
    (hrev : t.revPatches = s.revPatches) (hpending : t.pendingRevBlocks = s.pendingRevBlocks)
    (hfiles : ∀ f ∈ s.files, f ∈ t.files) : LocationsKept t := by
  refine ⟨fun h l hl => ?_, fun h l hl => ?_, by rw [hpending]; exact hs.pending⟩
  · rw [hblocks] at hl
    obtain ⟨hsuffix, hmem⟩ := hs.block h l hl
    exact ⟨hsuffix, hfiles _ hmem⟩
  · rw [hrev] at hl
    obtain ⟨hsuffix, hmem⟩ := hs.rev h l hl
    exact ⟨hsuffix, hfiles _ hmem⟩

theorem CountsKept.of_eq (hs : CountsKept s) (hblocks : t.blocks = s.blocks)
    (hrev : t.revPatches = s.revPatches) (hlive : t.live = s.live) : CountsKept t := by
  have hlocated : ∀ f : FlatFile, t.located f = s.located f := by
    intro f
    rw [located, located, hblocks, hrev]
  have hliveAt : ∀ f : FlatFile, t.liveAt f = s.liveAt f := by
    intro f
    rw [liveAt, liveAt, hlive]
  exact ⟨fun f => by rw [hlocated, hliveAt]; exact hs.le f,
    fun f hf => by rw [hlocated, hliveAt]; exact hs.exact f hf⟩

theorem kept_fresh : Kept fresh where
  keys := ⟨rfl, rfl, rfl, rfl, rfl, Int.le_refl _⟩
  files := ⟨fun _ => rfl, fun _ h => absurd h Std.ExtTreeMap.not_mem_empty, fun h => absurd rfl h,
    nofun, nofun⟩
  locations := ⟨nofun, nofun, List.nodup_nil⟩
  counts := ⟨fun _ => Nat.zero_le _, fun _ _ => rfl⟩

/-! ## Opening a file -/

/-- A handle on a file of the store. -/
theorem getFile_of_mem (hs : FilesKept s) (hf : f ∈ s.files) (hk : f.suffix = k) :
    getFile k f s = s.setHandle k (some ⟨f, none⟩) := by
  unfold getFile
  split
  · next h =>
    obtain ⟨a, ha, rfl⟩ := Option.map_eq_some_iff.mp h
    have hlinked : a.unlinked = none := by
      cases k with
      | blk => exact (hs.blockHandle a ha).2.2.mpr hf
      | rev => exact (hs.revHandle a ha).2.1
    have hself : some (Handle.mk a.file none) = s.handle k := by rw [ha, ← hlinked]
    rw [hself]
    cases k <;> rfl
  · dsimp only
    rw [if_pos ((mem_files_iff hs).mp hf)]

/-- What a change of handle leaves alone. -/
theorem FilesKept.setHandle (hs : FilesKept s) (hf : f ∈ s.files) (hk : f.suffix = k) :
    FilesKept (s.setHandle k (some ⟨f, none⟩)) := by
  cases k with
  | blk =>
    refine ⟨hs.sizes, hs.index, hs.current, ?_, hs.revHandle⟩
    rintro a ha
    obtain rfl := Option.some.inj ha
    exact ⟨hk, (hs.index f hf).2, fun _ => hf, fun _ => rfl⟩
  | rev =>
    refine ⟨hs.sizes, hs.index, hs.current, hs.blockHandle, ?_⟩
    rintro a ha
    obtain rfl := Option.some.inj ha
    exact ⟨hk, rfl, hf⟩

theorem Kept.setHandle (hs : Kept s) (hf : f ∈ s.files) (hk : f.suffix = k) :
    Kept (s.setHandle k (some ⟨f, none⟩)) := by
  refine ⟨?_, hs.files.setHandle hf hk, ?_, ?_⟩
  · cases k <;> exact hs.keys.of_eq rfl rfl rfl rfl rfl rfl
  · cases k <;> exact hs.locations.of_eq rfl rfl rfl fun _ h => h
  · cases k <;> exact hs.counts.of_eq rfl rfl rfl

/-! ## A file more -/

/-- A new file, with its size and the handle on it. -/
def created (k : Suffix) (f : FlatFile) (s : BlockDb) : BlockDb :=
  { putFile f 0 s with disk := s.disk.insert f [] }.setHandle k (some ⟨f, none⟩)

theorem getFile_putFile (hdisk : f ∉ s.disk) (hhandle : ∀ a, s.handle k = some a → a.file ≠ f) :
    getFile k f (putFile f 0 s) = created k f s := by
  have hsame : (putFile f 0 s).handle k = s.handle k := by cases k <;> rfl
  unfold getFile
  rw [hsame, if_neg]
  · have hnew : f ∉ (putFile f 0 s).disk := hdisk
    dsimp only
    rw [if_neg hnew]
    rfl
  · intro h
    obtain ⟨a, ha, hf⟩ := Option.map_eq_some_iff.mp h
    exact hhandle a ha hf

/-- The number of the next file, in memory and in the store. -/
def bumpIndex (s : BlockDb) : BlockDb :=
  { s with fileIndex := s.fileIndex + 1, db := { s.db with fileIndex := some (s.fileIndex + 1) } }

theorem sizes_insert {files : Std.ExtTreeMap FlatFile ℕ}
    {disk : Std.ExtTreeMap FlatFile (List UInt8)}
    (hs : ∀ g : FlatFile, files[g]? = disk[g]?.map List.length) (data : List UInt8) (g : FlatFile) :
    (files.insert f data.length)[g]? = (disk.insert f data)[g]?.map List.length := by
  rw [FiniteMap.getElem?_insert, FiniteMap.getElem?_insert]
  split
  · rfl
  · exact hs g

/-- **Rotation.** -/
theorem Kept.rotated (hs : Kept s) :
    Kept (created .blk ⟨s.fileIndex + 1, .blk⟩ (bumpIndex s)) := by
  have hmem : ∀ f ∈ s.files, f ∈ s.files.insert ⟨s.fileIndex + 1, .blk⟩ 0 := by
    intro f hf
    rw [Std.ExtTreeMap.mem_insert]
    exact .inr hf
  have hnew : FlatFile.mk (s.fileIndex + 1) .blk ∈ s.files.insert ⟨s.fileIndex + 1, .blk⟩ 0 := by
    rw [Std.ExtTreeMap.mem_insert]
    exact .inl Std.ReflOrd.compare_self
  refine ⟨⟨?_, hs.keys.blocks, hs.keys.revPatches, rfl, hs.keys.prunedUpTo, hs.keys.pruned_ge⟩,
    ⟨sizes_insert hs.files.sizes [], ?_, fun _ => hnew, ?_, ?_⟩,
    hs.locations.of_eq rfl rfl rfl hmem, hs.counts.of_eq rfl rfl rfl⟩
  · show s.db.files.insert _ 0 = s.files.insert _ 0
    rw [hs.keys.files]
  · intro f hf
    change f ∈ s.files.insert _ 0 at hf
    show 0 < f.index ∧ f.index ≤ s.fileIndex + 1
    rw [Std.ExtTreeMap.mem_insert, Std.LawfulEqCmp.compare_eq_iff_eq] at hf
    rcases hf with rfl | hf
    · exact ⟨Nat.succ_pos _, Nat.le_refl _⟩
    · have hold := hs.files.index f hf
      omega
  · rintro a ha
    obtain rfl := Option.some.inj ha
    exact ⟨rfl, Nat.le_refl _, fun _ => hnew, fun _ => rfl⟩
  · intro a ha
    obtain ⟨hsuffix, hlinked, hfile⟩ := hs.files.revHandle a ha
    exact ⟨hsuffix, hlinked, hmem _ hfile⟩

/-- A first patch in the file beside a block file. -/
theorem Kept.created_rev (hs : Kept s) {i : ℕ} (hi : 0 < i) (hle : i ≤ s.fileIndex) :
    Kept (created .rev ⟨i, .rev⟩ s) := by
  have hmem : ∀ f ∈ s.files, f ∈ s.files.insert ⟨i, .rev⟩ 0 := by
    intro f hf
    rw [Std.ExtTreeMap.mem_insert]
    exact .inr hf
  have hnew : FlatFile.mk i .rev ∈ s.files.insert ⟨i, .rev⟩ 0 := by
    rw [Std.ExtTreeMap.mem_insert]
    exact .inl Std.ReflOrd.compare_self
  have hsplit : ∀ f, f ∈ s.files.insert ⟨i, .rev⟩ 0 → f = ⟨i, .rev⟩ ∨ f ∈ s.files := by
    intro f hf
    rw [Std.ExtTreeMap.mem_insert, Std.LawfulEqCmp.compare_eq_iff_eq] at hf
    exact hf.imp Eq.symm id
  refine ⟨⟨?_, hs.keys.blocks, hs.keys.revPatches, hs.keys.fileIndex, hs.keys.prunedUpTo,
    hs.keys.pruned_ge⟩, ⟨sizes_insert hs.files.sizes [], ?_, fun h => hmem _ (hs.files.current h), ?_, ?_⟩,
    hs.locations.of_eq rfl rfl rfl hmem, hs.counts.of_eq rfl rfl rfl⟩
  · show s.db.files.insert _ 0 = s.files.insert _ 0
    rw [hs.keys.files]
  · intro f hf
    rcases hsplit f hf with rfl | hf
    · exact ⟨hi, hle⟩
    · exact hs.files.index f hf
  · intro a ha
    obtain ⟨hsuffix, hindex, hlinked⟩ := hs.files.blockHandle a ha
    refine ⟨hsuffix, hindex, fun h => hmem _ (hlinked.mp h), fun h => ?_⟩
    rcases hsplit _ h with heq | h
    · rw [heq] at hsuffix
      cases hsuffix
    · exact hlinked.mpr h
  · intro a ha
    obtain rfl := Option.some.inj ha
    exact ⟨rfl, rfl, hnew⟩

/-! ## Data more -/

/-- Data at the end of a file. -/
def append (f : FlatFile) (data : List UInt8) (s : BlockDb) : BlockDb :=
  { putFile f (s.files[f]?.getD 0 + data.length) s with
    disk := s.disk.insert f (s.disk[f]?.getD [] ++ data) }

theorem addDataToFile_eq {data : List UInt8} (hhandle : s.handle k = some ⟨f, none⟩)
    (hf : f ∈ s.files) :
    addDataToFile k f data s = .ok (s.files[f]?.getD 0, data.length) (append f data s) := by
  obtain ⟨size, hsize⟩ := (FiniteMap.mem_iff_exists _ _).mp hf
  have hwrite : write k data s =
      { s with disk := s.disk.insert f (s.disk[f]?.getD [] ++ data) } := by
    unfold write
    rw [hhandle]
    rfl
  refine Sat.eq_ok ?_
  unfold addDataToFile
  rw [sat_bind, sat_modify, sat_bind, sat_get, hwrite]
  dsimp only
  rw [hsize, need, sat_bind, sat_pure, sat_bind, sat_modify, sat_pure]
  refine ⟨rfl, ?_⟩
  unfold append
  rw [hsize]
  rfl

theorem Kept.append (hs : Kept s) (hf : f ∈ s.files) (data : List UInt8) :
    Kept (append f data s) := by
  have hmem : ∀ g, g ∈ s.files.insert f (s.files[f]?.getD 0 + data.length) ↔ g ∈ s.files := by
    intro g
    rw [Std.ExtTreeMap.mem_insert, Std.LawfulEqCmp.compare_eq_iff_eq]
    constructor
    · rintro (rfl | hg)
      · exact hf
      · exact hg
    · exact .inr
  have hsize : s.files[f]?.getD 0 + data.length = (s.disk[f]?.getD [] ++ data).length := by
    rw [hs.files.sizes f, List.length_append]
    cases s.disk[f]? <;> rfl
  refine ⟨⟨?_, hs.keys.blocks, hs.keys.revPatches, hs.keys.fileIndex, hs.keys.prunedUpTo,
    hs.keys.pruned_ge⟩, ⟨?_, fun g hg => hs.files.index g ((hmem g).mp hg),
      fun h => (hmem _).mpr (hs.files.current h), fun a ha => ?_, fun a ha => ?_⟩,
    hs.locations.of_eq rfl rfl rfl fun g hg => (hmem g).mpr hg, hs.counts.of_eq rfl rfl rfl⟩
  · show s.db.files.insert _ _ = s.files.insert _ _
    rw [hs.keys.files]
  · show ∀ g, (s.files.insert f _)[g]? = (s.disk.insert f _)[g]?.map List.length
    rw [hsize]
    exact sizes_insert hs.files.sizes _
  · obtain ⟨hsuffix, hindex, hlinked⟩ := hs.files.blockHandle a ha
    exact ⟨hsuffix, hindex, hlinked.trans (hmem _).symm⟩
  · obtain ⟨hsuffix, hlinked, hfile⟩ := hs.files.revHandle a ha
    exact ⟨hsuffix, hlinked, (hmem _).mpr hfile⟩

/-! ## A block or a patch more -/

theorem located_putBlock (hnew : s.blocks[h]? = none) (g : FlatFile) :
    (putBlock h location s).located g = s.located g + if location.file = g then 1 else 0 := by
  show RefCount.count (s.blocks.insert h location) _ g + RefCount.count s.revPatches _ g = _
  rw [RefCount.count_insert hnew, located]
  omega

theorem liveAt_putBlock (g : FlatFile) :
    (putBlock h location s).liveAt g = s.liveAt g + if location.file = g then 1 else 0 :=
  RefCount.getD_bump s.live location.file g

theorem Kept.putBlock (hs : Kept s) (hnew : s.blocks[h]? = none)
    (hsuffix : location.file.suffix = .blk) (hf : location.file ∈ s.files) :
    Kept (putBlock h location s) := by
  refine ⟨⟨hs.keys.files, ?_, hs.keys.revPatches, hs.keys.fileIndex, hs.keys.prunedUpTo,
    hs.keys.pruned_ge⟩, ⟨hs.files.sizes, hs.files.index, hs.files.current, hs.files.blockHandle,
      hs.files.revHandle⟩, ⟨fun a l hl => ?_, hs.locations.rev, hs.locations.pending⟩,
    ⟨fun g => ?_, fun g hg => ?_⟩⟩
  · show s.db.blocks.insert _ _ = s.blocks.insert _ _
    rw [hs.keys.blocks]
  · change (s.blocks.insert h location)[a]? = some l at hl
    rw [FiniteMap.getElem?_insert] at hl
    split at hl
    · obtain rfl := Option.some.inj hl
      exact ⟨hsuffix, hf⟩
    · exact hs.locations.block a l hl
  · rw [located_putBlock hnew, liveAt_putBlock]
    exact Nat.add_le_add_right (hs.counts.le g) _
  · rw [located_putBlock hnew, liveAt_putBlock, hs.counts.exact g hg]

/-- A patch written once more is counted once more. -/
theorem located_putRevPatch (hold : ∀ l : BlockLocation, s.revPatches[h]? = some l →
      location.file = l.file) (g : FlatFile) :
    (putRevPatch h location s).located g =
      s.located g + if h ∉ s.revPatches ∧ location.file = g then 1 else 0 := by
  show RefCount.count s.blocks _ g + RefCount.count (s.revPatches.insert h location) _ g = _
  cases hrev : s.revPatches[h]? with
  | none =>
    have hnew : h ∉ s.revPatches := (FiniteMap.notMem_iff _ _).mpr hrev
    rw [RefCount.count_insert hrev, located]
    simp only [hnew, not_false_eq_true, true_and]
    omega
  | some l =>
    have hmem : ¬h ∉ s.revPatches :=
      not_not_intro ((FiniteMap.mem_iff_exists _ _).mpr ⟨l, hrev⟩)
    rw [RefCount.count_insert_same hrev (hold l hrev), if_neg fun hc => hmem hc.1]
    rfl

theorem liveAt_putRevPatch (g : FlatFile) :
    (putRevPatch h location s).liveAt g = s.liveAt g + if location.file = g then 1 else 0 :=
  RefCount.getD_bump s.live location.file g

theorem Kept.putRevPatch (hs : Kept s)
    (hold : ∀ l : BlockLocation, s.revPatches[h]? = some l → location.file = l.file)
    (hsuffix : location.file.suffix = .rev) (hf : location.file ∈ s.files) :
    Kept (putRevPatch h location s) := by
  refine ⟨⟨hs.keys.files, hs.keys.blocks, ?_, hs.keys.fileIndex, hs.keys.prunedUpTo,
    hs.keys.pruned_ge⟩, ⟨hs.files.sizes, hs.files.index, hs.files.current, hs.files.blockHandle,
      hs.files.revHandle⟩, ⟨hs.locations.block, fun a l hl => ?_, hs.locations.pending⟩,
    ⟨fun g => ?_, fun g hg => ?_⟩⟩
  · show s.db.revPatches.insert _ _ = s.revPatches.insert _ _
    rw [hs.keys.revPatches]
  · change (s.revPatches.insert h location)[a]? = some l at hl
    rw [FiniteMap.getElem?_insert] at hl
    split at hl
    · obtain rfl := Option.some.inj hl
      exact ⟨hsuffix, hf⟩
    · exact hs.locations.rev a l hl
  · rw [located_putRevPatch hold, liveAt_putRevPatch]
    have hle := hs.counts.le g
    split <;> split <;> first | omega | tauto
  · have hne : location.file ≠ g := by
      rintro rfl
      rw [hsuffix] at hg
      cases hg
    rw [located_putRevPatch hold, liveAt_putRevPatch, hs.counts.exact g hg, if_neg hne,
      if_neg fun hc => hne hc.2]

/-! ## `add_block` -/

/-- `__find_block_file` starts another file. -/
def rotates (s : BlockDb) : Bool :=
  s.fileIndex == 0 || decide (fileLimit < s.files[FlatFile.mk s.fileIndex .blk]?.getD 0)

/-- What `__find_block_file` leaves. -/
def placed (s : BlockDb) : BlockDb :=
  if s.rotates then created .blk ⟨s.fileIndex + 1, .blk⟩ (bumpIndex s)
  else s.setHandle .blk (some ⟨⟨s.fileIndex, .blk⟩, none⟩)

/-- The file of the next block. -/
def placedFile (s : BlockDb) : FlatFile := ⟨s.placed.fileIndex, .blk⟩

theorem Kept.current_mem (hs : Kept s) (hrotates : s.rotates = false) :
    FlatFile.mk s.fileIndex .blk ∈ s.files := by
  refine hs.files.current fun h => ?_
  rw [rotates, h] at hrotates
  cases hrotates

theorem Kept.placed (hs : Kept s) : Kept s.placed := by
  unfold BlockDb.placed
  split
  · exact hs.rotated
  · next h => exact hs.setHandle (hs.current_mem (Bool.not_eq_true _ ▸ h)) rfl

theorem Kept.placedFile_mem (hs : Kept s) : s.placedFile ∈ s.placed.files := by
  refine hs.placed.files.current ?_
  unfold BlockDb.placed
  split
  · exact Nat.succ_ne_zero s.fileIndex
  · next h =>
    intro hzero
    change s.fileIndex = 0 at hzero
    rw [rotates, hzero] at h
    exact h rfl

theorem handle_placed (s : BlockDb) :
    s.placed.handle .blk = some ⟨s.placedFile, none⟩ := by
  unfold placedFile placed
  split <;> rfl

/-- **`__find_block_file`.** -/
theorem findBlockFile_eq (hs : Kept s) :
    findBlockFile s = .ok s.placedFile s.placed := by
  have hget : getFile .blk ⟨s.fileIndex + 1, .blk⟩ s.rotate =
      created .blk ⟨s.fileIndex + 1, .blk⟩ (bumpIndex s) := by
    have hfresh : FlatFile.mk (s.fileIndex + 1) .blk ∉ s.files := by
      intro h
      have hindex := (hs.files.index _ h).2
      dsimp only at hindex
      omega
    refine getFile_putFile (s := bumpIndex s) (fun h => hfresh ((mem_files_iff hs.files).mpr h)) ?_
    intro a ha hfile
    have hindex := (hs.files.blockHandle a ha).2.1
    rw [hfile] at hindex
    dsimp only at hindex
    omega
  have hfull : isFull s = .ok s.rotates s := by
    refine Sat.eq_ok ?_
    unfold isFull
    rw [sat_bind, sat_get]
    by_cases hzero : s.fileIndex = 0
    · rw [if_pos hzero, sat_pure, rotates, hzero]
      exact ⟨rfl, rfl⟩
    · obtain ⟨size, hsize⟩ := (FiniteMap.mem_iff_exists _ _).mp (hs.files.current hzero)
      rw [if_neg hzero, hsize, need, sat_bind, sat_pure, sat_pure, rotates, hsize,
        beq_false_of_ne hzero]
      exact ⟨rfl, rfl⟩
  refine Sat.eq_ok ?_
  unfold findBlockFile
  rw [sat_bind_of_ok hfull, sat_bind, sat_modify, sat_bind, sat_get, sat_bind, sat_modify, sat_pure,
    placedFile, placed]
  split
  · exact ⟨rfl, hget⟩
  · next h =>
    exact ⟨rfl, getFile_of_mem hs.files (hs.current_mem (Bool.not_eq_true _ ▸ h)) rfl⟩

/-- What `add_block` of a new block leaves. -/
def added (codec : BlockCodec) (block : Block) (s : BlockDb) : BlockDb :=
  putBlock block.header.hash
    ⟨s.placedFile, s.placed.files[s.placedFile]?.getD 0, (codec.serialize block).length⟩
    (append s.placedFile (codec.serialize block) s.placed)

/-- **`add_block`.** -/
theorem addBlock_eq (hs : Kept s) (block : Block) :
    addBlock codec block s =
      .ok () (if block.header.hash ∈ s.blocks then s else added codec block s) := by
  refine Sat.eq_ok ?_
  unfold addBlock
  rw [sat_bind, sat_get]
  split
  · exact ⟨rfl, rfl⟩
  · rw [sat_bind_of_ok (findBlockFile_eq hs),
      sat_bind_of_ok (addDataToFile_eq (handle_placed s) hs.placedFile_mem)]
    exact ⟨rfl, rfl⟩

theorem Kept.added (hs : Kept s) {block : Block} (hnew : block.header.hash ∉ s.blocks) :
    Kept (added codec block s) := by
  have hblocks : s.placed.blocks = s.blocks := by
    unfold BlockDb.placed
    split <;> rfl
  refine (hs.placed.append hs.placedFile_mem _).putBlock ?_ rfl ?_
  · show s.placed.blocks[block.header.hash]? = none
    rw [hblocks]
    exact (FiniteMap.notMem_iff _ _).mp hnew
  · show s.placedFile ∈ s.placed.files.insert s.placedFile _
    rw [Std.ExtTreeMap.mem_insert]
    exact .inl Std.ReflOrd.compare_self

/-! ## `add_rev_block`, `finalize` and `rollback` -/

theorem Kept.addRevBlock (hs : Kept s) (rev : RevBlock) : Kept (s.addRevBlock rev) := by
  unfold BlockDb.addRevBlock
  split
  · exact hs
  · next h =>
    rw [not_or] at h
    refine ⟨hs.keys.of_eq rfl rfl rfl rfl rfl rfl, ⟨hs.files.sizes, hs.files.index,
      hs.files.current, hs.files.blockHandle, hs.files.revHandle⟩,
      ⟨hs.locations.block, hs.locations.rev, ?_⟩, hs.counts.of_eq rfl rfl rfl⟩
    rw [List.map_append, List.nodup_append]
    refine ⟨hs.locations.pending, List.nodup_singleton _, ?_⟩
    rintro a ha b hb rfl
    rw [List.map_singleton, List.mem_singleton] at hb
    exact h.2 (hb ▸ ha)

theorem Kept.rollback (hs : Kept s) : Kept s.rollback :=
  ⟨hs.keys.of_eq rfl rfl rfl rfl rfl rfl, ⟨hs.files.sizes, hs.files.index, hs.files.current,
    hs.files.blockHandle, hs.files.revHandle⟩, ⟨hs.locations.block, hs.locations.rev,
      List.nodup_nil⟩, hs.counts.of_eq rfl rfl rfl⟩

/-- What `__find_rev_file` leaves. -/
def revPlaced (f : FlatFile) (s : BlockDb) : BlockDb :=
  if f ∈ s.files then s.setHandle .rev (some ⟨f, none⟩) else created .rev f s

theorem findRevFile_eq (hs : FilesKept s) (hf : f.suffix = .rev) :
    findRevFile f s = revPlaced f s := by
  unfold findRevFile revPlaced
  split
  · next hmem => exact getFile_of_mem hs hmem hf
  · next hmem =>
    refine getFile_putFile (fun h => hmem ((mem_files_iff hs).mpr h)) ?_
    rintro a ha rfl
    exact hmem (hs.revHandle a ha).2.2

/-- What one turn of `finalize` leaves, for a block stored in the file `i`. -/
def wrote (codec : BlockCodec) (i : ℕ) (rev : RevBlock) (s : BlockDb) : BlockDb :=
  let placed := revPlaced ⟨i, .rev⟩ s
  putRevPatch rev.hash
    ⟨⟨i, .rev⟩, placed.files[FlatFile.mk i .rev]?.getD 0, (codec.serializeRev rev).length⟩
    (append ⟨i, .rev⟩ (codec.serializeRev rev) placed)

theorem writeRevBlock_eq (codec : BlockCodec) (hs : Kept s) (hbeside : Beside s) {rev : RevBlock} {b : BlockLocation}
    (hb : s.blocks[rev.hash]? = some b) :
    writeRevBlock codec rev s = .ok () (wrote codec b.file.index rev s) ∧
      Kept (wrote codec b.file.index rev s) := by
  have hfile := (hs.locations.block _ b hb).2
  have hindex := hs.files.index _ hfile
  have hplaced : Kept (revPlaced ⟨b.file.index, .rev⟩ s) := by
    unfold revPlaced
    split
    · next hmem => exact hs.setHandle hmem rfl
    · exact hs.created_rev hindex.1 hindex.2
  have hmem : FlatFile.mk b.file.index .rev ∈ (revPlaced ⟨b.file.index, .rev⟩ s).files := by
    unfold revPlaced
    split
    · next hmem => exact hmem
    · show _ ∈ s.files.insert _ 0
      rw [Std.ExtTreeMap.mem_insert]
      exact .inl Std.ReflOrd.compare_self
  have hhandle : (revPlaced ⟨b.file.index, .rev⟩ s).handle .rev =
      some ⟨⟨b.file.index, .rev⟩, none⟩ := by
    unfold revPlaced
    split <;> rfl
  constructor
  · refine Sat.eq_ok ?_
    unfold writeRevBlock
    rw [sat_bind, sat_get, hb, need, sat_bind, sat_pure, sat_bind, sat_modify,
      findRevFile_eq hs.files rfl, sat_bind_of_ok (addDataToFile_eq hhandle hmem)]
    exact ⟨rfl, rfl⟩
  · refine (hplaced.append hmem _).putRevPatch ?_ rfl ?_
    · intro l hl
      have hold : s.revPatches[rev.hash]? = some l := by
        change (revPlaced ⟨b.file.index, .rev⟩ s).revPatches[rev.hash]? = some l at hl
        unfold revPlaced at hl
        split at hl <;> exact hl
      obtain ⟨b', hb', hsame⟩ := hbeside _ l hold
      obtain rfl : b = b' := Option.some.inj (hb.symm.trans hb')
      rw [hsame, ← (hs.locations.rev _ l hold).1]
    · show _ ∈ (revPlaced _ s).files.insert _ _
      rw [Std.ExtTreeMap.mem_insert]
      exact .inl Std.ReflOrd.compare_self

/-! ## Unlinking -/

/-- A file gone, with what its handles become. -/
def unlinked (f : FlatFile) (s : BlockDb) : BlockDb :=
  { s with
    disk := s.disk.erase f
    openBlockFile := s.openBlockFile.map (Handle.unlink f s.disk[f]?)
    openRevFile := s.openRevFile.map (Handle.unlink f s.disk[f]?)
    files := s.files.erase f
    db := { s.db with files := s.db.files.erase f } }

theorem unlinkFile_eq (hf : f ∈ s.files) : unlinkFile f s = .ok () (unlinked f s) := by
  obtain ⟨size, hsize⟩ := (FiniteMap.mem_iff_exists _ _).mp hf
  refine Sat.eq_ok ?_
  unfold unlinkFile
  rw [sat_bind, sat_modify, sat_bind, sat_get]
  dsimp only
  rw [hsize, need, sat_bind, sat_pure]
  exact ⟨rfl, rfl⟩

/-- A file with nothing in it may go, where it is not the current one and no patch is
read from it. -/
theorem Kept.unlinked (hs : Kept s) (hf : f ∈ s.files) (hcurrent : f.index ≠ s.fileIndex)
    (hnone : s.located f = 0) (hrev : ∀ a, s.openRevFile = some a → a.file ≠ f) :
    Kept (unlinked f s) := by
  have hmem : ∀ g, g ∈ s.files.erase f ↔ f ≠ g ∧ g ∈ s.files := by
    intro g
    rw [Std.ExtTreeMap.mem_erase]
    refine and_congr_left fun _ => not_congr Std.LawfulEqCmp.compare_eq_iff_eq
  obtain ⟨data, hdata⟩ := (FiniteMap.mem_iff_exists _ _).mp ((mem_files_iff hs.files).mp hf)
  have hlocated : ∀ g, 0 < s.located g → f ≠ g := by
    rintro g hg rfl
    omega
  refine ⟨⟨?_, hs.keys.blocks, hs.keys.revPatches, hs.keys.fileIndex, hs.keys.prunedUpTo,
    hs.keys.pruned_ge⟩, ⟨fun g => ?_, fun g hg => ?_, fun h => ?_, fun a ha => ?_, fun a ha => ?_⟩,
    ⟨fun a l hl => ?_, fun a l hl => ?_, hs.locations.pending⟩, hs.counts.of_eq rfl rfl rfl⟩
  · show s.db.files.erase f = s.files.erase f
    rw [hs.keys.files]
  · show (s.files.erase f)[g]? = (s.disk.erase f)[g]?.map List.length
    rw [FiniteMap.getElem?_erase, FiniteMap.getElem?_erase]
    split
    · rfl
    · exact hs.files.sizes g
  · exact hs.files.index g ((hmem g).mp hg).2
  · refine (hmem _).mpr ⟨?_, hs.files.current h⟩
    intro heq
    rw [heq] at hcurrent
    exact hcurrent rfl
  · obtain ⟨a', ha', rfl⟩ := Option.map_eq_some_iff.mp ha
    obtain ⟨hsuffix, hindex, hlinked⟩ := hs.files.blockHandle a' ha'
    unfold Handle.unlink
    split
    · next heq =>
      refine ⟨hsuffix, hindex, ?_⟩
      rw [hdata]
      constructor
      · intro h
        cases hu : a'.unlinked <;> rw [hu] at h <;> cases h
      · intro h
        exact absurd heq.symm ((hmem _).mp h).1
    · next hne =>
      refine ⟨hsuffix, hindex, hlinked.trans ?_⟩
      rw [show (BlockDb.unlinked f s).files = s.files.erase f from rfl, hmem]
      exact (and_iff_right (Ne.symm hne)).symm
  · obtain ⟨a', ha', rfl⟩ := Option.map_eq_some_iff.mp ha
    obtain ⟨hsuffix, hlinked, hfile⟩ := hs.files.revHandle a' ha'
    have hne := hrev a' ha'
    rw [Handle.unlink, if_neg hne]
    exact ⟨hsuffix, hlinked, (hmem _).mpr ⟨hne.symm, hfile⟩⟩
  · obtain ⟨hsuffix, hfile⟩ := hs.locations.block a l hl
    refine ⟨hsuffix, (hmem _).mpr ⟨hlocated _ ?_, hfile⟩⟩
    exact Nat.lt_of_lt_of_le (RefCount.count_pos_iff.mpr ⟨a, l, hl, rfl⟩) (Nat.le_add_right _ _)
  · obtain ⟨hsuffix, hfile⟩ := hs.locations.rev a l hl
    refine ⟨hsuffix, (hmem _).mpr ⟨hlocated _ ?_, hfile⟩⟩
    exact Nat.lt_of_lt_of_le (RefCount.count_pos_iff.mpr ⟨a, l, hl, rfl⟩) (Nat.le_add_left _ _)

/-! ## `_release` -/

/-- One reference less in `live`. -/
def lowered (f : FlatFile) (s : BlockDb) : BlockDb :=
  { s with live :=
      if 0 < s.liveAt f - 1 then s.live.insert f (s.liveAt f - 1) else s.live.erase f }

theorem liveAt_lowered (f g : FlatFile) :
    (lowered f s).liveAt g = s.liveAt g - if f = g then 1 else 0 := by
  show (if 0 < s.liveAt f - 1 then s.live.insert f (s.liveAt f - 1) else s.live.erase f)[g]?.getD 0 =
    s.liveAt g - _
  split
  · rw [FiniteMap.getElem?_insert]
    split
    · next h =>
      rw [h]
      rfl
    · rfl
  · next hzero =>
    rw [FiniteMap.getElem?_erase]
    split
    · next h =>
      rw [h] at hzero
      show 0 = _
      omega
    · rfl

/-- A file whose last reference went. -/
def reclaimed (f : FlatFile) (isBlock : Bool) (s : BlockDb) : BlockDb :=
  if 0 < s.liveAt f ∨ s.isCurrent f then s else unlinked f (closeRevFile f isBlock s)

theorem release_eq (hf : f ∈ s.files) (isBlock : Bool) :
    release f isBlock s = .ok () (reclaimed f isBlock (lowered f s)) := by
  have hlive := liveAt_lowered (s := s) f f
  rw [if_pos rfl] at hlive
  refine Sat.eq_ok ?_
  unfold release reclaimed
  rw [sat_bind, sat_get, hlive]
  dsimp only
  by_cases hpos : 0 < s.liveAt f - 1
  · rw [if_pos (show 0 < s.live[f]?.getD 0 - 1 from hpos), if_pos (.inl hpos), lowered, if_pos hpos]
    exact ⟨rfl, rfl⟩
  · rw [if_neg (show ¬0 < s.live[f]?.getD 0 - 1 from hpos), lowered, if_neg hpos]
    rw [sat_bind, sat_modify]
    by_cases hcurrent : s.isCurrent f
    · rw [if_pos hcurrent, sat_pure]
      exact ⟨rfl, (if_pos (.inr hcurrent)).symm⟩
    · have hmem : f ∈ (closeRevFile f isBlock { s with live := s.live.erase f }).files := by
        unfold closeRevFile
        split <;> exact hf
      rw [if_neg hcurrent, sat_bind, sat_modify, sat_of_ok (unlinkFile_eq hmem)]
      exact ⟨rfl, (if_neg (not_or.mpr ⟨hpos, hcurrent⟩)).symm⟩

theorem Kept.closeRevFile (hs : Kept s) (f : FlatFile) (isBlock : Bool) :
    Kept (closeRevFile f isBlock s) := by
  unfold BlockDb.closeRevFile
  split
  · exact ⟨hs.keys.of_eq rfl rfl rfl rfl rfl rfl, ⟨hs.files.sizes, hs.files.index,
      hs.files.current, hs.files.blockHandle, nofun⟩, hs.locations.of_eq rfl rfl rfl fun _ h => h,
      hs.counts.of_eq rfl rfl rfl⟩
  · exact hs

theorem Kept.reclaimed (hs : Kept s) (hf : f ∈ s.files) {isBlock : Bool}
    (hkind : isBlock = true → f.suffix = .blk) : Kept (reclaimed f isBlock s) := by
  unfold BlockDb.reclaimed
  split
  · exact hs
  · next h =>
    rw [not_or] at h
    have hclosed := hs.closeRevFile f isBlock
    have hnone : s.located f = 0 := by
      have hle := hs.counts.le f
      omega
    refine hclosed.unlinked ?_ ?_ ?_ ?_
    · unfold BlockDb.closeRevFile
      split <;> exact hf
    · unfold BlockDb.closeRevFile
      split <;> exact fun heq => h.2 (beq_iff_eq.mpr heq)
    · unfold BlockDb.closeRevFile
      split <;> exact hnone
    · rintro a ha rfl
      unfold BlockDb.closeRevFile at ha
      split at ha
      · cases ha
      · next hopen =>
        cases isBlock with
        | true =>
          have hsuffix := hkind rfl
          rw [(hs.files.revHandle a ha).1] at hsuffix
          cases hsuffix
        | false =>
          refine hopen ⟨rfl, ?_⟩
          rw [ha]
          rfl

/-! ## `prune_up_to` -/

/-- A block's location forgotten. -/
def dropBlock (h : Hash) (s : BlockDb) : BlockDb :=
  { s with
    blocks := s.blocks.erase h
    db := { s.db with blocks := s.db.blocks.erase h } }

/-- A patch's location forgotten. -/
def dropRevBlock (h : Hash) (s : BlockDb) : BlockDb :=
  { s with
    revPatches := s.revPatches.erase h
    db := { s.db with revPatches := s.db.revPatches.erase h } }

theorem located_dropBlock {l : BlockLocation} (hl : s.blocks[h]? = some l) (g : FlatFile) :
    (dropBlock h s).located g + (if l.file = g then 1 else 0) = s.located g := by
  show RefCount.count (s.blocks.erase h) _ g + RefCount.count s.revPatches _ g + _ = _
  rw [located, ← RefCount.count_erase hl]
  omega

theorem located_dropRevBlock {l : BlockLocation} (hl : s.revPatches[h]? = some l)
    (g : FlatFile) :
    (dropRevBlock h s).located g + (if l.file = g then 1 else 0) = s.located g := by
  show RefCount.count s.blocks _ g + RefCount.count (s.revPatches.erase h) _ g + _ = _
  rw [located, ← RefCount.count_erase hl]
  omega

/-- A reference and its count go together. -/
theorem CountsKept.lowered (hs : CountsKept s) (hlive : t.live = s.live)
    (hlocated : ∀ g, t.located g + (if f = g then 1 else 0) = s.located g) :
    CountsKept (lowered f t) := by
  have hsame : ∀ g : FlatFile, t.liveAt g = s.liveAt g := by
    intro g
    rw [liveAt, liveAt, hlive]
  refine ⟨fun g => ?_, fun g hg => ?_⟩
  · rw [liveAt_lowered, hsame]
    have hle := hs.le g
    have hcount := hlocated g
    show t.located g ≤ _
    omega
  · rw [liveAt_lowered, hsame, hs.exact g hg, ← hlocated g]
    exact Nat.add_sub_cancel _ _

/-- What `_delete_block` leaves. -/
def deletedBlock (h : Hash) (s : BlockDb) : BlockDb :=
  match s.blocks[h]? with
  | none => s
  | some l => reclaimed l.file true (lowered l.file (dropBlock h s))

/-- What `_delete_rev_block` leaves. -/
def deletedRevBlock (h : Hash) (s : BlockDb) : BlockDb :=
  match s.revPatches[h]? with
  | none => s
  | some l => reclaimed l.file false (lowered l.file (dropRevBlock h s))

theorem deleteBlock_eq (hs : Kept s) (h : Hash) :
    deleteBlock h s = .ok () (deletedBlock h s) ∧ Kept (deletedBlock h s) := by
  unfold deletedBlock
  cases hl : s.blocks[h]? with
  | none =>
    refine ⟨Sat.eq_ok ?_, hs⟩
    unfold deleteBlock
    rw [sat_bind, sat_get, hl]
    exact ⟨rfl, rfl⟩
  | some l =>
    obtain ⟨hsuffix, hfile⟩ := hs.locations.block h l hl
    constructor
    · refine Sat.eq_ok ?_
      unfold deleteBlock
      rw [sat_bind, sat_get, hl]
      dsimp only
      exact (sat_of_ok (release_eq (s := dropBlock h s) hfile true)).mpr ⟨rfl, rfl⟩
    · dsimp only
      refine Kept.reclaimed (s := lowered l.file (dropBlock h s)) ?_ hfile fun _ => hsuffix
      refine ⟨⟨hs.keys.files, ?_, hs.keys.revPatches, hs.keys.fileIndex, hs.keys.prunedUpTo,
        hs.keys.pruned_ge⟩, ⟨hs.files.sizes, hs.files.index, hs.files.current,
          hs.files.blockHandle, hs.files.revHandle⟩, ⟨fun a b hb => ?_, hs.locations.rev,
            hs.locations.pending⟩, hs.counts.lowered rfl (located_dropBlock hl)⟩
      · show s.db.blocks.erase h = s.blocks.erase h
        rw [hs.keys.blocks]
      · change (s.blocks.erase h)[a]? = some b at hb
        rw [FiniteMap.getElem?_erase] at hb
        split at hb
        · cases hb
        · exact hs.locations.block a b hb

theorem deleteRevBlock_eq (hs : Kept s) (h : Hash) :
    deleteRevBlock h s = .ok () (deletedRevBlock h s) ∧ Kept (deletedRevBlock h s) := by
  unfold deletedRevBlock
  cases hl : s.revPatches[h]? with
  | none =>
    refine ⟨Sat.eq_ok ?_, hs⟩
    unfold deleteRevBlock
    rw [sat_bind, sat_get, hl]
    exact ⟨rfl, rfl⟩
  | some l =>
    obtain ⟨hsuffix, hfile⟩ := hs.locations.rev h l hl
    constructor
    · refine Sat.eq_ok ?_
      unfold deleteRevBlock
      rw [sat_bind, sat_get, hl]
      dsimp only
      exact (sat_of_ok (release_eq (s := dropRevBlock h s) hfile false)).mpr ⟨rfl, rfl⟩
    · dsimp only
      refine Kept.reclaimed (s := lowered l.file (dropRevBlock h s)) ?_ hfile nofun
      refine ⟨⟨hs.keys.files, hs.keys.blocks, ?_, hs.keys.fileIndex, hs.keys.prunedUpTo,
        hs.keys.pruned_ge⟩, ⟨hs.files.sizes, hs.files.index, hs.files.current,
          hs.files.blockHandle, hs.files.revHandle⟩, ⟨hs.locations.block, fun a b hb => ?_,
            hs.locations.pending⟩, hs.counts.lowered rfl (located_dropRevBlock hl)⟩
      · show s.db.revPatches.erase h = s.revPatches.erase h
        rw [hs.keys.revPatches]
      · change (s.revPatches.erase h)[a]? = some b at hb
        rw [FiniteMap.getElem?_erase] at hb
        split at hb
        · cases hb
        · exact hs.locations.rev a b hb

end BtclibNode.BlockDb
