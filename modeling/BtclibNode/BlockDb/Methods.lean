/-
# The methods of the block store, as the states they leave

`prune_up_to`, `finalize`, the reads and a reopening; every call keeps `Sound`.
-/
import BtclibNode.BlockDb.Kept

namespace BtclibNode.BlockDb

open StateExcept

variable {codec : BlockCodec} {s t : BlockDb} {f g : FlatFile} {h : Hash} {k : Suffix}
  {location : BlockLocation}

/-! ## What a release leaves alone -/

@[simp] theorem blocks_reclaimed (f : FlatFile) (b : Bool) (s : BlockDb) :
    (reclaimed f b s).blocks = s.blocks := by
  unfold reclaimed closeRevFile
  split <;> [rfl; split <;> rfl]

@[simp] theorem revPatches_reclaimed (f : FlatFile) (b : Bool) (s : BlockDb) :
    (reclaimed f b s).revPatches = s.revPatches := by
  unfold reclaimed closeRevFile
  split <;> [rfl; split <;> rfl]

@[simp] theorem live_reclaimed (f : FlatFile) (b : Bool) (s : BlockDb) :
    (reclaimed f b s).live = s.live := by
  unfold reclaimed closeRevFile
  split <;> [rfl; split <;> rfl]

@[simp] theorem fileIndex_reclaimed (f : FlatFile) (b : Bool) (s : BlockDb) :
    (reclaimed f b s).fileIndex = s.fileIndex := by
  unfold reclaimed closeRevFile
  split <;> [rfl; split <;> rfl]

@[simp] theorem prunedUpTo_reclaimed (f : FlatFile) (b : Bool) (s : BlockDb) :
    (reclaimed f b s).prunedUpTo = s.prunedUpTo := by
  unfold reclaimed closeRevFile
  split <;> [rfl; split <;> rfl]

theorem mem_reclaimed {b : Bool} : g ∈ (reclaimed f b s).files ↔
    g ∈ s.files ∧ (f = g → 0 < s.liveAt f ∨ s.isCurrent f) := by
  unfold reclaimed
  split
  · next h => exact (and_iff_left fun _ => h).symm
  · next h =>
    have hfiles : (unlinked f (closeRevFile f b s)).files = s.files.erase f := by
      unfold closeRevFile
      split <;> rfl
    rw [hfiles, Std.ExtTreeMap.mem_erase, Ne, Std.LawfulEqCmp.compare_eq_iff_eq, and_comm]
    refine and_congr_right fun _ => ⟨fun hne heq => absurd heq hne, fun hkeep heq => h (hkeep heq)⟩

/-- What the two deletes of a height leave. -/
def deleted (h : Hash) (s : BlockDb) : BlockDb := deletedRevBlock h (deletedBlock h s)

theorem blocks_deletedBlock (h a : Hash) (s : BlockDb) :
    (deletedBlock h s).blocks[a]? = if h = a then none else s.blocks[a]? := by
  unfold deletedBlock
  cases hl : s.blocks[h]? with
  | none =>
    dsimp only
    split
    · next heq => rw [← heq, hl]
    · rfl
  | some l =>
    dsimp only
    rw [blocks_reclaimed]
    exact FiniteMap.getElem?_erase s.blocks h a

theorem revPatches_deletedBlock (h : Hash) (s : BlockDb) :
    (deletedBlock h s).revPatches = s.revPatches := by
  unfold deletedBlock
  cases s.blocks[h]? with
  | none => rfl
  | some l => exact revPatches_reclaimed _ _ _

theorem revPatches_deletedRevBlock (h a : Hash) (s : BlockDb) :
    (deletedRevBlock h s).revPatches[a]? = if h = a then none else s.revPatches[a]? := by
  unfold deletedRevBlock
  cases hl : s.revPatches[h]? with
  | none =>
    dsimp only
    split
    · next heq => rw [← heq, hl]
    · rfl
  | some l =>
    dsimp only
    rw [revPatches_reclaimed]
    exact FiniteMap.getElem?_erase s.revPatches h a

theorem blocks_deletedRevBlock (h : Hash) (s : BlockDb) :
    (deletedRevBlock h s).blocks = s.blocks := by
  unfold deletedRevBlock
  cases s.revPatches[h]? with
  | none => rfl
  | some l => exact blocks_reclaimed _ _ _

theorem blocks_deleted (h a : Hash) (s : BlockDb) :
    (deleted h s).blocks[a]? = if h = a then none else s.blocks[a]? := by
  rw [deleted, blocks_deletedRevBlock, blocks_deletedBlock]

theorem revPatches_deleted (h a : Hash) (s : BlockDb) :
    (deleted h s).revPatches[a]? = if h = a then none else s.revPatches[a]? := by
  rw [deleted, revPatches_deletedRevBlock, revPatches_deletedBlock]

theorem fileIndex_deletedBlock (h : Hash) (s : BlockDb) :
    (deletedBlock h s).fileIndex = s.fileIndex := by
  unfold deletedBlock
  cases s.blocks[h]? with
  | none => rfl
  | some l => exact fileIndex_reclaimed _ _ _

theorem fileIndex_deletedRevBlock (h : Hash) (s : BlockDb) :
    (deletedRevBlock h s).fileIndex = s.fileIndex := by
  unfold deletedRevBlock
  cases s.revPatches[h]? with
  | none => rfl
  | some l => exact fileIndex_reclaimed _ _ _

theorem prunedUpTo_deleted (h : Hash) (s : BlockDb) :
    (deleted h s).prunedUpTo = s.prunedUpTo := by
  unfold deleted deletedRevBlock
  have hfirst : (deletedBlock h s).prunedUpTo = s.prunedUpTo := by
    unfold deletedBlock
    cases s.blocks[h]? with
    | none => rfl
    | some l => exact prunedUpTo_reclaimed _ _ _
  cases (deletedBlock h s).revPatches[h]? with
  | none => exact hfirst
  | some l => exact (prunedUpTo_reclaimed _ _ _).trans hfirst

/-! ## Between two calls -/

/-- What every call keeps. -/
structure Sound (s : BlockDb) : Prop extends Kept s where
  beside : Beside s

theorem sound_fresh : Sound fresh := ⟨kept_fresh, nofun⟩

theorem Sound.deleted (hs : Sound s) (h : Hash) : Sound (deleted h s) := by
  have hfirst := (deleteBlock_eq hs.toKept h).2
  refine ⟨(deleteRevBlock_eq hfirst h).2, fun a l hl => ?_⟩
  rw [revPatches_deleted] at hl
  rw [blocks_deleted]
  split at hl
  · cases hl
  · next hne =>
    rw [if_neg hne]
    exact hs.beside a l hl

/-- The hashes `prune_up_to` gets to, up to a raise of `hash_at_height`. -/
def hashesOf (hashAtHeight : ℤ → Option Hash) : List ℤ → List Hash
  | [] => []
  | height :: rest =>
    match hashAtHeight height with
    | none => []
    | some h => h :: hashesOf hashAtHeight rest

/-- What the loop of `prune_up_to` leaves. -/
def pruned (hashes : List Hash) (s : BlockDb) : BlockDb := hashes.foldl (fun s h => deleted h s) s

theorem Sound.pruned (hs : Sound s) (hashes : List Hash) : Sound (pruned hashes s) := by
  induction hashes generalizing s with
  | nil => exact hs
  | cons h rest ih => exact ih (hs.deleted h)

theorem prunedUpTo_pruned (hashes : List Hash) (s : BlockDb) :
    (pruned hashes s).prunedUpTo = s.prunedUpTo := by
  induction hashes generalizing s with
  | nil => rfl
  | cons h rest ih => exact (ih (deleted h s)).trans (prunedUpTo_deleted h s)

/-- **The loop of `prune_up_to`.** -/
theorem pruneHeights_sat (hs : Sound s) (hashAtHeight : ℤ → Option Hash) (heights : List ℤ) :
    Sat (pruneHeights hashAtHeight heights) s
      (fun _ t => t = pruned (hashesOf hashAtHeight heights) s)
      (fun _ t => t = pruned (hashesOf hashAtHeight heights) s) := by
  induction heights generalizing s with
  | nil => exact rfl
  | cons height rest ih =>
    unfold pruneHeights hashesOf
    cases hashAtHeight height with
    | none => exact rfl
    | some h =>
      have hfirst := deleteBlock_eq hs.toKept h
      rw [need, sat_bind, sat_pure, sat_bind_of_ok hfirst.1,
        sat_bind_of_ok (deleteRevBlock_eq hfirst.2 h).1]
      exact ih (hs.deleted h)

/-- The same but for `pruned_up_to`, the pending patches and their keys. -/
structure SameFiles (s t : BlockDb) : Prop where
  disk : t.disk = s.disk
  files : t.files = s.files
  blocks : t.blocks = s.blocks
  revPatches : t.revPatches = s.revPatches
  live : t.live = s.live
  openBlockFile : t.openBlockFile = s.openBlockFile
  openRevFile : t.openRevFile = s.openRevFile
  fileIndex : t.fileIndex = s.fileIndex

/-- What `prune_up_to` deletes. -/
def prunes (s : BlockDb) (targetHeight : ℤ) (hashAtHeight : ℤ → Option Hash) : List Hash :=
  if targetHeight ≤ s.prunedUpTo then []
  else hashesOf hashAtHeight (s.heightsUpTo targetHeight)

/-- **`prune_up_to`.** -/
theorem pruneUpTo_sat (hs : Sound s) (targetHeight : ℤ) (hashAtHeight : ℤ → Option Hash) :
    Sat (pruneUpTo targetHeight hashAtHeight) s
      (fun _ t => SameFiles (pruned (s.prunes targetHeight hashAtHeight) s) t ∧ Sound t)
      (fun _ t => SameFiles (pruned (s.prunes targetHeight hashAtHeight) s) t ∧ Sound t) := by
  have hrefl : ∀ t, SameFiles t t := fun t => ⟨rfl, rfl, rfl, rfl, rfl, rfl, rfl, rfl⟩
  unfold pruneUpTo prunes
  rw [sat_bind, sat_get]
  split
  · exact ⟨hrefl s, hs⟩
  · next htarget =>
    rw [sat_bind]
    refine (pruneHeights_sat hs _ _).mono ?_ ?_
    · rintro - t rfl
      have hp := hs.pruned (hashesOf hashAtHeight (s.heightsUpTo targetHeight))
      rw [sat_modify]
      refine ⟨⟨rfl, rfl, rfl, rfl, rfl, rfl, rfl, rfl⟩, ⟨⟨hp.keys.files, hp.keys.blocks,
        hp.keys.revPatches, hp.keys.fileIndex, ?_, ?_⟩, ⟨hp.files.sizes, hp.files.index,
          hp.files.current, hp.files.blockHandle, hp.files.revHandle⟩,
          hp.locations.of_eq rfl rfl rfl fun _ h => h, hp.counts.of_eq rfl rfl rfl⟩, hp.beside⟩
      · have hge := hs.keys.pruned_ge
        show (((targetHeight + 1).toNat : ℤ) - 1) = targetHeight
        omega
      · have hge := hs.keys.pruned_ge
        show -1 ≤ targetHeight
        omega
    · rintro - t rfl
      exact ⟨hrefl _, hs.pruned _⟩

/-! ## `finalize` -/

theorem blocks_revPlaced (f : FlatFile) (s : BlockDb) : (revPlaced f s).blocks = s.blocks := by
  unfold revPlaced
  split <;> rfl

theorem revPatches_revPlaced (f : FlatFile) (s : BlockDb) :
    (revPlaced f s).revPatches = s.revPatches := by
  unfold revPlaced
  split <;> rfl

theorem live_revPlaced (f : FlatFile) (s : BlockDb) : (revPlaced f s).live = s.live := by
  unfold revPlaced
  split <;> rfl

theorem fileIndex_revPlaced (f : FlatFile) (s : BlockDb) :
    (revPlaced f s).fileIndex = s.fileIndex := by
  unfold revPlaced
  split <;> rfl

theorem mem_files_revPlaced : g ∈ (revPlaced f s).files ↔ g = f ∨ g ∈ s.files := by
  unfold revPlaced
  split
  · next hf =>
    refine ⟨.inr, ?_⟩
    rintro (rfl | hg)
    · exact hf
    · exact hg
  · show g ∈ s.files.insert f 0 ↔ _
    rw [Std.ExtTreeMap.mem_insert, Std.LawfulEqCmp.compare_eq_iff_eq, eq_comm]

/-- What one turn of `finalize` leaves. -/
def wroteRev (codec : BlockCodec) (rev : RevBlock) (s : BlockDb) : BlockDb :=
  match s.blocks[rev.hash]? with
  | none => s
  | some b => wrote codec b.file.index rev s

theorem blocks_wroteRev (rev : RevBlock) (s : BlockDb) :
    (wroteRev codec rev s).blocks = s.blocks := by
  unfold wroteRev
  split
  · rfl
  · exact blocks_revPlaced _ _

theorem fileIndex_wroteRev (rev : RevBlock) (s : BlockDb) :
    (wroteRev codec rev s).fileIndex = s.fileIndex := by
  unfold wroteRev
  split
  · rfl
  · exact fileIndex_revPlaced _ _

theorem Sound.wroteRev (hs : Sound s) (codec : BlockCodec) (rev : RevBlock) : Sound (wroteRev codec rev s) := by
  unfold BlockDb.wroteRev
  cases hb : s.blocks[rev.hash]? with
  | none => exact hs
  | some b =>
    refine ⟨(writeRevBlock_eq codec hs.toKept hs.beside hb).2, fun a l hl => ?_⟩
    have hblocks : (wrote codec b.file.index rev s).blocks = s.blocks := blocks_revPlaced _ _
    change ((revPlaced _ s).revPatches.insert rev.hash _)[a]? = some l at hl
    rw [hblocks]
    rw [FiniteMap.getElem?_insert, revPatches_revPlaced] at hl
    split at hl
    · next heq =>
      obtain rfl := Option.some.inj hl
      exact ⟨b, heq ▸ hb, rfl⟩
    · exact hs.beside a l hl

/-- The patches `finalize` gets to: those before the first whose block is not stored. -/
def toWrite (s : BlockDb) : List RevBlock := s.pendingRevBlocks.takeWhile (·.hash ∈ s.blocks)

/-- What the loop of `finalize` leaves. -/
def written (codec : BlockCodec) (revs : List RevBlock) (s : BlockDb) : BlockDb :=
  revs.foldl (fun s rev => wroteRev codec rev s) s

theorem Sound.written (hs : Sound s) (codec : BlockCodec) (revs : List RevBlock) : Sound (written codec revs s) := by
  induction revs generalizing s with
  | nil => exact hs
  | cons rev rest ih => exact ih (hs.wroteRev codec rev)

/-- **The loop of `finalize`.** -/
theorem writeRevBlocks_sat (hs : Sound s) (revs : List RevBlock) :
    Sat (writeRevBlocks codec revs) s
      (fun _ t => t = written codec (revs.takeWhile (·.hash ∈ s.blocks)) s)
      (fun _ t => t = written codec (revs.takeWhile (·.hash ∈ s.blocks)) s) := by
  induction revs generalizing s with
  | nil => exact rfl
  | cons rev rest ih =>
    unfold writeRevBlocks
    rw [List.takeWhile_cons]
    cases hb : s.blocks[rev.hash]? with
    | none =>
      have hmem : rev.hash ∉ s.blocks := (FiniteMap.notMem_iff _ _).mpr hb
      rw [if_neg (by simpa using hmem), sat_bind]
      unfold writeRevBlock
      rw [sat_bind, sat_get, hb, need, sat_bind, sat_throw]
      exact rfl
    | some b =>
      have hmem : rev.hash ∈ s.blocks := (FiniteMap.mem_iff_exists _ _).mpr ⟨b, hb⟩
      have hone := writeRevBlock_eq codec hs.toKept hs.beside hb
      have hnext : BlockDb.wroteRev codec rev s = wrote codec b.file.index rev s := by
        rw [BlockDb.wroteRev, hb]
      rw [sat_bind_of_ok hone.1, if_pos (by simpa using hmem), ← hnext]
      have hrest := ih (hs.wroteRev codec rev)
      rw [blocks_wroteRev] at hrest
      exact hrest

/-- **`finalize`.** -/
theorem finalize_sat (hs : Sound s) :
    Sat (finalize codec) s
      (fun _ t => SameFiles (written codec s.toWrite s) t ∧ Sound t)
      (fun _ t => SameFiles (written codec s.toWrite s) t ∧ Sound t) := by
  have hw := hs.written codec s.toWrite
  unfold finalize
  rw [sat_bind, sat_get, sat_bind]
  refine (writeRevBlocks_sat hs s.pendingRevBlocks).mono ?_ ?_
  · rintro - t rfl
    exact ⟨⟨rfl, rfl, rfl, rfl, rfl, rfl, rfl, rfl⟩, hw.toKept.rollback, hw.beside⟩
  · rintro - t rfl
    exact ⟨⟨rfl, rfl, rfl, rfl, rfl, rfl, rfl, rfl⟩, hw⟩

/-! ## The reads -/

/-- What a read of the block leaves. -/
def readBlock (h : Hash) (s : BlockDb) : BlockDb :=
  match s.blocks[h]? with
  | none => s
  | some l => s.setHandle .blk (some ⟨l.file, none⟩)

/-- What a read of the patch leaves. -/
def readRevBlock (h : Hash) (s : BlockDb) : BlockDb :=
  match s.revPatches[h]? with
  | none => s
  | some l => s.setHandle .rev (some ⟨l.file, none⟩)

theorem getRawBlock_sat (hs : Sound s) (h : Hash) :
    Sat (getRawBlock h) s (fun _ t => t = readBlock h s) fun _ _ => False := by
  unfold getRawBlock readBlock
  rw [sat_bind, sat_get]
  cases hl : s.blocks[h]? with
  | none => exact rfl
  | some l =>
    obtain ⟨hsuffix, hfile⟩ := hs.locations.block h l hl
    exact getFile_of_mem hs.files hfile hsuffix

theorem getBlock_sat (hs : Sound s) (h : Hash) :
    Sat (getBlock codec h) s (fun _ t => t = readBlock h s) fun _ t => t = readBlock h s := by
  unfold getBlock
  rw [sat_bind]
  refine (getRawBlock_sat hs h).mono ?_ nofun
  rintro data t rfl
  cases data with
  | none => exact rfl
  | some data =>
    dsimp only
    rw [sat_bind]
    cases codec.parse data <;> exact rfl

theorem txCount_sat (hs : Sound s) (h : Hash) :
    Sat (txCount codec h) s (fun _ t => t = readBlock h s) fun _ t => t = readBlock h s := by
  unfold txCount readBlock
  rw [sat_bind, sat_get]
  cases hl : s.blocks[h]? with
  | none => exact rfl
  | some l =>
    obtain ⟨hsuffix, hfile⟩ := hs.locations.block h l hl
    dsimp only
    rw [sat_bind, sat_modify, getFile_of_mem hs.files hfile hsuffix, sat_bind, sat_get, sat_bind]
    generalize codec.parseVarInt _ = n
    cases n <;> exact rfl

theorem getRevBlock_sat (hs : Sound s) (h : Hash) :
    Sat (getRevBlock codec h) s (fun _ t => t = readRevBlock h s)
      fun _ t => t = readRevBlock h s := by
  unfold getRevBlock readRevBlock
  rw [sat_bind, sat_get]
  cases hl : s.revPatches[h]? with
  | none => exact rfl
  | some l =>
    obtain ⟨hsuffix, hfile⟩ := hs.locations.rev h l hl
    dsimp only
    rw [sat_bind, sat_modify, getFile_of_mem hs.files hfile hsuffix, sat_bind, sat_get, sat_bind]
    generalize codec.deserializeRev _ = n
    cases n <;> exact rfl

theorem finalState_discard {α : Type} (x : BlockDbM α) (s : BlockDb) :
    finalState (discard x) s = finalState x s := by
  have hmap : (discard x : BlockDbM Unit) s = EStateM.map (fun _ => ()) x s := rfl
  unfold finalState
  rw [hmap, EStateM.map]
  cases x s <;> rfl

/-- Each read of a block moves the one handle to its file. -/
theorem step_getRawBlock (hs : Sound s) (h : Hash) :
    step codec s (.getRawBlock h) = readBlock h s :=
  (finalState_discard _ s).trans ((getRawBlock_sat hs h).mono (fun _ _ h => h) nofun).finalState

theorem step_getBlock (hs : Sound s) (h : Hash) :
    step codec s (.getBlock h) = readBlock h s :=
  (finalState_discard _ s).trans (getBlock_sat hs h).finalState

theorem step_txCount (hs : Sound s) (h : Hash) :
    step codec s (.txCount h) = readBlock h s :=
  (finalState_discard _ s).trans (txCount_sat hs h).finalState

theorem step_getRevBlock (hs : Sound s) (h : Hash) :
    step codec s (.getRevBlock h) = readRevBlock h s :=
  (finalState_discard _ s).trans (getRevBlock_sat hs h).finalState

theorem Sound.setHandle (hs : Sound s) (hf : f ∈ s.files) (hk : f.suffix = k) :
    Sound (s.setHandle k (some ⟨f, none⟩)) :=
  ⟨hs.toKept.setHandle hf hk, by cases k <;> exact hs.beside⟩

theorem Sound.readBlock (hs : Sound s) (h : Hash) : Sound (readBlock h s) := by
  unfold BlockDb.readBlock
  split
  · exact hs
  · next l hl =>
    obtain ⟨hsuffix, hfile⟩ := hs.locations.block h l hl
    exact hs.setHandle hfile hsuffix

theorem Sound.readRevBlock (hs : Sound s) (h : Hash) : Sound (readRevBlock h s) := by
  unfold BlockDb.readRevBlock
  split
  · exact hs
  · next l hl =>
    obtain ⟨hsuffix, hfile⟩ := hs.locations.rev h l hl
    exact hs.setHandle hfile hsuffix

/-! ## A reopening -/

/-- A store without handles, whose counts are exact. -/
structure Counted (s : BlockDb) : Prop extends Sound s where
  exact : ∀ f, s.liveAt f = s.located f
  noBlockFile : s.openBlockFile = none
  noRevFile : s.openRevFile = none
  live : ∀ f, f ∈ s.live ↔ 0 < s.located f

/-- `_count_live` makes the counts exact. -/
theorem counted_countLive (hkeys : KeysKept s) (hfiles : FilesKept s)
    (hlocations : LocationsKept s) (hbeside : Beside s) (hblk : s.openBlockFile = none)
    (hrev : s.openRevFile = none) : Counted s.countLive := by
  have hexact : ∀ f, s.countLive.liveAt f = s.located f := by
    intro f
    refine (RefCount.getD_tally _ f).trans ?_
    rw [List.count_append]
    rfl
  refine ⟨⟨⟨hkeys.of_eq rfl rfl rfl rfl rfl rfl, ⟨hfiles.sizes, hfiles.index, hfiles.current,
    hfiles.blockHandle, hfiles.revHandle⟩, hlocations.of_eq rfl rfl rfl fun _ h => h,
    ⟨fun f => Nat.le_of_eq (hexact f).symm, fun f _ => hexact f⟩⟩, hbeside⟩, hexact, hblk, hrev,
    fun f => ?_⟩
  refine (RefCount.mem_tally _ f).trans ?_
  rw [← List.count_pos_iff, List.count_append]
  rfl

theorem Counted.unlinked (hs : Counted s) (hf : f ∈ s.files) (hlive : f ∉ s.live)
    (hcurrent : f.index ≠ s.fileIndex) : Counted (unlinked f s) := by
  have hnone : s.located f = 0 := by
    rw [hs.live] at hlive
    omega
  refine ⟨⟨hs.toKept.unlinked hf hcurrent hnone ?_, hs.beside⟩, hs.exact, ?_, ?_, hs.live⟩
  · rw [hs.noRevFile]
    nofun
  · show s.openBlockFile.map _ = none
    rw [hs.noBlockFile]
    rfl
  · show s.openRevFile.map _ = none
    rw [hs.noRevFile]
    rfl

/-- Every file but those of the current number holds a block or a patch. -/
def Used (s : BlockDb) : Prop := ∀ f ∈ s.files, f.index ≠ s.fileIndex → 0 < s.located f

/-- What a sweep leaves of `s`. -/
structure SweptOf (s t : BlockDb) (fs : List FlatFile) : Prop extends Counted t where
  blocks : t.blocks = s.blocks
  revPatches : t.revPatches = s.revPatches
  fileIndex : t.fileIndex = s.fileIndex
  left : ∀ g, g ∈ t.files ↔ g ∈ s.files ∧ (g ∈ fs → g ∈ s.live ∨ s.isCurrent g)

theorem sweepFiles_sat (hs : Counted s) (fs : List FlatFile) (hnodup : fs.Nodup)
    (hmem : ∀ f ∈ fs, f ∈ s.files) :
    Sat (sweepFiles fs) s (fun _ t => SweptOf s t fs) fun _ _ => False := by
  induction fs generalizing s with
  | nil => exact ⟨hs, rfl, rfl, rfl, fun g => by simp⟩
  | cons f rest ih =>
    rw [List.nodup_cons] at hnodup
    unfold sweepFiles sweepFile
    rw [sat_bind, sat_bind, sat_get]
    split
    · next hgone =>
      obtain ⟨hlive, hcurrent⟩ := hgone
      have hindex : f.index ≠ s.fileIndex := by
        simpa [isCurrent] using hcurrent
      rw [sat_of_ok (unlinkFile_eq (hmem f List.mem_cons_self))]
      have hfiles : ∀ g, g ∈ (BlockDb.unlinked f s).files ↔ f ≠ g ∧ g ∈ s.files := by
        intro g
        show g ∈ s.files.erase f ↔ _
        rw [Std.ExtTreeMap.mem_erase, Ne, Std.LawfulEqCmp.compare_eq_iff_eq]
      refine (ih (hs.unlinked (hmem f List.mem_cons_self) hlive hindex) hnodup.2 ?_).mono ?_ nofun
      · intro g hg
        refine (hfiles g).mpr ⟨?_, hmem g (List.mem_cons_of_mem f hg)⟩
        rintro rfl
        exact hnodup.1 hg
      · intro _ t ht
        refine ⟨ht.toCounted, ht.blocks, ht.revPatches, ht.fileIndex, fun g => ?_⟩
        rw [ht.left, hfiles, List.mem_cons]
        show (f ≠ g ∧ g ∈ s.files) ∧ (g ∈ rest → g ∈ s.live ∨ s.isCurrent g) ↔ _
        constructor
        · rintro ⟨⟨hne, hg⟩, hrest⟩
          exact ⟨hg, fun hor => hrest (hor.resolve_left (Ne.symm hne))⟩
        · rintro ⟨hg, hall⟩
          refine ⟨⟨?_, hg⟩, fun hr => hall (.inr hr)⟩
          rintro rfl
          rcases hall (.inl rfl) with h | h
          · exact hlive h
          · rw [h] at hcurrent
            cases hcurrent
    · next hstays =>
      rw [sat_pure]
      refine (ih hs hnodup.2 fun g hg => hmem g (List.mem_cons_of_mem f hg)).mono ?_ nofun
      intro _ t ht
      refine ⟨ht.toCounted, ht.blocks, ht.revPatches, ht.fileIndex, fun g => ?_⟩
      rw [ht.left, List.mem_cons]
      refine and_congr_right fun _ => ⟨fun hrest hor => ?_, fun hall hr => hall (.inr hr)⟩
      rcases hor with rfl | hr
      · rw [not_and_or, not_not, Bool.not_eq_true', Bool.not_eq_false] at hstays
        exact hstays
      · exact hrest hr

/-- **`_sweep_empty_files`.** -/
theorem sweepEmptyFiles_sat (hs : Counted s) :
    Sat sweepEmptyFiles s (fun _ t => Counted t ∧ Used t) fun _ _ => False := by
  unfold sweepEmptyFiles
  rw [sat_bind, sat_get]
  refine (sweepFiles_sat hs s.files.keys ?_ fun f hf => Std.ExtTreeMap.mem_of_mem_keys hf).mono ?_
    nofun
  · exact Std.ExtTreeMap.nodup_keys
  · intro _ t ht
    refine ⟨ht.toCounted, fun f hf hindex => ?_⟩
    obtain ⟨hmem, hkeep⟩ := (ht.left f).mp hf
    have hlocated : t.located f = s.located f := by
      rw [located, located, ht.blocks, ht.revPatches]
    rw [hlocated, ← hs.live]
    refine (hkeep (Std.ExtTreeMap.mem_keys.mpr hmem)).resolve_right ?_
    rw [ht.fileIndex] at hindex
    simpa [isCurrent] using hindex

/-- What is loaded is what was held, without the handles and the pending patches. -/
theorem Sound.loaded (hs : Sound s) : { unread s.disk s.db with
      files := s.db.files
      blocks := s.db.blocks
      revPatches := s.db.revPatches
      fileIndex := s.db.fileIndex.getD 0
      prunedUpTo := (s.db.prunedUpTo.map fun n => (n : ℤ) - 1).getD (-1) } =
    { s with
      pendingRevBlocks := []
      openBlockFile := none
      openRevFile := none
      live := ∅ } := by
  rw [hs.keys.files, hs.keys.blocks, hs.keys.revPatches, hs.keys.fileIndex, hs.keys.prunedUpTo]
  rfl

/-- **`init_from_db`.** -/
theorem initFromDb_sat (hs : Sound s) :
    Sat initFromDb (unread s.disk s.db) (fun _ t => Counted t ∧ Used t) fun _ _ => False := by
  unfold initFromDb
  rw [sat_bind, sat_modify, sat_bind, sat_modify]
  refine sweepEmptyFiles_sat ?_
  refine (congrArg (fun u => Counted (countLive u)) hs.loaded).mpr ?_
  exact counted_countLive (hs.keys.of_eq rfl rfl rfl rfl rfl rfl) ⟨hs.files.sizes, hs.files.index,
    hs.files.current, nofun, nofun⟩ ⟨hs.locations.block, hs.locations.rev, List.nodup_nil⟩
    hs.beside rfl rfl

/-- **`wipe_undo`**, of a store just opened. -/
theorem wipeUndo_sat (hs : Counted s) :
    Sat wipeUndo s (fun _ t => Counted t ∧ Used t) fun _ _ => False := by
  unfold wipeUndo
  rw [sat_bind, sat_modify, sat_bind, sat_modify]
  refine sweepEmptyFiles_sat ?_
  refine counted_countLive ⟨hs.keys.files, hs.keys.blocks, rfl, hs.keys.fileIndex,
    hs.keys.prunedUpTo, hs.keys.pruned_ge⟩ ⟨hs.files.sizes, hs.files.index,
    hs.files.current, hs.files.blockHandle, hs.files.revHandle⟩
    ⟨hs.locations.block, nofun, hs.locations.pending⟩ nofun hs.noBlockFile hs.noRevFile

/-- **A reopening.** -/
theorem reopen_sat (hs : Sound s) (wipe : Bool) :
    Sat (reopen wipe) s (fun _ t => Counted t ∧ Used t) fun _ _ => False := by
  unfold reopen
  rw [sat_bind, sat_modify, sat_bind]
  refine (initFromDb_sat hs).mono ?_ nofun
  intro _ t ht
  split
  · exact wipeUndo_sat ht.1
  · exact ht

/-! ## Every call -/

theorem Sound.added (hs : Sound s) {block : Block} (hnew : block.header.hash ∉ s.blocks) :
    Sound (added codec block s) := by
  refine ⟨hs.toKept.added hnew, fun a l hl => ?_⟩
  have hplaced : s.placed.blocks = s.blocks ∧ s.placed.revPatches = s.revPatches := by
    unfold BlockDb.placed
    split <;> exact ⟨rfl, rfl⟩
  change s.placed.revPatches[a]? = some l at hl
  rw [hplaced.2] at hl
  obtain ⟨b, hb, hindex⟩ := hs.beside a l hl
  refine ⟨b, ?_, hindex⟩
  show (s.placed.blocks.insert block.header.hash _)[a]? = some b
  rw [hplaced.1, FiniteMap.getElem?_insert_ne _ _ ?_]
  · exact hb
  · rintro rfl
    exact hnew ((FiniteMap.mem_iff_exists _ _).mpr ⟨b, hb⟩)

theorem step_addBlock (hs : Sound s) (block : Block) :
    step codec s (.addBlock block) =
      if block.header.hash ∈ s.blocks then s else added codec block s := by
  rw [step, Call.run, finalState, addBlock_eq hs.toKept]

theorem step_finalize (codec : BlockCodec) (hs : Sound s) :
    SameFiles (written codec s.toWrite s) (step codec s .finalize) ∧
      Sound (step codec s .finalize) :=
  Sat.finalState (P := fun t => SameFiles (written codec s.toWrite s) t ∧ Sound t) (finalize_sat hs)

theorem step_pruneUpTo (codec : BlockCodec) (hs : Sound s) (targetHeight : ℤ) (hashAtHeight : ℤ → Option Hash) :
    SameFiles (pruned (s.prunes targetHeight hashAtHeight) s)
        (step codec s (.pruneUpTo targetHeight hashAtHeight)) ∧
      Sound (step codec s (.pruneUpTo targetHeight hashAtHeight)) :=
  Sat.finalState
    (P := fun t => SameFiles (pruned (s.prunes targetHeight hashAtHeight) s) t ∧ Sound t)
    (pruneUpTo_sat hs targetHeight hashAtHeight)

theorem step_reopen (codec : BlockCodec) (hs : Sound s) (wipe : Bool) :
    Counted (step codec s (.reopen wipe)) ∧ Used (step codec s (.reopen wipe)) :=
  Sat.finalState (P := fun t => Counted t ∧ Used t) ((reopen_sat hs wipe).mono (fun _ _ h => h) nofun)

/-- **Every call keeps `Sound`.** -/
theorem Sound.step (hs : Sound s) (c : Call) : Sound (step codec s c) := by
  cases c with
  | addBlock block =>
    rw [step_addBlock hs]
    split
    · exact hs
    · next hnew => exact hs.added hnew
  | addRevBlock rev =>
    refine ⟨hs.toKept.addRevBlock rev, ?_⟩
    show Beside (BlockDb.addRevBlock rev s)
    unfold BlockDb.addRevBlock
    split <;> exact hs.beside
  | finalize => exact (step_finalize codec hs).2
  | rollback => exact ⟨hs.toKept.rollback, hs.beside⟩
  | getRawBlock h =>
    rw [step_getRawBlock hs]
    exact hs.readBlock h
  | getBlock h =>
    rw [step_getBlock hs]
    exact hs.readBlock h
  | txCount h =>
    rw [step_txCount hs]
    exact hs.readBlock h
  | getRevBlock h =>
    rw [step_getRevBlock hs]
    exact hs.readRevBlock h
  | pruneUpTo targetHeight hashAtHeight => exact (step_pruneUpTo codec hs targetHeight hashAtHeight).2
  | reopen wipe => exact (step_reopen codec hs wipe).1.toSound

theorem after_append (before calls : List Call) :
    after codec (before ++ calls) = calls.foldl (step codec) (after codec before) :=
  List.foldl_append

/-- **Every store reached is sound.** -/
theorem sound_after (calls : List Call) : Sound (after codec calls) := by
  have hrun : ∀ s, Sound s → Sound (calls.foldl (step codec) s) := by
    induction calls with
    | nil => exact fun s hs => hs
    | cons c rest ih => exact fun s hs => ih (step codec s c) (hs.step c)
  exact hrun fresh sound_fresh

end BtclibNode.BlockDb
