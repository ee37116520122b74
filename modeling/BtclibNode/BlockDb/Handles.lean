/-
# Handles and unlinked files

The handle of the undo files is closed before its file goes.  That of the block files
is not: a read moves it to an older file, and a prune of that file's last block then
unlinks it under the handle.
-/
import Mathlib
import BtclibNode.BlockDb.Accounting

namespace BtclibNode.BlockDb

open StateExcept

variable {codec : BlockCodec} {s t : BlockDb} {f g : FlatFile} {h : Hash}

/-- **No handle is open on an unlinked file.** -/
def NoneUnlinked (s : BlockDb) : Prop :=
  ∀ a, s.openBlockFile = some a ∨ s.openRevFile = some a → a.unlinked = none

/-- A call leaves the block handle on a file: a prune that reaches a block in an older
file under the handle leaves another block there. -/
def Call.SparesHandle (s : BlockDb) : Call → Prop
  | .pruneUpTo targetHeight hashAtHeight =>
    ∀ a, s.openBlockFile = some a → a.file.index ≠ s.fileIndex →
      (∃ h ∈ s.prunes targetHeight hashAtHeight, s.InFile h a.file) →
        ∃ h, h ∉ s.prunes targetHeight hashAtHeight ∧ s.InFile h a.file
  | _ => True

/-! ## The files a prune leaves -/

/-- An older block file goes with the last of its blocks. -/
theorem mem_files_deleted (hs : Sound s) (hf : f.suffix = .blk) (hother : f.index ≠ s.fileIndex) :
    f ∈ (deleted h s).files ↔
      f ∈ s.files ∧ (s.InFile h f → ∃ a, (deleted h s).InFile a f) := by
  have hfirst := (deleteBlock_eq hs.toKept h).2
  have hsecond : f ∈ (deleted h s).files ↔ f ∈ (deletedBlock h s).files := by
    unfold deleted deletedRevBlock
    cases hl : (deletedBlock h s).revPatches[h]? with
    | none => rfl
    | some l =>
      have hsuffix := (hfirst.locations.rev h l hl).1
      refine mem_reclaimed.trans (and_iff_left ?_)
      rintro rfl
      rw [hf] at hsuffix
      cases hsuffix
  have hin : (∃ a, (deleted h s).InFile a f) ↔ 0 < (deletedBlock h s).liveAt f := by
    rw [hfirst.counts.exact f hf, located_pos_iff hfirst hf]
    unfold InFile deleted
    rw [blocks_deletedRevBlock]
  rw [hsecond, hin]
  unfold deletedBlock InFile
  cases hl : s.blocks[h]? with
  | none =>
    refine (and_iff_left ?_).symm
    rintro ⟨l, hl', -⟩
    cases hl'
  | some l =>
    have hlive : (reclaimed l.file true (lowered l.file (dropBlock h s))).liveAt f =
        (lowered l.file (dropBlock h s)).liveAt f := by
      rw [liveAt, live_reclaimed]
      rfl
    dsimp only
    rw [hlive]
    refine mem_reclaimed.trans (and_congr_right fun _ => ?_)
    constructor
    · rintro hkeep ⟨l', hl', hfile⟩
      obtain rfl := Option.some.inj hl'
      subst hfile
      exact (hkeep rfl).resolve_right fun hcurrent => hother (beq_iff_eq.mp hcurrent)
    · rintro hkeep rfl
      exact .inl (hkeep ⟨l, rfl, rfl⟩)

/-- **An older block file goes with a prune** exactly where the prune reaches a block of
it and leaves none. -/
theorem mem_files_pruned (hs : Sound s) (hf : f.suffix = .blk) (hother : f.index ≠ s.fileIndex)
    (hashes : List Hash) :
    f ∈ (pruned hashes s).files ↔ f ∈ s.files ∧
      ((∃ a ∈ hashes, s.InFile a f) → ∃ a, a ∉ hashes ∧ s.InFile a f) := by
  induction hashes generalizing s with
  | nil =>
    refine (and_iff_left ?_).symm
    rintro ⟨a, ha, -⟩
    cases ha
  | cons h rest ih =>
    refine (ih (hs.deleted h) (by rw [fileIndex_deleted]; exact hother)).trans ?_
    rw [mem_files_deleted hs hf hother, and_assoc]
    refine and_congr_right fun _ => ?_
    simp only [inFile_deleted, List.mem_cons]
    constructor
    · rintro ⟨hlast, hrest⟩ ⟨a, ha, hin⟩
      -- a block other than the first to go
      obtain ⟨b, hne, hb⟩ : ∃ b, b ≠ h ∧ s.InFile b f := by
        by_cases heq : a = h
        · exact hlast (heq ▸ hin)
        · exact ⟨a, heq, hin⟩
      by_cases hmem : b ∈ rest
      · obtain ⟨c, hc, hne', hin'⟩ := hrest ⟨b, hmem, hne, hb⟩
        exact ⟨c, not_or.mpr ⟨hne', hc⟩, hin'⟩
      · exact ⟨b, not_or.mpr ⟨hne, hmem⟩, hb⟩
    · intro hall
      refine ⟨fun hin => ?_, ?_⟩
      · obtain ⟨c, hc, hin'⟩ := hall ⟨h, .inl rfl, hin⟩
        exact ⟨c, (not_or.mp hc).1, hin'⟩
      · rintro ⟨a, ha, -, hin⟩
        obtain ⟨c, hc, hin'⟩ := hall ⟨a, .inr ha, hin⟩
        exact ⟨c, (not_or.mp hc).2, (not_or.mp hc).1, hin'⟩

/-! ## The handles -/

theorem file_unlink (f : FlatFile) (data : Option (List UInt8)) (a : Handle) :
    (a.unlink f data).file = a.file := by
  unfold Handle.unlink
  split <;> rfl

theorem openBlockFile_reclaimed (f : FlatFile) (b : Bool) (s : BlockDb) :
    (reclaimed f b s).openBlockFile.map Handle.file = s.openBlockFile.map Handle.file := by
  have hclose : (closeRevFile f b s).openBlockFile = s.openBlockFile := by
    unfold closeRevFile
    split <;> rfl
  unfold reclaimed
  split
  · rfl
  · show ((closeRevFile f b s).openBlockFile.map _).map Handle.file = _
    rw [hclose, Option.map_map]
    exact congrArg (s.openBlockFile.map ·) (funext fun a => file_unlink _ _ a)

/-- A prune leaves the block handle where it was. -/
theorem openBlockFile_pruned (hashes : List Hash) (s : BlockDb) :
    (pruned hashes s).openBlockFile.map Handle.file = s.openBlockFile.map Handle.file := by
  induction hashes generalizing s with
  | nil => rfl
  | cons h rest ih =>
    refine (ih (deleted h s)).trans ?_
    have hfirst : (deletedBlock h s).openBlockFile.map Handle.file =
        s.openBlockFile.map Handle.file := by
      unfold deletedBlock
      cases s.blocks[h]? with
      | none => rfl
      | some l => exact openBlockFile_reclaimed _ _ _
    unfold deleted deletedRevBlock
    cases (deletedBlock h s).revPatches[h]? with
    | none => exact hfirst
    | some l => exact (openBlockFile_reclaimed _ _ _).trans hfirst

/-- The undo handle is never on an unlinked file. -/
theorem Sound.noneUnlinked_iff_openBlockFile (hs : Sound s) :
    NoneUnlinked s ↔ ∀ a, s.openBlockFile = some a → a.file ∈ s.files := by
  constructor
  · intro h a ha
    exact (hs.files.blockHandle a ha).2.2.mp (h a (.inl ha))
  · rintro h a (ha | ha)
    · exact (hs.files.blockHandle a ha).2.2.mpr (h a ha)
    · exact (hs.files.revHandle a ha).2.1

theorem openBlockFile_wroteRev (rev : RevBlock) (s : BlockDb) :
    (wroteRev codec rev s).openBlockFile = s.openBlockFile := by
  unfold wroteRev
  split
  · rfl
  · show (revPlaced _ s).openBlockFile = _
    unfold revPlaced
    split <;> rfl

theorem openBlockFile_written (revs : List RevBlock) (s : BlockDb) :
    (written codec revs s).openBlockFile = s.openBlockFile := by
  induction revs generalizing s with
  | nil => rfl
  | cons rev rest ih => exact (ih _).trans (openBlockFile_wroteRev rev s)

/-- A read of a block moves the handle to a file that is there. -/
theorem noneUnlinked_readBlock {l : BlockLocation} (hs : Sound s) (hl : s.blocks[h]? = some l) :
    NoneUnlinked (readBlock h s) := by
  rw [(hs.readBlock h).noneUnlinked_iff_openBlockFile, readBlock, hl]
  intro a ha
  obtain rfl := Option.some.inj ha
  exact (hs.locations.block h l hl).2

/-! ## Every call, every run -/

/-- The file under the block handle stays exactly under the condition of a prune. -/
theorem spares_iff (hs : Sound s) (hn : NoneUnlinked s) (targetHeight : ℤ)
    (hashAtHeight : ℤ → Option Hash) :
    (∀ a, (pruned (s.prunes targetHeight hashAtHeight) s).openBlockFile = some a →
        a.file ∈ (pruned (s.prunes targetHeight hashAtHeight) s).files) ↔
      (Call.pruneUpTo targetHeight hashAtHeight).SparesHandle s := by
  have hmoved := openBlockFile_pruned (s.prunes targetHeight hashAtHeight) s
  have hsound := hs.pruned (s.prunes targetHeight hashAtHeight)
  have hcurrent := fileIndex_pruned (s.prunes targetHeight hashAtHeight) s
  cases ha : s.openBlockFile with
  | none =>
    rw [ha, Option.map_none, Option.map_eq_none_iff] at hmoved
    rw [hmoved]
    refine iff_of_true nofun fun b hb => ?_
    rw [ha] at hb
    cases hb
  | some a =>
    rw [ha, Option.map_some] at hmoved
    obtain ⟨a', ha', hfile⟩ := Option.map_eq_some_iff.mp hmoved
    obtain ⟨hsuffix, -, -⟩ := hs.files.blockHandle a ha
    have hmem := hs.noneUnlinked_iff_openBlockFile.mp hn a ha
    have hleft : (∀ b, (pruned (s.prunes targetHeight hashAtHeight) s).openBlockFile = some b →
        b.file ∈ (pruned (s.prunes targetHeight hashAtHeight) s).files) ↔
          a.file ∈ (pruned (s.prunes targetHeight hashAtHeight) s).files := by
      rw [ha', ← hfile]
      exact ⟨fun hall => hall a' rfl, fun hin b hb => Option.some.inj hb ▸ hin⟩
    have hright : (Call.pruneUpTo targetHeight hashAtHeight).SparesHandle s ↔
        (a.file.index ≠ s.fileIndex →
          (∃ h ∈ s.prunes targetHeight hashAtHeight, s.InFile h a.file) →
            ∃ h, h ∉ s.prunes targetHeight hashAtHeight ∧ s.InFile h a.file) := by
      refine ⟨fun hall => hall a ha, fun hone b hb => ?_⟩
      obtain rfl := Option.some.inj (ha.symm.trans hb)
      exact hone
    rw [hleft, hright]
    by_cases hother : a.file.index = s.fileIndex
    · refine iff_of_true ?_ fun hne => absurd hother hne
      have hpos := (hs.files.index _ hmem).1
      have hnow := hsound.files.current (by rw [hcurrent, ← hother]; omega)
      rw [hcurrent, ← hother, ← hsuffix] at hnow
      exact hnow
    · rw [mem_files_pruned hs hsuffix hother]
      exact ⟨fun hin _ => hin.2, fun hspares => ⟨hmem, hspares hother⟩⟩

/-- **One call** leaves no handle on an unlinked file exactly under its condition. -/
theorem noneUnlinked_step (hs : Sound s) (hn : NoneUnlinked s) (c : Call) :
    NoneUnlinked (step codec s c) ↔ c.SparesHandle s := by
  have hread : ∀ h : Hash, NoneUnlinked (readBlock h s) := by
    intro h
    cases hl : s.blocks[h]? with
    | none =>
      rw [readBlock, hl]
      exact hn
    | some l => exact noneUnlinked_readBlock hs hl
  cases c with
  | addBlock block =>
    refine iff_of_true ?_ trivial
    rw [step_addBlock hs]
    split
    · exact hn
    · next hnew =>
      rw [(hs.added hnew).noneUnlinked_iff_openBlockFile]
      intro a ha
      obtain rfl := Option.some.inj (ha.symm.trans (handle_placed s))
      show s.placedFile ∈ s.placed.files.insert _ _
      rw [Std.ExtTreeMap.mem_insert]
      exact .inl Std.ReflOrd.compare_self
  | addRevBlock rev =>
    refine iff_of_true ?_ trivial
    show NoneUnlinked (addRevBlock rev s)
    unfold addRevBlock
    split <;> exact hn
  | finalize =>
    obtain ⟨hsame, hsound⟩ := step_finalize codec hs
    refine iff_of_true ?_ trivial
    rintro a (ha | ha)
    · rw [hsame.openBlockFile, openBlockFile_written] at ha
      exact hn a (.inl ha)
    · exact (hsound.files.revHandle a ha).2.1
  | rollback => exact iff_of_true hn trivial
  | getRawBlock h =>
    rw [step_getRawBlock hs]
    exact iff_of_true (hread h) trivial
  | getBlock h =>
    rw [step_getBlock hs]
    exact iff_of_true (hread h) trivial
  | txCount h =>
    rw [step_txCount hs]
    exact iff_of_true (hread h) trivial
  | getRevBlock h =>
    rw [step_getRevBlock hs]
    refine iff_of_true ?_ trivial
    rw [(hs.readRevBlock h).noneUnlinked_iff_openBlockFile]
    unfold readRevBlock
    split <;> exact hs.noneUnlinked_iff_openBlockFile.mp hn
  | pruneUpTo targetHeight hashAtHeight =>
    obtain ⟨hsame, hsound⟩ := step_pruneUpTo codec hs targetHeight hashAtHeight
    rw [hsound.noneUnlinked_iff_openBlockFile, hsame.openBlockFile, hsame.files]
    exact spares_iff hs hn targetHeight hashAtHeight
  | reopen wipe =>
    have hopened := (step_reopen codec hs wipe).1
    refine iff_of_true ?_ trivial
    rw [hopened.toSound.noneUnlinked_iff_openBlockFile, hopened.noBlockFile]
    nofun

theorem noneUnlinked_fresh : NoneUnlinked fresh := by
  rintro a (ha | ha) <;> cases ha

/-- **No state of a run has a handle on an unlinked file exactly where every call of it
spares the block handle.** -/
theorem noneUnlinked_iff (codec : BlockCodec) (calls : List Call) :
    (∀ before, before <+: calls → NoneUnlinked (after codec before)) ↔
      ∀ before c, before ++ [c] <+: calls → c.SparesHandle (after codec before) := by
  have hsound : ∀ s c, Sound s → Sound (step codec s c) := fun _ c hs => hs.step c
  have hstep : ∀ s c, Sound s → NoneUnlinked s →
      (NoneUnlinked (step codec s c) ↔ c.SparesHandle s) :=
    fun _ c hs hn => noneUnlinked_step hs hn c
  exact Run.forall_prefix_iff hsound hstep sound_fresh noneUnlinked_fresh calls

/-- **A file is unlinked under the block handle**: a block of the first file is read
once another file is current, and a prune of all its blocks unlinks it. -/
theorem unlinked_of_read {blocks : List Block} {b : Block} (hs : Sound s)
    (hfirst : FirstFile codec blocks s) (hnew : b.header.hash ∉ blocks.map (·.header.hash))
    (hsize : fileLimit < (blocks.map fun b => (codec.serialize b).length).sum)
    (hh : h ∈ blocks.map (·.header.hash)) {targetHeight : ℤ} {hashAtHeight : ℤ → Option Hash}
    (hprunes : ∀ u : BlockDb, u.prunedUpTo = -1 →
      u.prunes targetHeight hashAtHeight = blocks.map (·.header.hash)) :
    ¬NoneUnlinked (step codec (step codec (step codec s (.addBlock b)) (.getRawBlock h))
      (.pruneUpTo targetHeight hashAtHeight)) := by
  have hfresh : b.header.hash ∉ s.blocks := by
    intro hmem
    obtain ⟨l, hl⟩ := (FiniteMap.mem_iff_exists _ _).mp hmem
    exact hnew (hfirst.held _ l hl).1
  have hrotates : s.rotates = true := by
    rw [rotates, hfirst.fileIndex, hfirst.size]
    exact decide_eq_true hsize
  obtain ⟨hnext, hleft⟩ := step_rotates codec hs hfresh hrotates
  have hpruned : (step codec s (.addBlock b)).prunedUpTo = -1 := by
    rw [step_addBlock hs, if_neg hfresh, prunedUpTo_added, hfirst.prunedUpTo]
  have ht : Sound (step codec s (.addBlock b)) := hs.step _
  generalize step codec s (.addBlock b) = t at *
  have hin := (hleft ⟨1, .blk⟩ (by rw [hfirst.fileIndex])).2
  -- the read leaves the handle on the first file
  obtain ⟨l, hl, hfile⟩ : t.InFile h ⟨1, .blk⟩ := by
    obtain ⟨l, hl⟩ := (FiniteMap.mem_iff_exists _ _).mp (hfirst.all h hh)
    exact (hin h).mpr ⟨l, hl, (hfirst.held h l hl).2⟩
  have hread : readBlock h t = t.setHandle .blk (some ⟨⟨1, .blk⟩, none⟩) := by
    rw [readBlock, hl, ← hfile]
  have hall : (readBlock h t).prunes targetHeight hashAtHeight = blocks.map (·.header.hash) := by
    refine hprunes _ ?_
    rw [hread]
    exact hpruned
  have hstored : ∀ a, (readBlock h t).InFile a ⟨1, .blk⟩ ↔ t.InFile a ⟨1, .blk⟩ := by
    intro a
    rw [hread]
    rfl
  have hother : (1 : ℕ) ≠ (readBlock h t).fileIndex := by
    rw [hread]
    show 1 ≠ t.fileIndex
    rw [hnext, hfirst.fileIndex]
    decide
  rw [step_getRawBlock ht]
  intro hclosed
  have hspares :=
    (noneUnlinked_step (ht.readBlock h) (noneUnlinked_readBlock ht hl) _).mp hclosed
  obtain ⟨a, hkept, ha⟩ := hspares ⟨⟨1, .blk⟩, none⟩ (by rw [hread]; rfl) hother
    ⟨h, by rw [hall]; exact hh, (hstored h).mpr ⟨l, hl, hfile⟩⟩
  obtain ⟨l', hl', -⟩ := (hin a).mp ((hstored a).mp ha)
  rw [hall] at hkept
  exact hkept (hfirst.held a l' hl').1

/-- The blocks 0 to 32 of 4MB fill the first file, block 33 starts the second, block 0
is read, and the heights 0 to 32 are pruned. -/
theorem unlinked_under_handle : ¬NoneUnlinked (after sampleCodec (sampleBlocks.map .addBlock ++
    [.addBlock (sampleBlock 33), .getRawBlock 0,
      .pruneUpTo 32 fun height => some height.toNat])) := by
  rw [after_append, List.foldl_cons, List.foldl_cons, List.foldl_cons, List.foldl_nil]
  refine unlinked_of_read (sound_after _) firstFile_sample ?_ ?_ ?_ fun u hu => ?_
  · rw [hashes_sample]
    decide
  · simp only [sampleBlocks, sampleCodec, List.length_replicate]
    decide
  · rw [hashes_sample]
    decide
  · rw [hashes_sample, prunes, heightsUpTo, hu]
    decide

end BtclibNode.BlockDb
