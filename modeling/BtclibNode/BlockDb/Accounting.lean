/-
# What the files of the block store add up to

`live` counts the blocks and the patches of each file, and a file that is not current
is there for one of them, over every run in which no rotation leaves an empty file
behind and no patch is written a second time.
-/
import Mathlib
import BtclibNode.Lib.Run
import BtclibNode.BlockDb.Methods

namespace BtclibNode.BlockDb

open StateExcept

variable {codec : BlockCodec} {s t : BlockDb} {f g : FlatFile} {h : Hash}

/-- **The accounts of the store.** -/
structure Accounted (s : BlockDb) : Prop where
  live : ∀ f, s.liveAt f = s.located f
  placed : ∀ f, 0 < s.located f → f ∈ s.files ∧ f ∈ s.disk
  used : Used s
  usage : s.currentUsage = (s.disk.toList.map fun row => row.2.length).sum

/-- A call keeps the accounts: a rotation leaves no file without a block or a patch,
and `finalize` writes no patch of a block that has one. -/
def Call.Accounts (s : BlockDb) : Call → Prop
  | .addBlock block => block.header.hash ∉ s.blocks → s.rotates →
    ∀ f ∈ s.files, f.index = s.fileIndex → 0 < s.located f
  | .finalize => ∀ rev ∈ s.toWrite, rev.hash ∉ s.revPatches
  | _ => True

/-! ## The blocks of a file -/

/-- A block is stored in a file. -/
def InFile (s : BlockDb) (h : Hash) (f : FlatFile) : Prop :=
  ∃ l : BlockLocation, s.blocks[h]? = some l ∧ l.file = f

theorem located_pos_iff (hs : Kept s) (hf : f.suffix = .blk) :
    0 < s.located f ↔ ∃ h, s.InFile h f := by
  have hrev : RefCount.count s.revPatches BlockLocation.file f = 0 := by
    by_contra hne
    obtain ⟨a, l, hl, rfl⟩ := RefCount.count_pos_iff.mp (Nat.pos_of_ne_zero hne)
    rw [(hs.locations.rev a l hl).1] at hf
    cases hf
  rw [located, hrev, Nat.add_zero, RefCount.count_pos_iff]
  rfl

theorem inFile_deleted (h a : Hash) : (deleted h s).InFile a f ↔ a ≠ h ∧ s.InFile a f := by
  unfold InFile
  rw [blocks_deleted]
  constructor
  · rintro ⟨l, hl, hfile⟩
    split at hl
    · cases hl
    · next hne => exact ⟨Ne.symm hne, l, hl, hfile⟩
  · rintro ⟨hne, l, hl, hfile⟩
    exact ⟨l, by rw [if_neg (Ne.symm hne)]; exact hl, hfile⟩

theorem inFile_pruned (hashes : List Hash) (a : Hash) :
    (pruned hashes s).InFile a f ↔ a ∉ hashes ∧ s.InFile a f := by
  induction hashes generalizing s with
  | nil => simp [pruned]
  | cons h rest ih =>
    refine ih.trans ?_
    rw [inFile_deleted, List.mem_cons, not_or, and_left_comm, and_assoc]

theorem fileIndex_deleted (h : Hash) (s : BlockDb) : (deleted h s).fileIndex = s.fileIndex := by
  rw [deleted, fileIndex_deletedRevBlock, fileIndex_deletedBlock]

theorem fileIndex_pruned (hashes : List Hash) (s : BlockDb) :
    (pruned hashes s).fileIndex = s.fileIndex := by
  induction hashes generalizing s with
  | nil => rfl
  | cons h rest ih => exact (ih (deleted h s)).trans (fileIndex_deleted h s)

/-! ## What always holds -/

theorem Sound.mem_files (hs : Sound s) (hf : 0 < s.located f) : f ∈ s.files := by
  rcases Nat.add_pos_iff_pos_or_pos.mp hf with hpos | hpos
  · obtain ⟨a, l, hl, rfl⟩ := RefCount.count_pos_iff.mp hpos
    exact (hs.locations.block a l hl).2
  · obtain ⟨a, l, hl, rfl⟩ := RefCount.count_pos_iff.mp hpos
    exact (hs.locations.rev a l hl).2

theorem Sound.currentUsage (hs : Sound s) :
    s.currentUsage = (s.disk.toList.map fun row => row.2.length).sum := by
  have hfiles : s.files = s.disk.map fun _ data => data.length := by
    refine Std.ExtTreeMap.ext_getElem? fun {f} => ?_
    rw [hs.files.sizes f, Std.ExtTreeMap.getElem?_map]
  rw [BlockDb.currentUsage, hfiles, Std.ExtTreeMap.toList_map, List.map_map]
  rfl

theorem Sound.accounted_iff_live (hs : Sound s) :
    Accounted s ↔ (∀ f, s.liveAt f = s.located f) ∧ Used s := by
  refine ⟨fun h => ⟨h.live, h.used⟩, fun ⟨hlive, hused⟩ => ⟨hlive, fun f hf => ?_, hused,
    hs.currentUsage⟩⟩
  have hmem := hs.mem_files hf
  exact ⟨hmem, (mem_files_iff hs.files).mp hmem⟩

/-- The accounts are of the locations, the counts and the files only. -/
theorem accounts_of_eq (hblocks : t.blocks = s.blocks) (hrev : t.revPatches = s.revPatches)
    (hlive : t.live = s.live) (hfiles : t.files = s.files) (hindex : t.fileIndex = s.fileIndex) :
    ((∀ f, t.liveAt f = t.located f) ∧ Used t) ↔ (∀ f, s.liveAt f = s.located f) ∧ Used s := by
  unfold Used located liveAt
  rw [hblocks, hrev, hlive, hfiles, hindex]

/-! ## A block more -/

theorem files_placed (s : BlockDb) :
    (∀ f ∈ s.files, f ∈ s.placed.files) ∧
      ∀ f ∈ s.placed.files, f ∈ s.files ∨ f.index = s.placed.fileIndex := by
  unfold placed
  split
  · refine ⟨fun f hf => ?_, fun f hf => ?_⟩
    · show f ∈ s.files.insert _ 0
      rw [Std.ExtTreeMap.mem_insert]
      exact .inr hf
    · change f ∈ s.files.insert _ 0 at hf
      rw [Std.ExtTreeMap.mem_insert, Std.LawfulEqCmp.compare_eq_iff_eq] at hf
      rcases hf with rfl | hf
      · exact .inr rfl
      · exact .inl hf
  · exact ⟨fun f hf => hf, fun f hf => .inl hf⟩

/-- **`add_block` keeps the accounts** exactly where a rotation finds a block or a patch
in each file it leaves. -/
theorem accounts_added (hs : Sound s) (hlive : ∀ f, s.liveAt f = s.located f) (hused : Used s)
    {block : Block} (hnew : block.header.hash ∉ s.blocks) :
    ((∀ f, (added codec block s).liveAt f = (added codec block s).located f) ∧
        Used (added codec block s)) ↔
      (s.rotates → ∀ f ∈ s.files, f.index = s.fileIndex → 0 < s.located f) := by
  have hplaced : s.placed.blocks = s.blocks ∧ s.placed.revPatches = s.revPatches ∧
      s.placed.live = s.live := by
    unfold placed
    split <;> exact ⟨rfl, rfl, rfl⟩
  have hlocated : ∀ g, (added codec block s).located g =
      s.located g + if s.placedFile = g then 1 else 0 := by
    intro g
    have hfirst : s.placed.blocks[block.header.hash]? = none := by
      rw [hplaced.1]
      exact (FiniteMap.notMem_iff _ _).mp hnew
    refine (located_putBlock (s := append _ _ _) hfirst g).trans ?_
    show RefCount.count s.placed.blocks _ g + RefCount.count s.placed.revPatches _ g + _ = _
    rw [hplaced.1, hplaced.2.1]
    rfl
  have hliveAt : ∀ g, (added codec block s).liveAt g =
      s.liveAt g + if s.placedFile = g then 1 else 0 := by
    intro g
    refine (liveAt_putBlock (s := append _ _ _) g).trans ?_
    show s.placed.live[g]?.getD 0 + _ = _
    rw [hplaced.2.2]
    rfl
  have hfiles : ∀ g, g ∈ (added codec block s).files ↔ g ∈ s.placed.files := by
    intro g
    show g ∈ s.placed.files.insert _ _ ↔ _
    rw [Std.ExtTreeMap.mem_insert, Std.LawfulEqCmp.compare_eq_iff_eq]
    refine ⟨?_, .inr⟩
    rintro (rfl | hg)
    · exact hs.toKept.placedFile_mem
    · exact hg
  have hindex : (added codec block s).fileIndex = s.placed.fileIndex := rfl
  refine (and_iff_right fun f => by rw [hlocated, hliveAt, hlive]).trans ?_
  constructor
  · intro hused' hrotates f hf hcurrent
    have hnext : s.placed.fileIndex = s.fileIndex + 1 := by
      rw [placed, if_pos hrotates]
      rfl
    have hpos := hused' f ((hfiles f).mpr ((files_placed s).1 f hf)) (by rw [hindex]; omega)
    rw [hlocated, if_neg] at hpos
    · exact hpos
    · rintro rfl
      rw [placedFile] at hcurrent
      dsimp only at hcurrent
      omega
  · intro hrotation g hg hother
    rw [hindex] at hother
    rw [hlocated]
    have hold := ((files_placed s).2 g ((hfiles g).mp hg)).resolve_right hother
    suffices 0 < s.located g by omega
    by_cases hcurrent : g.index = s.fileIndex
    · refine hrotation ?_ g hold hcurrent
      by_contra hno
      rw [placed, if_neg hno] at hother
      exact hother hcurrent
    · exact hused g hold hcurrent

/-! ## Patches more -/

/-- A count above the references. -/
def Overcounts (s : BlockDb) : Prop := ∃ f, s.located f < s.liveAt f

theorem located_wroteRev (codec : BlockCodec) (hs : Sound s) {rev : RevBlock} {b : BlockLocation}
    (hb : s.blocks[rev.hash]? = some b) (g : FlatFile) :
    (wroteRev codec rev s).located g =
        s.located g + (if rev.hash ∉ s.revPatches ∧ FlatFile.mk b.file.index .rev = g then 1 else 0) ∧
      (wroteRev codec rev s).liveAt g =
        s.liveAt g + if FlatFile.mk b.file.index .rev = g then 1 else 0 := by
  have hrev := revPatches_revPlaced ⟨b.file.index, .rev⟩ s
  have hblocks := blocks_revPlaced ⟨b.file.index, .rev⟩ s
  have hlive := live_revPlaced ⟨b.file.index, .rev⟩ s
  rw [wroteRev, hb]
  constructor
  · refine (located_putRevPatch (s := append _ _ _) ?_ g).trans ?_
    · intro l hl
      change (revPlaced _ s).revPatches[rev.hash]? = some l at hl
      rw [hrev] at hl
      obtain ⟨b', hb', hsame⟩ := hs.beside _ l hl
      obtain rfl : b = b' := Option.some.inj (hb.symm.trans hb')
      rw [hsame, ← (hs.locations.rev _ l hl).1]
    · refine congrArg₂ (· + ·) ?_ (if_congr (and_congr_left fun _ => not_congr ?_) rfl rfl)
      · show RefCount.count (revPlaced _ s).blocks _ g + RefCount.count (revPlaced _ s).revPatches _ g =
          _
        rw [hblocks, hrev]
        rfl
      · show rev.hash ∈ (revPlaced _ s).revPatches ↔ _
        rw [hrev]
  · refine (liveAt_putRevPatch (s := append _ _ _) g).trans ?_
    show (revPlaced _ s).live[g]?.getD 0 + _ = _
    rw [hlive]
    rfl

theorem revPatches_wroteRev {rev : RevBlock} {b : BlockLocation}
    (hb : s.blocks[rev.hash]? = some b) (a : Hash) :
    a ∈ (wroteRev codec rev s).revPatches ↔ a = rev.hash ∨ a ∈ s.revPatches := by
  rw [wroteRev, hb]
  show a ∈ (revPlaced _ s).revPatches.insert rev.hash _ ↔ _
  rw [Std.ExtTreeMap.mem_insert, Std.LawfulEqCmp.compare_eq_iff_eq, revPatches_revPlaced,
    eq_comm]

/-- An overcount stays. -/
theorem overcounts_wroteRev (hs : Sound s) (rev : RevBlock) (ho : Overcounts s) :
    Overcounts (wroteRev codec rev s) := by
  obtain ⟨f, hf⟩ := ho
  cases hb : s.blocks[rev.hash]? with
  | none =>
    refine ⟨f, ?_⟩
    rw [wroteRev, hb]
    exact hf
  | some b =>
    obtain ⟨hlocated, hliveAt⟩ := located_wroteRev codec hs hb f
    refine ⟨f, ?_⟩
    rw [hlocated, hliveAt]
    split <;> split <;> first | omega | tauto

/-- A patch written again is an overcount. -/
theorem overcounts_of_mem (hs : Sound s) {rev : RevBlock} (hmem : rev.hash ∈ s.revPatches)
    (hstored : rev.hash ∈ s.blocks) : Overcounts (wroteRev codec rev s) := by
  obtain ⟨b, hb⟩ := (FiniteMap.mem_iff_exists _ _).mp hstored
  obtain ⟨hlocated, hliveAt⟩ := located_wroteRev codec hs hb ⟨b.file.index, .rev⟩
  refine ⟨⟨b.file.index, .rev⟩, ?_⟩
  rw [hlocated, hliveAt, if_pos rfl, if_neg fun hc => hc.1 hmem]
  exact Nat.lt_succ_of_le (hs.counts.le _)

theorem overcounts_written (codec : BlockCodec) (hs : Sound s) {revs : List RevBlock}
    (hstored : ∀ rev ∈ revs, rev.hash ∈ s.blocks)
    (ho : Overcounts s ∨ ∃ rev ∈ revs, rev.hash ∈ s.revPatches) :
    Overcounts (written codec revs s) := by
  induction revs generalizing s with
  | nil =>
    rcases ho with ho | ⟨rev, hrev, -⟩
    · exact ho
    · cases hrev
  | cons rev rest ih =>
    rw [List.forall_mem_cons] at hstored
    obtain ⟨b, hb⟩ := (FiniteMap.mem_iff_exists _ _).mp hstored.1
    refine ih (hs.wroteRev codec rev) ?_ ?_
    · rw [blocks_wroteRev]
      exact hstored.2
    · rcases ho with ho | ⟨rev', hrev', hmem⟩
      · exact .inl (overcounts_wroteRev hs rev ho)
      · rcases List.mem_cons.mp hrev' with rfl | hrest
        · exact .inl (overcounts_of_mem hs hmem hstored.1)
        · exact .inr ⟨rev', hrest, (revPatches_wroteRev hb _).mpr (.inr hmem)⟩

/-- Patches of blocks without one keep the counts exact. -/
theorem exact_written (hs : Sound s) (hlive : ∀ f, s.liveAt f = s.located f) {revs : List RevBlock}
    (hstored : ∀ rev ∈ revs, rev.hash ∈ s.blocks) (hnodup : (revs.map RevBlock.hash).Nodup)
    (hnew : ∀ rev ∈ revs, rev.hash ∉ s.revPatches) (f : FlatFile) :
    (written codec revs s).liveAt f = (written codec revs s).located f := by
  induction revs generalizing s with
  | nil => exact hlive f
  | cons rev rest ih =>
    rw [List.forall_mem_cons] at hstored hnew
    rw [List.map_cons, List.nodup_cons] at hnodup
    obtain ⟨b, hb⟩ := (FiniteMap.mem_iff_exists _ _).mp hstored.1
    refine ih (hs.wroteRev codec rev) ?_ ?_ hnodup.2 ?_
    · intro g
      obtain ⟨hlocated, hliveAt⟩ := located_wroteRev codec hs hb g
      rw [hlocated, hliveAt, hlive g]
      simp only [hnew.1, not_false_eq_true, true_and]
    · rw [blocks_wroteRev]
      exact hstored.2
    · intro rev' hrev' hmem
      rcases (revPatches_wroteRev hb _).mp hmem with heq | hold
      · exact hnodup.1 (heq ▸ List.mem_map_of_mem hrev')
      · exact hnew.2 rev' hrev' hold

theorem used_wroteRev (hs : Sound s) (hused : Used s) (rev : RevBlock) :
    Used (wroteRev codec rev s) := by
  intro g hg hother
  cases hb : s.blocks[rev.hash]? with
  | none =>
    rw [wroteRev, hb] at hg hother ⊢
    exact hused g hg hother
  | some b =>
    have hmem : g = ⟨b.file.index, .rev⟩ ∨ g ∈ s.files := by
      rw [wroteRev, hb] at hg
      change g ∈ (revPlaced _ s).files.insert _ _ at hg
      rw [Std.ExtTreeMap.mem_insert, Std.LawfulEqCmp.compare_eq_iff_eq, mem_files_revPlaced] at hg
      rcases hg with rfl | hg
      · exact .inl rfl
      · exact hg
    rcases hmem with rfl | hg
    · have hheld : ∃ l : BlockLocation, (wroteRev codec rev s).revPatches[rev.hash]? = some l ∧
          l.file = ⟨b.file.index, .rev⟩ := by
        rw [wroteRev, hb]
        refine ⟨_, (FiniteMap.getElem?_insert _ rev.hash rev.hash _).trans (if_pos rfl), rfl⟩
      exact Nat.lt_of_lt_of_le
        (RefCount.count_pos_iff.mpr ⟨rev.hash, hheld.choose, hheld.choose_spec⟩)
        (Nat.le_add_left _ _)
    · rw [(located_wroteRev codec hs hb g).1]
      rw [fileIndex_wroteRev] at hother
      have hpos := hused g hg hother
      omega

theorem used_written (hs : Sound s) (hused : Used s) (revs : List RevBlock) :
    Used (written codec revs s) := by
  induction revs generalizing s with
  | nil => exact hused
  | cons rev rest ih => exact ih (hs.wroteRev codec rev) (used_wroteRev hs hused rev)

/-- **`finalize` keeps the accounts** exactly where it writes no patch of a block that
has one. -/
theorem accounts_written (hs : Sound s) (hlive : ∀ f, s.liveAt f = s.located f) (hused : Used s) :
    ((∀ f, (written codec s.toWrite s).liveAt f = (written codec s.toWrite s).located f) ∧
        Used (written codec s.toWrite s)) ↔ ∀ rev ∈ s.toWrite, rev.hash ∉ s.revPatches := by
  have hstored : ∀ rev ∈ s.toWrite, rev.hash ∈ s.blocks := by
    intro rev hrev
    simpa using List.mem_takeWhile_imp hrev
  have hnodup : (s.toWrite.map RevBlock.hash).Nodup :=
    hs.locations.pending.sublist ((List.takeWhile_sublist _).map _)
  constructor
  · rintro ⟨hexact, -⟩ rev hrev hmem
    obtain ⟨f, hf⟩ := overcounts_written codec hs hstored (.inr ⟨rev, hrev, hmem⟩)
    rw [hexact f] at hf
    exact Nat.lt_irrefl _ hf
  · exact fun hnew => ⟨exact_written hs hlive hstored hnodup hnew, used_written hs hused _⟩

/-! ## Heights less -/

/-- A release keeps the accounts. -/
theorem accounts_reclaimed (hlive : ∀ g, s.liveAt g = s.located g) (hused : Used s)
    (hsame : t.live = s.live) (hfiles : t.files = s.files) (hindex : t.fileIndex = s.fileIndex)
    (hlocated : ∀ g, t.located g + (if f = g then 1 else 0) = s.located g) (b : Bool) :
    (∀ g, (reclaimed f b (lowered f t)).liveAt g = (reclaimed f b (lowered f t)).located g) ∧
      Used (reclaimed f b (lowered f t)) := by
  have hcount : ∀ g, (lowered f t).liveAt g = t.located g := by
    intro g
    have hold := hlive g
    have hless := hlocated g
    rw [liveAt_lowered]
    unfold liveAt at hold ⊢
    rw [hsame]
    omega
  have hkept : ∀ g, (reclaimed f b (lowered f t)).located g = t.located g := by
    intro g
    rw [located, located, blocks_reclaimed, revPatches_reclaimed]
    rfl
  refine ⟨fun g => ?_, fun g hg hother => ?_⟩
  · rw [hkept, ← hcount, liveAt, live_reclaimed]
    rfl
  · obtain ⟨hmem, hkeep⟩ := mem_reclaimed.mp hg
    rw [hkept]
    rw [fileIndex_reclaimed] at hother
    by_cases heq : f = g
    · subst heq
      rw [← hcount]
      refine (hkeep rfl).resolve_right fun hcurrent => hother (beq_iff_eq.mp hcurrent)
    · have hpos := hused g (hfiles ▸ hmem) (hindex ▸ hother)
      have hless := hlocated g
      rw [if_neg heq] at hless
      omega

theorem accounts_deleted (hlive : ∀ g, s.liveAt g = s.located g)
    (hused : Used s) (h : Hash) :
    (∀ g, (deleted h s).liveAt g = (deleted h s).located g) ∧ Used (deleted h s) := by
  have hfirst : (∀ g, (deletedBlock h s).liveAt g = (deletedBlock h s).located g) ∧
      Used (deletedBlock h s) := by
    unfold deletedBlock
    cases hl : s.blocks[h]? with
    | none => exact ⟨hlive, hused⟩
    | some l =>
      exact accounts_reclaimed (t := dropBlock h s) hlive hused rfl rfl rfl (located_dropBlock hl)
        true
  unfold deleted deletedRevBlock
  cases hl : (deletedBlock h s).revPatches[h]? with
  | none => exact hfirst
  | some l =>
    exact accounts_reclaimed (t := dropRevBlock h (deletedBlock h s)) hfirst.1 hfirst.2 rfl rfl rfl
      (located_dropRevBlock hl) false

theorem accounts_pruned (hlive : ∀ g, s.liveAt g = s.located g)
    (hused : Used s) (hashes : List Hash) :
    (∀ g, (pruned hashes s).liveAt g = (pruned hashes s).located g) ∧ Used (pruned hashes s) := by
  induction hashes generalizing s with
  | nil => exact ⟨hlive, hused⟩
  | cons h rest ih =>
    have hnext := accounts_deleted hlive hused h
    exact ih hnext.1 hnext.2

/-! ## Every call, every run -/

/-- **One call** keeps the accounts exactly under its condition. -/
theorem accounted_step (hs : Sound s) (ha : Accounted s) (c : Call) :
    Accounted (step codec s c) ↔ c.Accounts s := by
  have hread : ∀ {u : BlockDb}, u.blocks = s.blocks → u.revPatches = s.revPatches →
      u.live = s.live → u.files = s.files → u.fileIndex = s.fileIndex →
      ((∀ f, u.liveAt f = u.located f) ∧ Used u) := fun hb hr hl hf hi =>
    (accounts_of_eq hb hr hl hf hi).mpr ⟨ha.live, ha.used⟩
  rw [(hs.step c).accounted_iff_live]
  cases c with
  | addBlock block =>
    rw [step_addBlock hs]
    by_cases hmem : block.header.hash ∈ s.blocks
    · rw [if_pos hmem]
      exact ⟨fun _ hnew => absurd hmem hnew, fun _ => ⟨ha.live, ha.used⟩⟩
    · rw [if_neg hmem]
      exact (accounts_added hs ha.live ha.used hmem).trans ⟨fun h _ => h, fun h => h hmem⟩
  | addRevBlock rev =>
    refine iff_of_true ?_ trivial
    show (∀ f, (addRevBlock rev s).liveAt f = (addRevBlock rev s).located f) ∧
      Used (addRevBlock rev s)
    unfold addRevBlock
    split <;> exact hread rfl rfl rfl rfl rfl
  | finalize =>
    have hsame := (step_finalize codec hs).1
    exact (accounts_of_eq hsame.blocks hsame.revPatches hsame.live hsame.files
      hsame.fileIndex).trans (accounts_written hs ha.live ha.used)
  | rollback => exact iff_of_true (hread rfl rfl rfl rfl rfl) trivial
  | getRawBlock h =>
    rw [step_getRawBlock hs]
    refine iff_of_true ?_ trivial
    unfold readBlock
    split <;> exact hread rfl rfl rfl rfl rfl
  | getBlock h =>
    rw [step_getBlock hs]
    refine iff_of_true ?_ trivial
    unfold readBlock
    split <;> exact hread rfl rfl rfl rfl rfl
  | txCount h =>
    rw [step_txCount hs]
    refine iff_of_true ?_ trivial
    unfold readBlock
    split <;> exact hread rfl rfl rfl rfl rfl
  | getRevBlock h =>
    rw [step_getRevBlock hs]
    refine iff_of_true ?_ trivial
    unfold readRevBlock
    split <;> exact hread rfl rfl rfl rfl rfl
  | pruneUpTo targetHeight hashAtHeight =>
    have hsame := (step_pruneUpTo codec hs targetHeight hashAtHeight).1
    refine iff_of_true ?_ trivial
    exact (accounts_of_eq hsame.blocks hsame.revPatches hsame.live hsame.files
      hsame.fileIndex).mpr (accounts_pruned ha.live ha.used _)
  | reopen wipe =>
    have hopened := step_reopen codec hs wipe
    exact iff_of_true ⟨hopened.1.exact, hopened.2⟩ trivial

theorem accounted_fresh : Accounted fresh :=
  sound_fresh.accounted_iff_live.mpr ⟨fun _ => rfl, fun _ hf => absurd hf Std.ExtTreeMap.not_mem_empty⟩

/-- **The accounts hold in every state of a run exactly where every call of it meets
its condition.** -/
theorem accounted_iff (codec : BlockCodec) (calls : List Call) :
    (∀ before, before <+: calls → Accounted (after codec before)) ↔
      ∀ before c, before ++ [c] <+: calls → c.Accounts (after codec before) := by
  have hsound : ∀ s c, Sound s → Sound (step codec s c) := fun _ c hs => hs.step c
  have hstep : ∀ s c, Sound s → Accounted s → (Accounted (step codec s c) ↔ c.Accounts s) :=
    fun _ c hs ha => accounted_step hs ha c
  exact Run.forall_prefix_iff hsound hstep sound_fresh accounted_fresh calls

/-! ## The first file -/

/-- The store holds these blocks, all in its first file. -/
structure FirstFile (codec : BlockCodec) (blocks : List Block) (s : BlockDb) : Prop where
  fileIndex : s.fileIndex = 1
  size : s.files[FlatFile.mk 1 .blk]? =
    some (blocks.map fun b => (codec.serialize b).length).sum
  held : ∀ (h : Hash) (l : BlockLocation), s.blocks[h]? = some l →
    h ∈ blocks.map (·.header.hash) ∧ l.file = ⟨1, .blk⟩
  all : ∀ h ∈ blocks.map (·.header.hash), h ∈ s.blocks
  prunedUpTo : s.prunedUpTo = -1

/-- One more block in the first file. -/
theorem FirstFile.next {blocks : List Block} {b : Block} (hs : Sound s)
    (hbefore : FirstFile codec blocks s ∨ s = fresh ∧ blocks = [])
    (hnew : b.header.hash ∉ blocks.map (·.header.hash))
    (hsize : (blocks.map fun b => (codec.serialize b).length).sum ≤ fileLimit) :
    FirstFile codec (blocks ++ [b]) (step codec s (.addBlock b)) := by
  obtain ⟨hplaced, hcount, hblocks, hpruned, hheld, hall⟩ : s.placed.fileIndex = 1 ∧
      s.placed.files[FlatFile.mk 1 .blk]?.getD 0 =
        (blocks.map fun b => (codec.serialize b).length).sum ∧ s.placed.blocks = s.blocks ∧
      s.placed.prunedUpTo = -1 ∧ (∀ (h : Hash) (l : BlockLocation), s.blocks[h]? = some l →
        h ∈ blocks.map (·.header.hash) ∧ l.file = ⟨1, .blk⟩) ∧
      ∀ h ∈ blocks.map (·.header.hash), h ∈ s.blocks := by
    rcases hbefore with hfirst | ⟨rfl, rfl⟩
    · have hstays : s.rotates = false := by
        rw [rotates, hfirst.fileIndex, hfirst.size]
        exact decide_eq_false (Nat.not_lt.mpr hsize)
      rw [placed, hstays, if_neg Bool.false_ne_true]
      refine ⟨hfirst.fileIndex, ?_, rfl, hfirst.prunedUpTo, hfirst.held, hfirst.all⟩
      show s.files[FlatFile.mk 1 .blk]?.getD 0 = _
      rw [hfirst.size]
      rfl
    · refine ⟨rfl, rfl, rfl, rfl, fun _ _ hl => ?_, fun _ hh => ?_⟩
      · cases hl
      · cases hh
  have hfile : s.placedFile = ⟨1, .blk⟩ := by rw [placedFile, hplaced]
  have hfresh : b.header.hash ∉ s.blocks := by
    intro hmem
    obtain ⟨l, hl⟩ := (FiniteMap.mem_iff_exists _ _).mp hmem
    exact hnew (hheld _ l hl).1
  rw [step_addBlock hs, if_neg hfresh]
  refine ⟨hplaced, ?_, fun h l hl => ?_, fun h hh => ?_, hpruned⟩
  · show (s.placed.files.insert s.placedFile _)[FlatFile.mk 1 .blk]? = _
    rw [FiniteMap.getElem?_insert, hfile, if_pos rfl, hcount, List.map_append, List.sum_append]
    rfl
  · change (s.placed.blocks.insert b.header.hash ⟨s.placedFile, _, _⟩)[h]? = some l at hl
    rw [List.map_append, List.mem_append]
    rw [FiniteMap.getElem?_insert, hblocks] at hl
    split at hl
    · next heq =>
      obtain rfl := Option.some.inj hl
      exact ⟨.inr (List.mem_singleton.mpr heq.symm), hfile⟩
    · obtain ⟨hmem, hin⟩ := hheld h l hl
      exact ⟨.inl hmem, hin⟩
  · show h ∈ s.placed.blocks.insert b.header.hash _
    rw [Std.ExtTreeMap.mem_insert, Std.LawfulEqCmp.compare_eq_iff_eq, hblocks]
    rw [List.map_append, List.mem_append] at hh
    rcases hh with hh | hh
    · exact .inr (hall h hh)
    · exact .inl (List.mem_singleton.mp hh).symm

/-- **Blocks go to the first file** until it is past 128MB. -/
theorem firstFile {blocks : List Block} (hne : blocks ≠ [])
    (hnodup : (blocks.map (·.header.hash)).Nodup)
    (hsize : (blocks.dropLast.map fun b => (codec.serialize b).length).sum ≤ fileLimit) :
    FirstFile codec blocks (after codec (blocks.map .addBlock)) := by
  induction blocks using List.reverseRecOn with
  | nil => exact absurd rfl hne
  | append_singleton blocks b ih =>
    rw [List.dropLast_concat] at hsize
    rw [List.map_append, List.nodup_append] at hnodup
    obtain ⟨hfirst, -, hnew⟩ := hnodup
    rw [List.map_append, after_append]
    refine FirstFile.next (sound_after _) ?_
      (fun h => hnew _ h _ (List.mem_singleton_self _) rfl) hsize
    rcases List.eq_nil_or_concat blocks with rfl | ⟨init, last, rfl⟩
    · exact .inr ⟨rfl, rfl⟩
    · refine .inl (ih (by simp) hfirst ?_)
      rw [List.concat_eq_append, List.map_append, List.sum_append] at hsize
      rw [List.concat_eq_append, List.dropLast_concat]
      omega

theorem prunedUpTo_added (block : Block) (s : BlockDb) :
    (added codec block s).prunedUpTo = s.prunedUpTo := by
  show s.placed.prunedUpTo = s.prunedUpTo
  unfold placed
  split <;> rfl

/-- A rotation leaves the files there are, and what is in them. -/
theorem step_rotates (codec : BlockCodec) {b : Block} (hs : Sound s) (hnew : b.header.hash ∉ s.blocks)
    (hrotates : s.rotates) : (step codec s (.addBlock b)).fileIndex = s.fileIndex + 1 ∧
      ∀ f, f.index ≤ s.fileIndex → (f ∈ s.files → f ∈ (step codec s (.addBlock b)).files) ∧
        ∀ h, (step codec s (.addBlock b)).InFile h f ↔ s.InFile h f := by
  have hplaced : s.placed.fileIndex = s.fileIndex + 1 ∧ s.placed.blocks = s.blocks := by
    rw [placed, if_pos hrotates]
    exact ⟨rfl, rfl⟩
  rw [step_addBlock hs, if_neg hnew]
  refine ⟨hplaced.1, fun f hf => ⟨fun hmem => ?_, fun h => ?_⟩⟩
  · show f ∈ s.placed.files.insert s.placedFile _
    rw [Std.ExtTreeMap.mem_insert]
    exact .inr ((files_placed s).1 f hmem)
  · have hblocks : (added codec b s).blocks[h]? =
        if b.header.hash = h then some ⟨s.placedFile, s.placed.files[s.placedFile]?.getD 0,
          (codec.serialize b).length⟩ else s.blocks[h]? := by
      show (s.placed.blocks.insert b.header.hash _)[h]? = _
      rw [FiniteMap.getElem?_insert, hplaced.2]
    unfold InFile
    rw [hblocks]
    split
    · next heq =>
      constructor
      · rintro ⟨l, hl, rfl⟩
        obtain rfl := Option.some.inj hl
        rw [placedFile, hplaced.1] at hf
        dsimp only at hf
        omega
      · rintro ⟨l, hl, -⟩
        exact absurd ((FiniteMap.mem_iff_exists _ _).mpr ⟨l, heq ▸ hl⟩) hnew
    · rfl

/-- A prune leaves the size of the current file. -/
theorem size_pruned (hg : g.index = s.fileIndex) (hashes : List Hash) :
    (pruned hashes s).files[g]? = s.files[g]? := by
  have hone : ∀ (f : FlatFile) (b : Bool) (u : BlockDb), g.index = u.fileIndex →
      (reclaimed f b u).files[g]? = u.files[g]? := by
    intro f b u hu
    unfold reclaimed
    split
    · rfl
    · next h =>
      have hne : f ≠ g := by
        rintro rfl
        exact h (.inr (beq_iff_eq.mpr hu))
      have hfiles : (unlinked f (closeRevFile f b u)).files = u.files.erase f := by
        unfold closeRevFile
        split <;> rfl
      rw [hfiles, FiniteMap.getElem?_erase_ne _ hne]
  induction hashes generalizing s with
  | nil => rfl
  | cons h rest ih =>
    have hfirst : (deletedBlock h s).files[g]? = s.files[g]? := by
      unfold deletedBlock
      cases s.blocks[h]? with
      | none => rfl
      | some l => exact hone l.file true (lowered l.file (dropBlock h s)) hg
    have hindex : g.index = (deletedBlock h s).fileIndex := by rw [fileIndex_deletedBlock, hg]
    have hsecond : (deleted h s).files[g]? = s.files[g]? := by
      unfold deleted deletedRevBlock
      cases (deletedBlock h s).revPatches[h]? with
      | none => exact hfirst
      | some l =>
        exact (hone l.file false (lowered l.file (dropRevBlock h (deletedBlock h s))) hindex).trans
          hfirst
    exact (ih (by rw [fileIndex_deleted]; exact hg)).trans hsecond

/-! ## A file left behind -/

/-- Blocks and patches of 4MB, read back by nothing. -/
def sampleCodec : BlockCodec where
  serialize _ := List.replicate 4000000 0
  parse _ := none
  serializeRev _ := List.replicate 4000000 0
  deserializeRev _ := none
  parseVarInt _ := none

/-- The block of a hash. -/
def sampleBlock (h : Hash) : Block := ⟨⟨h, 0, 0, 0, 0⟩, []⟩

/-- Thirty-three blocks, together past 128MB. -/
def sampleBlocks : List Block := (List.range 33).map sampleBlock

theorem hashes_sample : sampleBlocks.map (·.header.hash) = List.range 33 := by decide

theorem firstFile_sample :
    FirstFile sampleCodec sampleBlocks (after sampleCodec (sampleBlocks.map .addBlock)) := by
  refine firstFile (by decide) (by decide) ?_
  simp only [sampleBlocks, sampleCodec, List.length_replicate]
  decide

/-- **A file is left behind**: its blocks are pruned while it is current, and the next
block starts another. -/
theorem file_left_behind : ¬Accounted (after sampleCodec (sampleBlocks.map .addBlock ++
    [.pruneUpTo 32 fun height => some height.toNat, .addBlock (sampleBlock 33)])) := by
  intro haccounted
  have hfirst := firstFile_sample
  have hsound : Sound (after sampleCodec (sampleBlocks.map .addBlock)) := sound_after _
  rw [after_append, List.foldl_cons, List.foldl_cons, List.foldl_nil] at haccounted
  generalize after sampleCodec (sampleBlocks.map .addBlock) = s at *
  obtain ⟨hsame, hpruned⟩ :=
    step_pruneUpTo sampleCodec hsound 32 fun height => some height.toNat
  have hprunes : s.prunes 32 (fun height => some height.toNat) = List.range 33 := by
    rw [prunes, heightsUpTo, hfirst.prunedUpTo]
    decide
  rw [hprunes] at hsame
  generalize step sampleCodec s (.pruneUpTo 32 fun height => some height.toNat) = t at *
  -- the first file is still current, and none of its blocks is left
  have hindex : t.fileIndex = 1 := by
    rw [hsame.fileIndex, fileIndex_pruned, hfirst.fileIndex]
  have hsize : t.files[FlatFile.mk 1 .blk]? = some 132000000 := by
    rw [hsame.files, size_pruned hfirst.fileIndex.symm, hfirst.size]
    simp only [sampleBlocks, sampleCodec, List.length_replicate]
    decide
  have hnone : ∀ h f, ¬t.InFile h f := by
    rintro h f ⟨l, hl, hfile⟩
    rw [hsame.blocks] at hl
    obtain ⟨hkept, l', hl', -⟩ := (inFile_pruned (List.range 33) h).mp ⟨l, hl, hfile⟩
    exact hkept (hashes_sample ▸ (hfirst.held h l' hl').1)
  have hrotates : t.rotates = true := by
    rw [rotates, hindex, hsize]
    decide
  obtain ⟨hnext, hleft⟩ := step_rotates sampleCodec (b := sampleBlock 33) hpruned
    (fun hmem => by
      obtain ⟨l, hl⟩ := (FiniteMap.mem_iff_exists _ _).mp hmem
      exact hnone _ l.file ⟨l, hl, rfl⟩) hrotates
  obtain ⟨hmem, hin⟩ := hleft ⟨1, .blk⟩ (by rw [hindex])
  have hpos := haccounted.used ⟨1, .blk⟩
    (hmem ((FiniteMap.mem_iff_exists _ _).mpr ⟨_, hsize⟩)) (by rw [hnext, hindex]; decide)
  obtain ⟨h, hh⟩ := (located_pos_iff (hpruned.step _).toKept rfl).mp hpos
  exact hnone h _ ((hin h).mp hh)

end BtclibNode.BlockDb
