/-
# Blocks and undo data in flat files

`BlockDB` of `block_db/__init__.py`.  A method that raises leaves the store as the
statements before the raise left it.  The disk is the content of each file by its
name; a handle to an unlinked file keeps the octets the file had.
-/
import Mathlib
import BtclibNode.Lib.RefCount
import BtclibNode.Lib.StateExcept
import BtclibNode.Chainstate.Block

namespace BtclibNode

/-! ## Files -/

/-- What a file of the store holds: blocks or undo data. -/
inductive Suffix where
  | blk
  | rev
  deriving DecidableEq, Repr

/-- `f"{index:06d}.blk"` or `f"{index:06d}.rev"`. -/
structure FlatFile where
  index : ℕ
  suffix : Suffix
  deriving DecidableEq, Repr

namespace FlatFile

/-- The place of a file among the keys of the store. -/
def code (f : FlatFile) : ℕ :=
  match f.suffix with
  | .blk => 2 * f.index
  | .rev => 2 * f.index + 1

theorem code_injective : Function.Injective code := by
  rintro ⟨i, a⟩ ⟨j, b⟩ h
  cases a <;> cases b <;> simp only [code] at h <;> first | omega | skip
  · obtain rfl : i = j := by omega
    rfl
  · obtain rfl : i = j := by omega
    rfl

instance : Ord FlatFile := ⟨compareOn code⟩

instance : Std.TransOrd FlatFile := inferInstanceAs (Std.TransCmp (compareOn code))

instance : Std.LawfulEqOrd FlatFile where
  eq_of_compare h := code_injective (Std.LawfulEqOrd.eq_of_compare (α := ℕ) h)

end FlatFile

/-- `BlockLocation`. -/
structure BlockLocation where
  file : FlatFile
  index : ℕ
  size : ℕ
  deriving DecidableEq, Repr

/-- An open file: its name, and its octets where it is unlinked. -/
structure Handle where
  file : FlatFile
  unlinked : Option (List UInt8)
  deriving DecidableEq, Repr

namespace Handle

/-- What unlinking the file `f`, with `octets` in it, does to a handle. -/
def unlink (f : FlatFile) (octets : Option (List UInt8)) (h : Handle) : Handle :=
  if h.file = f then { h with unlinked := h.unlinked.or octets } else h

end Handle

/-- What is written of a block and of undo data, and how they are read back. -/
structure BlockCodec where
  serialize : Block → List UInt8
  parse : List UInt8 → Option Block
  serializeRev : RevBlock → List UInt8
  deserializeRev : List UInt8 → Option RevBlock
  parseVarInt : List UInt8 → Option ℕ

/-! ## The store -/

/-- The `f`, `b`, `r`, `i` and `p` keys of the key-value store. -/
structure BlockDbKeys where
  files : Std.ExtTreeMap FlatFile ℕ
  blocks : Std.ExtTreeMap Hash BlockLocation
  revPatches : Std.ExtTreeMap Hash BlockLocation
  fileIndex : Option ℕ
  prunedUpTo : Option ℕ

/-- `BlockDB`, with the disk and its keys; `files` holds the size of each file. -/
structure BlockDb where
  disk : Std.ExtTreeMap FlatFile (List UInt8)
  db : BlockDbKeys
  files : Std.ExtTreeMap FlatFile ℕ
  blocks : Std.ExtTreeMap Hash BlockLocation
  revPatches : Std.ExtTreeMap Hash BlockLocation
  live : Std.ExtTreeMap FlatFile ℕ
  prunedUpTo : ℤ
  pendingRevBlocks : List RevBlock
  openBlockFile : Option Handle
  openRevFile : Option Handle
  fileIndex : ℕ

/-- What a method raises: a `KeyError`, `finalize`'s refusal of a patch whose block
is not stored, what `hash_at_height` raises, or what a parser does. -/
inductive BlockDbError where
  | key
  | notStored (blockHash : Hash)
  | hashAtHeight
  | parse
  deriving DecidableEq, Repr

/-- A method of the store. -/
abbrev BlockDbM := EStateM BlockDbError BlockDb

namespace BlockDb

/-- What a lookup answers, or what it raises. -/
def need {α : Type} (e : BlockDbError) : Option α → BlockDbM α
  | none => throw e
  | some a => return a

/-! ### Files and handles -/

/-- `_is_current`. -/
def isCurrent (s : BlockDb) (f : FlatFile) : Bool := f.index == s.fileIndex

/-- `open_block_file` or `open_rev_file`. -/
def handle (s : BlockDb) : Suffix → Option Handle
  | .blk => s.openBlockFile
  | .rev => s.openRevFile

/-- An assignment to it. -/
def setHandle (s : BlockDb) (k : Suffix) (h : Option Handle) : BlockDb :=
  match k with
  | .blk => { s with openBlockFile := h }
  | .rev => { s with openRevFile := h }

/-- `__get_block_file` or `__get_rev_file`; mode `a+b` creates a file that is not there. -/
def getFile (k : Suffix) (f : FlatFile) (s : BlockDb) : BlockDb :=
  if (s.handle k).map Handle.file = some f then s
  else
    let disk := if f ∈ s.disk then s.disk else s.disk.insert f []
    { s with disk }.setHandle k (some ⟨f, none⟩)

/-- `files[filename] = ...`, with its `f` key. -/
def putFile (f : FlatFile) (size : ℕ) (s : BlockDb) : BlockDb :=
  { s with
    files := s.files.insert f size
    db := { s.db with files := s.db.files.insert f size } }

/-- The octets a handle reads. -/
def octets (s : BlockDb) (h : Handle) : List UInt8 :=
  h.unlinked.getD (s.disk[h.file]?.getD [])

/-- `file.write`, at the end of the file. -/
def write (k : Suffix) (data : List UInt8) (s : BlockDb) : BlockDb :=
  match s.handle k with
  | none => s
  | some h =>
    match h.unlinked with
    | none => { s with disk := s.disk.insert h.file (s.octets h ++ data) }
    | some _ => s.setHandle k (some { h with unlinked := some (s.octets h ++ data) })

/-- `__add_data_to_file`: where the data starts, and its size. -/
def addDataToFile (k : Suffix) (f : FlatFile) (data : List UInt8) : BlockDbM (ℕ × ℕ) := do
  modify (write k data)
  let size ← need .key (← get).files[f]?
  modify (putFile f (size + data.length))
  return (size, data.length)

/-- `__get_data_from_file`. -/
def getDataFromFile (k : Suffix) (index size : ℕ) (s : BlockDb) : List UInt8 :=
  (((s.handle k).map s.octets).getD []).drop index |>.take size

/-- The size past which `__find_block_file` starts another file, 128MB. -/
def fileLimit : ℕ := 128 * 1000 ^ 2

/-- The rotation of `__find_block_file`. -/
def rotate (s : BlockDb) : BlockDb :=
  let s := putFile ⟨s.fileIndex + 1, .blk⟩ 0 { s with fileIndex := s.fileIndex + 1 }
  { s with db := { s.db with fileIndex := some s.fileIndex } }

/-- The test of `__find_block_file`. -/
def isFull : BlockDbM Bool := do
  let s ← get
  if s.fileIndex = 0 then return true
  else return decide (fileLimit < (← need .key s.files[FlatFile.mk s.fileIndex .blk]?))

/-- `__find_block_file`, and the name of the file. -/
def findBlockFile : BlockDbM FlatFile := do
  let full ← isFull
  modify fun s => if full then rotate s else s
  let f : FlatFile := ⟨(← get).fileIndex, .blk⟩
  modify (getFile .blk f)
  return f

/-- `__find_rev_file`. -/
def findRevFile (f : FlatFile) (s : BlockDb) : BlockDb :=
  getFile .rev f (if f ∈ s.files then s else putFile f 0 s)

/-- `_unlink_file`. -/
def unlinkFile (f : FlatFile) : BlockDbM Unit := do
  modify fun s => { s with
    disk := s.disk.erase f
    openBlockFile := s.openBlockFile.map (Handle.unlink f s.disk[f]?)
    openRevFile := s.openRevFile.map (Handle.unlink f s.disk[f]?) }
  let _ ← need .key (← get).files[f]?
  modify fun s => { s with
    files := s.files.erase f
    db := { s.db with files := s.db.files.erase f } }

/-! ### Opening -/

/-- `_count_live`. -/
def countLive (s : BlockDb) : BlockDb :=
  let located := s.blocks.toList.map (fun row => row.2.file) ++
    s.revPatches.toList.map fun row => row.2.file
  { s with live := RefCount.tally located }

/-- One turn of the loop of `_sweep_empty_files`. -/
def sweepFile (f : FlatFile) : BlockDbM Unit := do
  let s ← get
  if f ∉ s.live ∧ !s.isCurrent f then unlinkFile f

/-- The loop of `_sweep_empty_files`. -/
def sweepFiles : List FlatFile → BlockDbM Unit
  | [] => return ()
  | f :: rest => do
    sweepFile f
    sweepFiles rest

/-- `_sweep_empty_files`. -/
def sweepEmptyFiles : BlockDbM Unit := do
  sweepFiles (← get).files.keys

/-- `wipe_undo`. -/
def wipeUndo : BlockDbM Unit := do
  modify fun s => { s with revPatches := ∅, db := { s.db with revPatches := ∅ } }
  modify countLive
  sweepEmptyFiles

/-- `init_from_db`. -/
def initFromDb : BlockDbM Unit := do
  modify fun s => { s with
    files := s.db.files
    blocks := s.db.blocks
    revPatches := s.db.revPatches
    fileIndex := s.db.fileIndex.getD s.fileIndex
    prunedUpTo := (s.db.prunedUpTo.map fun n => (n : ℤ) - 1).getD s.prunedUpTo }
  modify countLive
  sweepEmptyFiles

/-- A `BlockDB` before `init_from_db`, over what the directory holds. -/
def unread (disk : Std.ExtTreeMap FlatFile (List UInt8)) (db : BlockDbKeys) : BlockDb where
  disk := disk
  db := db
  files := ∅
  blocks := ∅
  revPatches := ∅
  live := ∅
  prunedUpTo := -1
  pendingRevBlocks := []
  openBlockFile := none
  openRevFile := none
  fileIndex := 0

/-- A `BlockDB` in an empty directory. -/
def fresh : BlockDb := unread ∅ ⟨∅, ∅, ∅, none, none⟩

/-- `close`, then another `BlockDB` there, with `wipe_undo` under
`-reindex-chainstate`. -/
def reopen (wipe : Bool) : BlockDbM Unit := do
  modify fun s => unread s.disk s.db
  initFromDb
  if wipe then wipeUndo

/-! ### Blocks and undo data -/

variable (codec : BlockCodec)

/-- A location kept under its hash, and counted. -/
def putBlock (h : Hash) (location : BlockLocation) (s : BlockDb) : BlockDb :=
  { s with
    blocks := s.blocks.insert h location
    db := { s.db with blocks := s.db.blocks.insert h location }
    live := RefCount.bump s.live location.file }

/-- The same for a patch. -/
def putRevPatch (h : Hash) (location : BlockLocation) (s : BlockDb) : BlockDb :=
  { s with
    revPatches := s.revPatches.insert h location
    db := { s.db with revPatches := s.db.revPatches.insert h location }
    live := RefCount.bump s.live location.file }

/-- `add_block`. -/
def addBlock (block : Block) : BlockDbM Unit := do
  if block.header.hash ∈ (← get).blocks then return ()
  else do
    let f ← findBlockFile
    let (index, size) ← addDataToFile .blk f (codec.serialize block)
    modify (putBlock block.header.hash ⟨f, index, size⟩)

/-- `add_rev_block`. -/
def addRevBlock (rev : RevBlock) (s : BlockDb) : BlockDb :=
  if rev.hash ∈ s.revPatches ∨ rev.hash ∈ s.pendingRevBlocks.map RevBlock.hash then s
  else { s with pendingRevBlocks := s.pendingRevBlocks ++ [rev] }

/-- One turn of the loop of `finalize`. -/
def writeRevBlock (rev : RevBlock) : BlockDbM Unit := do
  let location ← need (.notStored rev.hash) (← get).blocks[rev.hash]?
  let f : FlatFile := ⟨location.file.index, .rev⟩
  modify (findRevFile f)
  let (index, size) ← addDataToFile .rev f (codec.serializeRev rev)
  modify (putRevPatch rev.hash ⟨f, index, size⟩)

/-- The loop of `finalize`. -/
def writeRevBlocks : List RevBlock → BlockDbM Unit
  | [] => return ()
  | rev :: rest => do
    writeRevBlock codec rev
    writeRevBlocks rest

/-- `rollback`. -/
def rollback (s : BlockDb) : BlockDb := { s with pendingRevBlocks := [] }

/-- `finalize`. -/
def finalize : BlockDbM Unit := do
  writeRevBlocks codec (← get).pendingRevBlocks
  modify rollback

/-! ### Reads -/

/-- `get_raw_block`. -/
def getRawBlock (h : Hash) : BlockDbM (Option (List UInt8)) := do
  match (← get).blocks[h]? with
  | none => return none
  | some location =>
    modify (getFile .blk location.file)
    return some (getDataFromFile .blk location.index location.size (← get))

/-- `get_block`. -/
def getBlock (h : Hash) : BlockDbM (Option Block) := do
  match ← getRawBlock h with
  | none => return none
  | some data => return some (← need .parse (codec.parse data))

/-- `tx_count`. -/
def txCount (h : Hash) : BlockDbM (Option ℕ) := do
  match (← get).blocks[h]? with
  | none => return none
  | some location =>
    modify (getFile .blk location.file)
    let head := getDataFromFile .blk location.index (min location.size (80 + 9)) (← get)
    return some (← need .parse (codec.parseVarInt (head.drop 80)))

/-- `get_rev_block`. -/
def getRevBlock (h : Hash) : BlockDbM (Option RevBlock) := do
  match (← get).revPatches[h]? with
  | none => return none
  | some location =>
    modify (getFile .rev location.file)
    let data := getDataFromFile .rev location.index location.size (← get)
    return some (← need .parse (codec.deserializeRev data))

/-- `current_usage`. -/
def currentUsage (s : BlockDb) : ℕ := (s.files.toList.map Prod.snd).sum

/-! ### Pruning -/

/-- The close in `_release`. -/
def closeRevFile (f : FlatFile) (isBlock : Bool) (s : BlockDb) : BlockDb :=
  if !isBlock ∧ s.openRevFile.map Handle.file = some f then s.setHandle .rev none else s

/-- `_release`. -/
def release (f : FlatFile) (isBlock : Bool) : BlockDbM Unit := do
  let s ← get
  let remaining := s.live[f]?.getD 0 - 1
  if 0 < remaining then modify fun s => { s with live := s.live.insert f remaining }
  else do
    modify fun s => { s with live := s.live.erase f }
    if s.isCurrent f then return ()
    else do
      modify (closeRevFile f isBlock)
      unlinkFile f

/-- `_delete_block`. -/
def deleteBlock (h : Hash) : BlockDbM Unit := do
  match (← get).blocks[h]? with
  | none => return ()
  | some location =>
    modify fun s => { s with
      blocks := s.blocks.erase h
      db := { s.db with blocks := s.db.blocks.erase h } }
    release location.file true

/-- `_delete_rev_block`. -/
def deleteRevBlock (h : Hash) : BlockDbM Unit := do
  match (← get).revPatches[h]? with
  | none => return ()
  | some location =>
    modify fun s => { s with
      revPatches := s.revPatches.erase h
      db := { s.db with revPatches := s.db.revPatches.erase h } }
    release location.file false

/-- The loop of `prune_up_to`. -/
def pruneHeights (hashAtHeight : ℤ → Option Hash) : List ℤ → BlockDbM Unit
  | [] => return ()
  | height :: rest => do
    let h ← need .hashAtHeight (hashAtHeight height)
    deleteBlock h
    deleteRevBlock h
    pruneHeights hashAtHeight rest

/-- The heights `prune_up_to` goes over. -/
def heightsUpTo (s : BlockDb) (targetHeight : ℤ) : List ℤ :=
  (List.range (targetHeight - s.prunedUpTo).toNat).map fun i => s.prunedUpTo + 1 + i

/-- `prune_up_to`. -/
def pruneUpTo (targetHeight : ℤ) (hashAtHeight : ℤ → Option Hash) : BlockDbM Unit := do
  let s ← get
  if targetHeight ≤ s.prunedUpTo then return ()
  else do
    pruneHeights hashAtHeight (s.heightsUpTo targetHeight)
    modify fun s => { s with
      prunedUpTo := targetHeight
      db := { s.db with prunedUpTo := some (targetHeight + 1).toNat } }

/-! ## Runs -/

/-- A call of a method, or a reopening. -/
inductive Call where
  | addBlock (block : Block)
  | addRevBlock (rev : RevBlock)
  | finalize
  | rollback
  | getRawBlock (h : Hash)
  | getBlock (h : Hash)
  | txCount (h : Hash)
  | getRevBlock (h : Hash)
  | pruneUpTo (targetHeight : ℤ) (hashAtHeight : ℤ → Option Hash)
  | reopen (wipe : Bool)

/-- What a call does. -/
def Call.run : Call → BlockDbM Unit
  | .addBlock block => BlockDb.addBlock codec block
  | .addRevBlock rev => modify (BlockDb.addRevBlock rev)
  | .finalize => BlockDb.finalize codec
  | .rollback => modify BlockDb.rollback
  | .getRawBlock h => discard (BlockDb.getRawBlock h)
  | .getBlock h => discard (BlockDb.getBlock codec h)
  | .txCount h => discard (BlockDb.txCount codec h)
  | .getRevBlock h => discard (BlockDb.getRevBlock codec h)
  | .pruneUpTo targetHeight hashAtHeight => BlockDb.pruneUpTo targetHeight hashAtHeight
  | .reopen wipe => BlockDb.reopen wipe

/-- The store after a call, whether it returned or raised. -/
def step (s : BlockDb) (c : Call) : BlockDb := StateExcept.finalState (c.run codec) s

/-- The store after the calls, in an empty directory. -/
def after (calls : List Call) : BlockDb := calls.foldl (step codec) fresh

end BlockDb
end BtclibNode
