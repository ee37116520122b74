/-
# `BlockIndex`, the tree of headers

`chainstate/block_index.py`.  A method that a missing key, an empty list or a
failed load makes raise answers `none`; a refused header is a `HeaderError`
beside the index as the headers before it left it.  `puts` holds the records
written straight through to the store, in the order they were written, and
`pending` those that wait for `finalize`.
-/
import Mathlib
import BtclibNode.Lib.Dict
import BtclibNode.Chainstate.Block

namespace BtclibNode

/-! ## Records -/

/-- `BlockStatus`. -/
inductive BlockStatus where
  | validHeader
  | invalid
  | valid
  | inActiveChain
  deriving DecidableEq, Repr

/-- `BlockInfo`, one `blkinfo-` record. -/
structure BlockInfo where
  header : BlockHeader
  index : ℕ
  status : BlockStatus
  downloaded : Bool
  deriving DecidableEq, Repr

/-- `replace(info, status=status)`. -/
def BlockInfo.withStatus (info : BlockInfo) (status : BlockStatus) : BlockInfo :=
  { info with status }

/-- `replace(info, downloaded=downloaded)`. -/
def BlockInfo.withDownloaded (info : BlockInfo) (downloaded : Bool) : BlockInfo :=
  { info with downloaded }

/-- The `blkinfo-` records of the store. -/
abbrev BlockTable := Std.ExtTreeMap Hash BlockInfo

/-! ## The chain and its header rules -/

/-- What `add_headers` raises for a header: `MisbehavingError`, another
`BTClibValueError`, `LowWorkHeaderError`. -/
inductive HeaderError where
  | misbehaving (reason : String)
  | btclibValue (reason : String)
  | lowWork
  deriving DecidableEq, Repr

/-- The `Chain`, with the rules of btclib that read a header: `block_work`,
`assert_valid_pow`, `next_bits_required`, `median_time_past`,
`assert_not_timewarp` and `assert_valid_time`.  A target that proof of work
accepts is worth some work, and genesis has its proof of work. -/
structure Chain where
  genesis : BlockHeader
  calculateWork : BlockHeader → ℕ
  validPow : BlockHeader → Bool
  nextBitsRequired :
    BlockHeader → BlockHeader → ℕ → (BlockHeader → Option BlockHeader) → ℕ
  medianTimePast : BlockHeader → ℕ → (BlockHeader → Option BlockHeader) → ℤ
  notTimewarp : BlockHeader → BlockHeader → ℕ → Bool
  validTime : BlockHeader → ℤ → Bool
  bip34Height : ℕ
  bip66Height : ℕ
  bip65Height : ℕ
  work_pos : ∀ header, validPow header = true → 0 < calculateWork header
  genesis_pow : validPow genesis = true

/-- `{header.version & 0xffffffff:08x}`. -/
def versionHex (version : ℤ) : String :=
  let digits := Nat.toDigits 16 (version % 2 ^ 32).toNat
  String.ofList (List.replicate (8 - digits.length) '0' ++ digits)

/-- `_assert_valid_in_context`. -/
def Chain.assertValidInContext (chain : Chain) (header parent : BlockHeader) (parentHeight : ℕ)
    (parentOf : BlockHeader → Option BlockHeader) (now : ℤ) : Except HeaderError Unit := do
  if header.bits ≠ chain.nextBitsRequired header parent parentHeight parentOf then
    throw (.misbehaving "bad-diffbits")
  if header.time ≤ chain.medianTimePast parent parentHeight parentOf then
    throw (.misbehaving "time-too-old")
  if !chain.notTimewarp header parent parentHeight then
    throw (.misbehaving "time-timewarp-attack")
  if !chain.validTime header now then
    throw (.btclibValue "time-too-new")
  for (least, bindsAt) in
      [((2 : ℤ), chain.bip34Height), (3, chain.bip66Height), (4, chain.bip65Height)] do
    if header.version < least ∧ bindsAt ≤ parentHeight + 1 then
      throw (.misbehaving ("bad-version(0x" ++ versionHex header.version ++ ")"))

/-- `_assert_continuous`. -/
def assertContinuous : List BlockHeader → Except HeaderError Unit
  | previous :: header :: rest =>
    if header.previousBlockHash ≠ previous.hash then
      throw (.misbehaving "non-continuous headers sequence")
    else assertContinuous (header :: rest)
  | _ => pure ()

/-- `check_headers_pow`. -/
def Chain.checkHeadersPow (chain : Chain) (headers : List BlockHeader) :
    Except HeaderError Unit := do
  if !headers.all chain.validPow then
    throw (.misbehaving "high-hash")
  assertContinuous headers

/-! ## The index -/

/-- `BlockIndex`. -/
structure BlockIndex where
  headerDict : Dict Hash BlockInfo
  chainwork : Std.ExtTreeMap Hash ℕ
  skip : Std.ExtTreeMap Hash Hash
  activeChain : List Hash
  blockCandidates : List (Hash × ℕ)
  headerIndex : List Hash
  headerIndexPos : Std.ExtTreeMap Hash ℕ
  children : Std.ExtTreeMap Hash (List Hash)
  pending : Std.ExtTreeMap Hash BlockInfo
  bestInvalid : Option Hash
  sequenceId : Std.ExtTreeMap Hash ℤ
  nextSequenceId : ℤ
  preciousSequenceId : ℤ
  preciousChainwork : ℕ
  unlinked : Std.ExtTreeMap Hash (List Hash)
  puts : List BlockInfo

/-- `l[i]` in Python, a negative `i` counting from the end. -/
def pyGet? {α : Type} (l : List α) (i : ℤ) : Option α :=
  if 0 ≤ i then l[i.toNat]?
  else if 0 ≤ l.length + i then l[(l.length + i).toNat]?
  else none

/-- `l[:-n]` in Python, which is empty for `n = 0`. -/
def pyDropLast {α : Type} (l : List α) (n : ℕ) : List α :=
  if n = 0 then [] else l.take (l.length - n)

/-- `d.setdefault(k, []).append(x)`. -/
def appendAt (d : Std.ExtTreeMap Hash (List Hash)) (k x : Hash) :
    Std.ExtTreeMap Hash (List Hash) :=
  d.insert k (d[k]?.getD [] ++ [x])

/-- `_invert_lowest_one`. -/
def invertLowestOne (n : ℕ) : ℕ := n &&& (n - 1)

/-- `_skip_height`. -/
def skipHeight (height : ℕ) : ℕ :=
  if height < 2 then 0
  else if height % 2 = 1 then invertLowestOne (invertLowestOne (height - 1)) + 1
  else invertLowestOne height

namespace BlockIndex

/-- `get_block_info`. -/
def getBlockInfo (s : BlockIndex) (h : Hash) : Option BlockInfo := s.headerDict.get? h

/-- The height `sorted` orders a key by. -/
def heightOf (s : BlockIndex) (h : Hash) : ℕ := (s.getBlockInfo h).elim 0 BlockInfo.index

/-- `sorted(self.header_dict, key=...)`, stable. -/
def sortedHeaders (s : BlockIndex) : List Hash :=
  s.headerDict.keys.insertionSort fun a b => s.heightOf a ≤ s.heightOf b

/-! ### Records -/

/-- `_record_block_info`. -/
def recordBlockInfo (s : BlockIndex) (info : BlockInfo) : BlockIndex :=
  { s with
    children := match s.getBlockInfo info.header.hash with
      | some _ => s.children
      | none => appendAt s.children info.header.previousBlockHash info.header.hash
    headerDict := s.headerDict.set info.header.hash info }

/-- `_insert_block_info`. -/
def insertBlockInfo (s : BlockIndex) (info : BlockInfo) : BlockIndex :=
  { s.recordBlockInfo info with puts := s.puts ++ [info] }

/-- `_stage`. -/
def stage (s : BlockIndex) (info : BlockInfo) : BlockIndex :=
  { s.recordBlockInfo info with pending := s.pending.insert info.header.hash info }

/-- `_stage` of a record already staged, `_insert_block_info` of any other. -/
def updateBlockInfo (s : BlockIndex) (info : BlockInfo) : BlockIndex :=
  if info.header.hash ∈ s.pending then s.stage info else s.insertBlockInfo info

/-- `set_status`. -/
def setStatus (s : BlockIndex) (h : Hash) (status : BlockStatus) : Option BlockIndex := do
  let info ← s.getBlockInfo h
  return s.updateBlockInfo (info.withStatus status)

/-- `stage_status`. -/
def stageStatus (s : BlockIndex) (h : Hash) (status : BlockStatus) : Option BlockIndex := do
  let info ← s.getBlockInfo h
  return s.stage (info.withStatus status)

/-- `finalize`: the records of the caller's batch, and the index after it. -/
def finalize (s : BlockIndex) : List BlockInfo × BlockIndex :=
  (s.pending.toList.map Prod.snd, { s with pending := ∅ })

/-! ### Ancestors -/

/-- The loop of `_ancestor`, of at most `fuel` turns. -/
def ancestorFrom (s : BlockIndex) : ℕ → Hash → ℕ → ℕ → Option Hash
  | fuel, walk, walkHeight, height =>
    if walkHeight ≤ height then some walk
    else
      match fuel with
      | 0 => none
      | fuel + 1 =>
        let skipH := skipHeight walkHeight
        let skipHPrev := skipHeight (walkHeight - 1)
        let up := do
          let info ← s.getBlockInfo walk
          ancestorFrom s fuel info.header.previousBlockHash (walkHeight - 1) height
        match s.skip[walk]? with
        | some target =>
          if skipH = height ∨ height < skipH ∧ ¬(skipHPrev + 2 < skipH ∧ height ≤ skipHPrev) then
            ancestorFrom s fuel target skipH height
          else up
        | none => up

/-- `_ancestor`.  Every turn lowers the height. -/
def ancestor (s : BlockIndex) (h : Hash) (walkHeight height : ℕ) : Option Hash :=
  s.ancestorFrom walkHeight h walkHeight height

/-- `get_ancestor` of a known hash; no ancestor is the inner `none`. -/
def getAncestor (s : BlockIndex) (h : Hash) (height : ℕ) : Option (Option Hash) := do
  let info ← s.getBlockInfo h
  if info.index < height then return none
  else return some (← s.ancestor h info.index height)

/-- `_build_skip`. -/
def buildSkip (s : BlockIndex) (h : Hash) (info : BlockInfo) : Option BlockIndex :=
  if info.index = 0 then some s
  else do
    let target ← s.ancestor info.header.previousBlockHash (info.index - 1) (skipHeight info.index)
    return { s with skip := s.skip.insert h target }

/-! ### Forks -/

/-- The loop of `get_fork_details`; `fork` is what it has collected, the oldest
header first. -/
def forkFrom (s : BlockIndex) (chain : List Hash) : ℕ → Hash → List Hash →
    Option (List Hash × List Hash)
  | 0, _, _ => none
  | fuel + 1, h, fork => do
    let info ← s.getBlockInfo h
    let parent := info.header.previousBlockHash
    if info.index ≤ chain.length then
      let entry ← pyGet? chain ((info.index : ℤ) - 1)
      if parent = entry then return (fork, chain.drop info.index)
      else forkFrom s chain fuel parent (parent :: fork)
    else forkFrom s chain fuel parent (parent :: fork)

/-- `get_fork_details`: what to add to `chain` and what to remove from it for
`h` to be its tip.  More turns than there are headers would be a loop. -/
def getForkDetails (s : BlockIndex) (h : Hash) (chain : List Hash) :
    Option (List Hash × List Hash) :=
  s.forkFrom (if chain = [] then s.activeChain else chain) (s.headerDict.keys.length + 1) h [h]

/-! ### The header index -/

/-- `for h in removed: del self.header_index_pos[h]`. -/
def deletePositions : List Hash → Std.ExtTreeMap Hash ℕ → Option (Std.ExtTreeMap Hash ℕ)
  | [], d => some d
  | h :: rest, d => if h ∈ d then deletePositions rest (d.erase h) else none

/-- `for offset, h in enumerate(added): self.header_index_pos[h] = base + offset`. -/
def insertPositions : ℕ → List Hash → Std.ExtTreeMap Hash ℕ → Std.ExtTreeMap Hash ℕ
  | _, [], d => d
  | base, h :: rest, d => insertPositions (base + 1) rest (d.insert h base)

/-- What `_grow_header_index` and a turn of `_extend_header_index` do with a
header of the work `newWork` that is not on the header index. -/
def growHeaderIndex (s : BlockIndex) (header : BlockHeader) (h : Hash) (newWork : ℕ) :
    Option BlockIndex := do
  let best ← s.headerIndex.getLast?
  if header.previousBlockHash = best then
    return { s with
      headerIndex := s.headerIndex ++ [h]
      headerIndexPos := s.headerIndexPos.insert h s.headerIndex.length }
  else if (← s.chainwork[best]?) < newWork then
    let (add, remove) ← s.getForkDetails h s.headerIndex
    let pos ← deletePositions remove s.headerIndexPos
    let kept := pyDropLast s.headerIndex remove.length
    return { s with
      headerIndex := kept ++ add
      headerIndexPos := insertPositions kept.length add pos }
  else return s

/-- `_extend_header_index`. -/
def extendHeaderIndex (s : BlockIndex) : List Hash → Option BlockIndex
  | [] => some s
  | h :: rest => do
    if h ∈ s.headerIndex then extendHeaderIndex s rest
    else
      let info ← s.getBlockInfo h
      if info.status = .invalid then extendHeaderIndex s rest
      else
        let t ← s.growHeaderIndex info.header h (← s.chainwork[h]?)
        extendHeaderIndex t rest

/-- The header index rebuilt from the active chain, as `generate_header_index`,
`invalidate` and `reconsider` do. -/
def rebuildHeaderIndex (s : BlockIndex) : Option BlockIndex :=
  extendHeaderIndex
    { s with
      headerIndex := s.activeChain
      headerIndexPos := insertPositions 0 s.activeChain ∅ }
    s.sortedHeaders

/-! ### Candidates -/

/-- `a < b` of two arrival numbers, a missing one being infinite. -/
def seqLt : Option ℤ → Option ℤ → Bool
  | some a, some b => a < b
  | some _, none => true
  | none, _ => false

/-- `_outranks`. -/
def outranks (s : BlockIndex) (h other : Hash) : Option Bool := do
  let work ← s.chainwork[h]?
  let otherWork ← s.chainwork[other]?
  if work ≠ otherWork then return otherWork < work
  else return seqLt s.sequenceId[h]? s.sequenceId[other]?

/-- Whether `generate_block_candidates` considers a header at all. -/
def isCandidate (info : BlockInfo) : Bool :=
  !(info.status = .valid && !info.downloaded)
    && (info.status = .validHeader || info.status = .valid)

/-- The loop of `generate_block_candidates`. -/
def candidatesFrom (s : BlockIndex) (tip : Hash) : List Hash → Option (List (Hash × ℕ))
  | [] => some []
  | h :: rest => do
    if h ∈ s.activeChain then candidatesFrom s tip rest
    else
      let info ← s.getBlockInfo h
      if isCandidate info then
        if ← s.outranks h tip then
          return (h, ← s.chainwork[h]?) :: (← candidatesFrom s tip rest)
        else candidatesFrom s tip rest
      else candidatesFrom s tip rest

/-- `generate_block_candidates`. -/
def generateBlockCandidates (s : BlockIndex) : Option BlockIndex := do
  let tip ← s.activeChain.getLast?
  return { s with blockCandidates := ← s.candidatesFrom tip s.sortedHeaders }

/-- `_branch_is_downloaded`. -/
def branchIsDownloaded (s : BlockIndex) (h : Hash) : Option Bool := do
  let (add, _) ← s.getForkDetails h []
  let infos ← add.mapM s.getBlockInfo
  return infos.all BlockInfo.downloaded

/-- The entries `get_first_candidate` looks at. -/
def candidateWindow : ℕ := 100

/-- The loop of `get_first_candidate`, over the entries of its window: `first`
and `ready` as it leaves them. -/
def scanCandidates (s : BlockIndex) (tip : Hash) :
    List (Hash × ℕ) → Option Hash → Option Hash → Option (Option Hash × Option Hash)
  | [], first, ready => some (first, ready)
  | (h, work) :: rest, first, ready => do
    if !(← s.outranks h tip) then scanCandidates s tip rest first ready
    else
      let first := first.or (some h)
      let better ← match ready with
        | none => pure true
        | some r => do
          if work = (← s.chainwork[r]?) then s.outranks h r else pure false
      if better then
        if ← s.branchIsDownloaded h then scanCandidates s tip rest first (some h)
        else scanCandidates s tip rest first ready
      else scanCandidates s tip rest first ready

/-- `get_first_candidate`: the index with its stale front evicted, and the answer. -/
def getFirstCandidate (s : BlockIndex) : Option (BlockIndex × Option BlockInfo) := do
  let tip ← s.activeChain.getLast?
  let chainwork ← s.chainwork[tip]?
  let t := { s with blockCandidates := s.blockCandidates.dropWhile fun c => c.2 < chainwork }
  let (first, ready) ←
    t.scanCandidates tip (t.blockCandidates.take candidateWindow) none none
  match ready.or first with
  | none => return (t, none)
  | some chosen => return (t, some (← t.getBlockInfo chosen))

/-- `precious`. -/
def precious (s : BlockIndex) (h : Hash) : Option (BlockIndex × Bool) := do
  let tip ← s.activeChain.getLast?
  let tipWork ← s.chainwork[tip]?
  if (← s.chainwork[h]?) < tipWork then return (s, false)
  else
    let preciousSequenceId :=
      if s.preciousChainwork < tipWork then -1 else s.preciousSequenceId
    let t := { s with
      preciousChainwork := tipWork
      preciousSequenceId := preciousSequenceId - 1
      sequenceId := if h ∈ s.sequenceId then s.sequenceId.insert h preciousSequenceId
        else s.sequenceId }
    return (← t.generateBlockCandidates, true)

/-! ### Arrivals -/

/-- The queue loop of `_link`, of at most `fuel` turns. -/
def linkFrom : ℕ → List Hash → BlockIndex → BlockIndex
  | 0, _, s => s
  | _, [], s => s
  | fuel + 1, current :: queue, s =>
    linkFrom fuel (queue ++ s.unlinked[current]?.getD [])
      { s with
        sequenceId := s.sequenceId.insert current s.nextSequenceId
        nextSequenceId := s.nextSequenceId + 1
        unlinked := s.unlinked.erase current }

/-- `_link`.  Every turn takes a block off the queue or off `_unlinked`. -/
def link (s : BlockIndex) (h : Hash) : Option BlockIndex := do
  let info ← s.getBlockInfo h
  let parent := info.header.previousBlockHash
  if parent ∈ s.sequenceId then
    return linkFrom (s.unlinked.foldl (fun n _ waiting => n + waiting.length) 1) [h] s
  else return { s with unlinked := appendAt s.unlinked parent h }

/-- `set_downloaded`. -/
def setDownloaded (s : BlockIndex) (h : Hash) (downloaded : Bool) : Option BlockIndex := do
  let info ← s.getBlockInfo h
  let t := s.updateBlockInfo (info.withDownloaded downloaded)
  if downloaded && !info.downloaded then t.link h else return t

/-! ### Invalidity -/

/-- `weigh_invalid`. -/
def weighInvalid (s : BlockIndex) (h : Hash) : Option BlockIndex :=
  match s.bestInvalid with
  | none => some { s with bestInvalid := some h }
  | some best => do
    if (← s.chainwork[best]?) < (← s.chainwork[h]?) then
      return { s with bestInvalid := some h }
    else return s

/-- The stack loop of `invalidate`, of at most `fuel` turns, the top of the stack
its head: what it has invalidated, newest first, and the index. -/
def invalidateFrom : ℕ → List Hash → List Hash → BlockIndex → Option (List Hash × BlockIndex)
  | _, [], invalidated, s => some (invalidated, s)
  | 0, _ :: _, _, _ => none
  | fuel + 1, current :: stack, invalidated, s => do
    let t ← s.setStatus current .invalid
    invalidateFrom fuel ((t.children[current]?.getD []).reverse ++ stack)
      (current :: invalidated) t

/-- `invalidate`.  A header is put on the stack once. -/
def invalidate (s : BlockIndex) (h : Hash) : Option BlockIndex := do
  let s₁ ← s.weighInvalid h
  let (invalidated, s₂) ← invalidateFrom s.headerDict.keys.length [h] [] s₁
  let s₃ := { s₂ with
    blockCandidates := s₂.blockCandidates.filter fun c => c.1 ∉ invalidated }
  if s₃.headerIndex.any (· ∈ invalidated) then s₃.rebuildHeaderIndex
  else return s₃

/-- `_shares_lineage`. -/
def sharesLineage (s : BlockIndex) (other target : Hash) (targetHeight : ℕ) : Option Bool := do
  let otherInfo ← s.getBlockInfo other
  if (← s.getAncestor other targetHeight) = some target then return true
  else return (← s.getAncestor target otherInfo.index) = some other

/-- `best_invalid` is forgotten where it is no longer invalid. -/
def forgetBestInvalid (s : BlockIndex) (h : Hash) : BlockIndex :=
  { s with bestInvalid := if s.bestInvalid = some h then none else s.bestInvalid }

/-- The loop of `reconsider` over the items of `header_dict`. -/
def reconsiderFrom (h : Hash) (targetHeight : ℕ) : List Hash → BlockIndex → Option BlockIndex
  | [], s => some s
  | other :: rest, s => do
    let info ← s.getBlockInfo other
    if info.status = .invalid then
      if ← s.sharesLineage other h targetHeight then
        let t ← s.setStatus other .validHeader
        reconsiderFrom h targetHeight rest (t.forgetBestInvalid other)
      else reconsiderFrom h targetHeight rest s
    else reconsiderFrom h targetHeight rest s

/-- `reconsider`. -/
def reconsider (s : BlockIndex) (h : Hash) : Option BlockIndex := do
  let info ← s.getBlockInfo h
  let s₁ ← reconsiderFrom h info.index s.headerDict.keys s
  let s₂ ← s₁.generateBlockCandidates
  s₂.rebuildHeaderIndex

/-! ### The active chain -/

/-- `add_to_active_chain`. -/
def addToActiveChain (s : BlockIndex) (h : Hash) : BlockIndex :=
  { s with activeChain := s.activeChain ++ [h] }

/-- `remove_from_active_chain`. -/
def removeFromActiveChain (s : BlockIndex) (h : Hash) : Option BlockIndex :=
  if s.activeChain.getLast? = some h then some { s with activeChain := s.activeChain.dropLast }
  else none

/-! ### New headers -/

/-- `_is_indexed`. -/
def isIndexed (s : BlockIndex) (header : BlockHeader) (punishCachedInvalid : Bool) :
    Except HeaderError Bool :=
  match s.getBlockInfo header.hash with
  | none => return false
  | some known =>
    if known.status = .invalid then
      if punishCachedInvalid then throw (.misbehaving "duplicate-invalid")
      else throw (.btclibValue "duplicate-invalid")
    else return true

/-- `_indexed_parent`. -/
def indexedParent (s : BlockIndex) (header : BlockHeader) :
    Except HeaderError (Option (BlockHeader × ℕ)) :=
  match s.getBlockInfo header.previousBlockHash with
  | none => return none
  | some info =>
    if info.status = .invalid then throw (.misbehaving "bad-prevblk")
    else return some (info.header, info.index)

/-- `parent_of`. -/
def parentOf (s : BlockIndex) (header : BlockHeader) : Option BlockHeader :=
  (s.getBlockInfo header.previousBlockHash).map BlockInfo.header

/-- What a turn of `_insert_valid_headers` decides of a header before it writes
anything: `none` skips it, and a parent's height indexes it. -/
def admitHeader (chain : Chain) (s : BlockIndex) (header : BlockHeader)
    (punishCachedInvalid minPowChecked : Bool) (now : ℤ) : Except HeaderError (Option ℕ) := do
  if ← s.isIndexed header punishCachedInvalid then return none
  else
    match ← s.indexedParent header with
    | none => return none
    | some (parent, parentHeight) =>
      chain.assertValidInContext header parent parentHeight s.parentOf now
      if minPowChecked then return some parentHeight
      else throw .lowWork

/-- What a turn of `_insert_valid_headers` does with an admitted header. -/
def insertHeader (chain : Chain) (s : BlockIndex) (currentWork : ℕ) (header : BlockHeader)
    (parentHeight : ℕ) : Option BlockIndex := do
  let newWork := (← s.chainwork[header.previousBlockHash]?) + chain.calculateWork header
  let info : BlockInfo := ⟨header, parentHeight + 1, .validHeader, false⟩
  let s₁ := s.insertBlockInfo info
  let s₂ := { s₁ with chainwork := s₁.chainwork.insert header.hash newWork }
  let s₃ ← s₂.buildSkip header.hash info
  let s₄ := if currentWork < newWork then
      { s₃ with blockCandidates := s₃.blockCandidates ++ [(header.hash, newWork)] }
    else s₃
  s₄.growHeaderIndex header header.hash newWork

/-- The loop of `_insert_valid_headers`: the index as it leaves it, and what it raises. -/
def insertValidHeaders (chain : Chain) (currentWork : ℕ) (punishCachedInvalid minPowChecked : Bool)
    (now : ℤ) : List BlockHeader → BlockIndex → Option (BlockIndex × Except HeaderError Unit)
  | [], s => some (s, .ok ())
  | header :: rest, s =>
    match s.admitHeader chain header punishCachedInvalid minPowChecked now with
    | .error e => some (s, .error e)
    | .ok none => insertValidHeaders chain currentWork punishCachedInvalid minPowChecked now rest s
    | .ok (some parentHeight) => do
      let t ← s.insertHeader chain currentWork header parentHeight
      insertValidHeaders chain currentWork punishCachedInvalid minPowChecked now rest t

/-- `add_headers`. -/
def addHeaders (chain : Chain) (s : BlockIndex) (headers : List BlockHeader)
    (punishCachedInvalid minPowChecked : Bool) (now : ℤ) :
    Option (BlockIndex × Except HeaderError (Option Hash)) :=
  match chain.checkHeadersPow headers with
  | .error e => some (s, .error e)
  | .ok _ => do
    let tip ← s.activeChain.getLast?
    let currentWork ← s.chainwork[tip]?
    let (t, result) ←
      insertValidHeaders chain currentWork punishCachedInvalid minPowChecked now headers s
    return (t, result.map fun _ =>
      (headers.reverse.map BlockHeader.hash).find? fun h => (t.getBlockInfo h).isSome)

/-! ### Loading -/

/-- `BlockIndex.__init__` before `init_from_db`. -/
def empty (chain : Chain) : BlockIndex where
  headerDict := Dict.singleton chain.genesis.hash ⟨chain.genesis, 0, .inActiveChain, true⟩
  chainwork := ∅
  skip := ∅
  activeChain := []
  blockCandidates := []
  headerIndex := []
  headerIndexPos := ∅
  children := ∅
  pending := ∅
  bestInvalid := none
  sequenceId := ∅
  nextSequenceId := 2
  preciousSequenceId := -1
  preciousChainwork := 0
  unlinked := ∅
  puts := []

/-- The loop of `init_from_db` over the stored records. -/
def readRecords (chain : Chain) : List BlockInfo → BlockIndex → Option BlockIndex
  | [], s => some s
  | info :: rest, s =>
    if chain.validPow info.header then
      readRecords chain rest { s with headerDict := s.headerDict.set info.header.hash info }
    else none

/-- A turn of `calculate_chainwork`. -/
def weighHeader (chain : Chain) (s : BlockIndex) (h : Hash) : Option BlockIndex := do
  let info ← s.getBlockInfo h
  let previous := info.header.previousBlockHash
  let oldWork ← if info.index = 0 then pure 0 else s.chainwork[previous]?
  let s₁ := if info.index = 0 then s else { s with children := appendAt s.children previous h }
  let work := oldWork + chain.calculateWork info.header
  let s₂ ← { s₁ with chainwork := s₁.chainwork.insert h work }.buildSkip h info
  if info.status = .invalid then s₂.weighInvalid h else return s₂

/-- `calculate_chainwork`. -/
def calculateChainwork (chain : Chain) : List Hash → BlockIndex → Option BlockIndex
  | [], s => some s
  | h :: rest, s => do
    let t ← s.weighHeader chain h
    calculateChainwork chain rest t

/-- `generate_active_chain`: of two active headers of one height the later in
`header_dict` stands. -/
def generateActiveChain (s : BlockIndex) : BlockIndex :=
  let active := s.headerDict.keys.filter fun h =>
    decide ((s.getBlockInfo h).map BlockInfo.status = some .inActiveChain)
  let chainDict : Std.ExtTreeMap ℕ Hash := active.foldl (fun d h => d.insert (s.heightOf h) h) ∅
  { s with activeChain := s.activeChain ++ chainDict.toList.map Prod.snd }

/-- `_load_sequence_ids`. -/
def loadSequenceIds : List Hash → BlockIndex → Option BlockIndex
  | [], s => some s
  | h :: rest, s => do
    let info ← s.getBlockInfo h
    let parent := info.header.previousBlockHash
    if h ∈ s.activeChain then
      loadSequenceIds rest { s with sequenceId := s.sequenceId.insert h 0 }
    else if !info.downloaded then loadSequenceIds rest s
    else if parent ∈ s.sequenceId then
      loadSequenceIds rest { s with sequenceId := s.sequenceId.insert h 1 }
    else loadSequenceIds rest { s with unlinked := appendAt s.unlinked parent h }

/-- `init_from_db`, over the records of the store in key order. -/
def initFromDb (chain : Chain) (db : BlockTable) : Option BlockIndex := do
  let s₁ ← readRecords chain (db.toList.map Prod.snd) (empty chain)
  let s₂ ← calculateChainwork chain s₁.sortedHeaders s₁
  let s₃ := s₂.generateActiveChain
  let s₄ ← loadSequenceIds s₃.sortedHeaders s₃
  let s₅ ← s₄.generateBlockCandidates
  s₅.rebuildHeaderIndex

end BlockIndex

end BtclibNode
