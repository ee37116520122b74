/-
# The node

`main.py` over the chainstate and the block store: the trial of a fork and its
commit, the disconnect an operator asks for, pruning and the flush.  A method
that raises leaves the node as the statements before the raise left it.  What
the world decides during one call is its `Env`: which reads fail, what the rules
answer, when a shutdown is seen and after how many writes a disk is full.
-/
import BtclibNode.Chainstate.IndexStore
import BtclibNode.Chainstate.UtxoIndex
import BtclibNode.Node.Validate

namespace BtclibNode

/-! ## The block store -/

/-- What `BlockDB` holds, as its readers see it; `prunedBelow` is
`pruned_up_to + 1`. -/
structure BlockStore where
  blocks : Std.ExtTreeMap Hash Block
  revPatches : Std.ExtTreeMap Hash RevBlock
  pendingRevBlocks : List RevBlock
  prunedBelow : ℕ

namespace BlockStore

/-- `add_block`. -/
def addBlock (block : Block) (s : BlockStore) : BlockStore :=
  if block.header.hash ∈ s.blocks then s
  else { s with blocks := s.blocks.insert block.header.hash block }

/-- A patch of the block is stored or waits. -/
def Held (s : BlockStore) (h : Hash) : Prop :=
  h ∈ s.revPatches ∨ h ∈ s.pendingRevBlocks.map RevBlock.hash

instance (s : BlockStore) (h : Hash) : Decidable (s.Held h) :=
  inferInstanceAs (Decidable (_ ∨ _))

/-- `add_rev_block`. -/
def addRevBlock (rev : RevBlock) (s : BlockStore) : BlockStore :=
  if s.Held rev.hash then s
  else { s with pendingRevBlocks := s.pendingRevBlocks ++ [rev] }

/-- A patch that waits is all `add_rev_block` adds. -/
theorem addRevBlock_eq (rev : RevBlock) (s : BlockStore) :
    s.addRevBlock rev = { s with pendingRevBlocks := (s.addRevBlock rev).pendingRevBlocks } := by
  unfold addRevBlock
  split <;> rfl

/-- The loop of `finalize`; after `writes` patches the file system raises. -/
def writeRevBlocks : Option ℕ → List RevBlock → EStateM NodeError BlockStore Unit
  | _, [] => return ()
  | writes, rev :: rest => do
    let s ← get
    if rev.hash ∉ s.blocks then throw .inconsistency
    else if writes = some 0 then throw .storage
    else do
      set { s with revPatches := s.revPatches.insert rev.hash rev }
      writeRevBlocks (writes.map (· - 1)) rest

/-- `finalize`. -/
def finalize (writes : Option ℕ) : EStateM NodeError BlockStore Unit := do
  let s ← get
  writeRevBlocks writes s.pendingRevBlocks
  modify fun s => { s with pendingRevBlocks := [] }

/-- `rollback`. -/
def rollback (s : BlockStore) : BlockStore := { s with pendingRevBlocks := [] }

/-- `prune_up_to`. -/
def pruneUpTo (target : ℕ) (chain : List Hash) (s : BlockStore) : BlockStore :=
  if target < s.prunedBelow then s
  else
    let pruned := (chain.take (target + 1)).drop s.prunedBelow
    { s with
      blocks := pruned.foldl (fun m h => m.erase h) s.blocks
      revPatches := pruned.foldl (fun m h => m.erase h) s.revPatches
      prunedBelow := target + 1 }

end BlockStore

/-! ## The node -/

/-- What the store of the chainstate holds. -/
structure ChainstateDb (S : Type) where
  records : BlockTable
  coins : CoinTable
  coinStats : S

/-- What of `Node` the chain is kept in. -/
structure Node (S : Type) where
  blockIndex : BlockIndex
  utxoIndex : UtxoIndex S
  filterIndex : FilterIndex
  blockDb : BlockStore
  db : ChainstateDb S
  terminateFlag : Bool
  lastRejectedBlock : Option (Hash × NodeError)

/-- What is fixed for the life of a node: its chain with `bip30_exceptions`, the
commitment, the filters and `_FLUSH_BOUND`. -/
structure NodeConfig (S : Type) where
  chain : Chain
  bip30Exceptions : List (ℕ × Hash)
  stats : CoinStats S
  filters : BlockFilters
  flushBound : ℕ

/-- What the world decides during one call. -/
structure Env where
  rules : BlockRules
  blockFails : Hash → Bool
  revFails : Hash → Bool
  coinFails : Hash → OutPoint → Bool
  filterFails : Hash → Hash → Bool
  stops : Hash → Bool
  revWrites : Option ℕ
  pruneHeights : ℕ

/-- What a trial raises: the error, with `failed_hash`. -/
structure TrialFailure where
  failedHash : Option Hash
  error : NodeError

/-- A method of the node. -/
abbrev NodeM (S : Type) := EStateM NodeError (Node S)

/-- The inside of a trial. -/
abbrev TrialM (S : Type) := EStateM TrialFailure (Node S)

namespace Node

variable {S : Type} (cfg : NodeConfig S) (env : Env)

/-- `get_coin`. -/
def getCoin (n : Node S) (o : OutPoint) : Option Coin := n.utxoIndex.getCoin n.db.coins o

/-! ### Calls of its parts -/

/-- The node with a new index, the records it wrote being written. -/
def withIndex (n : Node S) (s : BlockIndex) : Node S :=
  { n with
    blockIndex := { s with puts := [] }
    db := { n.db with records := BlockIndex.writeAll n.db.records s.puts } }

/-- A call of the index. -/
def onIndex {α : Type} (f : BlockIndex → Option (BlockIndex × α)) : NodeM S α := fun n =>
  match f n.blockIndex with
  | none => .error .key n
  | some (s, a) => .ok a (n.withIndex s)

/-- A call of the index that answers nothing. -/
def callIndex (f : BlockIndex → Option BlockIndex) : NodeM S Unit := fun n =>
  match f n.blockIndex with
  | none => .error .key n
  | some s => .ok () (n.withIndex s)

/-- A question to the index. -/
def askIndex {α : Type} (f : BlockIndex → Option α) : NodeM S α := fun n =>
  match f n.blockIndex with
  | none => .error .key n
  | some a => .ok a n

/-- A call of the UTXO index while the block `h` is connected or disconnected. -/
def onUtxo {α : Type} (h : Hash) (f : CoinRead → UtxoM S α) : NodeM S α := fun n =>
  let read : CoinRead := fun o => if env.coinFails h o then .error .storage else .ok n.db.coins[o]?
  match f read n.utxoIndex with
  | .ok a utxoIndex => .ok a { n with utxoIndex }
  | .error e utxoIndex => .error (.utxo e) { n with utxoIndex }

/-- A call of the filter index. -/
def onFilter {α : Type} (x : FilterM α) : NodeM S α := fun n =>
  match x n.filterIndex with
  | .ok a filterIndex => .ok a { n with filterIndex }
  | .error e filterIndex => .error (.filter e) { n with filterIndex }

/-- A call of the block store. -/
def onBlockDb {α : Type} (x : EStateM NodeError BlockStore α) : NodeM S α := fun n =>
  match x n.blockDb with
  | .ok a blockDb => .ok a { n with blockDb }
  | .error e blockDb => .error e { n with blockDb }

/-- A check that reads no state. -/
def check {α : Type} (x : Except NodeError α) : NodeM S α :=
  match x with
  | .ok a => return a
  | .error e => throw e

/-- `try`: what `x` raises is a value. -/
def attempt {ε α : Type} (x : EStateM ε (Node S) α) : NodeM S (Except ε α) := fun n =>
  match x n with
  | .ok a t => .ok (.ok a) t
  | .error e t => .ok (.error e) t

/-- What `x` raises while `failed_hash` is `failed`. -/
def failing {α : Type} (failed : Option Hash) (x : NodeM S α) : TrialM S α := fun n =>
  match x n with
  | .ok a t => .ok a t
  | .error e t => .error ⟨failed, e⟩ t

/-! ### The fork to try -/

/-- The loop of `_ready_fork`. -/
def allDownloaded (s : BlockIndex) : List Hash → Option Bool
  | [] => some true
  | h :: rest => do
    let info ← s.getBlockInfo h
    if info.downloaded then allDownloaded s rest else return false

/-- `_ready_fork`: what to add and what to remove. -/
def readyFork : NodeM S (Option (List Hash × List Hash)) := do
  match ← onIndex BlockIndex.getFirstCandidate with
  | none => return none
  | some candidate => do
    let (toAdd, toRemove) ← askIndex fun s => s.getForkDetails candidate.header.hash []
    let ready ← askIndex fun s => allDownloaded s toAdd
    return if ready then some (toAdd, toRemove) else none

/-- `read_held_block` of a block the index promises. -/
def readHeldBlock (h : Hash) : NodeM S Block := do
  let n ← get
  if env.blockFails h then throw .storage
  else
    match n.blockDb.blocks[h]? with
    | none => throw .inconsistency
    | some block => return block

/-- `_blocks_to_add`. -/
def blocksToAdd : List Hash → NodeM S (List Block)
  | [] => return []
  | h :: rest => do
    let block ← readHeldBlock env h
    let blocks ← blocksToAdd rest
    return block :: blocks

/-- `get_rev_block` of a block on the active chain. -/
def readRevBlock (h : Hash) : NodeM S RevBlock := do
  let n ← get
  if env.revFails h then throw .storage
  else
    match n.blockDb.revPatches[h]? with
    | none => throw .inconsistency
    | some rev => return rev

/-- The loop of `_rev_blocks_to_remove`, over the hashes from the tip down. -/
def readRevBlocks : List Hash → NodeM S (List RevBlock)
  | [] => return []
  | h :: rest => do
    let rev ← readRevBlock env h
    let _ ← readHeldBlock env h
    let revs ← readRevBlocks rest
    return rev :: revs

/-- `_rev_blocks_to_remove`. -/
def revBlocksToRemove (toRemove : List Hash) : NodeM S (List RevBlock) :=
  readRevBlocks env toRemove.reverse

/-! ### The trial -/

/-- `for rev_block in to_remove: utxo_index.apply_rev_block(rev_block)`. -/
def applyRevBlocks : List RevBlock → NodeM S Unit
  | [] => return ()
  | rev :: rest => do
    onUtxo env rev.hash fun read => UtxoIndex.applyRevBlock cfg.stats read rev
    applyRevBlocks rest

/-- `_check_bip30`. -/
def checkBip30 (index : ℕ) (h : Hash) : Bool := !cfg.bip30Exceptions.contains (index, h)

/-- What a turn of the to_add loop does with a block. -/
def connectBlock (h : Hash) (block : Block) : NodeM S Unit := do
  let info ← askIndex fun s => s.getBlockInfo h
  let (transactions, rev) ← onUtxo env h fun read =>
    UtxoIndex.addBlock cfg.stats read block info.index (checkBip30 cfg info.index h)
  check (env.rules.validateBlock block transactions info.index)
  onBlockDb (modify fun s => s.addRevBlock rev)
  onFilter (FilterIndex.addConnectedBlock cfg.filters (env.filterFails h) block rev)

/-- The to_add loop: whether it got through, no shutdown being seen. -/
def connectBlocks : List (Hash × Block) → TrialM S Bool
  | [] => return true
  | (h, block) :: rest => do
    let n ← get
    if n.terminateFlag || env.stops h then do
      set { n with terminateFlag := true }
      return false
    else do
      failing (some h) (connectBlock cfg env h block)
      connectBlocks rest

/-- The inside of the `try` of `update_chain`. -/
def trial (toAdd : List (Hash × Block)) (toRemove : List RevBlock) : TrialM S Bool := do
  failing none (applyRevBlocks cfg env toRemove)
  connectBlocks cfg env toAdd

/-! ### The commit -/

/-- `Chainstate.flush`: one batch, then the filters. -/
def flush : NodeM S Unit := do
  modify fun n => { n with
    db := {
      records := BlockIndex.writeAll n.db.records n.blockIndex.finalize.1
      coins := UtxoIndex.flushed n.db.coins n.utxoIndex
      coinStats := n.utxoIndex.data.coinStats }
    blockIndex := n.blockIndex.finalize.2
    utxoIndex := n.utxoIndex.finalize }
  let tip ← askIndex fun s => s.activeChain.getLast?
  modify fun n => { n with filterIndex := n.filterIndex.advance tip }

/-- `remove_from_active_chain` and `stage_status` of each block. -/
def disconnectTips : List Hash → NodeM S Unit
  | [] => return ()
  | h :: rest => do
    callIndex fun s => s.disconnectTip h
    disconnectTips rest

/-- `add_to_active_chain` and `stage_status` of each block. -/
def connectTips : List Hash → NodeM S Unit
  | [] => return ()
  | h :: rest => do
    callIndex fun s => s.connectTip h
    connectTips rest

/-- `_finalize_fork`. -/
def finalizeFork (toAdd toRemove : List Hash) : NodeM S Unit := do
  onBlockDb (BlockStore.finalize env.revWrites)
  disconnectTips toRemove
  connectTips toAdd
  let n ← get
  if n.utxoIndex.shouldFlush cfg.flushBound then flush else return ()

/-- `set_downloaded(downloaded=False)` of the active blocks from height `height`
on, `count` of them. -/
def clearDownloaded : ℕ → ℕ → NodeM S Unit
  | _, 0 => return ()
  | height, count + 1 => do
    let h ← askIndex fun s => s.activeChain[height]?
    callIndex fun s => s.setDownloaded h false
    clearDownloaded (height + 1) count

/-- `prune_up_to_height`. -/
def pruneUpToHeight (target : ℕ) : NodeM S Unit := do
  flush
  let n ← get
  clearDownloaded n.blockDb.prunedBelow (target + 1 - n.blockDb.prunedBelow)
  modify fun n => { n with blockDb := n.blockDb.pruneUpTo target n.blockIndex.activeChain }

/-- `MIN_BLOCKS_TO_KEEP`. -/
def minBlocksToKeep : ℕ := 288

/-- `_prune_chain`, `count` being how many heights `current_usage` asks for. -/
def pruneChain : ℕ → NodeM S Unit
  | 0 => return ()
  | count + 1 => do
    let n ← get
    if n.blockDb.prunedBelow + 1 + minBlocksToKeep ≤ n.blockIndex.activeChain.length then do
      pruneUpToHeight n.blockDb.prunedBelow
      pruneChain count
    else return ()

/-- `_finalize_fork_and_prune`. -/
def finalizeForkAndPrune (toAdd toRemove : List Hash) : NodeM S Unit := do
  finalizeFork cfg env toAdd toRemove
  pruneChain env.pruneHeights

/-! ### The verdict -/

/-- The downloaded headers among `l`. -/
def downloadedOf (s : BlockIndex) : List Hash → Option (List Hash)
  | [] => some []
  | h :: rest => do
    let info ← s.getBlockInfo h
    let others ← downloadedOf s rest
    return if info.downloaded then h :: others else others

/-- The loop of `_heaviest_downloaded_descendant`, of at most `fuel` turns. -/
def heaviestFrom (s : BlockIndex) : ℕ → List Hash → Hash → Option Hash
  | _, [], heaviest => some heaviest
  | 0, _ :: _, _ => none
  | fuel + 1, current :: stack, heaviest => do
    let work ← s.chainwork[current]?
    let best ← s.chainwork[heaviest]?
    let downloaded ← downloadedOf s (s.children[current]?.getD [])
    heaviestFrom s fuel (downloaded.reverse ++ stack) (if best < work then current else heaviest)

/-- `_heaviest_downloaded_descendant`.  A header is visited once. -/
def heaviestDownloadedDescendant (s : BlockIndex) (h : Hash) : Option Hash :=
  heaviestFrom s s.headerDict.keys.length [h] h

/-- `_invalidate_failed_block`. -/
def invalidateFailedBlock (h : Hash) : NodeM S Unit := do
  callIndex fun s => s.invalidate h
  let heaviest ← askIndex fun s => heaviestDownloadedDescendant s h
  callIndex fun s => s.weighInvalid heaviest

/-- `_rollback_trial`. -/
def rollbackTrial (utxoMark filterMark : ℕ) (n : Node S) : Node S :=
  { n with
    blockDb := n.blockDb.rollback
    utxoIndex := n.utxoIndex.rollback cfg.stats utxoMark
    filterIndex := n.filterIndex.rollback filterMark }

/-- What `update_chain` does with a trial that raised, rolled back. -/
def resolveFailure (failure : TrialFailure) : NodeM S Unit :=
  if failure.error.isContentFailure then do
    match failure.failedHash with
    | none => return ()
    | some h => do
      modify fun n => { n with lastRejectedBlock := some (h, failure.error) }
      invalidateFailedBlock h
  else throw failure.error

/-- `update_chain` of the fork `_ready_fork` names. -/
def tryFork (toAddHash toRemoveHash : List Hash) : NodeM S Unit := do
  let toAdd ← blocksToAdd env toAddHash
  let toRemove ← revBlocksToRemove env toRemoveHash
  let n ← get
  match ← attempt (trial cfg env (toAddHash.zip toAdd) toRemove) with
  | .ok true => finalizeForkAndPrune cfg env toAddHash (toRemove.map RevBlock.hash)
  | .ok false => modify (rollbackTrial cfg n.utxoIndex.trialMark n.filterIndex.trialMark)
  | .error failure => do
    modify (rollbackTrial cfg n.utxoIndex.trialMark n.filterIndex.trialMark)
    resolveFailure failure

/-- `update_chain`. -/
def updateChain : NodeM S Unit := do
  match ← readyFork with
  | none => return ()
  | some (toAdd, toRemove) => do
    tryFork cfg env toAdd toRemove
    let _ ← onIndex BlockIndex.getFirstCandidate
    return ()

/-! ### What an operator asks for -/

/-- The inside of the `try` of `invalidate_chain`. -/
def disconnectChain (toRemoveHash : List Hash) : NodeM S Unit := do
  let toRemove ← revBlocksToRemove env toRemoveHash
  applyRevBlocks cfg env toRemove
  finalizeFork cfg env [] (toRemove.map RevBlock.hash)

/-- `invalidate_chain` up to `activate_best_chain`. -/
def invalidateChain (h : Hash) : NodeM S Unit := do
  let info ← askIndex fun s => s.getBlockInfo h
  if info.index = 0 then return ()
  else if info.status = .inActiveChain then do
    let n ← get
    match ← attempt (disconnectChain cfg env (n.blockIndex.activeChain.drop info.index)) with
    | .error e => do
      modify fun n => { n with terminateFlag := true }
      throw e
    | .ok _ => do
      callIndex fun s => s.invalidate h
      callIndex BlockIndex.generateBlockCandidates
  else callIndex fun s => s.invalidate h

end Node

end BtclibNode
