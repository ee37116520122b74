/-
# `update_chain`

A pass of `update_chain` tries the fork `_ready_fork` names.  What the pass does
in each case: nothing, where no fork is ready or a read raises; the staging as
it was, where the trial does not get through; the fork committed, where it does.
-/
import BtclibNode.Node.Commit

namespace BtclibNode.Node

open StateExcept BlockIndex HeightTree

variable {S : Type} {cfg : NodeConfig S} {env : Env} {n t : Node S}

/-! ## The verdict on a block -/

section Verdict

variable {chain : Chain} {s : BlockIndex} {h x : Hash} {info : BlockInfo}

theorem downloadedOf_eq {l : List Hash} (hknown : ∀ x ∈ l, ∃ info, s.getBlockInfo x = some info) :
    ∃ d, downloadedOf s l = some d ∧ d.Sublist l := by
  induction l with
  | nil => exact ⟨[], rfl, .slnil⟩
  | cons h l ih =>
    obtain ⟨⟨info, hinfo⟩, hrest⟩ := List.forall_mem_cons.mp hknown
    obtain ⟨d, hd, hsub⟩ := ih hrest
    refine ⟨if info.downloaded then h :: d else d, ?_, ?_⟩
    · rw [downloadedOf, hinfo, hd]
      rfl
    · split
      · exact hsub.cons_cons h
      · exact hsub.cons h

/-- The downloaded children of a header. -/
def downloadedChildren (s : BlockIndex) (p : Hash) : List Hash :=
  (downloadedOf s (s.children[p]?.getD [])).getD []

theorem downloadedChildren_eq (ht : HeaderTree chain s) (p : Hash) :
    downloadedOf s (s.children[p]?.getD []) = some (downloadedChildren s p) ∧
      (downloadedChildren s p).Sublist (s.children[p]?.getD []) := by
  obtain ⟨d, hd, hsub⟩ := downloadedOf_eq (s := s) (l := s.children[p]?.getD []) fun c hc => by
    obtain ⟨k, hk⟩ := (ht.mem_children p c).mp hc
    obtain ⟨info, hinfo, -⟩ := BlockIndex.exists_info hk
    exact ⟨info, hinfo⟩
  unfold downloadedChildren
  rw [hd]
  exact ⟨rfl, hsub⟩

/-- The loop of `_heaviest_downloaded_descendant` names a header. -/
theorem heaviestFrom_eq (ht : HeaderTree chain s) {fuel : ℕ} {done stack : List Hash}
    {heaviest : Hash} (hinfo : s.getBlockInfo h = some info)
    (hv : Visiting s.nodes (downloadedChildren s) h done stack)
    (hfuel : s.headerDict.keys.length ≤ fuel + done.length)
    (hheaviest : ∃ info, s.getBlockInfo heaviest = some info) :
    ∃ x, heaviestFrom s fuel stack heaviest = some x ∧ ∃ info, s.getBlockInfo x = some info := by
  induction fuel generalizing done stack heaviest with
  | zero =>
    obtain rfl := hv.stack_eq_nil (fun x hx => by
      obtain ⟨xinfo, hxinfo⟩ := known_of_descends hinfo hx
      exact mem_keys_of_info hxinfo) (by omega)
    exact ⟨heaviest, rfl, hheaviest⟩
  | succ fuel ih =>
    cases stack with
    | nil => exact ⟨heaviest, rfl, hheaviest⟩
    | cons a stack =>
      obtain ⟨ainfo, hainfo⟩ := known_of_descends hinfo (hv.descends a (by simp))
      obtain ⟨binfo, hbinfo⟩ := hheaviest
      have hstep := hv.step ht.tree
        (fun p c hc => (ht.mem_children p c).mp ((downloadedChildren_eq ht p).2.subset hc))
        fun p => (downloadedChildren_eq ht p).2.nodup (ht.nodup_children p)
      have hnext : ∃ info, s.getBlockInfo
          (if s.weight heaviest < s.weight a then a else heaviest) = some info := by
        split
        · exact ⟨ainfo, hainfo⟩
        · exact ⟨binfo, hbinfo⟩
      obtain ⟨x, hx, hknown⟩ := ih hstep (by simp; omega) hnext
      refine ⟨x, ?_, hknown⟩
      rw [heaviestFrom, ht.work_eq hainfo, ht.work_eq hbinfo, (downloadedChildren_eq ht a).1]
      exact hx

theorem heaviestDownloadedDescendant_eq (ht : HeaderTree chain s)
    (hinfo : s.getBlockInfo h = some info) :
    ∃ x, heaviestDownloadedDescendant s h = some x ∧ ∃ info, s.getBlockInfo x = some info :=
  heaviestFrom_eq ht hinfo (Visiting.init s.nodes _ h) (Nat.le_add_right _ _) ⟨info, hinfo⟩

end Verdict

/-- `t` is `n` with `h` and everything built on it invalid. -/
structure Refused (cfg : NodeConfig S) (h : Hash) (n t : Node S) : Prop where
  moved : IndexMoved n t
  agrees : t.indexStore.Agrees cfg.chain
  indexed : Indexed cfg n t
  active : t.blockIndex.activeChain = n.blockIndex.activeChain
  invalid : ∀ x, Descends n.blockIndex.nodes h x → t.blockIndex.statusOf x = some .invalid
  others : ∀ x, ¬Descends n.blockIndex.nodes h x →
    t.blockIndex.statusOf x = n.blockIndex.statusOf x

/-- **`_invalidate_failed_block` returns** for a header off the active chain. -/
theorem invalidateFailedBlock_eq {h : Hash} {info : BlockInfo}
    (hn : n.indexStore.Agrees cfg.chain) (hinfo : n.blockIndex.getBlockInfo h = some info)
    (hoff : h ∉ n.blockIndex.activeChain) :
    ∃ t, invalidateFailedBlock h n = .ok () t ∧ Refused cfg h n t := by
  have hs : Consistent cfg.chain n.blockIndex := hn.consistent
  have hallowed : n.blockIndex.allowed cfg.chain (.invalidate h) = true := by
    show (_ && _) = true
    rw [hinfo, decide_eq_true hoff]
    rfl
  obtain ⟨s, hcall, hcons, hagrees⟩ := call_eq hn hallowed (by simp)
  obtain ⟨s', heq, hinv, -⟩ := hs.invalidate_eq hinfo hoff
  obtain rfl : s = s' := Option.some.inj (hcall.symm.trans heq)
  have hstatus := hinv.statuses_after hs.headerTree hinfo
  obtain ⟨u, hst, hs'⟩ := hinv.statuses
  have hactive : s.activeChain = n.blockIndex.activeChain := by
    rw [hs']
    show u.activeChain = _
    rw [hst.others]
  obtain ⟨info', hinfo', -⟩ := hst.rewrites.exists_info hinfo
  have hknown : (n.withIndex s).blockIndex.getBlockInfo h = some info' := by
    show s.getBlockInfo h = _
    rw [hs']
    exact hinfo'
  obtain ⟨x, hheaviest, xinfo, hxinfo⟩ :=
    heaviestDownloadedDescendant_eq hagrees.consistent.headerTree hknown
  have hallowed' : (n.withIndex s).blockIndex.allowed cfg.chain (.weighInvalid x) = true :=
    Option.isSome_iff_exists.mpr ⟨xinfo, hxinfo⟩
  obtain ⟨w, hcall', -, hagrees'⟩ := call_eq hagrees hallowed' (by simp)
  obtain ⟨b, heq', -⟩ := Consistent.weighInvalid_eq hagrees.consistent hxinfo
  have hw := Option.some.inj (hcall'.symm.trans heq')
  refine ⟨(n.withIndex s).withIndex w, ?_, .trans (indexMoved_withIndex n s)
    (indexMoved_withIndex _ w), hagrees', (indexed_call hn hallowed (by simp) hcall).trans
    (indexed_call hagrees hallowed' (by simp) hcall'), ?_, fun y hy => ?_, fun y hy => ?_⟩
  · unfold invalidateFailedBlock
    show EStateM.bind (callIndex _) _ n = _
    unfold EStateM.bind
    rw [callIndex_eq heq]
    show EStateM.bind (askIndex _) _ _ = _
    unfold EStateM.bind
    rw [askIndex_eq hheaviest]
    exact callIndex_eq hcall'
  · rw [← hactive, hw]
    rfl
  · rw [← (hstatus y).1 hy, hw]
    rfl
  · rw [← (hstatus y).2 hy, hw]
    rfl

/-! ## The patches of a trial -/

section Patches

/-- The patches that a trial of `hashes` puts to wait. -/
def newPatches (s : BlockStore) (hashes : List Hash) : List Hash :=
  hashes.filter fun h => ¬s.Held h

theorem pendingHashes_addRevBlock (s : BlockStore) (rev : RevBlock) :
    (s.addRevBlock rev).pendingRevBlocks.map RevBlock.hash =
      s.pendingRevBlocks.map RevBlock.hash ++ newPatches s [rev.hash] := by
  unfold BlockStore.addRevBlock newPatches
  by_cases hheld : s.Held rev.hash
  · rw [if_pos hheld, List.filter_cons_of_neg (by simp [hheld]), List.filter_nil, List.append_nil]
  · rw [if_neg hheld, List.filter_cons_of_pos (by simp [hheld]), List.filter_nil, List.map_append]
    rfl

theorem held_addRevBlock (s : BlockStore) (rev : RevBlock) {x : Hash} (hne : rev.hash ≠ x) :
    (s.addRevBlock rev).Held x ↔ s.Held x := by
  unfold BlockStore.Held
  rw [pendingHashes_addRevBlock, s.addRevBlock_eq rev, List.mem_append]
  unfold newPatches
  rw [List.mem_filter, List.mem_singleton]
  constructor
  · rintro (h | h | ⟨h, -⟩)
    · exact .inl h
    · exact .inr h
    · exact absurd h.symm hne
  · rintro (h | h)
    · exact .inl h
    · exact .inr (.inl h)

theorem sat_true {ε σ α : Type} (x : EStateM ε σ α) (s : σ) :
    Sat x s (fun _ _ => True) fun _ _ => True := by
  unfold Sat
  cases x s <;> trivial

/-- The patch `add_block` answers is the block's. -/
theorem addBlock_hash (C : CoinStats S) (read : CoinRead) (block : Block) (height : ℕ)
    (check : Bool) (u : UtxoIndex S) :
    Sat (UtxoIndex.addBlock C read block height check) u
      (fun r _ => r.2.hash = block.header.hash) fun _ _ => True := by
  have hstage : ∀ v, Sat (UtxoIndex.stageBlock C read block height) v
      (fun r _ => r.2.hash = block.header.hash) fun _ _ => True := by
    intro v
    unfold UtxoIndex.stageBlock
    cases block.transactions with
    | nil => trivial
    | cons coinbase rest =>
      dsimp only
      rw [sat_bind]
      refine (sat_true _ v).mono (fun created w _ => ?_) fun _ _ h => h
      rw [sat_bind]
      refine (sat_true _ w).mono ?_ fun _ _ h => h
      rintro ⟨complete, removed, added⟩ w' -
      exact rfl
  unfold UtxoIndex.addBlock
  split
  · rw [sat_bind]
    exact (sat_true _ u).mono (fun _ v _ => hstage v) fun _ _ h => h
  · exact hstage u

/-- A turn of the to_add loop puts the block's patch to wait. -/
theorem connectBlock_sat (h : Hash) (block : Block) :
    Sat (connectBlock cfg env h block) n
      (fun _ t => ∃ rev, rev.hash = block.header.hash ∧ t.blockDb = n.blockDb.addRevBlock rev)
      fun _ _ => True := by
  unfold connectBlock
  rw [sat_bind]
  refine askIndex_sat (fun info _ => ?_) trivial
  rw [sat_bind]
  refine onUtxo_sat ((addBlock_hash _ _ block _ _ n.utxoIndex).mono ?_ fun _ _ _ => trivial)
  rintro ⟨transactions, rev⟩ u hrev
  dsimp only
  rw [sat_bind]
  refine check_sat (fun _ _ => ?_) fun _ _ => trivial
  rw [sat_bind]
  refine onBlockDb_sat ?_
  refine onFilter_sat ((sat_true _ _).mono (fun _ _ _ => ?_) fun _ _ _ => trivial)
  exact ⟨rev, hrev, rfl⟩

/-- **What a trial puts to wait** if it gets through, and the block it names if it
raises. -/
theorem connectBlocks_sat (toAdd : List (Hash × Block))
    (hhash : ∀ e ∈ toAdd, e.2.header.hash = e.1) (hnodup : (toAdd.map Prod.fst).Nodup) :
    Sat (connectBlocks cfg env toAdd) n
      (fun b t => b = true → t.blockDb.pendingRevBlocks.map RevBlock.hash =
        n.blockDb.pendingRevBlocks.map RevBlock.hash ++
          newPatches n.blockDb (toAdd.map Prod.fst))
      fun f _ => ∀ h, f.failedHash = some h → h ∈ toAdd.map Prod.fst := by
  induction toAdd generalizing n with
  | nil => exact fun _ => by simp [newPatches]
  | cons entry rest ih =>
    obtain ⟨h, block⟩ := entry
    obtain ⟨hblock, hrest⟩ := List.forall_mem_cons.mp hhash
    rw [List.map_cons, List.nodup_cons] at hnodup
    unfold connectBlocks
    rw [sat_bind, sat_get]
    split
    · exact fun h0 => by cases h0
    · rw [sat_bind]
      refine failing_sat ((connectBlock_sat h block).mono ?_ ?_)
      · rintro _ m ⟨rev, hrev, hdb⟩
        refine (ih (n := m) hrest hnodup.2).mono (fun b t ht hb => ?_) fun f t ht x hx => ?_
        · rw [ht hb, hdb, pendingHashes_addRevBlock, List.append_assoc, hrev, hblock]
          congr 1
          have hsame : newPatches (n.blockDb.addRevBlock rev) (rest.map Prod.fst) =
              newPatches n.blockDb (rest.map Prod.fst) := by
            refine List.filter_congr fun x hx => ?_
            have hne : rev.hash ≠ x := by
              rintro rfl
              rw [hrev, hblock] at hx
              exact hnodup.1 hx
            simp only [held_addRevBlock _ _ hne]
          rw [hsame, List.map_cons]
          exact (List.filter_append [h] (rest.map Prod.fst)).symm
        · exact List.mem_cons_of_mem _ (ht x hx)
      · intro e m _ x hx
        cases hx
        exact List.mem_cons_self

theorem trial_sat (cfg : NodeConfig S) (env : Env) (toAdd : List (Hash × Block)) (toRemove : List RevBlock)
    (hhash : ∀ e ∈ toAdd, e.2.header.hash = e.1) (hnodup : (toAdd.map Prod.fst).Nodup) :
    Sat (trial cfg env toAdd toRemove) n
      (fun b t => b = true → t.blockDb.pendingRevBlocks.map RevBlock.hash =
        n.blockDb.pendingRevBlocks.map RevBlock.hash ++
          newPatches n.blockDb (toAdd.map Prod.fst))
      fun f _ => ∀ h, f.failedHash = some h → h ∈ toAdd.map Prod.fst := by
  unfold trial
  rw [sat_bind]
  have hkeeps : ∀ revs (m : Node S), Sat (applyRevBlocks cfg env revs) m
      (fun _ t => t.blockDb = m.blockDb) fun _ _ => True := by
    intro revs
    induction revs with
    | nil => exact fun m => rfl
    | cons rev rest ih =>
      intro m
      unfold applyRevBlocks
      rw [sat_bind]
      refine onUtxo_sat ((sat_true _ _).mono (fun _ u _ => ?_) fun _ _ _ => trivial)
      exact ih { m with utxoIndex := u }
  refine failing_sat ((hkeeps toRemove n).mono (fun _ m hm => ?_) fun _ _ _ => ?_)
  · rw [← hm]
    exact connectBlocks_sat toAdd hhash hnodup
  · exact fun h h0 => by cases h0

end Patches

/-! ## One pass -/

/-- What a node holds between calls: the index in agreement with its records,
and blocks and patches under their own hashes. -/
structure Sound (cfg : NodeConfig S) (n : Node S) : Prop where
  agrees : n.indexStore.Agrees cfg.chain
  blockHash : ∀ (h : Hash) (block : Block), n.blockDb.blocks[h]? = some block → block.header.hash = h
  revHash : ∀ (h : Hash) (rev : RevBlock), n.blockDb.revPatches[h]? = some rev → rev.hash = h

/-- The node with another queue of candidates. -/
def requeued (n : Node S) (queue : List (Hash × ℕ)) : Node S :=
  { n with blockIndex := { n.blockIndex with blockCandidates := queue } }

theorem evicted_eq (hputs : n.blockIndex.puts = []) (tip : Hash) :
    n.evicted tip = n.requeued (n.blockIndex.freshCandidates tip) := by
  obtain ⟨blockIndex, utxoIndex, filterIndex, blockDb, db, terminateFlag, last⟩ := n
  cases blockIndex
  dsimp only at hputs
  subst hputs
  rfl

/-- The trial of a pass: the fork, and what the trial comes to. -/
structure Trial (S : Type) where
  toAdd : List Hash
  toRemove : List Hash
  result : EStateM.Result TrialFailure (Node S) Bool

/-- The trial a pass of `update_chain` makes, if it makes one. -/
def trialOf (cfg : NodeConfig S) (env : Env) (n : Node S) : Option (Trial S) :=
  match readyFork n with
  | .ok (some (toAdd, toRemove)) n =>
    match blocksToAdd env toAdd n with
    | .ok blocks n =>
      match revBlocksToRemove env toRemove n with
      | .ok revs n => some ⟨toAdd, toRemove, trial cfg env (toAdd.zip blocks) revs n⟩
      | .error _ _ => none
    | .error _ _ => none
  | _ => none

/-- What a pass of `update_chain` leaves of the node `n`. -/
inductive Passed (cfg : NodeConfig S) (env : Env) (n : Node S) : Node S → Prop
  /-- No trial: only the queue of candidates has changed. -/
  | idle (queue : List (Hash × ℕ)) (htrial : trialOf cfg env n = none) :
      Passed cfg env n (n.requeued queue)
  /-- A trial stopped by a shutdown, or by what is no verdict on a block. -/
  | rolledBack (queue : List (Hash × ℕ)) {trial : Trial S} {m : Node S}
      (htrial : trialOf cfg env n = some trial)
      (hresult : trial.result = .ok false m ∨ ∃ f, trial.result = .error f m ∧
        (f.error.isContentFailure = true → f.failedHash = none)) :
      Passed cfg env n { n.requeued queue with
        blockDb := n.blockDb.rollback
        terminateFlag := m.terminateFlag }
  /-- A trial that a block failed. -/
  | refused (queue queue' : List (Hash × ℕ)) {trial : Trial S} {f : TrialFailure} {h : Hash}
      {m u : Node S} (htrial : trialOf cfg env n = some trial)
      (hresult : trial.result = .error f m) (hcontent : f.error.isContentFailure = true)
      (hfailed : f.failedHash = some h)
      (hrefused : Refused cfg h { n.requeued queue with
        blockDb := n.blockDb.rollback
        terminateFlag := m.terminateFlag
        lastRejectedBlock := some (h, f.error) } u) :
      Passed cfg env n (u.requeued queue')
  /-- A trial that got through, and a commit stopped as it wrote the patches. -/
  | commitRaised {trial : Trial S} {m : Node S} {b : BlockStore}
      (htrial : trialOf cfg env n = some trial) (hresult : trial.result = .ok true m)
      (hstopped : ¬m.blockDb.Writable env.revWrites m.blockDb.pendingRevBlocks)
      (hwritten : BlockStore.Written m.blockDb.pendingRevBlocks m.blockDb b) :
      Passed cfg env n { m with blockDb := b }
  /-- A trial that got through, committed. -/
  | committed (queue : List (Hash × ℕ)) {trial : Trial S} {m c t : Node S} {kept : List Hash}
      (htrial : trialOf cfg env n = some trial) (hresult : trial.result = .ok true m)
      (hwritable : m.blockDb.Writable env.revWrites m.blockDb.pendingRevBlocks)
      (hactive : n.blockIndex.activeChain = kept ++ trial.toRemove)
      (hcommitted : Committed cfg (kept ++ trial.toAdd) m c)
      (hpruned : ∀ I, PruneInvariant cfg I → I c → I t) :
      Passed cfg env n (t.requeued queue)

section Pass

variable {queue : List (Hash × ℕ)} {toAdd toRemove : List Hash} {tip : Hash}

theorem requeued_self (n : Node S) : n.requeued n.blockIndex.blockCandidates = n := rfl

/-- What the reads of a fork give. -/
theorem forall₂_hashes {hashes : List Hash} {revs : List RevBlock}
    (hn : ∀ (h : Hash) (rev : RevBlock), n.blockDb.revPatches[h]? = some rev → rev.hash = h)
    (hread : List.Forall₂ (fun h rev => n.blockDb.revPatches[h]? = some rev) hashes revs) :
    revs.map RevBlock.hash = hashes := by
  induction hread with
  | nil => rfl
  | cons hrev _ ih => rw [List.map_cons, ih, hn _ _ hrev]

theorem zip_hashes {hashes : List Hash} {blocks : List Block}
    (hn : ∀ (h : Hash) (block : Block), n.blockDb.blocks[h]? = some block → block.header.hash = h)
    (hread : List.Forall₂ (fun h block => n.blockDb.blocks[h]? = some block) hashes blocks) :
    (hashes.zip blocks).map Prod.fst = hashes ∧
      ∀ e ∈ hashes.zip blocks, e.2.header.hash = e.1 := by
  induction hread with
  | nil => simp
  | cons hblock _ ih =>
    rw [List.zip_cons_cons, List.map_cons, ih.1]
    exact ⟨rfl, List.forall_mem_cons.mpr ⟨hn _ _ hblock, ih.2⟩⟩

/-- A fork adds each of its blocks once. -/
theorem nodup_toAdd {kept : List Hash} {s : BlockIndex} (hs : Consistent cfg.chain s)
    (hfork : IsTrialFork cfg.chain s kept toAdd toRemove) : toAdd.Nodup := by
  obtain ⟨h, -, hpath⟩ := hfork.path
  have hnodup := hpath.nodup hs.headerTree.tree
  rw [List.nodup_append] at hnodup
  exact hnodup.2.1

theorem attempt_of_ok {ε α : Type} {x : EStateM ε (Node S) α} {a : α} (hx : x n = .ok a t) :
    attempt x n = .ok (.ok a) t := by
  unfold attempt
  rw [hx]

theorem attempt_of_error {ε α : Type} {x : EStateM ε (Node S) α} {e : ε} (hx : x n = .error e t) :
    attempt x n = .ok (.error e) t := by
  unfold attempt
  rw [hx]

/-- Pruning takes a commit to what every invariant of pruning holds of. -/
theorem finalizeForkAndPrune_sat {kept : List Hash} {removed : List Hash}
    (hn : n.indexStore.Agrees cfg.chain)
    (hactive : n.blockIndex.activeChain = kept ++ removed.reverse)
    (hgenesis : cfg.chain.genesis.hash ∈ kept)
    (hpath : ∃ x, IsPath cfg.chain n.blockIndex (kept ++ toAdd) x)
    (hvalid : ∀ x ∈ toAdd, n.blockIndex.statusOf x ≠ some .invalid) :
    Sat (finalizeForkAndPrune cfg env toAdd removed) n
      (fun _ t => n.blockDb.Writable env.revWrites n.blockDb.pendingRevBlocks ∧
        ∃ m, Committed cfg (kept ++ toAdd) n m ∧ ∀ I, PruneInvariant cfg I → I m → I t)
      fun _ t =>
        (¬n.blockDb.Writable env.revWrites n.blockDb.pendingRevBlocks ∧
          ∃ u, BlockStore.Written n.blockDb.pendingRevBlocks n.blockDb u ∧
            t = { n with blockDb := u }) ∨
        (n.blockDb.Writable env.revWrites n.blockDb.pendingRevBlocks ∧
          ∃ m, Committed cfg (kept ++ toAdd) n m ∧ ∀ I, PruneInvariant cfg I → I m → I t) := by
  unfold finalizeForkAndPrune
  rw [sat_bind]
  refine (finalizeFork_sat hn hactive hgenesis hpath hvalid).mono ?_ fun _ _ ht => .inl ht
  rintro _ c ⟨hwritable, m, hm, hc⟩
  have hmc : ∀ I, PruneInvariant cfg I → I m → I c := by
    rintro I hI hIm
    rcases hc with rfl | ⟨tip, htip, rfl⟩
    · exact hIm
    · exact hI.flushed m tip hIm htip
  unfold Sat
  cases hprune : pruneChain env.pruneHeights c with
  | ok _ t =>
    exact ⟨hwritable, m, hm, fun I hI hIm =>
      (hI.keeps_pruneChain env.pruneHeights c).of_ok hprune (hmc I hI hIm)⟩
  | error _ t =>
    exact .inr ⟨hwritable, m, hm, fun I hI hIm =>
      (hI.keeps_pruneChain env.pruneHeights c).of_error hprune (hmc I hI hIm)⟩

/-- What follows a trial that raised, rolled back. -/
theorem resolveFailure_sat {kept : List Hash} {f : TrialFailure} {m : Node S} {result : Trial S}
    (hqueued : (n.requeued queue).indexStore.Agrees cfg.chain)
    (hfork : IsTrialFork cfg.chain (n.requeued queue).blockIndex kept toAdd toRemove)
    (hfailed : ∀ h, f.failedHash = some h → h ∈ toAdd) (htrial : trialOf cfg env n = some result)
    (hresult : result.result = .error f m) :
    Sat (resolveFailure f) { n.requeued queue with
        blockDb := n.blockDb.rollback
        terminateFlag := m.terminateFlag }
      (fun _ t => t.indexStore.Agrees cfg.chain ∧ ∀ queue', Passed cfg env n (t.requeued queue'))
      fun _ t => t.indexStore.Agrees cfg.chain ∧ Passed cfg env n t := by
  have hrolled : (f.error.isContentFailure = true → f.failedHash = none) → ∀ queue',
      Passed cfg env n { n.requeued queue' with
        blockDb := n.blockDb.rollback
        terminateFlag := m.terminateFlag } := fun hnone queue' =>
    Passed.rolledBack queue' htrial (.inr ⟨f, hresult, hnone⟩)
  unfold resolveFailure
  by_cases hcontent : f.error.isContentFailure = true
  case neg =>
    rw [if_neg hcontent]
    exact ⟨hqueued, hrolled (fun h0 => absurd h0 hcontent) queue⟩
  case pos =>
    rw [if_pos hcontent]
    cases hf : f.failedHash with
    | none => exact ⟨hqueued, hrolled fun _ => hf⟩
    | some h =>
      dsimp only
      rw [sat_bind, sat_modify]
      have hmem : h ∈ toAdd := hfailed h hf
      obtain ⟨x, -, hpath⟩ := hfork.path
      obtain ⟨info, hinfo, -⟩ :=
        hqueued.consistent.headerTree.info_of_mem hpath (List.mem_append_right _ hmem)
      obtain ⟨u, hu, hrefused⟩ := invalidateFailedBlock_eq
        (n := { n.requeued queue with
          blockDb := n.blockDb.rollback
          terminateFlag := m.terminateFlag
          lastRejectedBlock := some (h, f.error) }) hqueued hinfo (hfork.off h hmem)
      refine (sat_of_ok hu).mpr ⟨hrefused.agrees, fun queue' => ?_⟩
      exact Passed.refused queue queue' htrial hresult hcontent hf hrefused

/-- The fork of a pass: nothing but the queue changes before its trial. -/
theorem tryFork_sat (hn : Sound cfg n) (hqueued : (n.requeued queue).indexStore.Agrees cfg.chain)
    (hready : readyFork n = .ok (some (toAdd, toRemove)) (n.requeued queue))
    (hfork : IsReady cfg.chain (n.requeued queue).blockIndex tip toAdd toRemove) :
    Sat (tryFork cfg env toAdd toRemove) (n.requeued queue)
      (fun _ t => t.indexStore.Agrees cfg.chain ∧ ∀ queue', Passed cfg env n (t.requeued queue'))
      fun _ t => t.indexStore.Agrees cfg.chain ∧ Passed cfg env n t := by
  have htrial : trialOf cfg env n = match blocksToAdd env toAdd (n.requeued queue) with
      | .ok blocks m =>
        match revBlocksToRemove env toRemove m with
        | .ok revs m => some ⟨toAdd, toRemove, trial cfg env (toAdd.zip blocks) revs m⟩
        | .error _ _ => none
      | .error _ _ => none := by
    unfold trialOf
    rw [hready]
  have hblocks := blocksToAdd_sat (n := n.requeued queue) env toAdd
  have hrevs := readRevBlocks_sat (n := n.requeued queue) env toRemove.reverse
  unfold tryFork
  cases hb : blocksToAdd env toAdd (n.requeued queue) with
  | error e m =>
    obtain rfl := hblocks.of_error hb
    rw [hb] at htrial
    rw [sat_bind_of_error hb]
    exact ⟨hqueued, Passed.idle queue htrial⟩
  | ok blocks m =>
    obtain ⟨rfl, hblocks⟩ := hblocks.of_ok hb
    rw [hb] at htrial
    dsimp only at htrial
    rw [sat_bind_of_ok hb]
    cases hr : revBlocksToRemove env toRemove (n.requeued queue) with
    | error e m =>
      obtain rfl := hrevs.of_error hr
      rw [hr] at htrial
      rw [sat_bind_of_error hr]
      exact ⟨hqueued, Passed.idle queue htrial⟩
    | ok revs m =>
      obtain ⟨rfl, hrevs⟩ := hrevs.of_ok hr
      rw [hr] at htrial
      dsimp only at htrial
      rw [sat_bind_of_ok hr, sat_bind, sat_get]
      obtain ⟨kept, hkept⟩ := hfork.fork
      have hin := inTrial_trial cfg env (toAdd.zip blocks) revs
        (n.requeued queue)
      have hroll := fun (m : Node S) (h : InTrial cfg (n.requeued queue) m) => h.rollback_eq
      cases hres : trial cfg env (toAdd.zip blocks) revs (n.requeued queue) with
      | ok b m =>
        have hm := hin.of_ok hres
        rw [hres] at htrial
        rw [sat_bind_of_ok (attempt_of_ok hres)]
        cases b with
        | false =>
          refine sat_modify.mpr ?_
          rw [hroll m hm]
          exact ⟨hqueued, fun queue' => Passed.rolledBack (m := m) queue' htrial (.inl rfl)⟩
        | true =>
          have hindex : m.blockIndex = (n.requeued queue).blockIndex := by rw [hm.others]
          have hstore : m.indexStore = (n.requeued queue).indexStore := by
            unfold indexStore
            rw [hm.others]
          have hremoved := forall₂_hashes hn.revHash hrevs
          obtain ⟨x, -, hpath⟩ := hkept.path
          have hactive : m.blockIndex.activeChain =
              kept ++ (revs.map RevBlock.hash).reverse := by
            rw [hremoved, List.reverse_reverse, hindex]
            exact hkept.active
          refine (finalizeForkAndPrune_sat
            (hstore ▸ hqueued) hactive hkept.genesis ⟨x, hindex ▸ hpath⟩
            (hindex ▸ hkept.valid)).mono ?_ ?_
          · rintro _ t ⟨hwritable, c, hc, hpruned⟩
            refine ⟨?_, fun queue' =>
              Passed.committed queue' htrial rfl hwritable hkept.active hc hpruned⟩
            exact (hpruned _ (pruneInvariant_active cfg (kept ++ toAdd)) ⟨hc.agrees, hc.active⟩).1
          · rintro _ t (⟨hstopped, u, hwritten, rfl⟩ | ⟨hwritable, c, hc, hpruned⟩)
            · exact ⟨hstore ▸ hqueued, Passed.commitRaised htrial rfl hstopped hwritten⟩
            · refine ⟨?_, Passed.committed t.blockIndex.blockCandidates htrial rfl hwritable
                hkept.active hc hpruned⟩
              exact (hpruned _ (pruneInvariant_active cfg (kept ++ toAdd)) ⟨hc.agrees, hc.active⟩).1
      | error f m =>
        have hm := hin.of_error hres
        rw [hres] at htrial
        rw [sat_bind_of_ok (attempt_of_error hres)]
        dsimp only
        rw [sat_bind, sat_modify, hroll m hm]
        obtain ⟨hfst, hhashes⟩ := zip_hashes (n := n) hn.blockHash hblocks
        have hfailed := (trial_sat (n := n.requeued queue) cfg env
          (toAdd.zip blocks) revs hhashes
          (hfst.symm ▸ nodup_toAdd hqueued.consistent hkept)).of_error hres
        rw [hfst] at hfailed
        exact resolveFailure_sat hqueued hkept hfailed htrial rfl

/-- **A pass of `update_chain`** does one of five things. -/
theorem updateChain_sat (hn : Sound cfg n) :
    Sat (updateChain cfg env) n (fun _ t => t.indexStore.Agrees cfg.chain ∧ Passed cfg env n t)
      fun _ t => t.indexStore.Agrees cfg.chain ∧ Passed cfg env n t := by
  obtain ⟨tip, r, htip, hready, hagrees, hfork, -⟩ := readyFork_eq hn.agrees
  rw [evicted_eq hn.agrees.puts] at hready hagrees hfork
  unfold updateChain
  rw [sat_bind_of_ok hready]
  cases r with
  | none =>
    refine ⟨hagrees, Passed.idle _ ?_⟩
    unfold trialOf
    rw [hready]
  | some fork =>
    obtain ⟨toAdd, toRemove⟩ := fork
    rw [sat_bind]
    refine (tryFork_sat hn hagrees hready (hfork toAdd toRemove rfl)).mono ?_ fun _ _ ht => ht
    rintro _ t ⟨htagrees, ht⟩
    obtain ⟨tip', answer, -, hfirst, hevicted⟩ := firstCandidate_eq htagrees
    rw [evicted_eq htagrees.puts] at hfirst hevicted
    rw [sat_bind_of_ok hfirst]
    exact ⟨hevicted, ht _⟩

/-! ## The trial of a sound node -/

/-- What the trial of a pass is about, and what it leaves. -/
structure TrialSpec (cfg : NodeConfig S) (n : Node S) (r : Trial S) : Prop where
  fork : ∃ kept, IsTrialFork cfg.chain n.blockIndex kept r.toAdd r.toRemove
  held : ∀ h ∈ r.toAdd, h ∈ n.blockDb.blocks
  chain : ∀ b m, r.result = .ok b m → m.blockIndex.activeChain = n.blockIndex.activeChain
  staged : ∀ b m, r.result = .ok b m →
    m.blockDb = { n.blockDb with pendingRevBlocks := m.blockDb.pendingRevBlocks }
  patches : ∀ m, r.result = .ok true m → m.blockDb.pendingRevBlocks.map RevBlock.hash =
    n.blockDb.pendingRevBlocks.map RevBlock.hash ++ newPatches n.blockDb r.toAdd

theorem mem_of_forall₂ {hashes : List Hash} {blocks : List Block} {m : Std.ExtTreeMap Hash Block}
    (hread : List.Forall₂ (fun h block => m[h]? = some block) hashes blocks) :
    ∀ h ∈ hashes, h ∈ m := by
  induction hread with
  | nil => simp
  | cons hblock _ ih =>
    refine List.forall_mem_cons.mpr ⟨?_, ih⟩
    rw [Std.ExtTreeMap.mem_iff_isSome_getElem?, hblock]
    rfl

/-- **The trial of a pass** is of the fork that is ready, with the blocks and the
patches that are held, on the node as the pass found it but for the queue. -/
theorem trialOf_eq (hn : Sound cfg n) {r : Trial S} (htrial : trialOf cfg env n = some r) :
    ∃ queue kept blocks revs, (n.requeued queue).indexStore.Agrees cfg.chain ∧
      IsTrialFork cfg.chain n.blockIndex kept r.toAdd r.toRemove ∧
      List.Forall₂ (fun h block => n.blockDb.blocks[h]? = some block) r.toAdd blocks ∧
      List.Forall₂ (fun h rev => n.blockDb.revPatches[h]? = some rev) r.toRemove.reverse revs ∧
      r.result = trial cfg env (r.toAdd.zip blocks) revs (n.requeued queue) := by
  obtain ⟨tip, fork, htip, hready, hagrees, hfork, -⟩ := readyFork_eq hn.agrees
  rw [evicted_eq hn.agrees.puts] at hready hagrees hfork
  unfold trialOf at htrial
  rw [hready] at htrial
  cases fork with
  | none => cases htrial
  | some fork =>
    obtain ⟨toAdd, toRemove⟩ := fork
    obtain ⟨kept, hkept⟩ := (hfork toAdd toRemove rfl).fork
    obtain ⟨queue, hqueue⟩ : ∃ queue, n.blockIndex.freshCandidates tip = queue := ⟨_, rfl⟩
    rw [hqueue] at htrial hagrees hkept
    have hblocks := blocksToAdd_sat (n := n.requeued queue) env toAdd
    have hrevs := readRevBlocks_sat (n := n.requeued queue) env toRemove.reverse
    dsimp only at htrial
    cases hb : blocksToAdd env toAdd (n.requeued queue) with
    | error e m =>
      rw [hb] at htrial
      cases htrial
    | ok blocks m =>
      obtain ⟨rfl, hblocks⟩ := hblocks.of_ok hb
      rw [hb] at htrial
      dsimp only at htrial
      cases hr : revBlocksToRemove env toRemove (n.requeued queue) with
      | error e m =>
        rw [hr] at htrial
        cases htrial
      | ok revs m =>
        obtain ⟨rfl, hrevs⟩ := hrevs.of_ok hr
        rw [hr] at htrial
        dsimp only at htrial
        cases htrial
        exact ⟨queue, kept, blocks, revs, hagrees,
          ⟨hkept.active, hkept.genesis, hkept.path, hkept.off, hkept.valid⟩, hblocks, hrevs, rfl⟩

theorem trialOf_spec (hn : Sound cfg n) {r : Trial S} (htrial : trialOf cfg env n = some r) :
    TrialSpec cfg n r := by
  obtain ⟨queue, kept, blocks, revs, hagrees, hkept, hblocks, -, hresult⟩ := trialOf_eq hn htrial
  obtain ⟨hfst, hhashes⟩ := zip_hashes hn.blockHash hblocks
  have hin := inTrial_trial cfg env (r.toAdd.zip blocks) revs (n.requeued queue)
  have hpatches := trial_sat (n := n.requeued queue) cfg env (r.toAdd.zip blocks) revs hhashes
    (hfst.symm ▸ nodup_toAdd hn.agrees.consistent hkept)
  rw [hfst] at hpatches
  refine ⟨⟨kept, hkept⟩, mem_of_forall₂ hblocks, fun b u hres => ?_, fun b u hres => ?_,
    fun u hres => ?_⟩
  · have hu := hin.of_ok (hresult.symm.trans hres)
    rw [hu.others]
    rfl
  · exact (hin.of_ok (hresult.symm.trans hres)).blocks
  · exact hpatches.of_ok (hresult.symm.trans hres) rfl

end Pass

end BtclibNode.Node
