/-
# Runs of the node

The node as a machine over its calls: headers and blocks arrive, blocks are
marked, `update_chain` is called, and an operator disconnects, reconsiders,
prefers, prunes and flushes.  A call that raises leaves the node as the
statements before the raise left it, and the node goes on from there.
-/
import BtclibNode.Lib.Run
import BtclibNode.Node.UpdateChain

namespace BtclibNode.Node

open StateExcept BlockIndex HeightTree

variable {S : Type} {cfg : NodeConfig S} {env : Env} {n t : Node S}

/-! ## The machine -/

/-- A call of the node, with what the world decides during it. -/
inductive NodeCall where
  | addHeaders (headers : List BlockHeader) (punishCachedInvalid minPowChecked : Bool) (now : ℤ)
  | storeBlock (block : Block)
  | markContextualFailure (h : Hash)
  | updateChain (env : Env)
  | invalidateChain (env : Env) (h : Hash)
  | reconsider (h : Hash)
  | precious (h : Hash)
  | pruneUpToHeight (target : ℕ)
  | flush

/-- A block with a header of the index arrives. -/
def storeBlock (block : Block) : NodeM S Unit := do
  onBlockDb (modify fun s => s.addBlock block)
  callIndex fun s => s.setDownloaded block.header.hash true

/-- Whether the node may make the call: on known headers, a mark of a contextual
failure off the active chain. -/
def allowed (n : Node S) : NodeCall → Bool
  | .addHeaders .. | .updateChain _ | .pruneUpToHeight _ | .flush => true
  | .markContextualFailure h =>
    (n.blockIndex.getBlockInfo h).isSome && decide (h ∉ n.blockIndex.activeChain)
  | .storeBlock block => (n.blockIndex.getBlockInfo block.header.hash).isSome
  | .invalidateChain _ h | .reconsider h | .precious h => (n.blockIndex.getBlockInfo h).isSome

/-- What the call runs. -/
def call (cfg : NodeConfig S) : NodeCall → NodeM S Unit
  | .addHeaders headers punish minPow now =>
    callIndex fun s => (s.addHeaders cfg.chain headers punish minPow now).map Prod.fst
  | .storeBlock block => storeBlock block
  | .markContextualFailure h => callIndex fun s => s.invalidate h
  | .updateChain env => updateChain cfg env
  | .invalidateChain env h => invalidateChain cfg env h
  | .reconsider h => callIndex fun s => s.reconsider h
  | .precious h => callIndex fun s => (s.precious h).map Prod.fst
  | .pruneUpToHeight target => pruneUpToHeight target
  | .flush => flush

/-- An allowed call, returning or raising. -/
def step (cfg : NodeConfig S) (n : Node S) (c : NodeCall) : Option (Node S) :=
  if n.allowed c then some (finalState (call cfg c) n) else none

/-- The node that opens over its stores, `index` being read from the records:
nothing is staged. -/
def openNode (db : ChainstateDb S) (index : BlockIndex) (filterIndex : FilterIndex)
    (blockDb : BlockStore) : Node S where
  blockIndex := index
  utxoIndex := UtxoIndex.init db.coinStats
  filterIndex := filterIndex
  blockDb := blockDb
  db := db
  terminateFlag := false
  lastRejectedBlock := none

/-! ## What every call keeps -/

/-- A property of nodes that is kept by all the node's calls are made of; `Stores`
is what the caller promises of a block it stores. -/
structure CallInvariant (cfg : NodeConfig S) (Stores : Node S → Block → Prop)
    (I : Node S → Prop) : Prop extends PruneInvariant cfg I where
  sound : ∀ n, I n → Sound cfg n
  indexed : ∀ n c s, I n → n.blockIndex.allowed cfg.chain c = true → c.movesTip = false →
    c ≠ .finalize → n.blockIndex.call cfg.chain c = some s → I (n.withIndex s)
  stored : ∀ n block, I n → Stores n block → I { n with blockDb := n.blockDb.addBlock block }
  passed : ∀ env n t, I n → t.indexStore.Agrees cfg.chain → Passed cfg env n t → I t
  disconnected : ∀ n m k, I n → 0 < k →
    Committed cfg (n.blockIndex.activeChain.take k) n m → I m
  written : ∀ n b, I n → BlockStore.Written n.blockDb.pendingRevBlocks n.blockDb b →
    I { n with blockDb := b }
  utxo : ∀ n u, I n → I { n with utxoIndex := u }
  terminated : ∀ n, I n → I { n with terminateFlag := true }

section Keeps

variable {Stores : Node S → Block → Prop} {I : Node S → Prop}

/-- A call of the index the node may make. -/
theorem CallInvariant.keeps_callIndex (hI : CallInvariant cfg Stores I) {c : IndexCall} (hn : I n)
    (hallowed : n.blockIndex.allowed cfg.chain c = true) (hmoves : c.movesTip = false)
    (hne : c ≠ .finalize) :
    Sat (callIndex fun s => s.call cfg.chain c) n (fun _ => I) fun _ => I := by
  obtain ⟨s, hcall, -⟩ := call_eq (hI.agrees n hn) hallowed hne
  rw [sat_of_ok (callIndex_eq hcall)]
  exact hI.indexed n c s hn hallowed hmoves hne hcall

theorem CallInvariant.keeps_storeBlock (hI : CallInvariant cfg Stores I) {block : Block}
    (hn : I n) (hallowed : n.allowed (.storeBlock block) = true) (hstores : Stores n block) :
    Sat (storeBlock block) n (fun _ => I) fun _ => I := by
  unfold storeBlock
  rw [sat_bind]
  exact onBlockDb_sat (hI.keeps_callIndex (c := .setDownloaded block.header.hash true)
    (hI.stored n block hn hstores) hallowed rfl (by simp))

theorem applyRevBlocks_sat (revs : List RevBlock) :
    Sat (applyRevBlocks cfg env revs) n (fun _ t => t = { n with utxoIndex := t.utxoIndex })
      fun _ t => t = { n with utxoIndex := t.utxoIndex } := by
  induction revs generalizing n with
  | nil => exact rfl
  | cons rev rest ih =>
    unfold applyRevBlocks
    rw [sat_bind]
    refine onUtxo_sat ((sat_true _ _).mono (fun _ u _ => ?_) fun _ _ _ => rfl)
    exact (ih (n := { n with utxoIndex := u })).mono (fun _ _ ht => ht) fun _ _ ht => ht

/-- The blocks of the active chain from height `k` on, taken off. -/
theorem finalizeFork_disconnect {k : ℕ} {hashes : List Hash}
    (hn : n.indexStore.Agrees cfg.chain) (hk : 0 < k)
    (hhashes : hashes = (n.blockIndex.activeChain.drop k).reverse) :
    Sat (finalizeFork cfg env [] hashes) n
      (fun _ t => ∃ m, Committed cfg (n.blockIndex.activeChain.take k) n m ∧
        (t = m ∨ ∃ tip, m.blockIndex.activeChain.getLast? = some tip ∧ t = m.flushed tip))
      fun _ t => ∃ b, BlockStore.Written n.blockDb.pendingRevBlocks n.blockDb b ∧
        t = { n with blockDb := b } := by
  have hs : Consistent cfg.chain n.blockIndex := hn.consistent
  obtain ⟨tip, hmain⟩ := hs.active
  have hlen := hmain.length_pos
  have hactive : n.blockIndex.activeChain = n.blockIndex.activeChain.take k ++ hashes.reverse := by
    rw [hhashes, List.reverse_reverse, List.take_append_drop]
  have hgenesis : cfg.chain.genesis.hash ∈ n.blockIndex.activeChain.take k := by
    apply List.mem_of_head?
    rw [List.head?_take, if_neg (by omega), hmain.head?]
  have hpath : ∃ x, IsPath cfg.chain n.blockIndex (n.blockIndex.activeChain.take k ++ []) x := by
    have hlt : min k n.blockIndex.activeChain.length - 1 < n.blockIndex.activeChain.length := by
      omega
    have htake := hmain.take (List.getElem?_eq_getElem hlt)
    rw [show min k n.blockIndex.activeChain.length - 1 + 1 = min k n.blockIndex.activeChain.length
      by omega, ← List.take_eq_take_min] at htake
    rw [List.append_nil]
    exact ⟨_, htake⟩
  refine (finalizeFork_sat hn hactive hgenesis hpath (by simp)).mono ?_ fun _ _ ht => ht.2
  rintro _ t ⟨-, m, hm, ht⟩
  rw [List.append_nil] at hm
  exact ⟨m, hm, ht⟩

/-- The inside of the `try` of `invalidate_chain`. -/
theorem CallInvariant.keeps_disconnectChain (hI : CallInvariant cfg Stores I) {k : ℕ} (env : Env)
    (hn : I n) (hk : 0 < k) :
    Sat (disconnectChain cfg env (n.blockIndex.activeChain.drop k)) n
      (fun _ t => I t ∧ t.blockIndex.activeChain = n.blockIndex.activeChain.take k ∧
        Rewrites n.blockIndex t.blockIndex) fun _ => I := by
  unfold disconnectChain
  rw [sat_bind]
  refine (readRevBlocks_sat env _).mono ?_ fun _ _ ht => ht ▸ hn
  rintro revs t ⟨rfl, hrevs⟩
  have hremoved := forall₂_hashes (hI.sound t hn).revHash hrevs
  rw [sat_bind]
  refine (applyRevBlocks_sat revs).mono (fun _ m hm => ?_) fun _ m hm => hm ▸ hI.utxo t _ hn
  rw [hm]
  refine (finalizeFork_disconnect (n := { t with utxoIndex := m.utxoIndex })
    (hI.agrees t hn) hk hremoved).mono ?_ ?_
  · rintro _ u ⟨c, hc, hu⟩
    have hIc : I c := hI.disconnected _ c k (hI.utxo t _ hn) hk hc
    have hchain : c.blockIndex.activeChain = t.blockIndex.activeChain.take k := hc.active
    rcases hu with rfl | ⟨tip, htip, rfl⟩
    · exact ⟨hIc, hchain, hc.moved.rewrites⟩
    · exact ⟨hI.flushed c tip hIc htip, hchain,
        hc.moved.rewrites.trans (SameRecords.rewrites ⟨rfl, rfl, rfl, rfl, rfl, rfl⟩)⟩
  · rintro _ u ⟨b, hb, rfl⟩
    exact hI.written _ b (hI.utxo t _ hn) hb

/-- **`invalidate_chain` keeps it**, returning or raising. -/
theorem CallInvariant.keeps_invalidateChain (hI : CallInvariant cfg Stores I) {h : Hash}
    (hn : I n) : Sat (invalidateChain cfg env h) n (fun _ => I) fun _ => I := by
  have hs : Consistent cfg.chain n.blockIndex := (hI.agrees n hn).consistent
  unfold invalidateChain
  rw [sat_bind]
  refine askIndex_sat (fun info hinfo => ?_) hn
  split
  · exact hn
  · next hindex =>
    split
    · next hstatus =>
      rw [sat_bind, sat_get]
      have hmem : h ∈ n.blockIndex.activeChain :=
        (hs.activeStatus h).mp ((statusOf_eq hinfo).trans (congrArg some hstatus))
      have hdis := hI.keeps_disconnectChain env hn (Nat.pos_of_ne_zero hindex)
      cases hres : disconnectChain cfg env (n.blockIndex.activeChain.drop info.index) n with
      | error e t =>
        have ht := hdis.of_error hres
        rw [sat_bind_of_ok (attempt_of_error hres)]
        exact hI.terminated t ht
      | ok a t =>
        obtain ⟨ht, hchain, hrewrites⟩ := hdis.of_ok hres
        obtain ⟨info', hinfo', -⟩ := hrewrites.exists_info hinfo
        obtain ⟨tip, hmain⟩ := hs.active
        have hoff : h ∉ t.blockIndex.activeChain := by
          obtain ⟨info₁, hinfo₁, hget⟩ := hs.info_of_active hmem
          obtain rfl : info = info₁ := Option.some.inj (hinfo.symm.trans hinfo₁)
          have hnodup := hmain.nodup hs.headerTree.tree
          rw [← List.take_append_drop info.index n.blockIndex.activeChain, List.nodup_append]
            at hnodup
          rw [hchain]
          intro htake
          refine hnodup.2.2 h htake h (List.mem_of_head? ?_) rfl
          rw [List.head?_drop, hget]
        have hallowed : t.blockIndex.allowed cfg.chain (.invalidate h) = true := by
          show (_ && _) = true
          rw [hinfo', decide_eq_true hoff]
          rfl
        rw [sat_bind_of_ok (attempt_of_ok hres), sat_bind]
        refine (hI.keeps_callIndex (c := .invalidate h) ht hallowed rfl (by simp)).mono
          (fun _ u hu => ?_) fun _ _ hu => hu
        exact hI.keeps_callIndex (c := .generateBlockCandidates) hu rfl rfl (by simp)
    · next hstatus =>
      have hoff : h ∉ n.blockIndex.activeChain := fun hmem => hstatus (by
        have := (hs.activeStatus h).mpr hmem
        rwa [statusOf_eq hinfo, Option.some.injEq] at this)
      have hallowed : n.blockIndex.allowed cfg.chain (.invalidate h) = true := by
        show (_ && _) = true
        rw [hinfo, decide_eq_true hoff]
        rfl
      exact hI.keeps_callIndex (c := .invalidate h) hn hallowed rfl (by simp)

/-- **Every call keeps it**, returning or raising. -/
theorem CallInvariant.keeps_call (hI : CallInvariant cfg Stores I) {c : NodeCall} (hn : I n)
    (hallowed : n.allowed c = true) (hstores : ∀ block, c = .storeBlock block → Stores n block) :
    Sat (call cfg c) n (fun _ => I) fun _ => I := by
  cases c with
  | addHeaders headers punish minPow now =>
    exact hI.keeps_callIndex (c := .addHeaders headers punish minPow now) hn rfl rfl (by simp)
  | storeBlock block => exact hI.keeps_storeBlock hn hallowed (hstores block rfl)
  | markContextualFailure h =>
    exact hI.keeps_callIndex (c := .invalidate h) hn hallowed rfl (by simp)
  | updateChain env =>
    exact (updateChain_sat (hI.sound n hn)).mono (fun _ t ht => hI.passed env n t hn ht.1 ht.2)
      fun _ t ht => hI.passed env n t hn ht.1 ht.2
  | invalidateChain env h => exact hI.keeps_invalidateChain hn
  | reconsider h => exact hI.keeps_callIndex (c := .reconsider h) hn hallowed rfl (by simp)
  | precious h => exact hI.keeps_callIndex (c := .precious h) hn hallowed rfl (by simp)
  | pruneUpToHeight target =>
    exact (hI.keeps_pruneUpToHeight target n).mono (fun _ _ ht => ht hn) fun _ _ ht => ht hn
  | flush => exact (hI.keeps_flush n).mono (fun _ _ ht => ht hn) fun _ _ ht => ht hn

end Keeps

/-! ## A node stays sound -/

section Soundness

theorem Sound.of_withIndex {s : BlockIndex} (hn : Sound cfg n)
    (hagrees : (n.withIndex s).indexStore.Agrees cfg.chain) : Sound cfg (n.withIndex s) :=
  ⟨hagrees, hn.blockHash, hn.revHash⟩

theorem getElem?_foldl_erase {V : Type} {m : Std.ExtTreeMap Hash V} {hashes : List Hash} {h : Hash}
    {v : V} (hv : (hashes.foldl (fun m h => m.erase h) m)[h]? = some v) : m[h]? = some v := by
  induction hashes generalizing m with
  | nil => exact hv
  | cons x rest ih =>
    have herase := ih hv
    rw [Std.ExtTreeMap.getElem?_erase] at herase
    split at herase
    · cases herase
    · exact herase

theorem mem_foldl_erase {V : Type} {m : Std.ExtTreeMap Hash V} {hashes : List Hash} {h : Hash}
    (hh : h ∉ hashes) (hmem : h ∈ m) : h ∈ hashes.foldl (fun m h => m.erase h) m := by
  induction hashes generalizing m with
  | nil => exact hmem
  | cons x rest ih =>
    rw [List.mem_cons, not_or] at hh
    refine ih hh.2 (Std.ExtTreeMap.mem_erase.mpr ⟨fun heq => hh.1 ?_, hmem⟩)
    exact (Std.LawfulEqOrd.eq_of_compare heq).symm

/-- Pruning keeps a node sound. -/
theorem pruneInvariant_sound (cfg : NodeConfig S) : PruneInvariant cfg (Sound cfg) := by
  have hactive := fun n : Node S => pruneInvariant_active cfg n.blockIndex.activeChain
  refine ⟨fun n hn => hn.agrees, fun n tip hn htip => ?_, fun n h s hn hh hs => ?_,
    fun n target hn _ => ?_⟩
  · exact ⟨((hactive n).flushed n tip ⟨hn.agrees, rfl⟩ htip).1, hn.blockHash, hn.revHash⟩
  · exact hn.of_withIndex ((hactive n).cleared n h s ⟨hn.agrees, rfl⟩ hh hs).1
  · unfold BlockStore.pruneUpTo
    split
    · exact hn
    · exact ⟨hn.agrees, fun h block hb => hn.blockHash h block (getElem?_foldl_erase hb),
        fun h rev hr => hn.revHash h rev (getElem?_foldl_erase hr)⟩

/-- Patches written are under their own hashes. -/
theorem Sound.written {b : BlockStore} {revs : List RevBlock} (hn : Sound cfg n)
    (hblocks : b.blocks = n.blockDb.blocks) (hpatches : b.revPatches = n.blockDb.revPatches)
    {u : BlockStore} (hu : BlockStore.Written revs b u) (ht : t.indexStore.Agrees cfg.chain)
    (htdb : t.blockDb = { u with pendingRevBlocks := t.blockDb.pendingRevBlocks }) :
    Sound cfg t := by
  refine ⟨ht, fun h block hb => ?_, fun h rev hr => ?_⟩
  · rw [htdb, hu.others, hblocks] at hb
    exact hn.blockHash h block hb
  · rw [htdb] at hr
    rcases hu.origin h rev hr with hold | ⟨-, hhash⟩
    · rw [hpatches] at hold
      exact hn.revHash h rev hold
    · exact hhash

/-- **A pass of `update_chain` leaves a sound node sound.** -/
theorem Passed.sound (hn : Sound cfg n) (ht : t.indexStore.Agrees cfg.chain)
    (hp : Passed cfg env n t) : Sound cfg t := by
  cases hp with
  | idle queue htrial => exact ⟨ht, hn.blockHash, hn.revHash⟩
  | rolledBack queue htrial hresult => exact ⟨ht, hn.blockHash, hn.revHash⟩
  | refused queue queue' htrial hresult hcontent hfailed hrefused =>
    rename_i u
    have hdb : u.blockDb = n.blockDb.rollback := hrefused.moved.parts.2.2.1
    refine ⟨ht, fun h block hb => hn.blockHash h block ?_, fun h rev hr => hn.revHash h rev ?_⟩
    · change u.blockDb.blocks[h]? = some block at hb
      rwa [hdb] at hb
    · change u.blockDb.revPatches[h]? = some rev at hr
      rwa [hdb] at hr
  | commitRaised htrial hresult hstopped hwritten =>
    have hstaged := (trialOf_spec hn htrial).staged _ _ hresult
    exact hn.written (by rw [hstaged]) (by rw [hstaged]) hwritten ht rfl
  | committed queue htrial hresult hwritable hactive hcommitted hpruned =>
    have hstaged := (trialOf_spec hn htrial).staged _ _ hresult
    obtain ⟨u, hwritten, hblocks, -⟩ := hcommitted.blocks
    have hsound := hpruned _ (pruneInvariant_sound cfg) (hn.written
      (by rw [hstaged]) (by rw [hstaged]) hwritten hcommitted.agrees
      (by rw [hblocks]))
    exact ⟨ht, hsound.blockHash, hsound.revHash⟩

theorem Sound.addBlock (hn : Sound cfg n) (block : Block) :
    Sound cfg { n with blockDb := n.blockDb.addBlock block } := by
  unfold BlockStore.addBlock
  split
  · exact hn
  · refine ⟨hn.agrees, fun h b hb => ?_, hn.revHash⟩
    change (n.blockDb.blocks.insert block.header.hash block)[h]? = some b at hb
    rw [FiniteMap.getElem?_insert] at hb
    split at hb
    · next heq =>
      rw [Option.some.injEq] at hb
      rw [← hb, heq]
    · exact hn.blockHash h b hb

/-- Soundness is kept by what calls are made of. -/
theorem callInvariant_sound (cfg : NodeConfig S) (Stores : Node S → Block → Prop) :
    CallInvariant cfg Stores (Sound cfg) := by
  refine ⟨pruneInvariant_sound cfg, fun n hn => hn, ?indexed, ?stored, ?passed, ?disconnected,
    ?written, ?utxo, ?terminated⟩
  case indexed =>
    intro n c s hn hallowed _ hne hcall
    obtain ⟨s', hcall', -, hagrees⟩ := call_eq hn.agrees hallowed hne
    obtain rfl : s' = s := Option.some.inj (hcall'.symm.trans hcall)
    exact hn.of_withIndex hagrees
  case stored => exact fun n block hn _ => hn.addBlock block
  case passed => exact fun env n t hn ht hp => hp.sound hn ht
  case disconnected =>
    intro n m k hn _ hm
    obtain ⟨u, hwritten, hblocks, -⟩ := hm.blocks
    exact hn.written rfl rfl hwritten hm.agrees (by rw [hblocks])
  case written => exact fun n b hn hb => hn.written rfl rfl hb hn.agrees rfl
  case utxo => exact fun n u hn => ⟨hn.agrees, hn.blockHash, hn.revHash⟩
  case terminated => exact fun n hn => ⟨hn.agrees, hn.blockHash, hn.revHash⟩

/-- **Every call leaves a sound node sound**, returning or raising. -/
theorem sound_call {c : NodeCall} (hn : Sound cfg n) (hallowed : n.allowed c = true) :
    Sat (call cfg c) n (fun _ => Sound cfg) fun _ => Sound cfg :=
  (callInvariant_sound cfg fun _ _ => True).keeps_call hn hallowed fun _ _ => trivial

/-- A node opens sound, over a store a node has written. -/
theorem sound_openNode {db : ChainstateDb S} {index : BlockIndex} {filterIndex : FilterIndex}
    {blockDb : BlockStore} {main : List Hash} (hdb : StoredTree cfg.chain db.records main)
    (hclosed : StoredClosed cfg.chain db.records)
    (hload : initFromDb cfg.chain db.records = some index)
    (hblocks : ∀ (h : Hash) (block : Block), blockDb.blocks[h]? = some block → block.header.hash = h)
    (hpatches : ∀ (h : Hash) (rev : RevBlock), blockDb.revPatches[h]? = some rev → rev.hash = h) :
    Sound cfg (openNode db index filterIndex blockDb) := by
  refine ⟨?_, hblocks, hpatches⟩
  exact IndexStore.agrees_of_run hdb hclosed hload Run.exec_nil

/-- Every state of a run is sound. -/
theorem sound_of_run {calls : List NodeCall} (hn : Sound cfg n)
    (hrun : Run.exec (step cfg) n calls = some t) : Sound cfg t := by
  refine Run.exec_invariant (fun m c u hm hstep => ?_) hn hrun
  unfold step at hstep
  split at hstep
  · next hallowed =>
    cases hstep
    exact (sound_call hm hallowed).finalState
  · cases hstep

end Soundness

end BtclibNode.Node
