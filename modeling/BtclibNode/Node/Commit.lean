/-
# The commit of a fork

`_finalize_fork` writes the patches that wait, moves the active chain block by
block and flushes where the staging has grown; pruning follows.  Only the write
of the patches can stop it.
-/
import BtclibNode.Node.Steps

namespace BtclibNode

open StateExcept BlockIndex HeightTree

/-! ## The patches -/

namespace BlockStore

/-- `finalize` gets through: the blocks of the patches are stored, and the file
system takes that many writes. -/
def Writable (s : BlockStore) (writes : Option ℕ) (revs : List RevBlock) : Prop :=
  (∀ rev ∈ revs, rev.hash ∈ s.blocks) ∧ ∀ k, writes = some k → revs.length ≤ k

/-- `t` is `s` with some of the patches `revs` written. -/
structure Written (revs : List RevBlock) (s t : BlockStore) : Prop where
  others : t = { s with revPatches := t.revPatches }
  origin : ∀ h rev, t.revPatches[h]? = some rev →
    s.revPatches[h]? = some rev ∨ rev ∈ revs ∧ rev.hash = h
  kept : ∀ h, h ∈ s.revPatches → h ∈ t.revPatches

theorem Written.refl (revs : List RevBlock) (s : BlockStore) : Written revs s s :=
  ⟨rfl, fun _ _ h => .inl h, fun _ h => h⟩

theorem Written.step {rev : RevBlock} {revs : List RevBlock} {s t : BlockStore}
    (h : Written revs { s with revPatches := s.revPatches.insert rev.hash rev } t) :
    Written (rev :: revs) s t := by
  refine ⟨h.others, fun x p hp => ?_, fun x hx => ?_⟩
  · rcases h.origin x p hp with hs | ⟨hmem, hhash⟩
    · rw [FiniteMap.getElem?_insert] at hs
      by_cases hx : rev.hash = x
      · rw [if_pos hx, Option.some.injEq] at hs
        exact .inr (hs ▸ ⟨List.mem_cons_self, hx⟩)
      · rw [if_neg hx] at hs
        exact .inl hs
    · exact .inr ⟨List.mem_cons_of_mem _ hmem, hhash⟩
  · refine h.kept x ?_
    rw [Std.ExtTreeMap.mem_insert]
    exact .inr hx

/-- The loop writes every patch, or some before it raises. -/
theorem writeRevBlocks_sat (writes : Option ℕ) (revs : List RevBlock) (s : BlockStore) :
    Sat (writeRevBlocks writes revs) s
      (fun _ t => Written revs s t ∧ s.Writable writes revs ∧ ∀ rev ∈ revs, rev.hash ∈ t.revPatches)
      fun _ t => Written revs s t ∧ ¬s.Writable writes revs := by
  induction revs generalizing writes s with
  | nil => exact ⟨.refl _ _, ⟨by simp, by simp⟩, by simp⟩
  | cons rev rest ih =>
    unfold writeRevBlocks
    rw [sat_bind, sat_get]
    by_cases hblock : rev.hash ∈ s.blocks
    · rw [if_neg (not_not.mpr hblock)]
      by_cases hfull : writes = some 0
      · rw [if_pos hfull]
        refine ⟨.refl _ _, fun hw => ?_⟩
        have := hw.2 0 hfull
        simp at this
      · rw [if_neg hfull]
        refine (ih (writes.map (· - 1)) _).mono ?_ ?_
        · rintro _ t ⟨hwritten, hwritable, hmem⟩
          refine ⟨hwritten.step, ⟨?_, ?_⟩, ?_⟩
          · exact List.forall_mem_cons.mpr ⟨hblock, hwritable.1⟩
          · rintro k rfl
            have := hwritable.2 (k - 1) rfl
            rw [List.length_cons]
            rw [Option.some.injEq] at hfull
            omega
          · refine List.forall_mem_cons.mpr ⟨hwritten.kept _ ?_, hmem⟩
            exact Std.ExtTreeMap.mem_insert_self
        · rintro _ t ⟨hwritten, hnot⟩
          refine ⟨hwritten.step, fun hw => hnot ⟨(List.forall_mem_cons.mp hw.1).2, ?_⟩⟩
          intro k hk
          obtain ⟨k', rfl, rfl⟩ := Option.map_eq_some_iff.mp hk
          have := hw.2 k' rfl
          rw [List.length_cons] at this
          omega
    · rw [if_pos hblock]
      exact ⟨.refl _ _, fun hw => hblock (hw.1 rev List.mem_cons_self)⟩

/-- **`finalize` writes every patch that waits, or raises** with all of them
still waiting. -/
theorem finalize_sat (writes : Option ℕ) (s : BlockStore) :
    Sat (finalize writes) s
      (fun _ t => ∃ u, Written s.pendingRevBlocks s u ∧ t = { u with pendingRevBlocks := [] } ∧
        s.Writable writes s.pendingRevBlocks ∧
        ∀ rev ∈ s.pendingRevBlocks, rev.hash ∈ u.revPatches)
      fun _ t => Written s.pendingRevBlocks s t ∧ ¬s.Writable writes s.pendingRevBlocks := by
  unfold finalize
  rw [sat_bind, sat_get, sat_bind]
  refine (writeRevBlocks_sat writes s.pendingRevBlocks s).mono ?_ fun _ _ h => h
  rintro _ u ⟨hwritten, hwritable, hmem⟩
  exact ⟨u, hwritten, rfl, hwritable, hmem⟩

end BlockStore

namespace Node

variable {S : Type} {cfg : NodeConfig S} {env : Env} {n t : Node S} {kept : List Hash}

/-! ## Moving the active chain -/

/-- The blocks of `hashes`, the tip first, taken off the active chain. -/
theorem disconnectTips_eq (hashes : List Hash) (hn : n.indexStore.Agrees cfg.chain)
    (hactive : n.blockIndex.activeChain = kept ++ hashes.reverse)
    (hgenesis : cfg.chain.genesis.hash ∈ kept) :
    ∃ t, disconnectTips hashes n = .ok () t ∧ IndexMoved n t ∧ t.indexStore.Agrees cfg.chain ∧
      t.blockIndex.activeChain = kept ∧ ChainMoved n.blockIndex t.blockIndex ∧ Indexed cfg n t := by
  induction hashes generalizing n with
  | nil =>
    rw [List.reverse_nil, List.append_nil] at hactive
    exact ⟨n, rfl, .refl n, hn, hactive, .refl _, .refl cfg n⟩
  | cons h rest ih =>
    rw [List.reverse_cons, ← List.append_assoc] at hactive
    have hs : Consistent cfg.chain n.blockIndex := hn.consistent
    have hallowed : n.blockIndex.allowed cfg.chain (.disconnectTip h) = true :=
      allowed_disconnectTip hactive (List.mem_append_left _ hgenesis) hs
    obtain ⟨s, hcall, -, hagrees⟩ := call_eq hn hallowed (by simp)
    have htip : n.blockIndex.activeChain.getLast? = some h := by
      rw [hactive, List.getLast?_concat]
    have hne : h ≠ cfg.chain.genesis.hash := by
      unfold allowed at hallowed
      rw [Bool.and_eq_true, decide_eq_true_iff, decide_eq_true_iff] at hallowed
      exact hallowed.2
    obtain ⟨s', heq, hst, -⟩ := hs.disconnectTip_eq htip hne
    obtain rfl : s = s' := Option.some.inj (hcall.symm.trans heq)
    obtain ⟨info, hinfo, -⟩ := hs.info_of_active (List.mem_of_getLast? htip)
    have hmoved := hst.chainMoved hinfo
      ((statusOf_ne hinfo).mp (hs.active_valid h (List.mem_of_getLast? htip))) (by simp)
    have hputs : s.puts = [] := by
      rw [hst.others]
      exact hn.puts
    have hchain : (n.withIndex s).blockIndex.activeChain = kept ++ rest.reverse := by
      show s.activeChain = _
      rw [hst.others]
      show n.blockIndex.activeChain.dropLast = _
      rw [hactive, List.dropLast_concat]
    obtain ⟨t, hrest, hidx, ht, htchain, htmoved, hindexed⟩ := ih hagrees hchain
    refine ⟨t, ?_, (indexMoved_withIndex n s).trans hidx, ht, htchain, .trans ?_ htmoved,
      (indexed_call hn hallowed (by simp) hcall).trans hindexed⟩
    · show EStateM.bind (callIndex _) _ n = _
      unfold EStateM.bind
      rw [callIndex_eq hcall]
      exact hrest
    · have hsame : (n.withIndex s).blockIndex = s := by
        show ({ s with puts := [] } : BlockIndex) = s
        rw [← hputs]
      rw [hsame]
      exact hmoved

/-- The blocks of `hashes` added to the active chain. -/
theorem connectTips_eq (hashes : List Hash) (hn : n.indexStore.Agrees cfg.chain)
    (hpath : ∃ x, IsPath cfg.chain n.blockIndex (n.blockIndex.activeChain ++ hashes) x)
    (hvalid : ∀ x ∈ hashes, n.blockIndex.statusOf x ≠ some .invalid) :
    ∃ t, connectTips hashes n = .ok () t ∧ IndexMoved n t ∧ t.indexStore.Agrees cfg.chain ∧
      t.blockIndex.activeChain = n.blockIndex.activeChain ++ hashes ∧
      ChainMoved n.blockIndex t.blockIndex ∧ Indexed cfg n t := by
  induction hashes generalizing n with
  | nil => exact ⟨n, rfl, .refl n, hn, by rw [List.append_nil], .refl _, .refl cfg n⟩
  | cons h rest ih =>
    obtain ⟨x, hx⟩ := hpath
    have hs : Consistent cfg.chain n.blockIndex := hn.consistent
    have hnext : IsPath cfg.chain n.blockIndex (n.blockIndex.activeChain ++ [h]) h := by
      have htake := hx.take (i := n.blockIndex.activeChain.length) (b := h) (by simp)
      rwa [List.take_append, List.take_of_length_le (by omega), Nat.add_sub_cancel_left] at htake
    obtain ⟨hvalid_h, hvalid_rest⟩ := List.forall_mem_cons.mp hvalid
    have hallowed := allowed_connectTip hs hnext hvalid_h
    obtain ⟨s, hcall, -, hagrees⟩ := call_eq hn hallowed (by simp)
    have hisNext := isNextTip_of_allowed hallowed
    obtain ⟨s', heq, hst, -⟩ := hs.connectTip_eq hisNext
    obtain rfl : s = s' := Option.some.inj (hcall.symm.trans heq)
    obtain ⟨info, hinfo, -⟩ := hs.headerTree.info_of_mem hnext hnext.tip_mem
    have hmoved : ChainMoved n.blockIndex s :=
      hst.chainMoved hinfo ((statusOf_ne hinfo).mp hvalid_h) (by simp)
    have hputs : s.puts = [] := by
      rw [hst.others]
      exact hn.puts
    have hsame : (n.withIndex s).blockIndex = s := by
      show ({ s with puts := [] } : BlockIndex) = s
      rw [← hputs]
    have hchain : s.activeChain = n.blockIndex.activeChain ++ [h] := by
      rw [hst.others]
      rfl
    obtain ⟨t, hrest, hidx, ht, htchain, htmoved, hindexed⟩ := ih (n := n.withIndex s) hagrees
      (by
        refine ⟨x, ?_⟩
        rw [hsame, hchain, List.append_assoc, hmoved.rewrites.isPath_iff]
        exact hx)
      (fun y hy hinv => by
        rw [hsame, hmoved.invalid] at hinv
        exact hvalid_rest y hy hinv)
    refine ⟨t, ?_, (indexMoved_withIndex n s).trans hidx, ht, ?_, .trans ?_ htmoved,
      (indexed_call hn hallowed (by simp) hcall).trans hindexed⟩
    · show EStateM.bind (callIndex _) _ n = _
      unfold EStateM.bind
      rw [callIndex_eq hcall]
      exact hrest
    · rw [htchain, hsame, hchain, List.append_assoc]
      rfl
    · rw [hsame]
      exact hmoved

/-! ## Flushing and pruning -/

/-- `flush` writes what is staged and stages nothing. -/
def flushed (n : Node S) (tip : Hash) : Node S :=
  { n with
    db := {
      records := BlockIndex.writeAll n.db.records n.blockIndex.finalize.1
      coins := UtxoIndex.flushed n.db.coins n.utxoIndex
      coinStats := n.utxoIndex.data.coinStats }
    blockIndex := n.blockIndex.finalize.2
    utxoIndex := n.utxoIndex.finalize
    filterIndex := n.filterIndex.advance tip }

theorem flush_eq (hn : n.indexStore.Agrees cfg.chain) :
    ∃ tip, n.blockIndex.activeChain.getLast? = some tip ∧ flush n = .ok () (n.flushed tip) ∧
      (n.flushed tip).indexStore.Agrees cfg.chain := by
  obtain ⟨tip, -, htip, -⟩ := hn.consistent.exists_tip
  refine ⟨tip, htip, ?_, ?_⟩
  · unfold flush
    show EStateM.bind (askIndex _) _ _ = _
    unfold EStateM.bind
    rw [askIndex_eq (a := tip) htip]
    rfl
  · have hstep : n.indexStore.step cfg.chain .finalize = some (n.flushed tip).indexStore := by
      have hfin : ({ n.blockIndex.finalize.2 with puts := [] } : BlockIndex) =
          n.blockIndex.finalize.2 := by
        have hputs : n.blockIndex.finalize.2.puts = [] := hn.puts
        rw [← hputs]
      unfold IndexStore.step
      show some (IndexStore.mk { n.blockIndex.finalize.2 with puts := [] } _) = _
      rw [hfin]
      rfl
    exact hn.step hstep

/-- A property that a flush keeps, and the giving up of blocks of the active chain. -/
structure PruneInvariant (cfg : NodeConfig S) (I : Node S → Prop) : Prop where
  agrees : ∀ n, I n → n.indexStore.Agrees cfg.chain
  flushed : ∀ n tip, I n → n.blockIndex.activeChain.getLast? = some tip → I (n.flushed tip)
  cleared : ∀ n h s, I n → h ∈ n.blockIndex.activeChain →
    n.blockIndex.setDownloaded h false = some s → I (n.withIndex s)
  pruned : ∀ n target, I n → n.filterIndex.trial.data = ∅ →
    I { n with blockDb := n.blockDb.pruneUpTo target n.blockIndex.activeChain }

section Prune

variable {I : Node S → Prop}

/-- Whatever its outcome, `x` keeps `I`. -/
abbrev Keeps {α : Type} (I : Node S → Prop) (x : NodeM S α) : Prop := Moves (fun n t => I n → I t) x

theorem keeps_bind {α β : Type} {x : NodeM S α} {f : α → NodeM S β} (hx : Keeps I x)
    (hf : ∀ a, Keeps I (f a)) : Keeps I (x >>= f) :=
  Moves.bind (R := fun n t => I n → I t) (fun _ _ _ hst htu h => htu (hst h)) hx hf

theorem PruneInvariant.keeps_flush (hI : PruneInvariant cfg I) : Keeps I (flush (S := S)) := by
  intro n
  unfold Sat
  by_cases hn : I n
  · obtain ⟨tip, htip, heq, -⟩ := flush_eq (hI.agrees n hn)
    rw [heq]
    exact fun _ => hI.flushed n tip hn htip
  · cases flush n <;> exact fun h => absurd h hn

theorem keeps_clearDownloaded
    (hcleared : ∀ n h s, I n → h ∈ n.blockIndex.activeChain →
      n.blockIndex.setDownloaded h false = some s → I (n.withIndex s)) (height count : ℕ) :
    Keeps I (clearDownloaded (S := S) height count) := by
  induction count generalizing height with
  | zero => exact fun _ h => h
  | succ count ih =>
    intro n
    unfold clearDownloaded
    rw [sat_bind]
    refine askIndex_sat (fun h hh => ?_) fun hn => hn
    rw [sat_bind]
    refine callIndex_sat (fun s hs => ?_) fun hn => hn
    refine (ih (height + 1) (n.withIndex s)).mono (fun _ t ht hn => ht ?_) fun _ t ht hn => ht ?_
    · exact hcleared n h s hn (List.mem_of_getElem? hh) hs
    · exact hcleared n h s hn (List.mem_of_getElem? hh) hs

theorem PruneInvariant.keeps_pruneUpToHeight (hI : PruneInvariant cfg I) (target : ℕ) :
    Keeps I (pruneUpToHeight (S := S) target) := by
  intro n
  by_cases hn : I n
  case neg =>
    unfold Sat
    cases pruneUpToHeight target n <;> exact fun h => absurd h hn
  obtain ⟨tip, htip, heq, -⟩ := flush_eq (hI.agrees n hn)
  -- after the flush nothing is staged, and clearing the flags stages no filter
  have hcleared := keeps_clearDownloaded (S := S)
    (I := fun m => I m ∧ m.filterIndex.trial.data = ∅)
    (fun m h s hm hh hs => ⟨hI.cleared m h s hm.1 hh hs, hm.2⟩)
    (n.flushed tip).blockDb.prunedBelow (target + 1 - (n.flushed tip).blockDb.prunedBelow)
    (n.flushed tip)
  unfold pruneUpToHeight
  rw [sat_bind_of_ok heq, sat_bind, sat_get, sat_bind]
  have hstart : I (n.flushed tip) := hI.flushed n tip hn htip
  refine hcleared.mono (fun _ t ht _ => ?_) fun _ t ht _ => (ht ⟨hstart, rfl⟩).1
  obtain ⟨hI', hempty⟩ := ht ⟨hstart, rfl⟩
  exact hI.pruned t target hI' hempty

/-- **Pruning keeps what flushing and giving up blocks keep**, returning or raising. -/
theorem PruneInvariant.keeps_pruneChain (hI : PruneInvariant cfg I) (count : ℕ) :
    Keeps I (pruneChain (S := S) count) := by
  induction count with
  | zero => exact fun _ h => h
  | succ count ih =>
    intro n
    unfold pruneChain
    rw [sat_bind, sat_get]
    split
    · exact keeps_bind (hI.keeps_pruneUpToHeight _) (fun _ => ih) n
    · exact fun h => h

/-- The active chain stands, and the index agrees with its store. -/
theorem pruneInvariant_active (cfg : NodeConfig S) (l : List Hash) :
    PruneInvariant cfg fun n => n.indexStore.Agrees cfg.chain ∧ n.blockIndex.activeChain = l := by
  refine ⟨fun n hn => hn.1, fun n tip hn htip => ?_, fun n h s hn hh hs => ?_,
    fun n _ hn _ => hn⟩
  · obtain ⟨tip', htip', -, hagrees⟩ := flush_eq hn.1
    rw [htip, Option.some.injEq] at htip'
    exact ⟨htip' ▸ hagrees, hn.2⟩
  · have hcons : Consistent cfg.chain n.blockIndex := hn.1.consistent
    obtain ⟨info, hinfo, -⟩ := hcons.info_of_active hh
    have hallowed : n.blockIndex.allowed cfg.chain (.setDownloaded h false) = true :=
      Option.isSome_iff_exists.mpr ⟨info, hinfo⟩
    obtain ⟨s', hcall, -, hagrees⟩ := call_eq hn.1 hallowed (by simp)
    obtain rfl : s' = s := Option.some.inj (hcall.symm.trans hs)
    obtain ⟨u, t, heq, hst, -, hlinked, -⟩ := hcons.setDownloaded_eq hinfo false
    obtain rfl : t = s' := Option.some.inj (heq.symm.trans hs)
    refine ⟨hagrees, ?_⟩
    show t.activeChain = l
    rw [hlinked.eq, ← hn.2]
    show u.activeChain = _
    rw [hst.others]

end Prune

/-! ## `_finalize_fork` -/

/-- The node `m` once `_finalize_fork` has made `chain'` the active chain of `n`,
before any flush. -/
structure Committed (cfg : NodeConfig S) (chain' : List Hash) (n m : Node S) : Prop where
  agrees : m.indexStore.Agrees cfg.chain
  active : m.blockIndex.activeChain = chain'
  moved : ChainMoved n.blockIndex m.blockIndex
  indexed : Indexed cfg n m
  blocks : ∃ u, BlockStore.Written n.blockDb.pendingRevBlocks n.blockDb u ∧
    m.blockDb = { u with pendingRevBlocks := [] } ∧
    ∀ rev ∈ n.blockDb.pendingRevBlocks, rev.hash ∈ u.revPatches
  others : m = { n with
    blockIndex := m.blockIndex
    db := { n.db with records := m.db.records }
    blockDb := m.blockDb }

/-- **`_finalize_fork` commits**, or raises as the patches are written and leaves
the rest of the node as it was. -/
theorem finalizeFork_sat {toAdd toRemove : List Hash} (hn : n.indexStore.Agrees cfg.chain)
    (hactive : n.blockIndex.activeChain = kept ++ toRemove.reverse)
    (hgenesis : cfg.chain.genesis.hash ∈ kept)
    (hpath : ∃ x, IsPath cfg.chain n.blockIndex (kept ++ toAdd) x)
    (hvalid : ∀ x ∈ toAdd, n.blockIndex.statusOf x ≠ some .invalid) :
    Sat (finalizeFork cfg env toAdd toRemove) n
      (fun _ t => n.blockDb.Writable env.revWrites n.blockDb.pendingRevBlocks ∧
        ∃ m, Committed cfg (kept ++ toAdd) n m ∧
          (t = m ∨ ∃ tip, m.blockIndex.activeChain.getLast? = some tip ∧ t = m.flushed tip))
      fun _ t => ¬n.blockDb.Writable env.revWrites n.blockDb.pendingRevBlocks ∧
        ∃ u, BlockStore.Written n.blockDb.pendingRevBlocks n.blockDb u ∧
          t = { n with blockDb := u } := by
  unfold finalizeFork
  rw [sat_bind]
  refine onBlockDb_sat ((n.blockDb.finalize_sat env.revWrites).mono ?_ ?_)
  case refine_2 => exact fun _ u hu => ⟨hu.2, u, hu.1, rfl⟩
  rintro _ b ⟨u, hwritten, rfl, hwritable, hmem⟩
  obtain ⟨r, hremove, hridx, hr, hrchain, hrmoved, hrindexed⟩ :=
    disconnectTips_eq (n := { n with blockDb := { u with pendingRevBlocks := [] } }) toRemove hn
      hactive hgenesis
  obtain ⟨m, hadd, hmidx, hm, hmchain, hmmoved, hmindexed⟩ := connectTips_eq (n := r) toAdd hr
    (by
      obtain ⟨x, hx⟩ := hpath
      exact ⟨x, by rwa [hrchain, hrmoved.rewrites.isPath_iff]⟩)
    (fun x hx hinv => hvalid x hx ((hrmoved.invalid x).mp hinv))
  have hcommitted : Committed cfg (kept ++ toAdd) n m := by
    have hnr : Indexed cfg n r := ⟨hrindexed.nodes, hrindexed.store⟩
    refine ⟨hm, by rw [hmchain, hrchain], hrmoved.trans hmmoved, hnr.trans hmindexed,
      ⟨u, hwritten, ?_, hmem⟩, ?_⟩
    · rw [hmidx, hridx]
    · rw [hmidx, hridx]
  rw [sat_bind_of_ok hremove, sat_bind_of_ok hadd, sat_bind, sat_get]
  split
  · obtain ⟨tip, htip, hflush, -⟩ := flush_eq hm
    rw [sat_of_ok hflush]
    exact ⟨hwritable, m, hcommitted, .inr ⟨tip, htip, rfl⟩⟩
  · exact ⟨hwritable, m, hcommitted, .inl rfl⟩

end Node

end BtclibNode
