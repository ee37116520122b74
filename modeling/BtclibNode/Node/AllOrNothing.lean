/-
# All or nothing

A pass of `update_chain` either makes the fork the active chain or leaves what a
reader sees of the node as it was, a block it refuses apart.  The exception is a
patch that waits when the trial starts: a rollback drops it.
-/
import BtclibNode.Node.NodeRun

namespace BtclibNode.Node

open StateExcept BlockIndex HeightTree

variable {S : Type} {cfg : NodeConfig S} {env : Env} {n t : Node S} {r : Trial S}

/-! ## What all or nothing says -/

/-- A reader of `t` sees the chain, the coins, the commitment and the staging of `n`. -/
structure Restored (n t : Node S) : Prop where
  active : t.blockIndex.activeChain = n.blockIndex.activeChain
  coins : ∀ o, t.getCoin o = n.getCoin o
  coinStats : t.utxoIndex.data.coinStats = n.utxoIndex.data.coinStats
  filters : t.filterIndex.trial.data = n.filterIndex.trial.data
  patches : t.blockDb.pendingRevBlocks = n.blockDb.pendingRevBlocks

/-- Every header has the status it had. -/
def SameStatuses (n t : Node S) : Prop :=
  ∀ x, t.blockIndex.statusOf x = n.blockIndex.statusOf x

/-- `h` and the headers built on it are invalid, every other header as it was. -/
def OnlyInvalidated (h : Hash) (n t : Node S) : Prop :=
  ∀ x, (Descends n.blockIndex.nodes h x → t.blockIndex.statusOf x = some .invalid) ∧
    (¬Descends n.blockIndex.nodes h x → t.blockIndex.statusOf x = n.blockIndex.statusOf x)

/-- What a trial that raised does to the statuses: a block that failed by its
content is refused with what is built on it, and nothing else moves. -/
def Verdict (f : TrialFailure) (n t : Node S) : Prop :=
  match f.error.isContentFailure, f.failedHash with
  | true, some h => OnlyInvalidated h n t
  | _, _ => SameStatuses n t

/-- The pass of `update_chain` on `n` is all or nothing. -/
def AllOrNothing (cfg : NodeConfig S) (env : Env) (n : Node S) : Prop :=
  let t := finalState (updateChain cfg env) n
  match trialOf cfg env n with
  | none => Restored n t ∧ SameStatuses n t
  | some r =>
    match r.result with
    | .ok true _ => ∃ kept, n.blockIndex.activeChain = kept ++ r.toRemove ∧
        t.blockIndex.activeChain = kept ++ r.toAdd
    | .ok false _ => Restored n t ∧ SameStatuses n t
    | .error f _ => Restored n t ∧ Verdict f n t

/-- The trial gets through. -/
def Trial.succeeds (r : Trial S) : Bool :=
  match r.result with
  | .ok true _ => true
  | _ => false

/-- The commit of `toAdd` can write its patches, after those that wait. -/
def CanCommit (env : Env) (n : Node S) (toAdd : List Hash) : Prop :=
  (∀ rev ∈ n.blockDb.pendingRevBlocks, rev.hash ∈ n.blockDb.blocks) ∧
    ∀ k, env.revWrites = some k →
      n.blockDb.pendingRevBlocks.length + (newPatches n.blockDb toAdd).length ≤ k

/-! ## When a pass is all or nothing -/

section Iff

theorem writable_iff_canCommit {m : Node S} (hr : TrialSpec cfg n r)
    (hresult : r.result = .ok true m) :
    m.blockDb.Writable env.revWrites m.blockDb.pendingRevBlocks ↔ CanCommit env n r.toAdd := by
  have hpatches := hr.patches m hresult
  have hblocks : m.blockDb.blocks = n.blockDb.blocks := by rw [hr.staged _ _ hresult]
  have hlength : m.blockDb.pendingRevBlocks.length =
      n.blockDb.pendingRevBlocks.length + (newPatches n.blockDb r.toAdd).length := by
    rw [← List.length_map (f := RevBlock.hash), hpatches, List.length_append, List.length_map]
  have hstored : (∀ rev ∈ m.blockDb.pendingRevBlocks, rev.hash ∈ m.blockDb.blocks) ↔
      ∀ rev ∈ n.blockDb.pendingRevBlocks, rev.hash ∈ n.blockDb.blocks := by
    rw [hblocks, ← List.forall_mem_map (f := RevBlock.hash) (P := fun h => h ∈ n.blockDb.blocks),
      hpatches, List.forall_mem_append, List.forall_mem_map]
    refine and_iff_left fun h hh => hr.held h ?_
    exact (List.mem_filter.mp hh).1
  unfold BlockStore.Writable CanCommit
  rw [hstored, hlength]

/-- What is left of a pass whose trial was rolled back. -/
theorem restored_iff (hchain : t.blockIndex.activeChain = n.blockIndex.activeChain)
    (hutxo : t.utxoIndex = n.utxoIndex) (hcoins : t.db.coins = n.db.coins)
    (hfilter : t.filterIndex = n.filterIndex) (hdb : t.blockDb = n.blockDb.rollback) :
    Restored n t ↔ n.blockDb.pendingRevBlocks = [] := by
  constructor
  · intro h
    rw [← h.patches, hdb]
    rfl
  · intro h
    refine ⟨hchain, fun o => ?_, by rw [hutxo], by rw [hfilter], by rw [hdb, h]; rfl⟩
    unfold getCoin
    rw [hutxo, hcoins]

/-- The condition on a pass that makes the trial `r`. -/
theorem forall_trialOf_iff {P : Trial S → Prop} (htrial : trialOf cfg env n = some r) :
    (∀ r, trialOf cfg env n = some r → P r) ↔ P r := by
  rw [htrial]
  simp

theorem succeeds_of_error {f : TrialFailure} {m : Node S} (h : r.result = .error f m) :
    r.succeeds = false := by
  unfold Trial.succeeds
  rw [h]

theorem succeeds_of_ok {b : Bool} {m : Node S} (h : r.result = .ok b m) : r.succeeds = b := by
  unfold Trial.succeeds
  rw [h]
  cases b <;> rfl

/-- **A pass is all or nothing just when** no patch waits before a trial that
does not get through, and the commit can write after one that does. -/
theorem allOrNothing_iff (hn : Sound cfg n) : AllOrNothing cfg env n ↔
    ∀ r, trialOf cfg env n = some r →
      (r.succeeds = false → n.blockDb.pendingRevBlocks = []) ∧
      (r.succeeds = true → CanCommit env n r.toAdd) := by
  have hp : Passed cfg env n (finalState (updateChain cfg env) n) :=
    (Sat.mono (updateChain_sat hn) (fun _ _ h => h.2) fun _ _ h => h.2).finalState
  unfold AllOrNothing
  generalize finalState (updateChain cfg env) n = t at hp
  cases hp with
  | idle queue htrial =>
    rw [htrial]
    simp only [reduceCtorEq, false_implies, implies_true, iff_true]
    exact ⟨⟨rfl, fun _ => rfl, rfl, rfl, rfl⟩, fun _ => rfl⟩
  | @rolledBack queue r m htrial hresult =>
    rw [forall_trialOf_iff htrial, htrial]
    dsimp only
    have hrestored := restored_iff (n := n) (t := { n.requeued queue with
      blockDb := n.blockDb.rollback
      terminateFlag := m.terminateFlag }) rfl rfl rfl rfl rfl
    rcases hresult with hresult | ⟨f, hresult, hnone⟩
    · rw [succeeds_of_ok hresult, hresult]
      dsimp only
      rw [hrestored]
      simp only [forall_const, Bool.false_eq_true, false_implies, and_true]
      exact and_iff_left fun _ => rfl
    · rw [succeeds_of_error hresult, hresult]
      dsimp only
      rw [hrestored]
      simp only [forall_const, Bool.false_eq_true, false_implies, and_true]
      refine and_iff_left ?_
      unfold Verdict
      cases hcontent : f.error.isContentFailure with
      | false => exact fun _ => rfl
      | true =>
        rw [hnone hcontent]
        exact fun _ => rfl
  | @refused queue queue' r f h m u htrial hresult hcontent hfailed hrefused =>
    rw [forall_trialOf_iff htrial, htrial]
    dsimp only
    rw [succeeds_of_error hresult, hresult]
    dsimp only
    obtain ⟨hutxo, hfilter, hdb, hcoins⟩ := hrefused.moved.parts
    have hrestored := restored_iff (n := n) (t := u.requeued queue') hrefused.active hutxo hcoins
      hfilter hdb
    rw [hrestored]
    simp only [forall_const, Bool.false_eq_true, false_implies, and_true]
    refine and_iff_left ?_
    unfold Verdict
    rw [hcontent, hfailed]
    exact fun x => ⟨hrefused.invalid x, hrefused.others x⟩
  | @commitRaised r m b htrial hresult hstopped hwritten =>
    have hspec := trialOf_spec hn htrial
    rw [forall_trialOf_iff htrial, htrial]
    dsimp only
    rw [succeeds_of_ok hresult, hresult]
    dsimp only
    simp only [Bool.true_eq_false, false_implies, true_and, forall_const]
    refine iff_of_false ?_ ?_
    · rintro ⟨kept, hremove, hadd⟩
      obtain ⟨kept', hfork⟩ := hspec.fork
      obtain ⟨h, hlast, -⟩ := hfork.path
      refine hfork.off h (List.mem_of_getLast? hlast) ?_
      rw [← hspec.chain _ _ hresult, hadd]
      exact List.mem_append_right _ (List.mem_of_getLast? hlast)
    · rwa [writable_iff_canCommit hspec hresult] at hstopped
  | @committed queue r m c t kept htrial hresult hwritable hactive hcommitted hpruned =>
    have hspec := trialOf_spec hn htrial
    rw [forall_trialOf_iff htrial, htrial]
    dsimp only
    rw [succeeds_of_ok hresult, hresult]
    dsimp only
    simp only [Bool.true_eq_false, false_implies, true_and, forall_const]
    rw [writable_iff_canCommit hspec hresult] at hwritable
    refine iff_of_true ⟨kept, hactive, ?_⟩ hwritable
    exact (hpruned _ (pruneInvariant_active cfg _) ⟨hcommitted.agrees, hcommitted.active⟩).2

/-- **In every state of every run, a pass is all or nothing just when** no patch
waits before a trial that does not get through, and the commit can write after
one that does. -/
theorem updateChain_allOrNothing_iff {start : Node S} {calls : List NodeCall}
    (hstart : Sound cfg start) (hrun : Run.exec (step cfg) start calls = some n) (env : Env) :
    AllOrNothing cfg env n ↔
      ∀ r, trialOf cfg env n = some r →
        (r.succeeds = false → n.blockDb.pendingRevBlocks = []) ∧
        (r.succeeds = true → CanCommit env n r.toAdd) :=
  allOrNothing_iff (sound_of_run hstart hrun)

end Iff

/-! ## A commit that cannot write -/

section Light

/-- Rules that a block always meets, and reads that never fail; `writes` patches
can be written. -/
def lightEnv (writes : Option ℕ) : Env where
  rules := {
    contextual _ _ := return true
    sequenceLocks _ _ _ := return ()
    sigOpCost _ _ := 0
    subsidy _ := 0
    coinbaseValue _ _ _ := return ()
    scripts _ _ := return () }
  blockFails _ := false
  revFails _ := false
  coinFails _ _ := false
  filterFails _ _ := false
  stops _ := false
  revWrites := writes
  pruneHeights := 0

def lightConfig : NodeConfig (ℤ × ℤ) where
  chain := lightChain
  bip30Exceptions := []
  stats := CoinStats.counters
  filters := {
    genesisHash := 1
    prevoutScripts _ _ := return []
    fromBlock _ _ := return []
    header _ previous := previous }
  flushBound := 10

/-- A block of one coinbase on genesis. -/
def lightBlock : Block := ⟨lightHeader 2 1, [⟨10, [OutPoint.null], [⟨5, []⟩]⟩]⟩

/-- A new node. -/
def lightNode (index : BlockIndex) : Node (ℤ × ℤ) :=
  openNode ⟨∅, ∅, (0, 0)⟩ index ⟨(∅ : FilterTable).insert 1 ([], 0), none, ⟨∅, []⟩, true⟩ ⟨∅, ∅, [], 0⟩

/-- The block and its header arrive. -/
def arrivalCalls : List NodeCall :=
  [.addHeaders [lightHeader 2 1] true true 0, .storeBlock lightBlock]

theorem sound_lightNode {index : BlockIndex} (hload : initFromDb lightChain ∅ = some index) :
    Sound lightConfig (lightNode index) :=
  sound_openNode (storedTree_empty lightChain) (storedClosed_empty lightChain) hload
    (by simp) (by simp)

/-- A new node connects its first block. -/
theorem updateChain_allOrNothing_iff_arrival : ∃ index n, initFromDb lightChain ∅ = some index ∧
    Run.exec (step lightConfig) (lightNode index) arrivalCalls = some n ∧
    (finalState (updateChain lightConfig (lightEnv none)) n).blockIndex.activeChain = [1, 2] ∧
    AllOrNothing lightConfig (lightEnv none) n := by
  obtain ⟨index, hload, -⟩ :=
    (storedTree_empty lightChain).exists_consistent (storedClosed_empty lightChain)
  have heval : ((initFromDb lightChain ∅).bind fun index =>
      (Run.exec (step lightConfig) (lightNode index) arrivalCalls).map fun n =>
        ((finalState (updateChain lightConfig (lightEnv none)) n).blockIndex.activeChain,
          n.blockDb.pendingRevBlocks)) = some ([1, 2], []) := by decide +kernel
  rw [hload, Option.bind_some, Option.map_eq_some_iff] at heval
  obtain ⟨n, hrun, heq⟩ := heval
  rw [Prod.mk.injEq] at heq
  refine ⟨index, n, hload, hrun, heq.1, ?_⟩
  rw [updateChain_allOrNothing_iff (sound_lightNode hload) hrun]
  intro r hr
  refine ⟨fun _ => heq.2, fun _ => ⟨by simp [heq.2], fun k hk => ?_⟩⟩
  cases hk

/-- **A commit that could not write** leaves its patch waiting; the next trial
fails on the coins that are staged, and its rollback drops the patch. -/
theorem updateChain_not_allOrNothing : ∃ index n, initFromDb lightChain ∅ = some index ∧
    Run.exec (step lightConfig) (lightNode index)
      (arrivalCalls ++ [.updateChain (lightEnv (some 0))]) = some n ∧
    ¬AllOrNothing lightConfig (lightEnv none) n := by
  obtain ⟨index, hload, -⟩ :=
    (storedTree_empty lightChain).exists_consistent (storedClosed_empty lightChain)
  have heval : ((initFromDb lightChain ∅).bind fun index =>
      (Run.exec (step lightConfig) (lightNode index)
        (arrivalCalls ++ [.updateChain (lightEnv (some 0))])).map fun n =>
        ((trialOf lightConfig (lightEnv none) n).map Trial.succeeds,
          n.blockDb.pendingRevBlocks.length)) = some (some false, 1) := by decide +kernel
  rw [hload, Option.bind_some, Option.map_eq_some_iff] at heval
  obtain ⟨n, hrun, heq⟩ := heval
  rw [Prod.mk.injEq, Option.map_eq_some_iff] at heq
  obtain ⟨⟨r, hr, hfails⟩, hwaits⟩ := heq
  refine ⟨index, n, hload, hrun, fun hall => ?_⟩
  have hnone := ((allOrNothing_iff (sound_of_run (sound_lightNode hload) hrun)).mp hall r hr).1
  rw [hnone hfails] at hwaits
  cases hwaits

end Light

end BtclibNode.Node
