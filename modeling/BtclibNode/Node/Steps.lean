/-
# What the node's methods do to it

One lemma for each method: a call of the index is a step of the index over its
store, a read changes nothing, a trial moves the staging alone and logs it, and
the commit of a fork moves the active chain.
-/
import BtclibNode.Chainstate.UtxoRollback
import BtclibNode.Node.Node
import BtclibNode.Node.Forks

namespace BtclibNode.Node

open StateExcept BlockIndex HeightTree

variable {S : Type} {cfg : NodeConfig S} {env : Env} {n t : Node S}

/-- The index with the records of its store. -/
def indexStore (n : Node S) : IndexStore := ⟨n.blockIndex, n.db.records⟩

/-! ## Calls of the index -/

section Index

variable {α : Type} {s : BlockIndex} {c : IndexCall}

theorem callIndex_eq {f : BlockIndex → Option BlockIndex} (h : f n.blockIndex = some s) :
    callIndex f n = .ok () (n.withIndex s) := by
  unfold callIndex
  rw [h]

theorem onIndex_eq {f : BlockIndex → Option (BlockIndex × α)} {a : α}
    (h : f n.blockIndex = some (s, a)) : onIndex f n = .ok a (n.withIndex s) := by
  unfold onIndex
  rw [h]

theorem askIndex_eq {f : BlockIndex → Option α} {a : α} (h : f n.blockIndex = some a) :
    askIndex f n = .ok a n := by
  unfold askIndex
  rw [h]

theorem askIndex_sat {f : BlockIndex → Option α} {Q : α → Node S → Prop}
    {E : NodeError → Node S → Prop} (hQ : ∀ a, f n.blockIndex = some a → Q a n)
    (hE : E .key n) : Sat (askIndex f) n Q E := by
  unfold Sat askIndex
  cases hf : f n.blockIndex with
  | none => exact hE
  | some a => exact hQ a hf

theorem callIndex_sat {f : BlockIndex → Option BlockIndex} {Q : PUnit → Node S → Prop}
    {E : NodeError → Node S → Prop} (hQ : ∀ s, f n.blockIndex = some s → Q () (n.withIndex s))
    (hE : E .key n) : Sat (callIndex f) n Q E := by
  unfold Sat callIndex
  cases hf : f n.blockIndex with
  | none => exact hE
  | some s => exact hQ s hf

/-- **A call the node may make of the index** returns, and keeps the index and
its records in agreement. -/
theorem call_eq (hn : n.indexStore.Agrees cfg.chain)
    (hallowed : n.blockIndex.allowed cfg.chain c = true) (hne : c ≠ .finalize) :
    ∃ s, n.blockIndex.call cfg.chain c = some s ∧ Consistent cfg.chain s ∧
      (n.withIndex s).indexStore.Agrees cfg.chain := by
  obtain ⟨s, heq, hs⟩ := hn.consistent.call_eq hallowed
  refine ⟨s, heq, hs, ?_⟩
  have hstep : n.indexStore.step cfg.chain c = some (n.withIndex s).indexStore := by
    have hcall : n.indexStore.index.step cfg.chain c = some s := by
      unfold BlockIndex.step
      rw [← heq]
      exact if_pos hallowed
    unfold IndexStore.step
    rw [hcall]
    cases c <;> first | exact absurd rfl hne | rfl
  exact hn.step hstep

end Index

/-- `t` has the headers of `n`, perhaps more, and its store the active chain that
the store of `n` has. -/
structure Indexed (cfg : NodeConfig S) (n t : Node S) : Prop where
  nodes : ∀ x y, n.blockIndex.nodes x = some y → t.blockIndex.nodes x = some y
  store : ∀ main, StoreAgrees cfg.chain main n.blockIndex n.db.records →
    StoreAgrees cfg.chain main t.blockIndex t.db.records

theorem Indexed.refl (cfg : NodeConfig S) (n : Node S) : Indexed cfg n n :=
  ⟨fun _ _ h => h, fun _ h => h⟩

theorem Indexed.trans {u : Node S} (hnt : Indexed cfg n t) (htu : Indexed cfg t u) :
    Indexed cfg n u :=
  ⟨fun x y hx => htu.nodes x y (hnt.nodes x y hx), fun main h => htu.store main (hnt.store main h)⟩

/-- A call of the index leaves what the store says of the active chain. -/
theorem indexed_call {s : BlockIndex} {c : IndexCall} (hn : n.indexStore.Agrees cfg.chain)
    (hallowed : n.blockIndex.allowed cfg.chain c = true) (hne : c ≠ .finalize)
    (hcall : n.blockIndex.call cfg.chain c = some s) : Indexed cfg n (n.withIndex s) := by
  have hs : Consistent cfg.chain n.blockIndex := hn.consistent
  refine ⟨(hs.call_follows hallowed hcall).nodes, fun main ha => ?_⟩
  exact (ha.call hs hn.puts hallowed hne hcall).congr rfl rfl rfl

/-- `t` is `n` but for its index and the records of it. -/
def IndexMoved (n t : Node S) : Prop :=
  t = { n with blockIndex := t.blockIndex, db := { n.db with records := t.db.records } }

theorem IndexMoved.refl (n : Node S) : IndexMoved n n := rfl

theorem IndexMoved.trans {u : Node S} (hnt : IndexMoved n t) (htu : IndexMoved t u) :
    IndexMoved n u := by
  unfold IndexMoved at *
  rw [htu, hnt]

/-- What a call of the index leaves alone. -/
theorem IndexMoved.parts (h : IndexMoved n t) : t.utxoIndex = n.utxoIndex ∧
    t.filterIndex = n.filterIndex ∧ t.blockDb = n.blockDb ∧ t.db.coins = n.db.coins := by
  rw [h]
  exact ⟨rfl, rfl, rfl, rfl⟩

theorem indexMoved_withIndex (n : Node S) (s : BlockIndex) : IndexMoved n (n.withIndex s) := rfl

/-! ## Calls of its parts -/

section Parts

variable {α : Type} {Q : α → Node S → Prop} {E : NodeError → Node S → Prop}

theorem onBlockDb_sat {x : EStateM NodeError BlockStore α}
    (h : Sat x n.blockDb (fun a b => Q a { n with blockDb := b })
      fun e b => E e { n with blockDb := b }) : Sat (onBlockDb x) n Q E := by
  unfold Sat onBlockDb at *
  cases hx : x n.blockDb <;> rw [hx] at h <;> exact h

theorem onUtxo_sat {h : Hash} {f : CoinRead → UtxoM S α}
    (hf : Sat (f fun o => if env.coinFails h o then .error .storage else .ok n.db.coins[o]?)
      n.utxoIndex (fun a u => Q a { n with utxoIndex := u })
      fun e u => E (.utxo e) { n with utxoIndex := u }) : Sat (onUtxo env h f) n Q E := by
  unfold Sat onUtxo at *
  dsimp only
  cases hx : f _ n.utxoIndex <;> rw [hx] at hf <;> exact hf

theorem onFilter_sat {x : FilterM α}
    (h : Sat x n.filterIndex (fun a u => Q a { n with filterIndex := u })
      fun e u => E (.filter e) { n with filterIndex := u }) : Sat (onFilter x) n Q E := by
  unfold Sat onFilter at *
  cases hx : x n.filterIndex <;> rw [hx] at h <;> exact h

theorem failing_sat {failed : Option Hash} {x : NodeM S α} {E : TrialFailure → Node S → Prop}
    (h : Sat x n Q fun e t => E ⟨failed, e⟩ t) : Sat (failing failed x) n Q E := by
  unfold Sat failing at *
  cases hx : x n <;> rw [hx] at h <;> exact h

theorem check_sat {x : Except NodeError α} (hQ : ∀ a, x = .ok a → Q a n)
    (hE : ∀ e, x = .error e → E e n) : Sat (check x) n Q E := by
  cases x with
  | ok a => exact hQ a rfl
  | error e => exact hE e rfl

end Parts

/-! ## The fork to try -/

theorem allDownloaded_eq {s : BlockIndex} {l : List Hash}
    (hknown : ∀ x ∈ l, ∃ info, s.getBlockInfo x = some info) :
    ∃ b, allDownloaded s l = some b ∧
      (b = true ↔ ∀ x ∈ l, ∀ info, s.getBlockInfo x = some info → info.downloaded = true) := by
  induction l with
  | nil => exact ⟨true, rfl, by simp⟩
  | cons h l ih =>
    obtain ⟨⟨info, hinfo⟩, hrest⟩ := List.forall_mem_cons.mp hknown
    obtain ⟨b, hb, hiff⟩ := ih hrest
    rw [allDownloaded, hinfo, Option.bind_eq_bind, Option.bind_some]
    by_cases hd : info.downloaded = true
    · rw [if_pos hd]
      refine ⟨b, hb, ?_⟩
      rw [hiff, List.forall_mem_cons, hinfo]
      simp [hd]
    · rw [if_neg hd]
      refine ⟨false, rfl, ?_⟩
      rw [List.forall_mem_cons, hinfo]
      simp [hd]

/-- A fork that `_ready_fork` names: its blocks are downloaded, and its last one
outranks the tip. -/
structure IsReady (chain : Chain) (s : BlockIndex) (tip : Hash) (toAdd toRemove : List Hash) :
    Prop where
  fork : ∃ kept, IsTrialFork chain s kept toAdd toRemove
  downloaded : ∀ x ∈ toAdd, ∀ info, s.getBlockInfo x = some info → info.downloaded = true
  beats : ∃ h, toAdd.getLast? = some h ∧ s.beats h tip = true

/-- The node once `get_first_candidate` has evicted the stale front of its queue. -/
def evicted (n : Node S) (tip : Hash) : Node S :=
  n.withIndex { n.blockIndex with blockCandidates := n.blockIndex.freshCandidates tip }

/-- **`get_first_candidate` returns**, and what it leaves agrees with the store. -/
theorem firstCandidate_eq (hn : n.indexStore.Agrees cfg.chain) :
    ∃ tip answer, n.blockIndex.activeChain.getLast? = some tip ∧
      onIndex BlockIndex.getFirstCandidate n = .ok answer (n.evicted tip) ∧
      (n.evicted tip).indexStore.Agrees cfg.chain := by
  obtain ⟨tip, answer, htip, heq, -⟩ := Consistent.getFirstCandidate_eq hn.consistent
  obtain ⟨s, hcall, -, hagrees⟩ := call_eq (c := .getFirstCandidate) hn rfl (by simp)
  have hmap := congrArg (Option.map Prod.fst) heq
  obtain rfl := Option.some.inj (hcall.symm.trans hmap)
  exact ⟨tip, answer, htip, onIndex_eq heq, hagrees⟩

/-- **`_ready_fork` returns**, having evicted the stale front of the queue; where
it names no fork, no entry of the window is a branch to connect. -/
theorem readyFork_eq (hn : n.indexStore.Agrees cfg.chain) :
    ∃ tip r, n.blockIndex.activeChain.getLast? = some tip ∧
      readyFork n = .ok r (n.evicted tip) ∧ (n.evicted tip).indexStore.Agrees cfg.chain ∧
      (∀ toAdd toRemove, r = some (toAdd, toRemove) →
        IsReady cfg.chain (n.evicted tip).blockIndex tip toAdd toRemove) ∧
      (r = none → ∀ c ∈ (n.blockIndex.freshCandidates tip).take candidateWindow,
        n.blockIndex.beats c.1 tip = true → ¬n.blockIndex.BranchDownloaded c.1) := by
  have hs : Consistent cfg.chain n.blockIndex := hn.consistent
  obtain ⟨tip, hmain⟩ := hs.active
  obtain ⟨answer, heq, hanswer⟩ := hs.headerTree.getFirstCandidate_eq hmain hs.candidates
  obtain ⟨tip', answer', htip', hfirst, hagrees⟩ := firstCandidate_eq hn
  obtain rfl : tip = tip' := by
    rw [hmain.getLast?, Option.some.injEq] at htip'
    exact htip'
  obtain rfl : answer = answer' := by
    rw [onIndex_eq heq, EStateM.Result.ok.injEq] at hfirst
    exact hfirst.1
  refine ⟨tip, ?_⟩
  rcases hanswer with ⟨info, rfl, hinfo, hqueued, hbeats, hready⟩ | ⟨rfl, hnone⟩
  case inr =>
    refine ⟨none, hmain.getLast?, ?_, hagrees, fun toAdd toRemove h0 => ?_, fun _ c hc hb => ?_⟩
    · show EStateM.bind (onIndex _) _ n = _
      unfold EStateM.bind
      rw [hfirst]
      rfl
    · cases h0
    · rw [hnone c hc] at hb
      cases hb
  case inl =>
    obtain ⟨entry, hentry, hfst⟩ := List.mem_map.mp hqueued
    have hoff : info.header.hash ∉ n.blockIndex.activeChain := fun hmem => by
      rw [hs.headerTree.beats_active hmain hmem] at hbeats
      cases hbeats
    obtain ⟨kept, toAdd, toRemove, hfork, hlast, htrial, hmem⟩ :=
      Consistent.exists_trialFork hagrees.consistent hinfo hoff
        (hfst ▸ hs.candidatesValid entry hentry)
    obtain ⟨b, hb, hiff⟩ := allDownloaded_eq
        (s := (n.evicted tip).blockIndex) (l := toAdd) fun x hx => by
      have hdesc := ((hmem x).mp hx).1
      rcases hdesc.cases_head with rfl | ⟨c, ⟨k, hk⟩, -⟩
      · exact ⟨info, hinfo⟩
      · obtain ⟨q, hq⟩ := hs.headerTree.tree.parent_node hk
        obtain ⟨xinfo, hxinfo, -⟩ := BlockIndex.exists_info hq
        exact ⟨xinfo, hxinfo⟩
    refine ⟨if b then some (toAdd, toRemove) else none, hmain.getLast?, ?_, hagrees, ?_, ?_⟩
    · show EStateM.bind (onIndex _) _ n = _
      unfold EStateM.bind
      rw [hfirst]
      show EStateM.bind (askIndex _) _ _ = _
      unfold EStateM.bind
      rw [askIndex_eq hfork]
      show EStateM.bind (askIndex _) _ _ = _
      unfold EStateM.bind
      rw [askIndex_eq hb]
      rfl
    · intro toAdd' toRemove' hr
      cases b with
      | false => cases hr
      | true =>
        cases hr
        exact ⟨⟨kept, htrial⟩, hiff.mp rfl, _, hlast, hbeats⟩
    · intro hr c hc hb' hdown
      cases b with
      | true => cases hr
      | false =>
        have hbranch := hready ⟨c, hc, hb', hdown⟩
        have htrue : false = true := hiff.mpr fun x hx xinfo hxinfo =>
          hbranch x xinfo ((hmem x).mp hx).1 ((hmem x).mp hx).2 hxinfo
        cases htrue

/-! ## Reading -/

theorem readHeldBlock_sat (h : Hash) :
    Sat (readHeldBlock env h) n
      (fun block t => t = n ∧ n.blockDb.blocks[h]? = some block) fun _ t => t = n := by
  unfold readHeldBlock
  rw [sat_bind, sat_get]
  by_cases hf : env.blockFails h = true
  · rw [if_pos hf]
    exact rfl
  · rw [if_neg hf]
    cases hb : n.blockDb.blocks[h]? with
    | none => exact rfl
    | some block => exact ⟨rfl, rfl⟩

/-- `_blocks_to_add` reads the blocks that are held. -/
theorem blocksToAdd_sat (env : Env) (hashes : List Hash) :
    Sat (blocksToAdd env hashes) n
      (fun blocks t => t = n ∧
        List.Forall₂ (fun h block => n.blockDb.blocks[h]? = some block) hashes blocks)
      fun _ t => t = n := by
  induction hashes with
  | nil => exact ⟨rfl, .nil⟩
  | cons h rest ih =>
    unfold blocksToAdd
    rw [sat_bind]
    refine (readHeldBlock_sat h).mono ?_ fun _ _ ht => ht
    rintro block t ⟨rfl, hblock⟩
    rw [sat_bind]
    refine ih.mono ?_ fun _ _ ht => ht
    rintro blocks t ⟨rfl, hblocks⟩
    exact ⟨rfl, .cons hblock hblocks⟩

theorem readRevBlock_sat (h : Hash) :
    Sat (readRevBlock env h) n
      (fun rev t => t = n ∧ n.blockDb.revPatches[h]? = some rev) fun _ t => t = n := by
  unfold readRevBlock
  rw [sat_bind, sat_get]
  by_cases hf : env.revFails h = true
  · rw [if_pos hf]
    exact rfl
  · rw [if_neg hf]
    cases hb : n.blockDb.revPatches[h]? with
    | none => exact rfl
    | some block => exact ⟨rfl, rfl⟩

theorem readRevBlocks_sat (env : Env) (hashes : List Hash) :
    Sat (readRevBlocks env hashes) n
      (fun revs t => t = n ∧
        List.Forall₂ (fun h rev => n.blockDb.revPatches[h]? = some rev) hashes revs)
      fun _ t => t = n := by
  induction hashes with
  | nil => exact ⟨rfl, .nil⟩
  | cons h rest ih =>
    unfold readRevBlocks
    rw [sat_bind]
    refine (readRevBlock_sat h).mono ?_ fun _ _ ht => ht
    rintro rev t ⟨rfl, hrev⟩
    rw [sat_bind]
    refine (readHeldBlock_sat h).mono ?_ fun _ _ ht => ht
    rintro block t ⟨rfl, -⟩
    rw [sat_bind]
    refine ih.mono ?_ fun _ _ ht => ht
    rintro revs t ⟨rfl, hrevs⟩
    exact ⟨rfl, .cons hrev hrevs⟩

/-! ## The trial -/

/-- `t` is `n` inside a trial: what is staged is logged, patches wait at the end
of the queue, and a shutdown may have been seen. -/
structure InTrial (cfg : NodeConfig S) (n t : Node S) : Prop where
  utxo : Logged.Extends (UtxoIndex.undo cfg.stats) n.utxoIndex t.utxoIndex
  filter : FilterIndex.Staged n.filterIndex t.filterIndex
  blocks : t.blockDb = { n.blockDb with pendingRevBlocks := t.blockDb.pendingRevBlocks }
  others : t = { n with
    utxoIndex := t.utxoIndex
    filterIndex := t.filterIndex
    blockDb := t.blockDb
    terminateFlag := t.terminateFlag }

theorem InTrial.refl (cfg : NodeConfig S) (n : Node S) : InTrial cfg n n :=
  ⟨.refl _ _, .refl _, rfl, rfl⟩

theorem InTrial.trans {u : Node S} (hnt : InTrial cfg n t) (htu : InTrial cfg t u) :
    InTrial cfg n u := by
  refine ⟨hnt.utxo.trans htu.utxo, hnt.filter.trans htu.filter, ?_, ?_⟩
  · rw [htu.blocks, hnt.blocks]
  · rw [htu.others, hnt.others]

section Trial

variable {α β ε : Type}

theorem inTrial_bind {x : EStateM ε (Node S) α} {f : α → EStateM ε (Node S) β}
    (hx : Moves (InTrial cfg) x) (hf : ∀ a, Moves (InTrial cfg) (f a)) :
    Moves (InTrial cfg) (x >>= f) :=
  Moves.bind (R := InTrial cfg) (fun _ _ _ => InTrial.trans) hx hf

theorem inTrial_pure (a : α) : Moves (InTrial cfg) (pure a : EStateM ε (Node S) α) :=
  moves_pure (InTrial.refl cfg) a

theorem inTrial_askIndex (f : BlockIndex → Option α) :
    Moves (InTrial cfg) (askIndex f : NodeM S α) := by
  exact fun n => askIndex_sat (fun _ _ => InTrial.refl cfg n) (InTrial.refl cfg n)

theorem inTrial_check (x : Except NodeError α) : Moves (InTrial cfg) (check x : NodeM S α) :=
  fun n => check_sat (fun _ _ => InTrial.refl cfg n) fun _ _ => InTrial.refl cfg n

theorem inTrial_onUtxo (h : Hash) {f : CoinRead → UtxoM S α}
    (hf : ∀ read, Moves (Logged.Extends (UtxoIndex.undo cfg.stats)) (f read)) :
    Moves (InTrial cfg) (onUtxo env h f) := by
  exact fun n => onUtxo_sat ((hf _ n.utxoIndex).mono
    (fun _ _ hread => ⟨hread, .refl _, rfl, rfl⟩) fun _ _ hread => ⟨hread, .refl _, rfl, rfl⟩)

theorem inTrial_onFilter {x : FilterM α} (hx : Moves FilterIndex.Staged x) :
    Moves (InTrial cfg) (onFilter x : NodeM S α) := by
  exact fun n => onFilter_sat ((hx n.filterIndex).mono
    (fun _ _ hst => ⟨.refl _ _, hst, rfl, rfl⟩) fun _ _ hst => ⟨.refl _ _, hst, rfl, rfl⟩)

theorem inTrial_failing {failed : Option Hash} {x : NodeM S α} (hx : Moves (InTrial cfg) x) :
    Moves (InTrial cfg) (failing failed x) := fun n => failing_sat (hx n)

theorem inTrial_addRevBlock (rev : RevBlock) : Moves (InTrial cfg)
    (onBlockDb (modify fun s => s.addRevBlock rev) : NodeM S Unit) := by
  intro n
  exact ⟨.refl _ _, .refl _, n.blockDb.addRevBlock_eq rev, rfl⟩

theorem inTrial_applyRevBlocks (revs : List RevBlock) :
    Moves (InTrial cfg) (applyRevBlocks cfg env revs) := by
  induction revs with
  | nil => exact inTrial_pure _
  | cons rev rest ih =>
    exact inTrial_bind (inTrial_onUtxo _ fun read => UtxoIndex.extends_applyRevBlock read rev)
      fun _ => ih

theorem inTrial_connectBlock (h : Hash) (block : Block) :
    Moves (InTrial cfg) (connectBlock cfg env h block) := by
  unfold connectBlock
  refine inTrial_bind (inTrial_askIndex _) fun info => ?_
  refine inTrial_bind (inTrial_onUtxo _ fun read => UtxoIndex.extends_addBlock read block _ _) ?_
  rintro ⟨transactions, rev⟩
  refine inTrial_bind (inTrial_check _) fun _ => ?_
  refine inTrial_bind (inTrial_addRevBlock rev) fun _ => ?_
  exact inTrial_onFilter (FilterIndex.staged_addConnectedBlock _ _ _ _)

theorem inTrial_connectBlocks (blocks : List (Hash × Block)) :
    Moves (InTrial cfg) (connectBlocks cfg env blocks) := by
  induction blocks with
  | nil => exact inTrial_pure _
  | cons entry rest ih =>
    obtain ⟨h, block⟩ := entry
    intro n
    unfold connectBlocks
    rw [sat_bind, sat_get]
    split
    · exact ⟨.refl _ _, .refl _, rfl, rfl⟩
    · exact inTrial_bind (inTrial_failing (inTrial_connectBlock h block)) (fun _ => ih) n

/-- **A trial stages and logs**, whichever way it ends. -/
theorem inTrial_trial (cfg : NodeConfig S) (env : Env) (toAdd : List (Hash × Block)) (toRemove : List RevBlock) :
    Moves (InTrial cfg) (trial cfg env toAdd toRemove) :=
  inTrial_bind (inTrial_failing (inTrial_applyRevBlocks toRemove)) fun _ =>
    inTrial_connectBlocks toAdd

/-- **A trial rolled back** leaves the node as it was before it, but for the
patches that waited. -/
theorem InTrial.rollback_eq (h : InTrial cfg n t) :
    rollbackTrial cfg n.utxoIndex.trialMark n.filterIndex.trialMark t =
      { n with blockDb := n.blockDb.rollback, terminateFlag := t.terminateFlag } := by
  have hblocks : t.blockDb.rollback = n.blockDb.rollback := by
    unfold BlockStore.rollback
    rw [h.blocks]
  unfold rollbackTrial
  rw [hblocks, UtxoIndex.rollback_of_extends h.utxo, h.filter.rollback_eq, h.others]

end Trial

end BtclibNode.Node
