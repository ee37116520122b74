/-
# The start of a node

`Node.load`, from the stores to a node that takes calls: the block index is
read, the filter index opens and builds the filter of genesis, and `catch_up`
builds what the locator does not cover, in batches.  A start may be killed after
any number of batches; one that raises closes what it has opened, which flushes.
-/
import BtclibNode.Chainstate.CommonAncestor
import BtclibNode.Node.Filters

namespace BtclibNode

open StateExcept BlockIndex HeightTree FilterIndex

/-- What ends a start: a kill, a `KeyError` or an `IndexError`, a locator that is
not indexed, a block that is not held, a read of the block store, and what the
filter index raises. -/
inductive StartError where
  | killed
  | key
  | unknownLocator
  | cannotBuild
  | storage
  | filter (e : FilterError)
  deriving DecidableEq, Repr

/-- What the world decides during one start: how many batches the filter store
takes before the process is killed, and which reads fail. -/
structure StartEnv where
  writes : Option ℕ
  blockFails : Hash → Bool
  revFails : Hash → Bool
  filterFails : Hash → Bool

/-- A method of `FilterIndex` during a start. -/
abbrev StartM := EStateM StartError FilterIndex

namespace FilterIndex

variable (filters : BlockFilters) (env : StartEnv)

/-- A method that writes nothing. -/
def starting {α : Type} (x : FilterM α) : StartM α := fun s =>
  match x s with
  | .ok a t => .ok a t
  | .error e t => .error (.filter e) t

/-- `finalize`, where the process lives to write the batch; how many batches it
still lives to write. -/
def writeBatch (writes : Option ℕ) (bestBlock : Option Hash) : StartM (Option ℕ) :=
  if writes = some 0 then throw .killed
  else do
    modify (finalize bestBlock)
    return writes.map (· - 1)

/-- What `__init__` does once it has read the locator. -/
def buildGenesis (genesisBlock : Block) : StartM (Option ℕ) := do
  match ← starting (lookup env.filterFails genesisBlock.header.hash) with
  | some _ => return env.writes
  | none => do
    starting (addBlock filters env.filterFails genesisBlock [])
    let s ← get
    writeBatch env.writes (s.bestBlock.or (some genesisBlock.header.hash))

/-- `_first_uncovered`. -/
def firstUncovered (index : BlockIndex) : StartM ℕ := do
  let s ← get
  match s.bestBlock with
  | none => return 0
  | some best =>
    if (index.getBlockInfo best).isNone then throw .unknownLocator
    else
      let height := do
        let fork ← index.lastCommonAncestor best (← index.activeChain.getLast?)
        return (← index.getBlockInfo fork).index + 1
      match height with
      | none => throw .key
      | some height => return height

/-- `_CATCH_UP_BATCH`. -/
def catchUpBatch : ℕ := 500

/-- `read_held_block` and `get_rev_block`: `none` where the store lacks one. -/
def readConnected (blockDb : BlockStore) (h : Hash) : StartM (Option (Block × RevBlock)) :=
  if env.blockFails h || env.revFails h then throw .storage
  else return blockDb.blocks[h]?.bind fun block => blockDb.revPatches[h]?.map (block, ·)

/-- The loop of `catch_up` over the active chain: how many batches may still be
written, and how many filters it built. -/
def catchUpFrom (blockDb : BlockStore) : Option ℕ → ℕ → List Hash → StartM (Option ℕ × ℕ)
  | writes, built, [] => return (writes, built)
  | writes, built, h :: rest => do
    match ← starting (lookup env.filterFails h) with
    | some _ => catchUpFrom blockDb writes built rest
    | none => do
      match ← readConnected env blockDb h with
      | none => throw .cannotBuild
      | some (block, revBlock) => do
        starting (addConnectedBlock filters env.filterFails block revBlock)
        let s ← get
        if catchUpBatch ≤ s.trial.data.size then do
          let writes ← writeBatch writes (some h)
          catchUpFrom blockDb writes (built + 1) rest
        else catchUpFrom blockDb writes (built + 1) rest

/-- `catch_up`. -/
def catchUp (index : BlockIndex) (blockDb : BlockStore) (writes : Option ℕ) : StartM ℕ := do
  let first ← firstUncovered index
  let (writes, built) ← catchUpFrom filters env blockDb writes 0 (index.activeChain.drop first)
  match index.activeChain.getLast? with
  | none => throw .key
  | some tip => do
    let _ ← writeBatch writes (some tip)
    modify fun s => { s with synced := true }
    return built

end FilterIndex

/-! ## The stores -/

/-- What of a node outlives its process. -/
structure Stores (S : Type) where
  db : ChainstateDb S
  filters : FilterTable
  bestBlock : Option Hash
  blockDb : BlockStore

namespace Node

variable {S : Type} {cfg : NodeConfig S}

/-- What a process that is killed leaves. -/
def stores (n : Node S) : Stores S :=
  ⟨n.db, n.filterIndex.db, n.filterIndex.bestBlock, n.blockDb.rollback⟩

/-- What `load` leaves of the stores, where it does not return a node: the stores
as they were until the filter index wrote, and the chainstate closed, hence
flushed, where `catch_up` raised. -/
def load (cfg : NodeConfig S) (genesisBlock : Block) (env : StartEnv) (d : Stores S) :
    Except (StartError × Stores S) (Node S) :=
  match initFromDb cfg.chain d.db.records with
  | none => .error (.key, d)
  | some index =>
    match buildGenesis cfg.filters env genesisBlock ⟨d.filters, d.bestBlock, ⟨∅, []⟩, false⟩ with
    | .error e _ => .error (e, d)
    | .ok writes opened =>
      let blockDb :=
        if d.blockDb.prunedBelow = 0 then d.blockDb.addBlock genesisBlock else d.blockDb
      let n := openNode d.db index opened blockDb
      match catchUp cfg.filters env index blockDb writes opened with
      | .ok _ filterIndex => .ok { n with filterIndex }
      | .error .killed filterIndex => .error (.killed, stores { n with filterIndex })
      | .error e filterIndex => .error (e, stores (finalState flush { n with filterIndex }))

end Node

/-! ## What the steps of a start do -/

namespace FilterIndex

section Start

variable {filters : BlockFilters} {env : StartEnv} {nodes : Nodes Hash} {s t : FilterIndex}
  {chain : Chain} {index : BlockIndex} {blockDb : BlockStore} {tip : Hash}
  {done rest : List Hash}

/-- What a start may raise over stores that are in order. -/
def Outside (filters : BlockFilters) (e : StartError) : Prop :=
  e = .killed ∨ e = .storage ∨ e = .filter .storage ∨ ∃ e', e = .filter e' ∧ Raises filters e'

/-- A filter index that has opened: its filters are in order, its locator is set
and genesis has a filter. -/
structure Opened (filters : BlockFilters) (nodes : Nodes Hash) (s : FilterIndex) : Prop where
  good : Good filters nodes s
  located : s.bestBlock.isSome
  genesis : (s.entry filters.genesisHash).isSome

/-- `t` stores what `s` stores. -/
structure Advances (s t : FilterIndex) : Prop where
  stored : Grows s.stored t.stored
  synced : t.synced = s.synced

theorem Advances.refl (s : FilterIndex) : Advances s s := ⟨.refl _, rfl⟩

theorem Advances.trans {u : FilterIndex} (hst : Advances s t) (htu : Advances t u) :
    Advances s u := ⟨hst.stored.trans htu.stored, htu.synced.trans hst.synced⟩

theorem Adds.advances (h : Adds s t) : Advances s t := by
  rw [h.others]
  exact ⟨.refl _, rfl⟩

theorem Good.advances_finalize (hg : Good filters nodes s) (bestBlock : Option Hash) :
    Advances s (FilterIndex.finalize bestBlock s) := by
  refine ⟨?_, rfl⟩
  rw [stored_finalize]
  exact hg.grows

theorem starting_sat {α : Type} {x : FilterM α} {Q : α → FilterIndex → Prop}
    {E : StartError → FilterIndex → Prop} (h : Sat x s Q fun e t => E (.filter e) t) :
    Sat (starting x) s Q E := by
  unfold Sat starting at *
  cases hx : x s <;> rw [hx] at h <;> exact h

theorem writeBatch_sat (writes : Option ℕ) (bestBlock : Option Hash) (s : FilterIndex) :
    Sat (writeBatch writes bestBlock) s (fun _ t => t = finalize bestBlock s)
      fun e t => t = s ∧ e = .killed := by
  unfold writeBatch
  split
  · exact ⟨rfl, rfl⟩
  · exact rfl

theorem Opened.adds (ho : Opened filters nodes s) (hst : Adds s t)
    (ht : Chained filters nodes t.entry) : Opened filters nodes t := by
  refine ⟨ho.good.adds hst ht, ?_, hst.grows.isSome ho.genesis⟩
  rw [hst.others]
  exact ho.located

theorem Opened.finalize (ho : Opened filters nodes s) {bestBlock : Option Hash}
    (hbest : ∀ b, bestBlock = some b → (s.entry b).isSome ∧ ∃ node, nodes b = some node) :
    Opened filters nodes (finalize bestBlock s) := by
  refine ⟨ho.good.finalize hbest, ?_, ?_⟩
  · show (bestBlock.or s.bestBlock).isSome
    rw [Option.isSome_or, ho.located, Bool.or_true]
  · rw [entry_finalize]
    exact ho.genesis

/-- What `add_block` raises, but for a parent without a header, comes from outside. -/
theorem AddRaises.outside {block : Block} {e : FilterError} (he : AddRaises filters s block e)
    (hparent : block.header.hash ≠ filters.genesisHash →
      (s.entry block.header.previousBlockHash).isSome) : Outside filters (.filter e) := by
  rcases he with rfl | hraises | ⟨hne, hnone⟩
  · exact .inr (.inr (.inl rfl))
  · exact .inr (.inr (.inr ⟨e, rfl, hraises⟩))
  · have hsome := hparent hne
    rw [hnone] at hsome
    cases hsome

/-- **`__init__` opens a filter index that is in order.** -/
theorem buildGenesis_sat {genesisBlock : Block} (hg : Good filters nodes s)
    (hunlocated : s.bestBlock = none → s.entry filters.genesisHash = none)
    (hgenesis : genesisBlock.header.hash = filters.genesisHash)
    (hroot : ∃ node, nodes filters.genesisHash = some node) :
    Sat (buildGenesis filters env genesisBlock) s
      (fun _ t => Opened filters nodes t ∧ Advances s t) fun e _ => Outside filters e := by
  unfold buildGenesis
  rw [sat_bind, hgenesis]
  refine starting_sat ((lookup_sat _ _ s).mono ?_ fun e t ht => .inr (.inr (.inl (by rw [ht.2]))))
  rintro r t ⟨rfl, rfl⟩
  cases hentry : t.entry filters.genesisHash with
  | some e =>
    refine ⟨⟨hg, ?_, by rw [hentry]; rfl⟩, .refl t⟩
    rw [Option.isSome_iff_ne_none]
    intro hnone
    rw [hunlocated hnone] at hentry
    cases hentry
  | none =>
    have hnode : HeaderAgrees filters nodes genesisBlock := fun hne => absurd hgenesis hne
    rw [sat_bind]
    refine starting_sat ((addBlock_sat hg.entries hnode []).mono ?_ ?_)
    case refine_2 => exact fun e u hu => hu.2.outside fun hne => absurd hgenesis hne
    rintro _ u ⟨hchained, hadds, hblock⟩
    rw [hgenesis] at hblock
    have hgu : Good filters nodes u := hg.adds hadds hchained
    rw [sat_bind, sat_get]
    refine (writeBatch_sat _ _ u).mono ?_ fun e v hv => .inl hv.2
    rintro _ v rfl
    have hbest : ∀ b, u.bestBlock.or (some filters.genesisHash) = some b →
        (u.entry b).isSome ∧ ∃ node, nodes b = some node := by
      intro b hb
      rcases Option.or_eq_some_iff.mp hb with hb | ⟨-, hb⟩
      · obtain ⟨hstored, hknown⟩ := hgu.locator b hb
        exact ⟨hgu.grows.isSome hstored, hknown⟩
      · cases hb
        exact ⟨hblock, hroot⟩
    refine ⟨⟨hgu.finalize hbest, ?_, ?_⟩, hadds.advances.trans (hgu.advances_finalize _)⟩
    · show ((u.bestBlock.or (some filters.genesisHash)).or u.bestBlock).isSome
      cases u.bestBlock <;> rfl
    · rw [entry_finalize]
      exact hblock

/-- **The blocks below the first uncovered height are covered.** -/
theorem firstUncovered_sat (hs : Consistent chain index)
    (hskip : ∀ x info, index.getBlockInfo x = some info → info.index ≠ 0 → x ∈ index.skip)
    (hroot : filters.genesisHash = chain.genesis.hash) (ho : Opened filters index.nodes s) :
    Sat (firstUncovered index) s
      (fun first t => t = s ∧ ∀ x ∈ index.activeChain.take first, (s.entry x).isSome)
      fun _ _ => False := by
  obtain ⟨best, hbest⟩ := Option.isSome_iff_exists.mp ho.located
  obtain ⟨hstored, node, hnode⟩ := ho.good.locator best hbest
  obtain ⟨bestInfo, hbestInfo, -⟩ := BlockIndex.exists_info hnode
  obtain ⟨tip, tipInfo, htip, htipInfo, hmain, -⟩ := hs.exists_tip
  obtain ⟨fork, forkInfo, hfork, hforkInfo, hforkBest, hforkTip⟩ :=
    hs.headerTree.lastCommonAncestor_eq hskip hbestInfo htipInfo
  unfold firstUncovered
  rw [sat_bind, sat_get, hbest]
  dsimp only
  rw [hbestInfo, htip]
  simp only [Option.isNone_some, Bool.false_eq_true, if_false, Option.bind_eq_bind,
    Option.bind_some, hfork, hforkInfo]
  refine ⟨rfl, fun x hx => ?_⟩
  have htree := hs.headerTree.tree
  have hat := hmain.getElem?_of_mem htree ((hmain.mem_iff_descends htree).mpr hforkTip)
    (nodes_eq hforkInfo)
  have hxfork := ((hmain.take hat).mem_iff_descends htree).mp hx
  exact ho.good.entries.ancestor htree hroot (hxfork.trans hforkBest)
    (ho.good.grows.isSome hstored)

theorem readConnected_sat (h : Hash) :
    Sat (readConnected env blockDb h) s
      (fun r t => t = s ∧ r = blockDb.blocks[h]?.bind fun block =>
        blockDb.revPatches[h]?.map (block, ·))
      fun e t => t = s ∧ e = .storage := by
  unfold readConnected
  split
  · exact ⟨rfl, rfl⟩
  · exact ⟨rfl, rfl⟩

/-- **The loop of `catch_up` covers what it walks**, and keeps what it has built
in order wherever it stops. -/
theorem catchUpFrom_sat (htree : IsTree index.nodes chain.genesis.hash)
    (hroot : filters.genesisHash = chain.genesis.hash)
    (hpath : IsPath chain index (done ++ rest) tip)
    (hheaders : ∀ (h : Hash) (block : Block), blockDb.blocks[h]? = some block →
      block.header.hash = h ∧ HeaderAgrees filters index.nodes block)
    (ho : Opened filters index.nodes s) (hdone : ∀ x ∈ done, (s.entry x).isSome)
    (hcover : ∀ h ∈ rest, (s.entry h).isSome ∨ h ∈ blockDb.blocks ∧ h ∈ blockDb.revPatches)
    (writes : Option ℕ) (built : ℕ) :
    Sat (catchUpFrom filters env blockDb writes built rest) s
      (fun _ t => Opened filters index.nodes t ∧ Advances s t ∧
        ∀ x ∈ done ++ rest, (t.entry x).isSome)
      fun e t => Opened filters index.nodes t ∧ Advances s t ∧ Outside filters e := by
  induction rest generalizing done s writes built with
  | nil =>
    rw [List.append_nil]
    exact ⟨ho, .refl s, hdone⟩
  | cons h rest ih =>
    have happend : done ++ h :: rest = done ++ [h] ++ rest := by simp
    obtain ⟨hhead, htail⟩ := List.forall_mem_cons.mp hcover
    have hnext : ∀ u, Opened filters index.nodes u → Advances s u →
        Grows s.entry u.entry → (u.entry h).isSome → ∀ writes built,
        Sat (catchUpFrom filters env blockDb writes built rest) u
          (fun _ t => Opened filters index.nodes t ∧ Advances s t ∧
            ∀ x ∈ done ++ h :: rest, (t.entry x).isSome)
          fun e t => Opened filters index.nodes t ∧ Advances s t ∧ Outside filters e := by
      intro u hu hadv hgrows hentry writes built
      rw [happend] at hpath ⊢
      refine (ih hpath hu (fun x hx => ?_) (fun x hx => ?_) writes built).mono ?_ ?_
      · rcases List.mem_append.mp hx with hx | hx
        · exact hgrows.isSome (hdone x hx)
        · rw [List.mem_singleton.mp hx]
          exact hentry
      · exact (htail x hx).imp_left hgrows.isSome
      · exact fun _ t ht => ⟨ht.1, hadv.trans ht.2.1, ht.2.2⟩
      · exact fun _ t ht => ⟨ht.1, hadv.trans ht.2.1, ht.2.2⟩
    unfold catchUpFrom
    rw [sat_bind]
    refine starting_sat ((lookup_sat _ _ s).mono ?_ ?_)
    case refine_2 =>
      rintro e t ⟨rfl, rfl⟩
      exact ⟨ho, .refl t, .inr (.inr (.inl rfl))⟩
    rintro r t ⟨rfl, rfl⟩
    cases hentry : t.entry h with
    | some e => exact hnext t ho (.refl t) (.refl _) (by rw [hentry]; rfl) writes built
    | none =>
      obtain ⟨hblock, hpatch⟩ := hhead.resolve_left (by rw [hentry]; exact Bool.false_ne_true)
      obtain ⟨block, hblock⟩ := (FiniteMap.mem_iff_exists _ _).mp hblock
      obtain ⟨revBlock, hpatch⟩ := (FiniteMap.mem_iff_exists _ _).mp hpatch
      obtain ⟨hhash, hnode⟩ := hheaders h block hblock
      -- the block before it on the path is its parent, and has its filter
      have hparent : block.header.hash ≠ filters.genesisHash →
          (t.entry block.header.previousBlockHash).isSome := by
        intro hne
        obtain ⟨k, hk⟩ := hnode hne
        have hat : (done ++ h :: rest)[done.length]? = some h := by
          rw [List.getElem?_append_right (Nat.le_refl _), Nat.sub_self]
          rfl
        have hlen : done.length ≠ 0 := by
          intro h0
          rw [h0, ← List.head?_eq_getElem?, hpath.head?, Option.some.injEq] at hat
          exact hne (hhash.trans (hat.symm.trans hroot.symm))
        obtain ⟨j, hj⟩ := Nat.exists_eq_succ_of_ne_zero hlen
        rw [hj] at hat
        obtain ⟨p, hp, hpnode⟩ := hpath.parent_getElem? hat
        rw [← hhash, hk, Option.some.injEq, Prod.mk.injEq] at hpnode
        rw [hpnode.1]
        refine hdone p (List.mem_of_getElem? (i := j) ?_)
        rwa [List.getElem?_append_left (by omega)] at hp
      have hknown : ∃ node, index.nodes h = some node := by
        obtain ⟨p, k, hk, -⟩ := hpath.node_of_mem htree (b := h) (by simp)
        exact ⟨_, hk⟩
      dsimp only
      rw [sat_bind]
      refine (readConnected_sat h).mono ?_ ?_
      case refine_2 =>
        rintro e u ⟨rfl, rfl⟩
        exact ⟨ho, .refl u, .inr (.inl rfl)⟩
      rintro r u ⟨rfl, rfl⟩
      rw [hblock, hpatch]
      dsimp only [Option.bind_some, Option.map_some]
      rw [sat_bind]
      refine starting_sat ((addConnectedBlock_sat ho.good.entries hnode revBlock).mono ?_ ?_)
      case refine_2 =>
        rintro e v ⟨rfl, he⟩
        exact ⟨ho, .refl v, he.outside hparent⟩
      rintro _ v ⟨hchained, hadds, hnew⟩
      rw [hhash] at hnew
      have hov := ho.adds hadds hchained
      rw [sat_bind, sat_get]
      split
      · rw [sat_bind]
        refine (writeBatch_sat _ _ v).mono ?_ ?_
        case refine_2 =>
          rintro e w ⟨rfl, rfl⟩
          exact ⟨hov, hadds.advances, .inl rfl⟩
        rintro writes' w rfl
        refine hnext _ (hov.finalize fun b hb => ?_)
          (hadds.advances.trans (hov.good.advances_finalize _)) ?_ ?_ writes' (built + 1)
        · cases hb
          exact ⟨hnew, hknown⟩
        · rw [entry_finalize]
          exact hadds.grows
        · rw [entry_finalize]
          exact hnew
      · exact hnext v hov hadds.advances hadds.grows hnew writes (built + 1)

/-- **`catch_up` stores a filter for every block of the active chain.** -/
theorem catchUp_sat (hs : Consistent chain index)
    (hskip : ∀ x info, index.getBlockInfo x = some info → info.index ≠ 0 → x ∈ index.skip)
    (hroot : filters.genesisHash = chain.genesis.hash)
    (hheaders : ∀ (h : Hash) (block : Block), blockDb.blocks[h]? = some block →
      block.header.hash = h ∧ HeaderAgrees filters index.nodes block)
    (ho : Opened filters index.nodes s)
    (hcover : ∀ h ∈ index.activeChain,
      (s.entry h).isSome ∨ h ∈ blockDb.blocks ∧ h ∈ blockDb.revPatches) (writes : Option ℕ) :
    Sat (catchUp filters env index blockDb writes) s
      (fun _ t => Opened filters index.nodes t ∧ t.synced = true ∧ Grows s.stored t.stored ∧
        ∀ x ∈ index.activeChain, (t.stored x).isSome)
      fun e t => Opened filters index.nodes t ∧ Advances s t ∧ Outside filters e := by
  obtain ⟨tip, tipInfo, htip, htipInfo, hmain, -⟩ := hs.exists_tip
  unfold catchUp
  rw [sat_bind]
  refine (firstUncovered_sat hs hskip hroot ho).mono ?_ fun _ _ h => h.elim
  rintro first t ⟨rfl, hbelow⟩
  have hsplit := List.take_append_drop first index.activeChain
  rw [sat_bind]
  refine (catchUpFrom_sat hs.headerTree.tree hroot (hsplit.symm ▸ hmain) hheaders ho hbelow
    (fun h hh => hcover h (List.mem_of_mem_drop hh)) writes 0).mono ?_ fun _ _ h => h
  rintro ⟨writes', built⟩ u ⟨hu, hadv, hall⟩
  rw [hsplit] at hall
  rw [htip]
  dsimp only
  rw [sat_bind]
  refine (writeBatch_sat _ _ u).mono ?_ ?_
  case refine_2 =>
    rintro e v ⟨rfl, rfl⟩
    exact ⟨hu, hadv, .inl rfl⟩
  rintro _ v rfl
  have hfinal : Opened filters index.nodes (finalize (some tip) u) := by
    refine hu.finalize fun b hb => ?_
    cases hb
    exact ⟨hall tip hmain.tip_mem, _, nodes_eq htipInfo⟩
  refine ⟨⟨⟨hfinal.good.entries, hfinal.good.grows, hfinal.good.stored, hfinal.good.locator⟩,
    hfinal.located, hfinal.genesis⟩, rfl,
    (hadv.trans (hu.good.advances_finalize (some tip))).stored, fun x hx => ?_⟩
  show ((finalize (some tip) u).stored x).isSome
  rw [stored_finalize]
  exact hall x hx

end Start

end FilterIndex

end BtclibNode
