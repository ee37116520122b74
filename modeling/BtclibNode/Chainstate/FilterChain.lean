/-
# Filter headers chain onto their parents'

The filters a node has, stored or staged, each with a header built on the
header of the parent.  A chained set holds every ancestor of what it holds, so
a locator that names a stored filter names a block whose ancestors all have
theirs.  `add_block` keeps the set chained, and `finalize` makes what is stored
of what is staged.
-/
import BtclibNode.Lib.HeightTree
import BtclibNode.Chainstate.FilterIndex

namespace BtclibNode

open StateExcept HeightTree

/-- The filters and the headers that `get_filter` and `get_header` find. -/
abbrev FilterMap := Hash → Option (List UInt8 × Hash)

section Chained

variable {filters : BlockFilters} {nodes nodes' : Nodes Hash} {get get' : FilterMap}
  {h p : Hash} {entry : List UInt8 × Hash} {previous : Hash}

/-- The header that the filter of `h` is chained onto: the parent's, and the
fixed one for genesis. -/
def previousOf (filters : BlockFilters) (nodes : Nodes Hash) (get : FilterMap) (h : Hash) :
    Option Hash :=
  if h = filters.genesisHash then some FilterIndex.noPreviousFilterHeader
  else (nodes h).bind fun node => (get node.1).map Prod.snd

/-- Every header is built from its filter and the header of the parent. -/
def Chained (filters : BlockFilters) (nodes : Nodes Hash) (get : FilterMap) : Prop :=
  ∀ h entry, get h = some entry → ∃ previous, previousOf filters nodes get h = some previous ∧
    entry.2 = filters.header entry.1 previous

/-- `get'` finds what `get` finds. -/
def Grows (get get' : FilterMap) : Prop := ∀ h entry, get h = some entry → get' h = some entry

theorem Grows.refl (get : FilterMap) : Grows get get := fun _ _ h => h

theorem Grows.trans {get'' : FilterMap} (h : Grows get get') (h' : Grows get' get'') :
    Grows get get'' := fun x entry hx => h' x entry (h x entry hx)

theorem Grows.isSome (hg : Grows get get') (h : (get p).isSome) : (get' p).isSome := by
  obtain ⟨entry, hentry⟩ := Option.isSome_iff_exists.mp h
  exact Option.isSome_iff_exists.mpr ⟨entry, hg p entry hentry⟩

theorem previousOf_mono (hnodes : ∀ x y, nodes x = some y → nodes' x = some y)
    (hget : Grows get get') (hprev : previousOf filters nodes get h = some previous) :
    previousOf filters nodes' get' h = some previous := by
  unfold previousOf at hprev ⊢
  split
  · next hh => rwa [if_pos hh] at hprev
  · next hh =>
    rw [if_neg hh, Option.bind_eq_some_iff] at hprev
    obtain ⟨node, hnode, hmap⟩ := hprev
    obtain ⟨entry, hentry, hsnd⟩ := Option.map_eq_some_iff.mp hmap
    rw [hnodes h node hnode, Option.bind_some, hget _ _ hentry, ← hsnd]
    rfl

/-- A tree that grows leaves the set chained. -/
theorem Chained.mono (hc : Chained filters nodes get)
    (hnodes : ∀ x y, nodes x = some y → nodes' x = some y) : Chained filters nodes' get := by
  intro x entry hx
  obtain ⟨previous, hprev, heq⟩ := hc x entry hx
  exact ⟨previous, previousOf_mono hnodes (.refl get) hprev, heq⟩

/-- **One filter more**, built on the header of its parent. -/
theorem Chained.insert (hc : Chained filters nodes get) (hnew : get h = none)
    (hprev : previousOf filters nodes get h = some previous)
    (hentry : entry.2 = filters.header entry.1 previous)
    (hget : ∀ x, get' x = if h = x then some entry else get x) :
    Chained filters nodes get' ∧ Grows get get' := by
  have hgrows : Grows get get' := by
    intro x e hx
    rw [hget, if_neg, hx]
    rintro rfl
    rw [hnew] at hx
    cases hx
  refine ⟨fun x e hx => ?_, hgrows⟩
  rw [hget] at hx
  split at hx
  · next heq =>
    cases hx
    exact ⟨previous, previousOf_mono (fun _ _ h => h) hgrows (heq ▸ hprev), hentry⟩
  · obtain ⟨previous', hprev', heq⟩ := hc x e hx
    exact ⟨previous', previousOf_mono (fun _ _ h => h) hgrows hprev', heq⟩

/-- The parent of a block with a filter has one. -/
theorem Chained.parent (hc : Chained filters nodes get) {root : Hash}
    (ht : IsTree nodes root) (hroot : filters.genesisHash = root) (hpc : Child nodes p h)
    (hh : (get h).isSome) : (get p).isSome := by
  obtain ⟨entry, hentry⟩ := Option.isSome_iff_exists.mp hh
  obtain ⟨previous, hprev, -⟩ := hc h entry hentry
  obtain ⟨n, hn⟩ := hpc
  have hne : h ≠ filters.genesisHash := by
    rintro rfl
    obtain ⟨q, hq⟩ := ht.root_node
    rw [hroot, hq, Option.some.injEq, Prod.mk.injEq] at hn
    omega
  unfold previousOf at hprev
  rw [if_neg hne, hn, Option.bind_some] at hprev
  obtain ⟨e, he, -⟩ := Option.map_eq_some_iff.mp hprev
  exact Option.isSome_iff_exists.mpr ⟨e, he⟩

/-- **Every ancestor of a block with a filter has its own.** -/
theorem Chained.ancestor (hc : Chained filters nodes get) {root : Hash}
    (ht : IsTree nodes root) (hroot : filters.genesisHash = root) (hdesc : Descends nodes p h)
    (hh : (get h).isSome) : (get p).isSome := by
  induction hdesc with
  | refl => exact hh
  | tail _ hstep ih => exact ih (hc.parent ht hroot hstep hh)

end Chained

/-! ## The methods -/

namespace FilterIndex

variable {filters : BlockFilters} {nodes nodes' : Nodes Hash} {s t : FilterIndex}
  {fails : Hash → Bool} {block : Block}

/-- What `get_filter` and `get_header` find, where the store can be read. -/
def entry (s : FilterIndex) : FilterMap := fun h => s.trial.data[h]?.or s.db[h]?

/-- What the store holds. -/
def stored (s : FilterIndex) : FilterMap := fun h => s.db[h]?

/-- `t` is `s` with filters staged. -/
structure Adds (s t : FilterIndex) : Prop where
  grows : Grows s.entry t.entry
  others : t = { s with trial := t.trial }

theorem Adds.refl (s : FilterIndex) : Adds s s := ⟨.refl _, rfl⟩

theorem Adds.trans {u : FilterIndex} (hst : Adds s t) (htu : Adds t u) : Adds s u := by
  refine ⟨hst.grows.trans htu.grows, ?_⟩
  rw [htu.others, hst.others]

theorem entry_finalize (bestBlock : Option Hash) (s : FilterIndex) :
    (finalize bestBlock s).entry = s.entry := by
  funext h
  have hget := FiniteMap.getElem?_foldl_insert s.db s.trial.data (fun e => e) h
  rw [Option.map_id'] at hget
  show (∅ : FilterTable)[h]?.or (s.trial.data.foldl _ s.db)[h]? = _
  rw [Std.ExtTreeMap.getElem?_empty, Option.none_or]
  exact hget

theorem stored_finalize (bestBlock : Option Hash) (s : FilterIndex) :
    (finalize bestBlock s).stored = s.entry := by
  rw [← entry_finalize bestBlock s]
  funext h
  show _ = (∅ : FilterTable)[h]?.or _
  rw [Std.ExtTreeMap.getElem?_empty, Option.none_or]
  rfl

theorem lookup_sat (fails : Hash → Bool) (h : Hash) (s : FilterIndex) :
    Sat (lookup fails h) s (fun r t => t = s ∧ r = s.entry h) fun e t => t = s ∧ e = .storage := by
  unfold lookup entry
  rw [sat_bind, sat_get]
  cases hp : s.trial.data[h]? with
  | some e => exact ⟨rfl, rfl⟩
  | none =>
    dsimp only
    split
    · exact ⟨rfl, rfl⟩
    · exact ⟨rfl, rfl⟩

/-- btclib raises it. -/
def Raises (filters : BlockFilters) (e : FilterError) : Prop :=
  ∃ block, (∃ utxos, filters.prevoutScripts block utxos = .error e) ∨
    ∃ scripts, filters.fromBlock block scripts = .error e

/-- What `add_block` raises: a read that fails, what btclib raises, and a parent
that has no header. -/
def AddRaises (filters : BlockFilters) (s : FilterIndex) (block : Block) (e : FilterError) : Prop :=
  e = .storage ∨ Raises filters e ∨
    block.header.hash ≠ filters.genesisHash ∧ s.entry block.header.previousBlockHash = none

/-- The parent recorded for the block is the one its header names. -/
def HeaderAgrees (filters : BlockFilters) (nodes : Nodes Hash) (block : Block) : Prop :=
  block.header.hash ≠ filters.genesisHash →
    ∃ n, nodes block.header.hash = some (block.header.previousBlockHash, n)

theorem HeaderAgrees.mono (h : HeaderAgrees filters nodes block)
    (hnodes : ∀ x y, nodes x = some y → nodes' x = some y) : HeaderAgrees filters nodes' block := by
  intro hne
  obtain ⟨k, hk⟩ := h hne
  exact ⟨k, hnodes _ _ hk⟩

theorem previousHeader_sat (hnode : HeaderAgrees filters nodes block) (s : FilterIndex) :
    Sat (previousHeader filters fails block) s
      (fun r t => t = s ∧ previousOf filters nodes s.entry block.header.hash = some r)
      fun e t => t = s ∧ AddRaises filters s block e := by
  unfold previousHeader
  split
  · next hh =>
    refine ⟨rfl, ?_⟩
    unfold previousOf
    rw [if_pos hh]
  · next hh =>
    obtain ⟨n, hn⟩ := hnode hh
    rw [sat_bind]
    refine (lookup_sat _ _ s).mono ?_ fun e t ht => ⟨ht.1, .inl ht.2⟩
    rintro r t ⟨rfl, rfl⟩
    cases he : t.entry block.header.previousBlockHash with
    | none => exact ⟨rfl, .inr (.inr ⟨hh, he⟩)⟩
    | some e =>
      refine ⟨rfl, ?_⟩
      unfold previousOf
      rw [if_neg hh, hn, Option.bind_some, he]
      rfl

/-- **`add_block` keeps the filters chained** and gives the block its own; it
raises as it found the index. -/
theorem addBlock_sat (hc : Chained filters nodes s.entry)
    (hnode : HeaderAgrees filters nodes block) (scripts : List Script) :
    Sat (addBlock filters fails block scripts) s
      (fun _ t => Chained filters nodes t.entry ∧ Adds s t ∧ (t.entry block.header.hash).isSome)
      fun e t => t = s ∧ AddRaises filters s block e := by
  unfold addBlock
  rw [sat_bind]
  refine (lookup_sat _ _ s).mono ?_ fun e t ht => ⟨ht.1, .inl ht.2⟩
  rintro r t ⟨rfl, rfl⟩
  cases hentry : t.entry block.header.hash with
  | some e => exact ⟨hc, .refl t, by rw [hentry]; rfl⟩
  | none =>
    rw [sat_bind]
    refine (previousHeader_sat hnode t).mono ?_ fun e u hu => hu
    rintro previous u ⟨rfl, hprev⟩
    cases hfilter : filters.fromBlock block scripts with
    | error e => exact ⟨rfl, .inr (.inl ⟨block, .inr ⟨scripts, hfilter⟩⟩)⟩
    | ok filter =>
      have hget : ∀ x, (FilterIndex.entry { u with
          trial := ⟨u.trial.data.insert block.header.hash
            (filter, filters.header filter previous), block.header.hash :: u.trial.log⟩ }) x =
          if block.header.hash = x then some (filter, filters.header filter previous)
          else u.entry x := by
        intro x
        show (u.trial.data.insert _ _)[x]?.or u.db[x]? = _
        rw [FiniteMap.getElem?_insert]
        split
        · rfl
        · rfl
      obtain ⟨hchained, hgrows⟩ := hc.insert hentry hprev rfl hget
      refine ⟨hchained, ⟨hgrows, rfl⟩, ?_⟩
      show Option.isSome (FilterIndex.entry _ _) = true
      rw [hget, if_pos rfl]
      rfl

/-- **`add_connected_block`** does what `add_block` does. -/
theorem addConnectedBlock_sat (hc : Chained filters nodes s.entry)
    (hnode : HeaderAgrees filters nodes block) (revBlock : RevBlock) :
    Sat (addConnectedBlock filters fails block revBlock) s
      (fun _ t => Chained filters nodes t.entry ∧ Adds s t ∧ (t.entry block.header.hash).isSome)
      fun e t => t = s ∧ AddRaises filters s block e := by
  unfold addConnectedBlock
  dsimp only
  rw [sat_bind]
  cases hscripts : filters.prevoutScripts block
      (revBlock.toAdd.map fun row => (row.1, row.2.txOut)) with
  | error e => exact ⟨rfl, .inr (.inl ⟨block, .inl ⟨_, hscripts⟩⟩)⟩
  | ok scripts => exact addBlock_sat hc hnode scripts

/-! ## What the index holds -/

/-- What holds of the filters whatever was written and staged: they chain, the
stored ones among themselves, nothing staged hides a stored one, and the locator
names a stored one. -/
structure Good (filters : BlockFilters) (nodes : Nodes Hash) (s : FilterIndex) : Prop where
  entries : Chained filters nodes s.entry
  grows : Grows s.stored s.entry
  stored : Chained filters nodes s.stored
  locator : ∀ b, s.bestBlock = some b → (s.stored b).isSome ∧ ∃ node, nodes b = some node

theorem Good.mono (hg : Good filters nodes s)
    (hnodes : ∀ x y, nodes x = some y → nodes' x = some y) : Good filters nodes' s := by
  refine ⟨hg.entries.mono hnodes, hg.grows, hg.stored.mono hnodes, fun b hb => ?_⟩
  obtain ⟨hmem, node, hnode⟩ := hg.locator b hb
  exact ⟨hmem, node, hnodes b node hnode⟩

/-- Filters staged on top of what is stored. -/
theorem Good.adds (hg : Good filters nodes s) (hst : Adds s t)
    (ht : Chained filters nodes t.entry) : Good filters nodes t := by
  have hstored : t.stored = s.stored := by
    rw [hst.others]
    rfl
  refine ⟨ht, hstored ▸ hg.grows.trans hst.grows, hstored ▸ hg.stored, ?_⟩
  rw [hstored, hst.others]
  exact hg.locator

/-- **`finalize` may move the locator to a block whose filter is found.** -/
theorem Good.finalize (hg : Good filters nodes s) {bestBlock : Option Hash}
    (hbest : ∀ b, bestBlock = some b → (s.entry b).isSome ∧ ∃ node, nodes b = some node) :
    Good filters nodes (finalize bestBlock s) := by
  constructor
  · rw [entry_finalize]
    exact hg.entries
  · rw [entry_finalize, stored_finalize]
    exact .refl _
  · rw [stored_finalize]
    exact hg.entries
  · intro b hb
    rw [stored_finalize]
    cases bestBlock with
    | some best =>
      cases hb
      exact hbest _ rfl
    | none =>
      obtain ⟨hmem, hnode⟩ := hg.locator b hb
      exact ⟨hg.grows.isSome hmem, hnode⟩

end FilterIndex

end BtclibNode
