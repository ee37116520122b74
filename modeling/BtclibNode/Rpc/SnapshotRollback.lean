/-
# Rolling the coins back

In a consistent node the undo data of the blocks above a height, folded in memory
or into the temporary store and merged with the cursor, gives the coins of the
chain up to that height, or the walk raises.
-/
import BtclibNode.Rpc.SnapshotCoins

namespace BtclibNode

open Overlay StateExcept Snapshot

variable {S : Type} {C : CoinStats S} {b : ChainBlocks} {env : SnapshotEnv S}

/-! ## A consistent node -/

/-- `rev` is what `add_block`, with its BIP30 check on, returned for `block` at
`height` on top of the set `m`. -/
def Connects (C : CoinStats S) (block : CheckedBlock) (height : ℕ) (m : UtxoSet)
    (rev : RevBlock) : Prop :=
  ∃ (db : CoinTable) (read : CoinRead) (s t : UtxoIndex S) (txs : List (List Coin × Tx)),
    Faithful read db ∧ UtxoIndex.Agrees db s.data m ∧
      UtxoIndex.addBlock C read block.toBlock height true s = .ok (txs, rev) t

/-- A consistent node: the UTXO index is the set of its chain, and what `block_db`
holds of a block is that block's. -/
structure SnapshotWorld.Consistent (C : CoinStats S) (b : ChainBlocks) (w : SnapshotWorld S) :
    Prop where
  chain : b.IsChain w.activeChain
  agrees : UtxoIndex.Agrees w.db w.utxoIndex.data (b.replay C w.activeChain)
  keys : ∀ o ∈ w.db, o.Fits
  patches : ∀ i h rev, w.activeChain[i]? = some h → i ≠ 0 → w.revBlock h = some rev →
    rev.hash = h → Connects C (b.block h) i (b.replay C (w.activeChain.take i)) rev
  txCounts : ∀ h count, w.txCount h = some count → count = (b.block h).transactions.length

theorem Connects.undoes {block : CheckedBlock} {height : ℕ} {m : UtxoSet} {rev : RevBlock}
    (h : Connects C block height m rev) :
    rev.Undoes (block.createdRows C height) m (m.connect C height block.toBlock) := by
  obtain ⟨db, read, s, t, txs, hread, hagrees, heq⟩ := h
  have hsat := hagrees.addBlock (C := C) hread block height
  unfold Sat at hsat
  rw [heq] at hsat
  exact hsat.2.2.1

/-! ## The outpoints of a chain -/

theorem UtxoSet.mem_of_create {m : UtxoSet} {rows : List (OutPoint × Coin)} {o : OutPoint}
    (h : o ∈ m.create rows) : o ∈ m ∨ o ∈ rows.map Prod.fst := by
  by_cases ho : o ∈ rows.map Prod.fst
  · exact .inr ho
  · left
    rw [FiniteMap.mem_iff_exists] at h ⊢
    rwa [UtxoSet.getElem?_create_of_notMem ho] at h

theorem UtxoSet.mem_of_spend {m : UtxoSet} {os : List OutPoint} {o : OutPoint}
    (h : o ∈ m.spend os) : o ∈ m := by
  obtain ⟨coin, hcoin⟩ := (FiniteMap.mem_iff_exists _ _).mp h
  rw [UtxoSet.getElem?_spend] at hcoin
  split at hcoin
  · cases hcoin
  · exact (FiniteMap.mem_iff_exists m o).mpr ⟨coin, hcoin⟩

/-- A coin after a block is one of before or one the block creates. -/
theorem UtxoSet.mem_of_connect {m : UtxoSet} {block : Block} {height : ℕ} {o : OutPoint}
    (h : o ∈ m.connect C height block) : o ∈ m ∨ o ∈ (block.createdRows C height).map Prod.fst := by
  unfold UtxoSet.connect at h
  unfold Block.createdRows
  cases htxs : block.transactions with
  | nil =>
    rw [htxs] at h
    exact .inl h
  | cons coinbase rest =>
    rw [htxs] at h
    dsimp only at h ⊢
    have hfold : ∀ {txs : List Tx} {m : UtxoSet}, o ∈ txs.foldl (UtxoSet.connectTx C height) m →
        o ∈ m ∨ ∃ tx ∈ txs, o ∈ (tx.createdRows C height false).map Prod.fst := by
      intro txs
      induction txs with
      | nil => exact fun h => .inl h
      | cons tx txs ih =>
        intro m h
        rw [List.foldl_cons] at h
        rcases ih h with h | ⟨tx', htx', h⟩
        · rcases UtxoSet.mem_of_create h with h | h
          · exact .inl (UtxoSet.mem_of_spend h)
          · exact .inr ⟨tx, List.mem_cons_self, h⟩
        · exact .inr ⟨tx', List.mem_cons_of_mem tx htx', h⟩
    rw [List.map_append, List.mem_append]
    rcases hfold h with h | ⟨tx, htx, h⟩
    · rcases UtxoSet.mem_of_create h with h | h
      · exact .inl h
      · exact .inr (.inl h)
    · refine .inr (.inr ?_)
      obtain ⟨row, hrow, rfl⟩ := List.mem_map.mp h
      exact List.mem_map_of_mem (List.mem_flatMap.mpr ⟨tx, htx, hrow⟩)

/-- A coin of a chain is at an outpoint of 36 octets. -/
theorem ChainBlocks.fits_of_replay {chain : List Hash} {o : OutPoint}
    (ho : o ∈ b.replay C chain) : o.Fits := by
  have hfold : ∀ {blocks : List (Hash × ℕ)} {m : UtxoSet}, (∀ p ∈ m, p.Fits) →
      o ∈ blocks.foldl (fun m x => m.connect C x.2 (b.block x.1).toBlock) m → o.Fits := by
    intro blocks
    induction blocks with
    | nil => exact fun hm h => hm o h
    | cons x blocks ih =>
      intro m hm h
      refine ih (fun p hp => ?_) h
      rcases UtxoSet.mem_of_connect hp with hp | hp
      · exact hm p hp
      · obtain ⟨row, hrow, rfl⟩ := List.mem_map.mp hp
        exact fits_of_createdRows hrow
  exact hfold (fun p hp => absurd hp Std.ExtTreeMap.not_mem_empty) ho

/-- The outpoints a block spent are of 36 octets. -/
theorem fits_of_toAdd {h : Hash} {height : ℕ} {m : UtxoSet} {rev : RevBlock}
    (hundoes : rev.Undoes ((b.block h).createdRows C height) m
      (m.connect C height (b.block h).toBlock)) (hm : ∀ p ∈ m, p.Fits)
    {row : OutPoint × Coin} (hrow : row ∈ rev.toAdd) : row.1.Fits := by
  by_cases hremove : row.1 ∈ rev.toRemove
  · rw [hundoes.toRemove_eq] at hremove
    obtain ⟨created, hcreated, hfst⟩ := List.mem_map.mp hremove
    exact hfst ▸ fits_of_createdRows hcreated
  · -- what is not dropped again was there before the block
    refine hm row.1 ((FiniteMap.mem_iff_exists m row.1).mpr ⟨row.2, ?_⟩)
    rw [← hundoes.restores, UtxoSet.getElem?_spend, if_neg hremove]
    exact UtxoSet.getElem?_create_of_mem hundoes.toAdd_nodup hrow

/-! ## Steps that leave the file -/

/-- No yield, and the file as it was. -/
structure Steady (s t : DumpState) : Prop where
  resumes : t.resumes = s.resumes
  file : t.file = s.file

theorem Steady.refl (s : DumpState) : Steady s s := ⟨rfl, rfl⟩

theorem Steady.trans {s t u : DumpState} (h : Steady s t) (h' : Steady t u) : Steady s u :=
  ⟨h'.resumes.trans h.resumes, h'.file.trans h.file⟩

section Steps

variable {α : Type} {s : DumpState}

/-- The call has raised, and is not one that still waits. -/
abbrev Failed (e : SnapshotError) (_ : DumpState) : Prop := e ≠ .waiting

theorem sat_orRaise {e : SnapshotError} {x : Option α} {Q : α → DumpState → Prop}
    {E : SnapshotError → DumpState → Prop} (he : E e s) (h : ∀ a, x = some a → Q a s) :
    Sat (orRaise e x) s Q E := by
  cases x with
  | none => exact he
  | some a => exact h a rfl

theorem sat_refuse {code : ℤ} {message : String} {Q : α → DumpState → Prop} :
    Sat (refuse code message : Dump α) s Q Failed := nofun

theorem sat_world {Q : SnapshotWorld S → DumpState → Prop}
    {E : SnapshotError → DumpState → Prop} (h : Q (env.worlds s.resumes) s) :
    Sat (world env) s Q E := h

theorem sat_access : Sat (access env) s (fun _ t => Steady s t) Failed := by
  unfold access
  rw [sat_bind, sat_get, sat_bind]
  show Sat _ { s with accesses := s.accesses + 1 } _ _
  split
  · exact nofun
  · exact ⟨rfl, rfl⟩

theorem sat_interruptionPoint :
    Sat (interruptionPoint env) s (fun _ t => Steady s t) Failed := by
  unfold interruptionPoint
  rw [sat_bind, sat_get, sat_bind]
  show Sat _ { s with looks := s.looks + 1 } _ _
  split
  · exact nofun
  · exact ⟨rfl, rfl⟩

theorem sat_pauseWhen (c : Bool) : Sat (pauseWhen env c) s
    (fun _ t => s.resumes ≤ t.resumes ∧ t.file = s.file) Failed := by
  unfold pauseWhen
  split
  · rw [sat_bind]
    refine sat_interruptionPoint.mono (fun _ t ht => ?_) fun _ _ h => h
    exact ⟨Nat.le_succ_of_le (Nat.le_of_eq ht.resumes.symm), ht.file⟩
  · exact ⟨Nat.le_refl _, rfl⟩

end Steps

/-! ## The walk down -/

/-- The heights above `height`, as a walk of `n` blocks. -/
theorem heightsAbove_eq {chain : List Hash} {height n : ℕ} (hn : chain.length = height + 1 + n) :
    heightsAbove chain height = (List.range' (height + 1) n).reverse := by
  unfold heightsAbove
  rw [List.range_eq_range', hn, ← List.range'_append_1, List.drop_left', Nat.zero_add]
  rw [List.length_range']

/-- **`_disconnect` leads back to the set at the height**: `I` is how the changes
hold their words. -/
theorem sat_disconnect {σ : Type} {w : SnapshotWorld S} (hw : w.Consistent C b)
    {put : σ → List (Bytes × Option CoinRecord) → Dump σ}
    {I : σ → (OutPoint → Option (Option CoinRecord)) → Prop}
    (hput : ∀ changes f rows g s, I changes f → Words (find rows) g →
      (rows.map Prod.fst).Nodup → Sat (put changes rows) s
        (fun changes' t => I changes' (fun o => (g o).or (f o)) ∧ Steady s t) Failed)
    {height n : ℕ} (hn : height + 1 + n ≤ w.activeChain.length)
    {f : OutPoint → Option (Option CoinRecord)} {changes : σ} {s : DumpState}
    (hI : I changes f) (hf : LeadsTo f (b.replay C w.activeChain)
      (b.replay C (w.activeChain.take (height + 1 + n)))) :
    Sat (disconnect env w put (List.range' (height + 1) n).reverse changes) s
      (fun changes' t => (∃ f', I changes' f' ∧ LeadsTo f' (b.replay C w.activeChain)
        (b.replay C (w.activeChain.take (height + 1)))) ∧ Steady s t) Failed := by
  induction n generalizing f changes s with
  | zero => exact ⟨⟨f, hI, hf⟩, Steady.refl s⟩
  | succ n ih =>
    rw [List.range'_concat, Nat.one_mul, List.reverse_append, List.reverse_singleton,
      List.singleton_append, disconnect, sat_bind]
    refine sat_interruptionPoint.mono (fun _ t ht => ?_) fun _ _ h => h
    rw [sat_bind]
    refine sat_orRaise nofun fun block hblock => ?_
    rw [sat_bind]
    refine sat_access.mono (fun _ u hu => ?_) fun _ _ h => h
    split
    · exact nofun
    · next rev hrev =>
      split
      · exact nofun
      · next hhash =>
        rw [not_not] at hhash
        -- the set of the chain below, and with the block on top
        have hi : w.activeChain.take (height + 1 + n) ≠ [] := by
          rw [Ne, List.take_eq_nil_iff, not_or]
          exact ⟨by omega, fun h => by simp [h] at hn⟩
        have hlen : (w.activeChain.take (height + 1 + n)).length = height + 1 + n := by
          rw [List.length_take]
          omega
        have hset : b.replay C (w.activeChain.take (height + 1 + (n + 1))) =
            (b.replay C (w.activeChain.take (height + 1 + n))).connect C (height + 1 + n)
              (b.block block).toBlock := by
          rw [← Nat.add_assoc, List.take_add_one, hblock, Option.toList_some,
            ChainBlocks.replay_append hi, hlen]
        have hundoes := (hw.patches (height + 1 + n) block rev hblock (by omega) hrev hhash).undoes
        have hadd : ∀ row ∈ rev.toAdd, row.1.Fits := fun row hrow =>
          fits_of_toAdd hundoes (fun p hp => ChainBlocks.fits_of_replay hp) hrow
        have hremove : ∀ o ∈ rev.toRemove, o.Fits := by
          intro o ho
          rw [hundoes.toRemove_eq] at ho
          obtain ⟨row, hrow, rfl⟩ := List.mem_map.mp ho
          exact fits_of_createdRows hrow
        have hwords : Words (find (items (patchChanges rev))) (patchWord rev) := by
          rw [funext (find_items (patchChanges rev))]
          exact words_patchChanges hadd hremove hundoes.toAdd_nodup
        rw [sat_bind]
        refine (hput _ f _ _ u hI hwords (nodup_items _)).mono (fun changes' v hv => ?_)
          fun _ _ h => h
        rw [hset] at hf
        refine (ih (by omega) hv.1 (hf.undo hundoes)).mono (fun _ x hx => ⟨hx.1, ?_⟩)
          fun _ _ h => h
        exact ht.trans (hu.trans (hv.2.trans hx.2))

/-! ## In memory and in the temporary store -/

theorem find_foldl_set {β : Type} (rows : List (Bytes × β)) (d : Dict Bytes β)
    (hnodup : (rows.map Prod.fst).Nodup) (key : Bytes) :
    (rows.foldl (fun d row => d.set row.1 row.2) d).get? key = (find rows key).or (d.get? key) := by
  induction rows generalizing d with
  | nil => rfl
  | cons row rows ih =>
    rw [List.map_cons, List.nodup_cons] at hnodup
    rw [List.foldl_cons, ih _ hnodup.2, find_cons, Dict.get?_set]
    by_cases hkey : row.1 = key
    · rw [if_pos hkey, if_pos hkey, find_eq_none.mpr (hkey ▸ hnodup.1)]
      rfl
    · rw [if_neg hkey, if_neg hkey]

theorem find_foldl_insert {β : Type} (rows : List (Bytes × β)) (m : Std.ExtTreeMap Bytes β)
    (hnodup : (rows.map Prod.fst).Nodup) (key : Bytes) :
    (rows.foldl (fun m row => m.insert row.1 row.2) m)[key]? = (find rows key).or m[key]? := by
  induction rows generalizing m with
  | nil => rfl
  | cons row rows ih =>
    rw [List.map_cons, List.nodup_cons] at hnodup
    rw [List.foldl_cons, ih _ hnodup.2, find_cons, FiniteMap.getElem?_insert]
    by_cases hkey : row.1 = key
    · rw [if_pos hkey, if_pos hkey, find_eq_none.mpr (hkey ▸ hnodup.1)]
      rfl
    · rw [if_neg hkey, if_neg hkey]

theorem lists_sortKeys_items {β : Type} {d : Dict Bytes β} {f : OutPoint → Option β}
    (h : Words d.get? f) : Lists (sortKeys (items d)) f := by
  refine ⟨ordered_sortKeys (nodup_items d), ?_⟩
  rwa [funext (find_sortKeys (nodup_items d)), funext (find_items d)]

theorem lists_toList {β : Type} {m : Std.ExtTreeMap Bytes β} {f : OutPoint → Option β}
    (h : Words (fun key => m[key]?) f) : Lists m.toList f := by
  have hord : Ordered m.toList := Std.ExtTreeMap.ordered_keys_toList
  refine ⟨hord, fun key v => ?_⟩
  rw [find_eq_some hord.nodup_keys, FiniteMap.mem_toList]
  exact h key v

/-- **The changes above a height lead back to it**, whichever way they are held. -/
theorem sat_disconnected {w : SnapshotWorld S} (hw : w.Consistent C b) {height : ℕ}
    (hheight : height < w.activeChain.length) (inMemory : Bool) {s : DumpState} :
    Sat (disconnected env w height inMemory) s
      (fun changes t => (∃ f, Lists changes f ∧ LeadsTo f (b.replay C w.activeChain)
        (b.replay C (w.activeChain.take (height + 1)))) ∧ Steady s t) Failed := by
  obtain ⟨n, hn⟩ := Nat.exists_eq_add_of_le (Nat.succ_le_of_lt hheight)
  have hstart : LeadsTo (fun _ => none) (b.replay C w.activeChain)
      (b.replay C (w.activeChain.take (height + 1 + n))) := by
    rw [List.take_of_length_le (Nat.le_of_eq hn)]
    exact leadsTo_refl _
  unfold disconnected
  split
  · unfold disconnectInMemory
    rw [sat_bind, heightsAbove_eq hn]
    have hempty : Words (Dict.empty : Dict Bytes (Option CoinRecord)).get? fun _ => none := by
      rw [funext Dict.get?_empty]
      exact words_empty
    refine (sat_disconnect (I := fun changes f => Words (Dict.get? changes) f) hw ?_
      (Nat.le_of_eq hn.symm) hempty hstart).mono (fun changes t ht => ?_) fun _ _ h => h
    · intro changes f rows g s hI hg hnodup
      refine ⟨?_, Steady.refl s⟩
      rw [funext (find_foldl_set rows changes hnodup)]
      exact hg.over hI
    · obtain ⟨⟨f, hI, hf⟩, hst⟩ := ht
      exact ⟨⟨f, lists_sortKeys_items hI, hf⟩, hst⟩
  · unfold disconnectToStore
    rw [sat_bind]
    refine sat_access.mono (fun _ t ht => ?_) fun _ _ h => h
    rw [sat_bind, heightsAbove_eq hn]
    have hempty : Words (fun key => (∅ : Std.ExtTreeMap Bytes (Option CoinRecord))[key]?)
        fun _ => none := by
      rw [funext fun _ => Std.ExtTreeMap.getElem?_empty]
      exact words_empty
    refine (sat_disconnect
      (I := fun (store : Std.ExtTreeMap Bytes (Option CoinRecord)) f =>
        Words (fun key => store[key]?) f) hw ?_
      (Nat.le_of_eq hn.symm) hempty hstart).mono (fun store u hu => ?_) fun _ _ h => h
    · intro store f rows g s hI hg hnodup
      rw [sat_bind]
      refine sat_access.mono (fun _ t ht => ⟨?_, ht⟩) fun _ _ h => h
      show Words (fun key => (rows.foldl _ store)[key]?) _
      rw [funext (find_foldl_insert rows store hnodup)]
      exact hg.over hI
    · obtain ⟨⟨f, hI, hf⟩, hst⟩ := hu
      rw [sat_bind]
      refine sat_access.mono (fun _ v hv => ?_) fun _ _ h => h
      exact ⟨⟨f, lists_toList hI, hf⟩, ht.trans (hst.trans hv)⟩

end BtclibNode
