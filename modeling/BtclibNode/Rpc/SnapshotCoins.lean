/-
# The coins of an earlier block

The set a chain of blocks leaves, block by block, and the changes the undo data
above a height folds to: at each outpoint the word of the lowest block, which is
the coin the set at that height holds there.
-/
import Mathlib
import BtclibNode.Chainstate.UtxoRefinement
import BtclibNode.Rpc.Snapshot

namespace BtclibNode

open Overlay StateExcept

variable {S : Type} {C : CoinStats S}

/-! ## Chains of blocks -/

/-- The blocks there are: a header names its parent, and a txid and an output index
have the octets they are serialized in. -/
structure ChainBlocks where
  genesis : Hash
  block : Hash → CheckedBlock
  id_lt : ∀ h, ∀ tx ∈ (block h).transactions, tx.id < 256 ^ 32
  vout_le : ∀ h, ∀ tx ∈ (block h).transactions, tx.vout.length ≤ 256 ^ 4

namespace ChainBlocks

variable (b : ChainBlocks)

/-- From genesis, each block's header names the one before. -/
def IsChain (chain : List Hash) : Prop :=
  chain.head? = some b.genesis ∧
    ∀ i h p, chain[i + 1]? = some h → chain[i]? = some p →
      (b.block h).header.previousBlockHash = p

/-- The transactions of the blocks of a chain. -/
def txSum (chain : List Hash) : ℕ := (chain.map fun h => (b.block h).transactions.length).sum

/-- The UTXO set of a chain: every block but genesis, which is connected to no set,
is connected in order. -/
def replay (C : CoinStats S) (chain : List Hash) : UtxoSet :=
  chain.zipIdx.tail.foldl (fun m x => m.connect C x.2 (b.block x.1).toBlock) ∅

variable {b}

/-- **A block has one chain below it.** -/
theorem IsChain.take_eq {chain chain' : List Hash} (hc : b.IsChain chain) (hc' : b.IsChain chain')
    {i : ℕ} {h : Hash} (hi : chain[i]? = some h) (hi' : chain'[i]? = some h) :
    chain.take (i + 1) = chain'.take (i + 1) := by
  induction i generalizing h with
  | zero => rw [List.take_add_one, List.take_add_one, hi, hi', List.take_zero, List.take_zero]
  | succ i ih =>
    have hparent : ∀ {l : List Hash}, l[i + 1]? = some h → ∃ p, l[i]? = some p := by
      intro l hl
      obtain ⟨hlt, -⟩ := List.getElem?_eq_some_iff.mp hl
      exact ⟨l[i], List.getElem?_eq_getElem (by omega)⟩
    obtain ⟨p, hp⟩ := hparent hi
    obtain ⟨p', hp'⟩ := hparent hi'
    obtain rfl : p = p' := (hc.2 i h p hi hp).symm.trans (hc'.2 i h p' hi' hp')
    rw [List.take_add_one, hi, ih hp hp', ← hi', ← List.take_add_one]

theorem txSum_append (l l' : List Hash) : b.txSum (l ++ l') = b.txSum l + b.txSum l' := by
  unfold txSum
  rw [List.map_append, List.sum_append]

/-- A block on top of a chain is connected last. -/
theorem replay_append {chain : List Hash} (hne : chain ≠ []) (h : Hash) :
    b.replay C (chain ++ [h]) =
      (b.replay C chain).connect C chain.length (b.block h).toBlock := by
  have hzip : chain.zipIdx ≠ [] := by simpa using hne
  unfold replay
  rw [List.zipIdx_append, List.tail_append_of_ne_nil hzip, List.foldl_append, Nat.zero_add]
  rfl

end ChainBlocks

/-! ## Outpoints and their keys -/

/-- An outpoint of 36 octets. -/
structure OutPoint.Fits (o : OutPoint) : Prop where
  txid : o.txid < 256 ^ 32
  vout : o.vout < 256 ^ 4

namespace Snapshot

theorem encode_injective {width n n' : ℕ} (hn : n < 256 ^ width) (hn' : n' < 256 ^ width)
    (h : LittleEndian.encode width n = LittleEndian.encode width n') : n = n' := by
  rw [← LittleEndian.decode_encode hn, h, LittleEndian.decode_encode hn']

theorem utxoKey_injective {o p : OutPoint} (ho : o.Fits) (hp : p.Fits)
    (h : utxoKey o = utxoKey p) : o = p := by
  unfold utxoKey serializeOutPoint at h
  rw [List.append_cancel_left_eq] at h
  obtain ⟨htxid, hvout⟩ := List.append_inj h (by rw [LittleEndian.length_encode,
    LittleEndian.length_encode])
  have h₁ := encode_injective ho.txid hp.txid htxid
  have h₂ := encode_injective ho.vout hp.vout hvout
  cases o
  cases p
  cases h₁
  cases h₂
  rfl

/-- A coin a block creates is at an outpoint of one of its transactions. -/
theorem exists_tx_of_createdRows {block : Block} {height : ℕ} {row : OutPoint × Coin}
    (h : row ∈ block.createdRows C height) :
    ∃ tx ∈ block.transactions, row.1 ∈ tx.outPoints := by
  unfold Block.createdRows at h
  split at h
  · cases h
  · next coinbase rest heq =>
    rw [heq]
    rcases List.mem_append.mp h with h | h
    · exact ⟨coinbase, List.mem_cons_self, mem_createdRows C h⟩
    · obtain ⟨tx, htx, hrow⟩ := List.mem_flatMap.mp h
      exact ⟨tx, List.mem_cons_of_mem _ htx, mem_createdRows C hrow⟩

theorem fits_of_createdRows {b : ChainBlocks} {h : Hash} {height : ℕ} {row : OutPoint × Coin}
    (hrow : row ∈ (b.block h).createdRows C height) : row.1.Fits := by
  obtain ⟨tx, htx, hout⟩ := exists_tx_of_createdRows hrow
  obtain ⟨hid, hvout⟩ := Tx.mem_outPoints.mp hout
  refine ⟨?_, Nat.lt_of_lt_of_le hvout (b.vout_le h tx htx)⟩
  rw [hid]
  exact b.id_lt h tx htx

/-! ## What a lookup says of every outpoint -/

/-- The lookup by key `look` holds `f o` at the key of every outpoint `o`, and
nothing at any other key. -/
def Words {β : Type} (look : Bytes → Option β) (f : OutPoint → Option β) : Prop :=
  ∀ key v, look key = some v ↔ ∃ o, o.Fits ∧ key = utxoKey o ∧ f o = some v

section Words

variable {β : Type} {look : Bytes → Option β} {f : OutPoint → Option β}

theorem words_empty : Words (fun _ => none) (fun _ => (none : Option β)) := by
  intro key v
  constructor
  · nofun
  · rintro ⟨_, -, -, h⟩
    cases h

/-- One key set. -/
theorem Words.set (h : Words look f) {o : OutPoint} (ho : o.Fits) (v : β) :
    Words (fun key => if utxoKey o = key then some v else look key)
      (fun p => if o = p then some v else f p) := by
  intro key w
  dsimp only
  by_cases hkey : utxoKey o = key
  · rw [if_pos hkey]
    constructor
    · intro hw
      exact ⟨o, ho, hkey.symm, by rw [if_pos rfl, hw]⟩
    · rintro ⟨p, hp, hkp, hw⟩
      obtain rfl := utxoKey_injective ho hp (hkey.trans hkp)
      rwa [if_pos rfl] at hw
  · rw [if_neg hkey, h key w]
    constructor
    · rintro ⟨p, hp, hkp, hw⟩
      refine ⟨p, hp, hkp, ?_⟩
      rw [if_neg fun hop : o = p => hkey (hop ▸ hkp.symm), hw]
    · rintro ⟨p, hp, hkp, hw⟩
      rw [if_neg fun hop : o = p => hkey (hop ▸ hkp.symm)] at hw
      exact ⟨p, hp, hkp, hw⟩

/-- The word at an outpoint. -/
theorem Words.look_eq (h : Words look f) {o : OutPoint} (ho : o.Fits) :
    look (utxoKey o) = f o := by
  refine Option.ext fun v => ?_
  rw [h]
  constructor
  · rintro ⟨p, hp, hkey, hv⟩
    rwa [utxoKey_injective ho hp hkey]
  · intro hv
    exact ⟨o, ho, rfl, hv⟩

/-- One lookup over another. -/
theorem Words.over {look' : Bytes → Option β} {f' : OutPoint → Option β} (h : Words look f)
    (h' : Words look' f') :
    Words (fun key => (look key).or (look' key)) fun o => (f o).or (f' o) := by
  intro key v
  dsimp only
  by_cases hkey : ∃ o : OutPoint, o.Fits ∧ key = utxoKey o
  · obtain ⟨o, ho, rfl⟩ := hkey
    rw [h.look_eq ho, h'.look_eq ho]
    constructor
    · intro hv
      exact ⟨o, ho, rfl, hv⟩
    · rintro ⟨p, hp, hk, hv⟩
      rwa [utxoKey_injective ho hp hk]
  · have hnone : ∀ {look : Bytes → Option β} {f : OutPoint → Option β}, Words look f →
        look key = none := by
      intro look f hw
      rw [Option.eq_none_iff_forall_not_mem]
      intro w hw'
      obtain ⟨o, ho, hk, -⟩ := (hw key w).mp hw'
      exact hkey ⟨o, ho, hk⟩
    rw [hnone h, hnone h', Option.none_or]
    constructor
    · nofun
    · rintro ⟨o, ho, hk, -⟩
      exact absurd ⟨o, ho, hk⟩ hkey

end Words

/-! ## Rows in the order of their keys -/

/-- `rows` are the words `f`, in the order of the keys. -/
structure Lists {β : Type} (rows : List (Bytes × β)) (f : OutPoint → Option β) : Prop where
  ordered : Ordered rows
  words : Words (find rows) f

theorem Lists.mem_iff {β : Type} {rows : List (Bytes × β)} {f : OutPoint → Option β}
    (h : Lists rows f) {key : Bytes} {v : β} :
    (key, v) ∈ rows ↔ ∃ o, o.Fits ∧ key = utxoKey o ∧ f o = some v := by
  rw [← find_eq_some h.ordered.nodup_keys]
  exact h.words key v

/-- **The cursor walks the records of the store.** -/
theorem lists_cursor {db : CoinTable} (hdb : ∀ o ∈ db, o.Fits) :
    Lists (cursor db) fun o => db[o]? := by
  have hnodup : ((db.toList.map fun row => (utxoKey row.1, row.2)).map Prod.fst).Nodup := by
    rw [List.map_map]
    refine List.Nodup.map_on (fun x hx y hy hxy => ?_) (FiniteMap.nodup_toList db)
    have hfits : ∀ z ∈ db.toList, z.1.Fits := fun z hz => hdb z.1
      ((FiniteMap.mem_iff_exists db z.1).mpr ⟨z.2, (FiniteMap.mem_toList db z.1 z.2).mp hz⟩)
    have hfst : x.1 = y.1 := utxoKey_injective (hfits x hx) (hfits y hy) hxy
    have h₁ := (FiniteMap.mem_toList db x.1 x.2).mp hx
    rw [hfst, (FiniteMap.mem_toList db y.1 y.2).mp hy] at h₁
    exact Prod.ext hfst (Option.some.inj h₁).symm
  refine ⟨ordered_sortKeys hnodup, fun key v => ?_⟩
  show find (sortKeys _) key = some v ↔ _
  rw [find_sortKeys hnodup, find_eq_some hnodup, List.mem_map]
  constructor
  · rintro ⟨row, hrow, heq⟩
    obtain ⟨rfl, rfl⟩ := Prod.mk.inj heq
    have hrow' := (FiniteMap.mem_toList db row.1 row.2).mp hrow
    exact ⟨row.1, hdb row.1 ((FiniteMap.mem_iff_exists db row.1).mpr ⟨row.2, hrow'⟩), rfl, hrow'⟩
  · rintro ⟨o, -, rfl, ho⟩
    exact ⟨(o, v), (FiniteMap.mem_toList db o v).mpr ho, rfl⟩

/-- What a store holds once changes are laid over it. -/
def changed (f : OutPoint → Option CoinRecord) (g : OutPoint → Option (Option CoinRecord))
    (o : OutPoint) : Option CoinRecord := (g o).getD (f o)

/-- **The merge walks the records as the changes leave them.** -/
theorem lists_merged {stored : List (Bytes × CoinRecord)}
    {changes : List (Bytes × Option CoinRecord)} {f : OutPoint → Option CoinRecord}
    {g : OutPoint → Option (Option CoinRecord)} (hs : Lists stored f) (hc : Lists changes g) :
    Lists (merged stored changes) (changed f g) := by
  have hs' : Lists (stored.map fun row => (row.1, some row.2)) fun o => (f o).map some := by
    refine ⟨List.pairwise_map.mpr hs.ordered, fun key v => ?_⟩
    have hord : Ordered (stored.map fun row => (row.1, some row.2)) :=
      List.pairwise_map.mpr hs.ordered
    rw [find_eq_some hord.nodup_keys, List.mem_map]
    constructor
    · rintro ⟨row, hrow, heq⟩
      obtain ⟨rfl, rfl⟩ := Prod.mk.inj heq
      obtain ⟨o, ho, hkey, hf⟩ := hs.mem_iff.mp hrow
      exact ⟨o, ho, hkey, by rw [hf]; rfl⟩
    · rintro ⟨o, ho, rfl, hf⟩
      obtain ⟨record, hrecord, rfl⟩ := Option.map_eq_some_iff.mp hf
      exact ⟨_, hs.mem_iff.mpr ⟨o, ho, rfl, hrecord⟩, rfl⟩
  have hover := ordered_overlay hc.ordered hs'.ordered
  have hwords : Words (find (overlay changes (stored.map fun row => (row.1, some row.2))))
      fun o => (g o).or ((f o).map some) := by
    intro key v
    rw [find_overlay hc.ordered hs'.ordered]
    exact hc.words.over hs'.words key v
  have hord : Ordered (merged stored changes) := by
    refine List.Pairwise.filterMap _ (fun x y hlt x' hx' y' hy' => ?_) hover
    obtain ⟨_, -, rfl⟩ := Option.map_eq_some_iff.mp hx'
    obtain ⟨_, -, rfl⟩ := Option.map_eq_some_iff.mp hy'
    exact hlt
  refine ⟨hord, fun key record => ?_⟩
  have hmem : (key, record) ∈ merged stored changes ↔
      (key, some record) ∈ overlay changes (stored.map fun row => (row.1, some row.2)) := by
    unfold merged
    rw [List.mem_filterMap]
    constructor
    · rintro ⟨row, hrow, heq⟩
      obtain ⟨record', hrecord', heq⟩ := Option.map_eq_some_iff.mp heq
      obtain ⟨rfl, rfl⟩ := Prod.mk.inj heq
      rwa [← hrecord']
    · intro h
      exact ⟨_, h, rfl⟩
  rw [find_eq_some hord.nodup_keys, hmem, ← find_eq_some hover.nodup_keys, hwords]
  refine exists_congr fun o => and_congr_right fun _ => and_congr_right fun _ => ?_
  unfold changed
  dsimp only
  cases g o with
  | none => simp
  | some v => simp

/-! ## The changes of one block -/

/-- What a patch says of an outpoint. -/
def patchWord (rev : RevBlock) (o : OutPoint) : Option (Option CoinRecord) :=
  if o ∈ rev.toRemove then some none else (find rev.toAdd o).map fun coin => some (.coin coin)

theorem words_set_dict {β : Type} {d : Dict Bytes β} {f : OutPoint → Option β}
    (h : Words d.get? f) {o : OutPoint} (ho : o.Fits) (v : β) :
    Words (d.set (utxoKey o) v).get? fun p => if o = p then some v else f p := by
  have heq : (d.set (utxoKey o) v).get? = fun key => if utxoKey o = key then some v else d.get? key :=
    funext fun key => Dict.get?_set d (utxoKey o) v key
  rw [heq]
  exact h.set ho v

theorem words_toAdd {rows : List (OutPoint × Coin)} {d : Dict Bytes (Option CoinRecord)}
    {f : OutPoint → Option (Option CoinRecord)} (hd : Words d.get? f)
    (hfits : ∀ row ∈ rows, row.1.Fits) (hnodup : (rows.map Prod.fst).Nodup) :
    Words (rows.foldl (fun d row => d.set (utxoKey row.1) (some (.coin row.2))) d).get?
      fun o => ((find rows o).map fun coin => some (.coin coin)).or (f o) := by
  induction rows generalizing d f with
  | nil => exact hd
  | cons row rows ih =>
    rw [List.forall_mem_cons] at hfits
    rw [List.map_cons, List.nodup_cons] at hnodup
    rw [List.foldl_cons]
    convert ih (words_set_dict hd hfits.1 _) hfits.2 hnodup.2 using 2 with o
    rw [find_cons]
    by_cases ho : row.1 = o
    · rw [if_pos ho, if_pos ho, find_eq_none.mpr (ho ▸ hnodup.1)]
      rfl
    · rw [if_neg ho, if_neg ho]

theorem words_toRemove {os : List OutPoint} {d : Dict Bytes (Option CoinRecord)}
    {f : OutPoint → Option (Option CoinRecord)} (hd : Words d.get? f) (hfits : ∀ o ∈ os, o.Fits) :
    Words (os.foldl (fun d o => d.set (utxoKey o) none) d).get?
      fun o => if o ∈ os then some none else f o := by
  induction os generalizing d f with
  | nil => simpa using hd
  | cons p os ih =>
    rw [List.forall_mem_cons] at hfits
    rw [List.foldl_cons]
    convert ih (words_set_dict hd hfits.1 none) hfits.2 using 2 with o
    by_cases hos : o ∈ os
    · rw [if_pos hos, if_pos (List.mem_cons_of_mem p hos)]
    · by_cases ho : p = o
      · rw [if_neg hos, if_pos ho, if_pos (ho ▸ List.mem_cons_self)]
      · rw [if_neg hos, if_neg ho, if_neg fun hmem => ?_]
        rcases List.mem_cons.mp hmem with h | h
        · exact ho h.symm
        · exact hos h

/-- **The changes of a block are the words of its patch.** -/
theorem words_patchChanges {rev : RevBlock} (hadd : ∀ row ∈ rev.toAdd, row.1.Fits)
    (hremove : ∀ o ∈ rev.toRemove, o.Fits) (hnodup : (rev.toAdd.map Prod.fst).Nodup) :
    Words (patchChanges rev).get? (patchWord rev) := by
  have hempty : Words (Dict.empty : Dict Bytes (Option CoinRecord)).get? fun _ => none := by
    have heq : (Dict.empty : Dict Bytes (Option CoinRecord)).get? = fun _ => none :=
      funext Dict.get?_empty
    rw [heq]
    exact words_empty
  have hword : patchWord rev = fun o => if o ∈ rev.toRemove then some none
      else ((find rev.toAdd o).map fun coin => some (.coin coin)).or none := by
    funext o
    rw [patchWord, Option.or_none]
  rw [hword]
  exact words_toRemove (words_toAdd hempty hadd hnodup) hremove

theorem nodup_items {β : Type} (d : Dict Bytes β) : ((items d).map Prod.fst).Nodup := by
  unfold items
  rw [List.map_filterMap]
  refine d.nodup.filterMap fun key key' x hx hx' => ?_
  simp only [Option.mem_def, Option.map_map, Option.map_eq_some_iff, Function.comp_apply] at hx hx'
  obtain ⟨_, -, rfl⟩ := hx
  obtain ⟨_, -, rfl⟩ := hx'
  rfl

theorem find_items {β : Type} (d : Dict Bytes β) (key : Bytes) : find (items d) key = d.get? key := by
  refine Option.ext fun v => ?_
  rw [find_eq_some (nodup_items d)]
  unfold items
  rw [List.mem_filterMap]
  constructor
  · rintro ⟨key', -, heq⟩
    obtain ⟨v', hv', heq⟩ := Option.map_eq_some_iff.mp heq
    obtain ⟨rfl, rfl⟩ := Prod.mk.inj heq
    exact hv'
  · intro hv
    exact ⟨key, Dict.mem_keys_of_get? hv, by rw [hv]; rfl⟩

/-! ## The sets they lead back to -/

/-- The coin at an outpoint once the words `f` are laid over the set `m`. -/
def coinAt (f : OutPoint → Option (Option CoinRecord)) (m : UtxoSet) (o : OutPoint) : Option Coin :=
  match f o with
  | none => m[o]?
  | some record => record.bind CoinRecord.coin?

/-- The words `f` lead from the set `m` back to `m'`. -/
def LeadsTo (f : OutPoint → Option (Option CoinRecord)) (m m' : UtxoSet) : Prop :=
  ∀ o, coinAt f m o = m'[o]?

theorem leadsTo_refl (m : UtxoSet) : LeadsTo (fun _ => none) m m := fun _ => rfl

/-- **A lower block's word stands over those above it.** -/
theorem LeadsTo.undo {f : OutPoint → Option (Option CoinRecord)} {m m' m₀ : UtxoSet}
    {rev : RevBlock} {created : List (OutPoint × Coin)} (h : LeadsTo f m m')
    (hundoes : rev.Undoes created m₀ m') :
    LeadsTo (fun o => (patchWord rev o).or (f o)) m m₀ := by
  intro o
  rw [← hundoes.restores, UtxoSet.getElem?_spend]
  unfold coinAt patchWord
  dsimp only
  by_cases hremove : o ∈ rev.toRemove
  · rw [if_pos hremove, if_pos hremove]
    rfl
  · rw [if_neg hremove, if_neg hremove]
    cases hfind : find rev.toAdd o with
    | some coin =>
      rw [UtxoSet.getElem?_create_of_mem hundoes.toAdd_nodup (mem_of_find hfind)]
      rfl
    | none =>
      rw [UtxoSet.getElem?_create_of_notMem (find_eq_none.mp hfind), ← h o]
      rfl

end Snapshot

end BtclibNode
