/-
# The indexes of the mempool agree

`Indexed`: every index says the same of the same entries.  `Coherent` adds the graph, of which
`Lawful` says what the mempool relies on.  An entry that goes in or out keeps both.
-/
import BtclibNode.Mempool.Entries
import Mathlib.Algebra.BigOperators.Group.List.Basic

namespace BtclibNode

/-! ## The graph -/

/-- Two graphs that hold the same, each transaction built on the same. -/
structure ClusterGraph.Unchanged {γ : Type} (g : ClusterGraph γ) (gr gr' : γ) : Prop where
  sound : g.sound gr'
  feerate : ∀ x, g.feerate? gr' x = g.feerate? gr x
  depends : ∀ p c, g.depends gr' p c ↔ g.depends gr p c

/-- What a transaction is built on once the dependencies `deps` are added. -/
def ClusterGraph.Reaches {γ : Type} (g : ClusterGraph γ) (gr : γ) (deps : List (Txid × Txid)) :
    Txid → Txid → Prop :=
  Relation.TransGen fun p c => g.depends gr p c ∨ (p, c) ∈ deps

/-- What the mempool relies on of `TxGraph`: it holds what was added and not removed, with the
fee last set, each transaction built on what it was made to depend on, also by way of what is
gone.  An eviction takes the end of a cluster, and a trim nothing without what is built on it. -/
structure ClusterGraph.Lawful {γ : Type} (g : ClusterGraph γ) : Prop where
  empty : g.sound g.empty ∧ ∀ x, g.feerate? g.empty x = none
  held : ∀ gr p c, g.sound gr → g.depends gr p c →
    (g.feerate? gr p).isSome ∧ (g.feerate? gr c).isSome
  addTransaction : ∀ gr w feerate key, g.sound gr → g.feerate? gr w = none → 0 < feerate.size →
    g.sound (g.addTransaction w feerate key gr) ∧
      (∀ x, g.feerate? (g.addTransaction w feerate key gr) x =
        if w = x then some feerate else g.feerate? gr x) ∧
      ∀ p c, g.depends (g.addTransaction w feerate key gr) p c ↔ g.depends gr p c
  addDependency : ∀ gr p c, g.sound gr → (g.feerate? gr p).isSome → (g.feerate? gr c).isSome →
    p ≠ c → ¬ g.depends gr c p →
    ∃ gr', g.addDependency p c gr = some gr' ∧ g.sound gr' ∧
      (∀ x, g.feerate? gr' x = g.feerate? gr x) ∧
      ∀ x y, g.depends gr' x y ↔
        g.depends gr x y ∨ (x = p ∨ g.depends gr x p) ∧ (y = c ∨ g.depends gr c y)
  removeTransaction : ∀ gr w, g.sound gr → (g.feerate? gr w).isSome →
    ∃ gr', g.removeTransaction w gr = some gr' ∧ g.sound gr' ∧
      (∀ x, g.feerate? gr' x = if w = x then none else g.feerate? gr x) ∧
      ∀ p c, g.depends gr' p c ↔ p ≠ w ∧ c ≠ w ∧ g.depends gr p c
  setFee : ∀ gr w feerate fee, g.sound gr → g.feerate? gr w = some feerate →
    ∃ gr', g.setFee w fee gr = some gr' ∧ g.sound gr' ∧
      (∀ x, g.feerate? gr' x = if w = x then some ⟨fee, feerate.size⟩ else g.feerate? gr x) ∧
      ∀ p c, g.depends gr' p c ↔ g.depends gr p c
  doWork : ∀ gr cost, g.sound gr → g.Unchanged gr (g.doWork cost gr)
  worstChunk : ∀ gr, g.sound gr → g.Unchanged gr (g.worstChunk gr).2
  worstChunk_none : ∀ gr, g.sound gr → (g.worstChunk gr).1 = none → ∀ x, g.feerate? gr x = none
  worstChunk_some : ∀ gr refs feerate, g.sound gr → (g.worstChunk gr).1 = some (refs, feerate) →
    refs ≠ [] ∧ refs.Nodup ∧ (∀ w ∈ refs, (g.feerate? gr w).isSome) ∧
      feerate.size = (refs.map fun w => (g.feerate? gr w).elim 0 FeeFrac.size).sum ∧
      ∀ p ∈ refs, ∀ c, g.depends gr p c → c ∈ refs
  trim : ∀ gr deps count size, g.sound gr →
    (∀ d ∈ deps, (g.feerate? gr d.1).isSome ∧ (g.feerate? gr d.2).isSome) →
    (∀ x, ¬ g.Reaches gr deps x x) →
    ∃ removed gr', g.trim deps count size gr = some (removed, gr') ∧ g.sound gr' ∧
      removed.Nodup ∧ (∀ w ∈ removed, (g.feerate? gr w).isSome) ∧
      (∀ p ∈ removed, ∀ c, g.Reaches gr deps p c → c ∈ removed) ∧
      (∀ x, g.feerate? gr' x = if x ∈ removed then none else g.feerate? gr x) ∧
      ∀ p c, g.depends gr' p c ↔ p ∉ removed ∧ c ∉ removed ∧ g.Reaches gr deps p c
  stagedDiagrams : ∀ gr removed added count size, g.sound gr →
    g.Unchanged gr (g.stagedDiagrams removed added count size gr).2

/-! ## Maps over the same keys -/

/-- Two maps with the same keys. -/
def SameKeys {α β : Type} (m : Std.ExtTreeMap Txid α) (m' : Std.ExtTreeMap Txid β) : Prop :=
  ∀ w, w ∈ m ↔ w ∈ m'

theorem SameKeys.insert {α β : Type} {m : Std.ExtTreeMap Txid α} {m' : Std.ExtTreeMap Txid β}
    (h : SameKeys m m') (w : Txid) (a : α) (b : β) : SameKeys (m.insert w a) (m'.insert w b) := by
  intro x
  rw [Std.ExtTreeMap.mem_insert, Std.ExtTreeMap.mem_insert, h x]

theorem SameKeys.erase {α β : Type} {m : Std.ExtTreeMap Txid α} {m' : Std.ExtTreeMap Txid β}
    (h : SameKeys m m') (w : Txid) : SameKeys (m.erase w) (m'.erase w) := by
  intro x
  rw [Std.ExtTreeMap.mem_erase, Std.ExtTreeMap.mem_erase, h x]

theorem size_insert_of_notMem {α : Type} {m : Std.ExtTreeMap Txid α} {w : Txid} (a : α)
    (h : w ∉ m) : (m.insert w a).size = m.size + 1 := by
  rw [Std.ExtTreeMap.size_insert, if_neg]
  rwa [Std.ExtTreeMap.contains_iff_mem]

theorem notMem_erase {α : Type} (m : Std.ExtTreeMap Txid α) (w : Txid) : w ∉ m.erase w := by
  rw [FiniteMap.notMem_iff, FiniteMap.getElem?_erase, if_pos rfl]

theorem size_erase_add_one {α : Type} {m : Std.ExtTreeMap Txid α} {w : Txid} {a : α}
    (h : m[w]? = some a) : (m.erase w).size + 1 = m.size := by
  rw [← size_insert_of_notMem a (notMem_erase m w), FiniteMap.insert_erase h]

/-- The sum over a map's rows. -/
def total (m : Std.ExtTreeMap Txid ℕ) : ℕ := (m.toList.map Prod.snd).sum

theorem total_empty : total ∅ = 0 := by
  have hnil : (∅ : Std.ExtTreeMap Txid ℕ).toList = [] := by
    rw [List.eq_nil_iff_forall_not_mem]
    rintro ⟨w, n⟩ h
    rw [FiniteMap.mem_toList] at h
    simp at h
  unfold total
  rw [hnil]
  rfl

theorem total_insert {m : Std.ExtTreeMap Txid ℕ} {w : Txid} (n : ℕ) (h : w ∉ m) :
    total (m.insert w n) = n + total m := by
  unfold total
  have hperm := FiniteMap.toList_insert_perm n ((FiniteMap.notMem_iff m w).mp h)
  rw [(hperm.map Prod.snd).sum_eq, List.map_cons, List.sum_cons]

theorem total_erase {m : Std.ExtTreeMap Txid ℕ} {w : Txid} {n : ℕ} (h : m[w]? = some n) :
    total m = n + total (m.erase w) := by
  rw [← total_insert n (notMem_erase m w), FiniteMap.insert_erase h]

namespace Mempool

open StateExcept

variable {γ : Type} {g : ClusterGraph γ} {s : Mempool γ} {w x : Txid} {tx : MempoolTx}

/-! ## The invariant -/

/-- Every index says the same of the same entries. -/
structure Indexed (s : Mempool γ) : Prop where
  hash : ∀ (w : Txid) (tx : MempoolTx), s.transactions[w]? = some tx → tx.hash = w
  nodup : ∀ (w : Txid) (tx : MempoolTx), s.transactions[w]? = some tx → tx.vin.Nodup
  txids : ∀ w : Txid, s.txids[w]? = s.transactions[w]?.map MempoolTx.id
  txidIndex : ∀ t w : Txid, s.txidIndex[t]? = some w ↔ s.txids[w]? = some t
  fees : SameKeys s.fees s.transactions
  modifiedFees : SameKeys s.modifiedFees s.transactions
  vsizes : SameKeys s.vsizes s.transactions
  weights : SameKeys s.weights s.transactions
  weights_pos : ∀ (w : Txid) (n : ℕ), s.weights[w]? = some n → 0 < n
  entryTimes : SameKeys s.entryTimes s.transactions
  heights : SameKeys s.heights s.transactions
  entrySequences : SameKeys s.entrySequences s.transactions
  unbroadcast : ∀ t ∈ s.unbroadcast, t ∈ s.txidIndex
  outpointSpender : ∀ (o : PrevOut) (w : Txid), s.outpointSpender[o]? = some w ↔
    ∃ tx : MempoolTx, s.transactions[w]? = some tx ∧ o ∈ tx.vin
  spentBy : ∀ t w : Txid, (∃ ws : Std.ExtTreeSet Txid, s.spentBy[t]? = some ws ∧ w ∈ ws) ↔
    ∃ tx : MempoolTx, s.transactions[w]? = some tx ∧ t ∈ tx.vin.map PrevOut.txId
  spentBy_nonempty : ∀ (t : Txid) (ws : Std.ExtTreeSet Txid), s.spentBy[t]? = some ws → ws.isEmpty = false
  size : s.size = s.transactions.size
  bytesize : s.bytesize = total s.vsizes
  oldest : ∀ (w : Txid) (time : ℚ), s.entryTimes[w]? = some time → s.oldestEntryTime ≤ (time : WithTop ℚ)

/-- The indexes agree, and the graph holds each transaction with its modified fee and weight. -/
structure Coherent (g : ClusterGraph γ) (s : Mempool γ) : Prop extends Indexed s where
  sound : g.sound s.graph
  graph : ∀ (w : Txid) (feerate : FeeFrac), g.feerate? s.graph w = some feerate ↔
    ∃ (fee : ℤ) (weight : ℕ), s.modifiedFees[w]? = some fee ∧ s.weights[w]? = some weight ∧
      feerate = ⟨fee, (weight : ℕ)⟩

theorem Coherent.init (hempty : g.sound g.empty ∧ ∀ x, g.feerate? g.empty x = none)
    (incrementalRelayFeerate expiry : ℤ) :
    Coherent g (init g incrementalRelayFeerate expiry) where
  sound := hempty.1
  hash w tx h := by simp [Mempool.init] at h
  nodup w tx h := by simp [Mempool.init] at h
  txids w := by simp [Mempool.init]
  txidIndex t w := by simp [Mempool.init]
  fees w := by simp [Mempool.init]
  modifiedFees w := by simp [Mempool.init]
  vsizes w := by simp [Mempool.init]
  weights w := by simp [Mempool.init]
  weights_pos w n h := by simp [Mempool.init] at h
  entryTimes w := by simp [Mempool.init]
  heights w := by simp [Mempool.init]
  entrySequences w := by simp [Mempool.init]
  unbroadcast t h := by simp [Mempool.init] at h
  outpointSpender o w := by simp [Mempool.init]
  spentBy t w := by simp [Mempool.init]
  spentBy_nonempty t ws h := by simp [Mempool.init] at h
  size := by simp [Mempool.init]
  bytesize := by simp [Mempool.init, total_empty]
  oldest w time h := by simp [Mempool.init] at h
  graph w feerate := by
    show g.feerate? g.empty w = _ ↔ _
    simp [hempty.2, Mempool.init]

namespace Indexed

theorem txid_of_held (h : Indexed s) (hw : s.transactions[w]? = some tx) :
    s.txids[w]? = some tx.id := by
  rw [h.txids w, hw]
  rfl

theorem index_of_held (h : Indexed s) (hw : s.transactions[w]? = some tx) :
    s.txidIndex[tx.id]? = some w := (h.txidIndex _ _).mpr (h.txid_of_held hw)

/-- The transaction a txid of the index leads to. -/
theorem held_of_index (h : Indexed s) {t : Txid} (ht : s.txidIndex[t]? = some w) :
    ∃ tx, s.transactions[w]? = some tx ∧ tx.id = t := by
  have htxid := (h.txidIndex t w).mp ht
  rw [h.txids w] at htxid
  cases hw : s.transactions[w]? with
  | none => rw [hw] at htxid; cases htxid
  | some tx =>
    rw [hw, Option.map_some, Option.some.injEq] at htxid
    exact ⟨tx, rfl, htxid⟩

/-- One outpoint has one spender. -/
theorem spender_unique (h : Indexed s) {x : Txid} {tx' : MempoolTx} {o : PrevOut}
    (hw : s.transactions[w]? = some tx) (hx : s.transactions[x]? = some tx') (ho : o ∈ tx.vin)
    (ho' : o ∈ tx'.vin) : w = x := by
  have h1 := (h.outpointSpender o w).mpr ⟨tx, hw, ho⟩
  rw [(h.outpointSpender o x).mpr ⟨tx', hx, ho'⟩, Option.some.injEq] at h1
  exact h1.symm

/-- One txid is held once. -/
theorem id_unique (h : Indexed s) {x : Txid} {tx' : MempoolTx} (hw : s.transactions[w]? = some tx)
    (hx : s.transactions[x]? = some tx') (hid : tx.id = tx'.id) : w = x := by
  have h1 := h.index_of_held hw
  rw [hid, h.index_of_held hx, Option.some.injEq] at h1
  exact h1.symm

/-- Nothing of a held transaction is missing. -/
theorem poppable (h : Indexed s) (hw : s.transactions[w]? = some tx)
    (hgraph : (g.feerate? s.graph w).isSome → (g.removeTransaction w s.graph).isSome) :
    Poppable g s w tx where
  transaction := hw
  txid := h.txid_of_held hw
  vsize := (h.vsizes w).mpr ((FiniteMap.mem_iff_exists _ _).mpr ⟨tx, hw⟩)
  weight := (h.weights w).mpr ((FiniteMap.mem_iff_exists _ _).mpr ⟨tx, hw⟩)
  sequence := (h.entrySequences w).mpr ((FiniteMap.mem_iff_exists _ _).mpr ⟨tx, hw⟩)
  nodup := h.nodup w tx hw
  outpoints o ho := (FiniteMap.mem_iff_exists _ _).mpr
    ⟨w, (h.outpointSpender o w).mpr ⟨tx, hw, ho⟩⟩
  spenders o ho := by
    obtain ⟨ws, hws, -⟩ := (h.spentBy o.txId w).mpr ⟨tx, hw, List.mem_map_of_mem ho⟩
    exact (FiniteMap.mem_iff_exists _ _).mpr ⟨ws, hws⟩
  graph := hgraph

end Indexed

/-! ## An entry out -/

theorem popped_transactions_iff (notify : Bool) {tx' : MempoolTx} :
    (s.popped g w tx notify).transactions[x]? = some tx' ↔
      x ≠ w ∧ s.transactions[x]? = some tx' := by
  show (s.transactions.erase w)[x]? = _ ↔ _
  rw [FiniteMap.getElem?_erase]
  by_cases h : w = x
  · simp [h]
  · simp [h, Ne.symm h]

/-- A set of spenders without `w`: who is in it, and that an empty one is not kept. -/
theorem spendersWithout_some {ws ws' : Std.ExtTreeSet Txid} (h : spendersWithout w ws = some ws') :
    (∀ x, x ∈ ws' ↔ x ≠ w ∧ x ∈ ws) ∧ ws'.isEmpty = false := by
  unfold spendersWithout at h
  split at h
  · cases h
  · rename_i hne
    rw [Option.some.injEq] at h
    subst h
    refine ⟨fun x => ?_, by simpa using hne⟩
    rw [FiniteMap.mem_erase, ne_comm]

theorem mem_spendersWithout {ws : Std.ExtTreeSet Txid} :
    (∃ ws', spendersWithout w ws = some ws' ∧ x ∈ ws') ↔ x ≠ w ∧ x ∈ ws := by
  constructor
  · rintro ⟨ws', hws', hx⟩
    exact ((spendersWithout_some hws').1 x).mp hx
  · rintro ⟨hxw, hx⟩
    have hmem : x ∈ ws.erase w := (FiniteMap.mem_erase _ _ _).mpr ⟨Ne.symm hxw, hx⟩
    have hne : ¬ (ws.erase w).isEmpty = true := by
      intro he
      rw [Std.ExtTreeSet.isEmpty_iff] at he
      rw [he] at hmem
      exact absurd hmem (by simp)
    refine ⟨ws.erase w, ?_, hmem⟩
    unfold spendersWithout
    rw [if_neg hne]

/-- **An entry that goes out leaves the indexes in agreement.** -/
theorem Indexed.popped (h : Indexed s) (hw : s.transactions[w]? = some tx) (notify : Bool) :
    Indexed (s.popped g w tx notify) := by
  have hother : ∀ {x : Txid} {tx' : MempoolTx}, x ≠ w → s.transactions[x]? = some tx' →
      tx'.id ≠ tx.id := fun hxw hx hid => hxw (h.id_unique hx hw hid)
  refine {
    hash := fun x tx' hx => h.hash x tx' ((popped_transactions_iff notify).mp hx).2
    nodup := fun x tx' hx => h.nodup x tx' ((popped_transactions_iff notify).mp hx).2
    txids := ?_
    txidIndex := ?_
    fees := h.fees.erase w
    modifiedFees := h.modifiedFees.erase w
    vsizes := h.vsizes.erase w
    weights := h.weights.erase w
    weights_pos := ?_
    entryTimes := h.entryTimes.erase w
    heights := h.heights.erase w
    entrySequences := h.entrySequences.erase w
    unbroadcast := ?_
    outpointSpender := ?_
    spentBy := ?_
    spentBy_nonempty := ?_
    size := ?_
    bytesize := ?_
    oldest := ?_ }
  · intro x
    show (s.txids.erase w)[x]? = (s.transactions.erase w)[x]?.map _
    rw [FiniteMap.getElem?_erase, FiniteMap.getElem?_erase, h.txids x]
    split <;> rfl
  · intro t x
    show (s.txidIndex.erase tx.id)[t]? = _ ↔ (s.txids.erase w)[x]? = _
    rw [FiniteMap.getElem?_erase, FiniteMap.getElem?_erase]
    by_cases ht : tx.id = t
    · -- the txid of `w` leads nowhere, and no other entry has it
      rw [if_pos ht]
      by_cases hx : w = x
      · simp [hx]
      · rw [if_neg hx, ← h.txidIndex t x, ← ht, h.index_of_held hw]
        simpa using hx
    · rw [if_neg ht]
      by_cases hx : w = x
      · rw [if_pos hx, h.txidIndex t x, ← hx, h.txid_of_held hw]
        simpa using ht
      · rw [if_neg hx, h.txidIndex t x]
  · intro x n hx
    change (s.weights.erase w)[x]? = some n at hx
    rw [FiniteMap.getElem?_erase] at hx
    split at hx
    · cases hx
    · exact h.weights_pos x n hx
  · intro t ht
    show t ∈ s.txidIndex.erase tx.id
    obtain ⟨hne, ht⟩ := (FiniteMap.mem_erase _ _ _).mp ht
    rw [FiniteMap.mem_iff_exists, FiniteMap.getElem?_erase_ne _ hne, ← FiniteMap.mem_iff_exists]
    exact h.unbroadcast t ht
  · intro o x
    show (tx.vin.foldl (fun m o => m.erase o) s.outpointSpender)[o]? = _ ↔ _
    simp only [popped_transactions_iff]
    rw [FiniteMap.getElem?_foldl_erase_list]
    by_cases ho : o ∈ tx.vin
    · rw [if_pos ho]
      constructor
      · intro hcontra
        cases hcontra
      · rintro ⟨tx', ⟨hxw, hx⟩, ho'⟩
        exact absurd (h.spender_unique hx hw ho' ho) hxw
    · rw [if_neg ho, h.outpointSpender o x]
      constructor
      · rintro ⟨tx', hx, ho'⟩
        refine ⟨tx', ⟨?_, hx⟩, ho'⟩
        rintro rfl
        rw [hw, Option.some.injEq] at hx
        exact ho (hx ▸ ho')
      · rintro ⟨tx', ⟨-, hx⟩, ho'⟩
        exact ⟨tx', hx, ho'⟩
  · intro t x
    show (∃ ws, (dropSpenders w (tx.vin.map PrevOut.txId).dedup s.spentBy)[t]? = some ws ∧ _) ↔ _
    simp only [popped_transactions_iff, getElem?_dropSpenders (List.nodup_dedup _),
      List.mem_dedup]
    by_cases ht : t ∈ tx.vin.map PrevOut.txId
    · simp only [if_pos ht, mem_spendersWithout]
      have hbefore := h.spentBy t x
      constructor
      · rintro ⟨hxw, hmem⟩
        cases hws : s.spentBy[t]? with
        | none => rw [hws] at hmem; simp at hmem
        | some ws =>
          rw [hws, Option.getD_some] at hmem
          obtain ⟨tx', hx, ht'⟩ := hbefore.mp ⟨ws, hws, hmem⟩
          exact ⟨tx', ⟨hxw, hx⟩, ht'⟩
      · rintro ⟨tx', ⟨hxw, hx⟩, ht'⟩
        obtain ⟨ws, hws, hmem⟩ := hbefore.mpr ⟨tx', hx, ht'⟩
        rw [hws]
        exact ⟨hxw, hmem⟩
    · simp only [if_neg ht]
      rw [h.spentBy t x]
      constructor
      · rintro ⟨tx', hx, ht'⟩
        refine ⟨tx', ⟨?_, hx⟩, ht'⟩
        rintro rfl
        rw [hw, Option.some.injEq] at hx
        exact ht (hx ▸ ht')
      · rintro ⟨tx', ⟨-, hx⟩, ht'⟩
        exact ⟨tx', hx, ht'⟩
  · intro t ws hws
    change (dropSpenders w (tx.vin.map PrevOut.txId).dedup s.spentBy)[t]? = some ws at hws
    rw [getElem?_dropSpenders (List.nodup_dedup _)] at hws
    split at hws
    · exact (spendersWithout_some hws).2
    · exact h.spentBy_nonempty t ws hws
  · show s.size - 1 = ((s.transactions.erase w).size : ℕ)
    have hsize := size_erase_add_one hw
    rw [h.size]
    omega
  · show s.bytesize - _ = (total (s.vsizes.erase w) : ℕ)
    obtain ⟨n, hn⟩ := (FiniteMap.mem_iff_exists _ _).mp
      ((h.vsizes w).mpr ((FiniteMap.mem_iff_exists _ _).mpr ⟨tx, hw⟩))
    rw [h.bytesize, total_erase hn, hn, Option.getD_some]
    omega
  · intro x time hx
    change (s.entryTimes.erase w)[x]? = some time at hx
    rw [FiniteMap.getElem?_erase] at hx
    split at hx
    · cases hx
    · exact h.oldest x time hx

/-- What `_pop` leaves of the graph. -/
theorem Coherent.graphWithout (hg : g.Lawful) (h : Coherent g s) :
    g.sound (s.graphWithout g w) ∧
      ∀ x, g.feerate? (s.graphWithout g w) x = if w = x then none else g.feerate? s.graph x := by
  unfold Mempool.graphWithout
  split
  · rename_i hin
    obtain ⟨gr, hgr, hsound, hfee, -⟩ := hg.removeTransaction s.graph w h.sound hin
    rw [hgr, Option.getD_some]
    exact ⟨hsound, hfee⟩
  · rename_i hout
    refine ⟨h.sound, fun x => ?_⟩
    by_cases hx : w = x
    · rw [if_pos hx, ← hx]
      exact Option.not_isSome_iff_eq_none.mp hout
    · rw [if_neg hx]

theorem Coherent.popped (hg : g.Lawful) (h : Coherent g s) (hw : s.transactions[w]? = some tx)
    (notify : Bool) : Coherent g (s.popped g w tx notify) where
  toIndexed := h.toIndexed.popped hw notify
  sound := (Coherent.graphWithout hg h).1
  graph x feerate := by
    show g.feerate? (s.graphWithout g w) x = _ ↔ ∃ fee weight,
      (s.modifiedFees.erase w)[x]? = _ ∧ (s.weights.erase w)[x]? = _ ∧ _
    rw [(Coherent.graphWithout hg h).2, FiniteMap.getElem?_erase, FiniteMap.getElem?_erase]
    by_cases hx : w = x
    · simp [hx]
    · simp only [if_neg hx]
      exact h.graph x feerate

/-- **`_pop` of a held transaction returns it** and leaves the mempool coherent. -/
theorem Coherent.pop (hg : g.Lawful) (h : Coherent g s) (hw : s.transactions[w]? = some tx)
    (notify : Bool) : pop g w notify s = .ok tx (s.popped g w tx notify) := by
  refine pop_eq (h.poppable hw ?_) notify
  intro hin
  obtain ⟨gr, hgr, -⟩ := hg.removeTransaction s.graph w h.sound hin
  rw [hgr]
  rfl

/-! ## An entry in -/

/-- What `_insert` may be asked to enter: neither its txid nor its wtxid is held, no outpoint it
spends is spent, and it does not spend itself. -/
structure Enters (s : Mempool γ) (tx : MempoolTx) : Prop where
  id : tx.id ∉ s.txidIndex
  hash : tx.hash ∉ s.transactions
  nodup : tx.vin.Nodup
  other : tx.id ∉ tx.vin.map PrevOut.txId
  unspent : ∀ o ∈ tx.vin, o ∉ s.outpointSpender

section Entered

variable {now : ℚ} {fee : ℤ} {vsize weight : Option ℕ} {height : ℕ} {bypassLimits : Bool}

theorem entered_transactions_iff {tx' : MempoolTx} :
    (s.entered now tx fee vsize height weight bypassLimits).transactions[x]? = some tx' ↔
      if tx.hash = x then tx = tx' else s.transactions[x]? = some tx' := by
  show (s.transactions.insert tx.hash tx)[x]? = _ ↔ _
  rw [FiniteMap.getElem?_insert]
  split <;> simp

/-- **An entry that goes in leaves the indexes in agreement.** -/
theorem Indexed.entered (h : Indexed s) (he : Enters s tx)
    (hpos : 0 < weight.getD (weightOf tx vsize)) :
    Indexed (s.entered now tx fee vsize height weight bypassLimits) := by
  have hid : s.txidIndex[tx.id]? = none := (FiniteMap.notMem_iff _ _).mp he.id
  have hheld : s.transactions[tx.hash]? = none := (FiniteMap.notMem_iff _ _).mp he.hash
  have hold : ∀ {x : Txid} {tx' : MempoolTx}, s.transactions[x]? = some tx' → tx.hash ≠ x := by
    rintro x tx' hx rfl
    rw [hheld] at hx
    cases hx
  refine {
    hash := ?_
    nodup := ?_
    txids := ?_
    txidIndex := ?_
    fees := h.fees.insert _ _ _
    modifiedFees := h.modifiedFees.insert _ _ _
    vsizes := h.vsizes.insert _ _ _
    weights := h.weights.insert _ _ _
    weights_pos := ?_
    entryTimes := h.entryTimes.insert _ _ _
    heights := h.heights.insert _ _ _
    entrySequences := h.entrySequences.insert _ _ _
    unbroadcast := ?_
    outpointSpender := ?_
    spentBy := ?_
    spentBy_nonempty := ?_
    size := ?_
    bytesize := ?_
    oldest := ?_ }
  · intro x tx' hx
    rw [entered_transactions_iff] at hx
    split at hx
    · rename_i heq
      rw [← hx, heq]
    · exact h.hash x tx' hx
  · intro x tx' hx
    rw [entered_transactions_iff] at hx
    split at hx
    · exact hx ▸ he.nodup
    · exact h.nodup x tx' hx
  · intro x
    show (s.txids.insert tx.hash tx.id)[x]? = (s.transactions.insert tx.hash tx)[x]?.map _
    rw [FiniteMap.getElem?_insert, FiniteMap.getElem?_insert, h.txids x]
    split <;> rfl
  · intro t x
    show (s.txidIndex.insert tx.id tx.hash)[t]? = _ ↔ (s.txids.insert tx.hash tx.id)[x]? = _
    rw [FiniteMap.getElem?_insert, FiniteMap.getElem?_insert]
    have hback := h.txidIndex t x
    by_cases ht : tx.id = t <;> by_cases hx : tx.hash = x
    · simp [ht, hx]
    · -- nothing held has the txid that enters
      rw [if_pos ht, if_neg hx, ← hback, ← ht, hid]
      simpa using hx
    · rw [if_neg ht, if_pos hx, hback, h.txids x, ← hx, hheld]
      simpa using ht
    · rw [if_neg ht, if_neg hx, hback]
  · intro x n hx
    change (s.weights.insert tx.hash _)[x]? = some n at hx
    rw [FiniteMap.getElem?_insert] at hx
    split at hx
    · rw [Option.some.injEq] at hx
      exact hx ▸ hpos
    · exact h.weights_pos x n hx
  · intro t ht
    show t ∈ s.txidIndex.insert tx.id tx.hash
    exact Std.ExtTreeMap.mem_insert.mpr (.inr (h.unbroadcast t ht))
  · intro o x
    show (tx.vin.foldl (fun m vin => m.insert vin tx.hash) s.outpointSpender)[o]? = _ ↔ _
    simp only [entered_transactions_iff]
    rw [FiniteMap.getElem?_foldl_insert_list]
    have hback := h.outpointSpender o x
    by_cases ho : o ∈ tx.vin
    · rw [if_pos ho, Option.some.injEq]
      constructor
      · intro heq
        exact ⟨tx, by rw [if_pos heq], ho⟩
      · rintro ⟨tx', hx, ho'⟩
        split at hx
        · assumption
        · -- a held spender of what `tx` spends would be in the index
          refine absurd ?_ (he.unspent o ho)
          rw [FiniteMap.mem_iff_exists]
          exact ⟨x, hback.mpr ⟨tx', hx, ho'⟩⟩
    · rw [if_neg ho, hback]
      constructor
      · rintro ⟨tx', hx, ho'⟩
        exact ⟨tx', by rwa [if_neg (hold hx)], ho'⟩
      · rintro ⟨tx', hx, ho'⟩
        split at hx
        · exact absurd (hx ▸ ho') ho
        · exact ⟨tx', hx, ho'⟩
  · intro t x
    show (∃ ws, (tx.vin.foldl (addSpender tx.hash) s.spentBy)[t]? = some ws ∧ x ∈ ws) ↔ _
    simp only [entered_transactions_iff, getElem?_foldl_addSpender]
    have hback := h.spentBy t x
    by_cases ht : t ∈ tx.vin.map PrevOut.txId
    · simp only [if_pos ht, Option.some.injEq, exists_eq_left', FiniteMap.mem_insert]
      constructor
      · rintro (heq | hmem)
        · exact ⟨tx, by rw [if_pos heq], ht⟩
        · cases hws : s.spentBy[t]? with
          | none => rw [hws] at hmem; simp at hmem
          | some ws =>
            rw [hws, Option.getD_some] at hmem
            obtain ⟨tx', hx, ht'⟩ := hback.mp ⟨ws, hws, hmem⟩
            exact ⟨tx', by rwa [if_neg (hold hx)], ht'⟩
      · rintro ⟨tx', hx, ht'⟩
        split at hx
        · left
          assumption
        · obtain ⟨ws, hws, hmem⟩ := hback.mpr ⟨tx', hx, ht'⟩
          rw [hws]
          exact .inr hmem
    · simp only [if_neg ht]
      rw [hback]
      constructor
      · rintro ⟨tx', hx, ht'⟩
        exact ⟨tx', by rwa [if_neg (hold hx)], ht'⟩
      · rintro ⟨tx', hx, ht'⟩
        split at hx
        · exact absurd (hx ▸ ht') ht
        · exact ⟨tx', hx, ht'⟩
  · intro t ws hws
    change (tx.vin.foldl (addSpender tx.hash) s.spentBy)[t]? = some ws at hws
    rw [getElem?_foldl_addSpender] at hws
    split at hws
    · rw [Option.some.injEq] at hws
      rw [← hws, ← Bool.not_eq_true, Std.ExtTreeSet.isEmpty_iff]
      intro hempty
      have hmem := (FiniteMap.mem_insert (s.spentBy[t]?.getD ∅) tx.hash tx.hash).mpr (.inl rfl)
      rw [hempty] at hmem
      exact absurd hmem (by simp)
    · exact h.spentBy_nonempty t ws hws
  · show s.size + 1 = ((s.transactions.insert tx.hash tx).size : ℕ)
    rw [size_insert_of_notMem _ he.hash, h.size]
    rfl
  · show s.bytesize + _ = (total (s.vsizes.insert tx.hash (vsize.getD tx.vsize)) : ℕ)
    rw [total_insert _ ((h.vsizes _).not.mpr he.hash), h.bytesize]
    omega
  · intro x time hx
    change (s.entryTimes.insert tx.hash now)[x]? = some time at hx
    show min s.oldestEntryTime (now : WithTop ℚ) ≤ _
    rw [FiniteMap.getElem?_insert] at hx
    split at hx
    · rw [Option.some.injEq] at hx
      exact hx ▸ min_le_right _ _
    · exact (min_le_left _ _).trans (h.oldest x time hx)

/-! ## An entry in the graph -/

/-- The graph once the entry, which nothing is built on, is linked to what it spends. -/
theorem addDependencies_spec (hg : g.Lawful) {parents : List Txid} (hs : g.sound s.graph)
    (hw : (g.feerate? s.graph w).isSome) (hp : ∀ p ∈ parents, (g.feerate? s.graph p).isSome)
    (hself : w ∉ parents) (hleaf : ∀ y, ¬ g.depends s.graph w y) :
    ∃ gr, addDependencies g w parents s = .ok () { s with graph := gr } ∧ g.sound gr ∧
      (∀ x, g.feerate? gr x = g.feerate? s.graph x) ∧
      ∀ x y, g.depends gr x y ↔
        g.depends s.graph x y ∨ y = w ∧ ∃ p ∈ parents, x = p ∨ g.depends s.graph x p := by
  induction parents generalizing s with
  | nil => exact ⟨s.graph, rfl, hs, fun _ => rfl, by simp⟩
  | cons p parents ih =>
    rw [List.mem_cons, not_or] at hself
    obtain ⟨gr, hgr, hs', hfee, hdep⟩ := hg.addDependency s.graph p w hs
      (hp p List.mem_cons_self) hw (Ne.symm hself.1) (hleaf p)
    have hdep : ∀ x y, g.depends gr x y ↔
        g.depends s.graph x y ∨ (x = p ∨ g.depends s.graph x p) ∧ y = w := by
      intro x y
      rw [hdep]
      simp [hleaf y]
    have hleaf' : ∀ y, ¬ g.depends gr w y := by
      intro y hy
      rcases (hdep w y).mp hy with hy | ⟨heq | hy, -⟩
      · exact hleaf y hy
      · exact hself.1 heq
      · exact hleaf p hy
    obtain ⟨gr', hrest, hsound, hfee', hdep'⟩ := ih (s := { s with graph := gr }) hs' (by rwa [hfee])
      (fun q hq => by rw [hfee]; exact hp q (List.mem_cons_of_mem _ hq)) hself.2 hleaf'
    refine ⟨gr', Sat.eq_ok ?_, hsound, fun x => (hfee' x).trans (hfee x), fun x y => ?_⟩
    · rw [addDependencies, sat_bind, sat_get, hgr, sat_bind_of_ok (walked_some gr s), sat_bind,
        sat_modify, sat_of_ok hrest]
      exact ⟨rfl, rfl⟩
    · -- the links made so far end in `w`, so they do not reach another parent
      have hparent : ∀ q ∈ parents, (g.depends gr x q ↔ g.depends s.graph x q) := by
        intro q hq
        rw [hdep]
        have hqw : q ≠ w := fun heq => hself.2 (heq ▸ hq)
        simp [hqw]
      rw [hdep' x y]
      show g.depends gr x y ∨ y = w ∧ (∃ q ∈ parents, x = q ∨ g.depends gr x q) ↔ _
      rw [hdep]
      constructor
      · rintro ((hy | ⟨hx, rfl⟩) | ⟨rfl, q, hq, hx⟩)
        · exact .inl hy
        · exact .inr ⟨rfl, p, List.mem_cons_self, hx⟩
        · exact .inr ⟨rfl, q, List.mem_cons_of_mem _ hq, hx.imp_right (hparent q hq).mp⟩
      · rintro (hy | ⟨rfl, q, hq, hx⟩)
        · exact .inl (.inl hy)
        · rcases List.mem_cons.mp hq with rfl | hq
          · exact .inl (.inr ⟨hx, rfl⟩)
          · exact .inr ⟨rfl, q, hq, hx.imp_right (hparent q hq).mpr⟩

theorem mem_parents {s : Mempool γ} {p : Txid} :
    p ∈ s.parents tx ↔ ∃ o ∈ tx.vin, s.txidIndex[o.txId]? = some p := by
  unfold parents
  rw [List.mem_reverse, List.mem_dedup, List.mem_reverse, List.mem_filterMap]

/-- What the graph holds is what the mempool holds. -/
theorem Coherent.mem_graph_iff (h : Coherent g s) :
    (g.feerate? s.graph w).isSome ↔ w ∈ s.transactions := by
  rw [Option.isSome_iff_exists, ← h.modifiedFees w]
  constructor
  · rintro ⟨feerate, hf⟩
    obtain ⟨fee, weight, hfee, -, -⟩ := (h.graph w feerate).mp hf
    exact (FiniteMap.mem_iff_exists _ _).mpr ⟨fee, hfee⟩
  · intro hw
    obtain ⟨fee, hfee⟩ := (FiniteMap.mem_iff_exists _ _).mp hw
    obtain ⟨weight, hweight⟩ := (FiniteMap.mem_iff_exists _ _).mp
      ((h.weights w).mpr ((h.modifiedFees w).mp hw))
    exact ⟨_, (h.graph w _).mpr ⟨fee, weight, hfee, hweight, rfl⟩⟩

/-- Coherence reads the graph by what it holds. -/
theorem Coherent.withGraph {gr : γ} (h : Coherent g s) (hsound : g.sound gr)
    (hfee : ∀ x, g.feerate? gr x = g.feerate? s.graph x) : Coherent g { s with graph := gr } where
  toIndexed := { h.toIndexed with }
  sound := hsound
  graph x feerate := by
    show g.feerate? gr x = _ ↔ _
    rw [hfee x]
    exact h.graph x feerate

/-- **`_insert` of what may enter does not raise**, leaves the mempool coherent, and makes the
graph build the entry on what it spends. -/
theorem Coherent.insert (hg : g.Lawful) (h : Coherent g s) (he : Enters s tx)
    (hpos : 0 < weight.getD (weightOf tx vsize)) :
    ∃ gr, Mempool.insert g now tx fee vsize height weight true bypassLimits s =
        .ok () { s.entered now tx fee vsize height weight bypassLimits with graph := gr } ∧
      Coherent g { s.entered now tx fee vsize height weight bypassLimits with graph := gr } ∧
      ∀ x y, g.depends gr x y ↔ g.depends s.graph x y ∨
        y = tx.hash ∧ ∃ p ∈ s.parents tx, x = p ∨ g.depends s.graph x p := by
  have hindexed : Indexed (s.entered now tx fee vsize height weight bypassLimits) :=
    h.toIndexed.entered he hpos
  have hheld : ¬ (g.feerate? s.graph tx.hash).isSome := by
    rw [h.mem_graph_iff]
    exact he.hash
  generalize hent : s.entered now tx fee vsize height weight bypassLimits = t at hindexed ⊢
  have hgraph : t.graph = s.graph := by rw [← hent]; rfl
  have hdelta : t.delta tx.id = s.delta tx.id := by rw [← hent]; rfl
  have hindex : t.txidIndex = s.txidIndex.insert tx.id tx.hash := by rw [← hent]; rfl
  have hfees : t.modifiedFees = s.modifiedFees.insert tx.hash (saturate (fee + s.delta tx.id)) := by
    rw [← hent]; rfl
  have hweights : t.weights = s.weights.insert tx.hash (weight.getD (weightOf tx vsize)) := by
    rw [← hent]; rfl
  -- the transaction is added, then linked to the held transactions it spends
  let fr : FeeFrac := ⟨saturate (fee + t.delta tx.id), (weight.getD (weightOf tx vsize) : ℕ)⟩
  let added : Mempool γ := { t with graph := g.addTransaction tx.hash fr tx.id.internal t.graph }
  obtain ⟨hsound, hgets, hkept⟩ := hg.addTransaction t.graph tx.hash fr tx.id.internal
    (hgraph ▸ h.sound) (by rw [hgraph]; exact Option.not_isSome_iff_eq_none.mp hheld)
    (Int.natCast_pos.mpr hpos)
  have hadded : ∀ x, g.feerate? added.graph x =
      if tx.hash = x then some fr else g.feerate? s.graph x := by
    intro x
    show g.feerate? (g.addTransaction tx.hash fr tx.id.internal t.graph) x = _
    rw [hgets, hgraph]
  have hdepends : ∀ x y, g.depends added.graph x y ↔ g.depends s.graph x y := by
    intro x y
    show g.depends (g.addTransaction tx.hash fr tx.id.internal t.graph) x y ↔ _
    rw [hkept, hgraph]
  have hcoherent : Coherent g added := by
    refine { toIndexed := { hindexed with }, sound := hsound, graph := fun x feerate => ?_ }
    rw [hadded]
    show _ ↔ ∃ fee weight, t.modifiedFees[x]? = _ ∧ t.weights[x]? = _ ∧ _
    rw [hfees, hweights, FiniteMap.getElem?_insert, FiniteMap.getElem?_insert]
    by_cases hx : tx.hash = x
    · simp only [if_pos hx, Option.some.injEq, exists_and_left, exists_eq_left']
      rw [← hdelta]
      exact eq_comm
    · simp only [if_neg hx]
      exact h.graph x feerate
  -- what enters is not a parent of its own
  have hmem : ∀ p, p ∈ added.parents tx ↔ p ∈ s.parents tx := by
    intro p
    rw [mem_parents, mem_parents]
    refine exists_congr fun o => and_congr_right fun ho => ?_
    show t.txidIndex[o.txId]? = _ ↔ _
    have hne : tx.id ≠ o.txId := fun heq => he.other (heq ▸ List.mem_map_of_mem ho)
    rw [hindex, FiniteMap.getElem?_insert_ne _ _ hne]
  have hparents : ∀ p ∈ s.parents tx, p ∈ s.transactions := by
    intro p hp
    obtain ⟨o, -, ho⟩ := mem_parents.mp hp
    obtain ⟨tx', hp', -⟩ := h.held_of_index ho
    exact (FiniteMap.mem_iff_exists _ _).mpr ⟨tx', hp'⟩
  obtain ⟨gr, hgr, hsound', hfee, hdep⟩ := addDependencies_spec (s := added) (w := tx.hash) hg hsound
    (by rw [hadded, if_pos rfl]; rfl)
    (fun p hp => by
      rw [hadded]
      split
      · rfl
      · exact h.mem_graph_iff.mpr (hparents p ((hmem p).mp hp)))
    (fun hself => he.hash (hparents _ ((hmem _).mp hself)))
    (fun y hy => hheld (hg.held _ _ _ h.sound ((hdepends _ _).mp hy)).1)
  refine ⟨gr, Sat.eq_ok ?_, hcoherent.withGraph hsound' hfee, fun x y => ?_⟩
  · unfold Mempool.insert
    rw [sat_bind, sat_modify, hent, if_pos rfl, sat_bind, sat_modify, sat_bind, sat_get,
      sat_of_ok hgr]
    exact ⟨rfl, rfl⟩
  · rw [hdep, hdepends]
    refine or_congr_right (and_congr_right fun _ => exists_congr fun p => ?_)
    rw [hmem, hdepends]

end Entered

end Mempool

end BtclibNode
