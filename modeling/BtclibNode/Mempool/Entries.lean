/-
# One entry in and out

What `_pop` needs not to raise and what it leaves, and what every index answers after an entry
goes in or out.
-/
import BtclibNode.Mempool.Methods

namespace BtclibNode

namespace Mempool

open StateExcept

variable {γ : Type} {g : ClusterGraph γ} {s : Mempool γ} {w x : Txid} {tx : MempoolTx}

@[simp] theorem walked_some {α : Type} (a : α) (s : Mempool γ) : walked (some a) s = .ok a s := rfl

/-! ## The folds over the inputs -/

theorem getElem?_addSpender (m : Std.ExtTreeMap Txid (Std.ExtTreeSet Txid)) (vin : PrevOut)
    (t : Txid) :
    (addSpender w m vin)[t]? =
      if vin.txId = t then some (Std.ExtTreeSet.insert (m[t]?.getD ∅) w) else m[t]? := by
  unfold addSpender
  rw [FiniteMap.getElem?_insert]
  split
  · rename_i h
    rw [h]
  · rfl

/-- The spenders of what is spent gain `w`. -/
theorem getElem?_foldl_addSpender (vins : List PrevOut)
    (m : Std.ExtTreeMap Txid (Std.ExtTreeSet Txid)) (t : Txid) :
    (vins.foldl (addSpender w) m)[t]? =
      if t ∈ vins.map PrevOut.txId then some (Std.ExtTreeSet.insert (m[t]?.getD ∅) w) else m[t]? := by
  induction vins generalizing m with
  | nil => simp
  | cons vin vins ih =>
    rw [List.foldl_cons, ih, getElem?_addSpender]
    by_cases hvin : vin.txId = t
    · -- a second input of the same transaction adds nothing
      have hagain : ((m[t]?.getD (∅ : Std.ExtTreeSet Txid)).insert w).insert w = (m[t]?.getD ∅).insert w := by
        apply FiniteMap.set_ext
        intro a
        simp only [FiniteMap.mem_insert]
        tauto
      have hmem : t ∈ (vin :: vins).map PrevOut.txId := List.mem_map.mpr ⟨vin, List.mem_cons_self, hvin⟩
      rw [if_pos hvin, Option.getD_some, hagain, ite_self, if_pos hmem]
    · rw [if_neg hvin]
      have hiff : t ∈ (vin :: vins).map PrevOut.txId ↔ t ∈ vins.map PrevOut.txId := by
        simp [Ne.symm hvin]
      by_cases h : t ∈ vins.map PrevOut.txId
      · rw [if_pos h, if_pos (hiff.mpr h)]
      · rw [if_neg h, if_neg (hiff.not.mpr h)]

/-- What is left of a set of spenders, of which an empty one is not kept. -/
def spendersWithout (w : Txid) (ws : Std.ExtTreeSet Txid) : Option (Std.ExtTreeSet Txid) :=
  if (ws.erase w).isEmpty then none else some (ws.erase w)

theorem getElem?_dropSpender (m : Std.ExtTreeMap Txid (Std.ExtTreeSet Txid)) (txid t : Txid)
    (ws : Std.ExtTreeSet Txid) :
    (dropSpender w m txid ws)[t]? = if txid = t then spendersWithout w ws else m[t]? := by
  unfold dropSpender spendersWithout
  split <;> rename_i h
  · rw [FiniteMap.getElem?_erase]
  · rw [FiniteMap.getElem?_insert]

/-- `spent_by` after the loop of `_pop`. -/
def dropSpenders (w : Txid) (txids : List Txid) (m : Std.ExtTreeMap Txid (Std.ExtTreeSet Txid)) :
    Std.ExtTreeMap Txid (Std.ExtTreeSet Txid) :=
  txids.foldl (fun m t => dropSpender w m t (m[t]?.getD ∅)) m

theorem getElem?_dropSpenders {txids : List Txid} (hnodup : txids.Nodup)
    (m : Std.ExtTreeMap Txid (Std.ExtTreeSet Txid)) (t : Txid) :
    (dropSpenders w txids m)[t]? =
      if t ∈ txids then spendersWithout w (m[t]?.getD ∅) else m[t]? := by
  unfold dropSpenders
  induction txids generalizing m with
  | nil => simp
  | cons txid txids ih =>
    rw [List.nodup_cons] at hnodup
    rw [List.foldl_cons, ih hnodup.2, getElem?_dropSpender]
    by_cases h : txid = t
    · subst h
      rw [if_neg hnodup.1, if_pos rfl, if_pos List.mem_cons_self]
    · rw [if_neg h]
      have hiff : t ∈ txid :: txids ↔ t ∈ txids := by simp [Ne.symm h]
      by_cases ht : t ∈ txids
      · rw [if_pos ht, if_pos (hiff.mpr ht)]
      · rw [if_neg ht, if_neg (hiff.not.mpr ht)]

/-! ## `_pop` -/

/-- What `_pop` finds where it does not raise. -/
structure Poppable (g : ClusterGraph γ) (s : Mempool γ) (w : Txid) (tx : MempoolTx) : Prop where
  transaction : s.transactions[w]? = some tx
  txid : s.txids[w]? = some tx.id
  vsize : w ∈ s.vsizes
  weight : w ∈ s.weights
  sequence : w ∈ s.entrySequences
  nodup : tx.vin.Nodup
  outpoints : ∀ o ∈ tx.vin, o ∈ s.outpointSpender
  spenders : ∀ o ∈ tx.vin, o.txId ∈ s.spentBy
  graph : (g.feerate? s.graph w).isSome → (g.removeTransaction w s.graph).isSome

/-- The graph `_pop` leaves. -/
def graphWithout (g : ClusterGraph γ) (s : Mempool γ) (w : Txid) : γ :=
  if (g.feerate? s.graph w).isSome then (g.removeTransaction w s.graph).getD s.graph else s.graph

/-- The state `_pop` leaves. -/
def popped (g : ClusterGraph γ) (s : Mempool γ) (w : Txid) (tx : MempoolTx) (notify : Bool) :
    Mempool γ :=
  { s with
    transactions := s.transactions.erase w
    txidIndex := s.txidIndex.erase tx.id
    txids := s.txids.erase w
    fees := s.fees.erase w
    modifiedFees := s.modifiedFees.erase w
    vsizes := s.vsizes.erase w
    weights := s.weights.erase w
    graph := s.graphWithout g w
    entryTimes := s.entryTimes.erase w
    heights := s.heights.erase w
    entrySequences := s.entrySequences.erase w
    unbroadcast := s.unbroadcast.erase tx.id
    spentBy := dropSpenders w (tx.vin.map PrevOut.txId).dedup s.spentBy
    outpointSpender := tx.vin.foldl (fun m o => m.erase o) s.outpointSpender
    size := s.size - 1
    bytesize := s.bytesize - (s.vsizes[w]?.getD 0 : ℕ)
    sequence := s.sequence + 1
    transactionsUpdated := s.transactionsUpdated + 1
    removalListener := if notify then tx.id :: s.removalListener else s.removalListener }

theorem popKey_eq {α β : Type} [Ord α] [Std.TransOrd α] {read : Mempool γ → Std.ExtTreeMap α β}
    {write : Std.ExtTreeMap α β → Mempool γ → Mempool γ} {k : α} {b : β}
    (h : (read s)[k]? = some b) : popKey read write k s = .ok b (write ((read s).erase k) s) := by
  refine Sat.eq_ok ?_
  unfold popKey
  rw [sat_bind, sat_get, h]
  exact ⟨rfl, rfl⟩

theorem sat_popKey_bind {α β ρ : Type} [Ord α] [Std.TransOrd α]
    {read : Mempool γ → Std.ExtTreeMap α β} {write : Std.ExtTreeMap α β → Mempool γ → Mempool γ}
    {k : α} {b : β} {f : β → MempoolM γ ρ} {Q : ρ → Mempool γ → Prop}
    {E : MempoolError → Mempool γ → Prop} (h : (read s)[k]? = some b)
    (hf : Sat (f b) (write ((read s).erase k) s) Q E) : Sat (popKey read write k >>= f) s Q E :=
  (sat_bind_of_ok (popKey_eq h)).mpr hf

theorem delOutpoints_eq {vins : List PrevOut} (hnodup : vins.Nodup)
    (h : ∀ o ∈ vins, o ∈ s.outpointSpender) :
    delOutpoints vins s =
      .ok () { s with outpointSpender := vins.foldl (fun m o => m.erase o) s.outpointSpender } := by
  induction vins generalizing s with
  | nil => rfl
  | cons vin vins ih =>
    rw [List.nodup_cons] at hnodup
    obtain ⟨w, hw⟩ := (FiniteMap.mem_iff_exists _ _).mp (h vin List.mem_cons_self)
    refine Sat.eq_ok ?_
    rw [delOutpoints, sat_bind_of_ok (popKey_eq hw), sat_of_ok (ih hnodup.2 ?_)]
    · exact ⟨rfl, rfl⟩
    · intro o ho
      have hne : vin ≠ o := fun heq => hnodup.1 (heq ▸ ho)
      have hmem := h o (List.mem_cons_of_mem _ ho)
      rw [FiniteMap.mem_iff_exists] at hmem ⊢
      rwa [FiniteMap.getElem?_erase_ne _ hne]

theorem discardSpender_eq {txids : List Txid} (hnodup : txids.Nodup)
    (h : ∀ t ∈ txids, t ∈ s.spentBy) :
    discardSpender w txids s = .ok () { s with spentBy := dropSpenders w txids s.spentBy } := by
  induction txids generalizing s with
  | nil => rfl
  | cons txid txids ih =>
    rw [List.nodup_cons] at hnodup
    obtain ⟨ws, hws⟩ := (FiniteMap.mem_iff_exists _ _).mp (h txid List.mem_cons_self)
    refine Sat.eq_ok ?_
    rw [discardSpender, sat_bind, sat_get, hws, sat_bind_of_ok (walked_some ws s), sat_bind,
      sat_modify, sat_of_ok (ih hnodup.2 ?_)]
    · refine ⟨rfl, ?_⟩
      unfold dropSpenders
      rw [List.foldl_cons, hws]
      rfl
    · intro t ht
      have hne : txid ≠ t := fun heq => hnodup.1 (heq ▸ ht)
      have hmem := h t (List.mem_cons_of_mem _ ht)
      rw [FiniteMap.mem_iff_exists] at hmem ⊢
      rwa [getElem?_dropSpender, if_neg hne]

theorem popGraph_eq (h : (g.feerate? s.graph w).isSome → (g.removeTransaction w s.graph).isSome) :
    popGraph g w s = .ok () { s with graph := s.graphWithout g w } := by
  refine Sat.eq_ok ?_
  unfold popGraph graphWithout
  rw [sat_bind, sat_get]
  split
  · rename_i hin
    obtain ⟨gr, hgr⟩ := Option.isSome_iff_exists.mp (h hin)
    rw [hgr]
    exact ⟨rfl, rfl⟩
  · exact ⟨rfl, rfl⟩

/-- **`_pop` of what every index has returns it**, and takes it out of every index. -/
theorem pop_eq (h : Poppable g s w tx) (notify : Bool) :
    pop g w notify s = .ok tx (s.popped g w tx notify) := by
  obtain ⟨vsize, hvsize⟩ := (FiniteMap.mem_iff_exists _ _).mp h.vsize
  obtain ⟨weight, hweight⟩ := (FiniteMap.mem_iff_exists _ _).mp h.weight
  obtain ⟨seq, hseq⟩ := (FiniteMap.mem_iff_exists _ _).mp h.sequence
  have hspent : ∀ t ∈ (tx.vin.map PrevOut.txId).dedup, t ∈ s.spentBy := by
    intro t ht
    obtain ⟨o, ho, hot⟩ := List.mem_map.mp (List.mem_dedup.mp ht)
    rw [← hot]
    exact h.spenders o ho
  refine Sat.eq_ok ?_
  unfold pop
  refine sat_popKey_bind h.transaction (sat_popKey_bind h.txid ?_)
  rw [sat_bind, sat_modify]
  refine sat_popKey_bind hvsize (sat_popKey_bind hweight ?_)
  refine (sat_bind_of_ok (popGraph_eq ?_)).mpr ?_
  · exact h.graph
  rw [sat_bind, sat_modify]
  refine sat_popKey_bind hseq ?_
  rw [sat_bind, sat_modify]
  refine (sat_bind_of_ok (delOutpoints_eq h.nodup ?_)).mpr ?_
  · exact h.outpoints
  refine (sat_bind_of_ok (discardSpender_eq (List.nodup_dedup _) ?_)).mpr ?_
  · exact hspent
  rw [sat_bind, sat_modify]
  refine ⟨rfl, ?_⟩
  simp only [popped, graphWithout, hvsize, Option.getD_some]

end Mempool

end BtclibNode
