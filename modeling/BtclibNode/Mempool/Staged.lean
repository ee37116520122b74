/-
# Staging leaves no trace

`Mempool.staged` enters a transaction as `add_tx` does and takes it out with `_pop`, whichever way
the block ends.  What it finds when it takes it out is what it entered, so that every index,
counter and set is back to what it was; a transaction that spends an outpoint twice is the one
that cannot be taken out.
-/
import BtclibNode.Mempool.Coherent

namespace BtclibNode

namespace Mempool

open StateExcept

variable {γ : Type} {g : ClusterGraph γ} {s t : Mempool γ} {w x : Txid} {tx : MempoolTx}

/-- The state is what it was, but that the bound on the entry times may be lower. -/
structure Restored (s t : Mempool γ) : Prop where
  eq : t = { s with oldestEntryTime := t.oldestEntryTime }
  oldest : t.oldestEntryTime ≤ s.oldestEntryTime

theorem Restored.refl (s : Mempool γ) : Restored s s := ⟨rfl, le_rfl⟩

/-! ## What may be staged -/

/-- No index has an entry of `tx`. -/
structure Stageable (g : ClusterGraph γ) (s : Mempool γ) (tx : MempoolTx) : Prop where
  transactions : s.transactions[tx.hash]? = none
  txids : s.txids[tx.hash]? = none
  txidIndex : s.txidIndex[tx.id]? = none
  fees : s.fees[tx.hash]? = none
  modifiedFees : s.modifiedFees[tx.hash]? = none
  vsizes : s.vsizes[tx.hash]? = none
  weights : s.weights[tx.hash]? = none
  entryTimes : s.entryTimes[tx.hash]? = none
  heights : s.heights[tx.hash]? = none
  entrySequences : s.entrySequences[tx.hash]? = none
  unbroadcast : tx.id ∉ s.unbroadcast
  spentBy : ∀ (t : Txid) (ws : Std.ExtTreeSet Txid), s.spentBy[t]? = some ws → tx.hash ∉ ws
  spentBy_nonempty : ∀ (t : Txid) (ws : Std.ExtTreeSet Txid), s.spentBy[t]? = some ws → ws.isEmpty = false
  graph : g.feerate? s.graph tx.hash = none

/-- A transaction whose txid is not held may be staged, its wtxid being of no other txid. -/
theorem Coherent.stageable (h : Coherent g s) (hid : tx.id ∉ s.txidIndex)
    (hhash : ∀ (w : Txid) (held : MempoolTx), s.transactions[w]? = some held → held.hash = tx.hash → held.id = tx.id) :
    Stageable g s tx := by
  have hheld : tx.hash ∉ s.transactions := by
    intro hmem
    obtain ⟨held, hw⟩ := (FiniteMap.mem_iff_exists _ _).mp hmem
    have hsame := hhash _ held hw (h.hash _ held hw)
    exact hid ((FiniteMap.mem_iff_exists _ _).mpr ⟨_, hsame ▸ h.index_of_held hw⟩)
  have hnone : ∀ {α : Type} {m : Std.ExtTreeMap Txid α}, SameKeys m s.transactions →
      m[tx.hash]? = none := fun hk => (FiniteMap.notMem_iff _ _).mp ((hk _).not.mpr hheld)
  have htx := (FiniteMap.notMem_iff _ _).mp hheld
  refine ⟨htx, by rw [h.txids, htx]; rfl, (FiniteMap.notMem_iff _ _).mp hid, hnone h.fees,
    hnone h.modifiedFees, hnone h.vsizes, hnone h.weights, hnone h.entryTimes, hnone h.heights,
    hnone h.entrySequences, fun hmem => hid (h.unbroadcast _ hmem), ?_, h.spentBy_nonempty, ?_⟩
  · intro t ws hws hmem
    obtain ⟨tx', hx, -⟩ := (h.spentBy t tx.hash).mp ⟨ws, hws, hmem⟩
    rw [htx] at hx
    cases hx
  · rw [← Option.not_isSome_iff_eq_none, h.mem_graph_iff]
    exact hheld

/-- What is staged leaves room for the next one, of another txid and wtxid. -/
theorem Stageable.entered {tx' : MempoolTx} (h : Stageable g s tx') (hid : tx.id ≠ tx'.id)
    (hhash : tx.hash ≠ tx'.hash) (now : ℚ) (fee : ℤ) (vsize weight : Option ℕ) :
    Stageable g (s.entered now tx fee vsize 0 weight false) tx' := by
  have hmap : ∀ {α : Type} (m : Std.ExtTreeMap Txid α) (a : α), m[tx'.hash]? = none →
      (m.insert tx.hash a)[tx'.hash]? = none := fun m a hm => by
    rw [FiniteMap.getElem?_insert_ne _ _ hhash, hm]
  refine ⟨hmap _ _ h.transactions, hmap _ _ h.txids, ?_, hmap _ _ h.fees, hmap _ _ h.modifiedFees,
    hmap _ _ h.vsizes, hmap _ _ h.weights, hmap _ _ h.entryTimes, hmap _ _ h.heights,
    hmap _ _ h.entrySequences, h.unbroadcast, ?_, ?_, h.graph⟩
  · show (s.txidIndex.insert tx.id tx.hash)[tx'.id]? = none
    rw [FiniteMap.getElem?_insert_ne _ _ hid, h.txidIndex]
  · intro t ws hws
    change (tx.vin.foldl (addSpender tx.hash) s.spentBy)[t]? = some ws at hws
    rw [getElem?_foldl_addSpender] at hws
    split at hws
    · rw [Option.some.injEq] at hws
      rw [← hws, FiniteMap.mem_insert]
      rintro (heq | hmem)
      · exact hhash heq
      · cases hold : s.spentBy[t]? with
        | none => rw [hold] at hmem; simp at hmem
        | some old =>
          rw [hold] at hmem
          exact h.spentBy t old hold hmem
    · exact h.spentBy t ws hws
  · intro t ws hws
    change (tx.vin.foldl (addSpender tx.hash) s.spentBy)[t]? = some ws at hws
    rw [getElem?_foldl_addSpender] at hws
    split at hws
    · rw [Option.some.injEq] at hws
      rw [← hws, ← Bool.not_eq_true, Std.ExtTreeSet.isEmpty_iff]
      intro hempty
      have hmem := (FiniteMap.mem_insert (s.spentBy[t]?.getD ∅) tx.hash tx.hash).mpr (.inl rfl)
      rw [hempty] at hmem
      exact absurd hmem (by simp)
    · exact h.spentBy_nonempty t ws hws

/-! ## Out again -/

section Unstage

variable {now : ℚ} {fee : ℤ} {vsize weight : Option ℕ}

/-- Nothing of what was entered is missing, whatever the block did to the bound. -/
theorem Stageable.poppable (h : Stageable g s tx) (hnodup : tx.vin.Nodup)
    (ht : Restored (s.entered now tx fee vsize 0 weight false) t) : Poppable g t tx.hash tx := by
  rw [ht.eq]
  have hself : ∀ {α : Type} (m : Std.ExtTreeMap Txid α) (a : α), tx.hash ∈ m.insert tx.hash a :=
    fun m a => Std.ExtTreeMap.mem_insert_self
  refine ⟨Std.ExtTreeMap.getElem?_insert_self, Std.ExtTreeMap.getElem?_insert_self, hself _ _,
    hself _ _, hself _ _, hnodup, ?_, ?_, ?_⟩
  · intro o ho
    show o ∈ tx.vin.foldl (fun m vin => m.insert vin tx.hash) s.outpointSpender
    rw [FiniteMap.mem_iff_exists, FiniteMap.getElem?_foldl_insert_list, if_pos ho]
    exact ⟨_, rfl⟩
  · intro o ho
    show o.txId ∈ tx.vin.foldl (addSpender tx.hash) s.spentBy
    rw [FiniteMap.mem_iff_exists, getElem?_foldl_addSpender, if_pos (List.mem_map_of_mem ho)]
    exact ⟨_, rfl⟩
  · intro hin
    change (g.feerate? s.graph tx.hash).isSome at hin
    rw [h.graph] at hin
    cases hin

/-- The spenders that were saved, written over what is there. -/
theorem getElem?_restore (m m' : Std.ExtTreeMap PrevOut Txid) (vins : List PrevOut) (o : PrevOut) :
    ((vins.filterMap fun vin => m'[vin]?.map (vin, ·)).foldl (fun m row => m.insert row.1 row.2)
      m)[o]? = if o ∈ vins then m'[o]?.or m[o]? else m[o]? := by
  induction vins generalizing m with
  | nil => simp
  | cons vin vins ih =>
    cases hv : m'[vin]? with
    | none =>
      rw [List.filterMap_cons_none (by rw [hv]; rfl), ih]
      by_cases ho : o ∈ vins
      · rw [if_pos ho, if_pos (List.mem_cons_of_mem _ ho)]
      · by_cases hvo : o = vin
        · rw [if_neg ho, if_pos (by simp [hvo]), hvo, hv]
          rfl
        · rw [if_neg ho, if_neg (by simp [ho, hvo])]
    | some w =>
      rw [List.filterMap_cons_some (b := (vin, w)) (by rw [hv]; rfl), List.foldl_cons, ih,
        FiniteMap.getElem?_insert]
      by_cases hvo : vin = o
      · subst hvo
        rw [if_pos rfl, if_pos List.mem_cons_self, hv]
        split <;> rfl
      · rw [if_neg hvo]
        by_cases ho : o ∈ vins
        · rw [if_pos ho, if_pos (List.mem_cons_of_mem _ ho)]
        · rw [if_neg ho, if_neg (by simp [ho, Ne.symm hvo])]

/-- Each outpoint has the spender it had, one of a conflict included. -/
theorem restore_outpoints (m : Std.ExtTreeMap PrevOut Txid) (vins : List PrevOut) (w : Txid) :
    ((vins.filterMap fun vin => m[vin]?.map (vin, ·)).foldl (fun m row => m.insert row.1 row.2)
      (vins.foldl (fun m o => m.erase o) (vins.foldl (fun m vin => m.insert vin w) m))) = m := by
  apply Std.ExtTreeMap.ext_getElem?
  intro o
  rw [getElem?_restore, FiniteMap.getElem?_foldl_erase_list, FiniteMap.getElem?_foldl_insert_list]
  by_cases ho : o ∈ vins
  · simp [ho]
  · simp [ho]

/-- Each txid has the spenders it had. -/
theorem restore_spenders {m : Std.ExtTreeMap Txid (Std.ExtTreeSet Txid)}
    (hout : ∀ (t : Txid) (ws : Std.ExtTreeSet Txid), m[t]? = some ws → w ∉ ws)
    (hne : ∀ (t : Txid) (ws : Std.ExtTreeSet Txid), m[t]? = some ws → ws.isEmpty = false)
    (vins : List PrevOut) :
    dropSpenders w (vins.map PrevOut.txId).dedup (vins.foldl (addSpender w) m) = m := by
  apply Std.ExtTreeMap.ext_getElem?
  intro t
  simp only [getElem?_dropSpenders (List.nodup_dedup _), getElem?_foldl_addSpender,
    List.mem_dedup]
  split
  · rw [Option.getD_some]
    have herase : ∀ ws : Std.ExtTreeSet Txid, w ∉ ws → (ws.insert w).erase w = ws := by
      intro ws hws
      apply FiniteMap.set_ext
      intro a
      rw [FiniteMap.mem_erase, FiniteMap.mem_insert]
      constructor
      · rintro ⟨hne, rfl | ha⟩
        · exact absurd rfl hne
        · exact ha
      · intro ha
        exact ⟨fun heq => hws (heq ▸ ha), .inr ha⟩
    unfold spendersWithout
    cases hws : m[t]? with
    | none =>
      rw [Option.getD_none, herase ∅ (by simp), if_pos (by simp)]
    | some ws =>
      rw [Option.getD_some, herase ws (hout t ws hws), if_neg (by simp [hne t ws hws])]
  · rfl

/-- **What `unstage` leaves is what there was.** -/
theorem Stageable.unstage (h : Stageable g s tx) (hnodup : tx.vin.Nodup)
    (ht : Restored (s.entered now tx fee vsize 0 weight false) t) :
    ∃ u, Mempool.unstage g s tx t = .ok () u ∧ Restored s u := by
  have hpop := pop_eq (h.poppable hnodup ht) false
  refine ⟨{ s with oldestEntryTime := t.oldestEntryTime }, Sat.eq_ok ?_, rfl,
    ht.oldest.trans (min_le_left _ _)⟩
  · unfold Mempool.unstage
    rw [sat_bind_of_ok hpop, sat_modify]
    refine ⟨rfl, ?_⟩
    have hunbroadcast : s.unbroadcast.erase tx.id = s.unbroadcast := by
      apply FiniteMap.set_ext
      intro a
      rw [FiniteMap.mem_erase]
      exact ⟨fun ha => ha.2, fun ha => ⟨fun heq => h.unbroadcast (heq ▸ ha), ha⟩⟩
    rw [ht.eq]
    simp only [popped, Mempool.entered, setEntryTime, graphWithout, h.graph,
      FiniteMap.erase_insert _ h.transactions, FiniteMap.erase_insert _ h.txids,
      FiniteMap.erase_insert _ h.txidIndex, FiniteMap.erase_insert _ h.fees,
      FiniteMap.erase_insert _ h.modifiedFees, FiniteMap.erase_insert _ h.vsizes,
      FiniteMap.erase_insert _ h.weights, FiniteMap.erase_insert _ h.entryTimes,
      FiniteMap.erase_insert _ h.heights, FiniteMap.erase_insert _ h.entrySequences,
      restore_outpoints, restore_spenders h.spentBy h.spentBy_nonempty, hunbroadcast,
      Option.isSome_none, Bool.false_eq_true, if_false, Std.ExtTreeMap.getElem?_insert_self,
      Option.getD_some, add_sub_cancel_right]

end Unstage

/-! ## The block -/

theorem insert_staged (now : ℚ) (tx : MempoolTx) (fee : ℤ) (vsize : ℕ) (weight : Option ℕ) :
    insert g now tx fee (some vsize) 0 weight false false s =
      .ok () (s.entered now tx fee (some vsize) 0 weight false) := rfl

/-- A block that keeps what it is run on is left with the state restored, and with its own
outcome. -/
theorem staged_sat {α : Type} (h : Stageable g s tx) (hnodup : tx.vin.Nodup) {now : ℚ} {fee : ℤ}
    {vsize : ℕ} {weight : Option ℕ} {body : MempoolM γ α} {Q : α → Prop} {E : MempoolError → Prop}
    (hbody : Sat body (s.entered now tx fee (some vsize) 0 weight false)
      (fun a t => Restored (s.entered now tx fee (some vsize) 0 weight false) t ∧ Q a)
      fun e t => Restored (s.entered now tx fee (some vsize) 0 weight false) t ∧ E e) :
    Sat (staged g now tx fee vsize weight body) s (fun a t => Restored s t ∧ Q a)
      fun e t => Restored s t ∧ E e := by
  unfold staged
  rw [sat_bind, sat_get, sat_bind_of_ok (insert_staged now tx fee vsize weight)]
  refine sat_finally.mpr (hbody.mono ?_ ?_)
  · rintro a t ⟨ht, hQ⟩
    obtain ⟨u, hu, hrest⟩ := h.unstage hnodup ht
    rw [sat_of_ok hu]
    exact ⟨hrest, hQ⟩
  · rintro e t ⟨ht, hE⟩
    obtain ⟨u, hu, hrest⟩ := h.unstage hnodup ht
    rw [sat_of_ok hu]
    exact ⟨hrest, hE⟩

/-- `before`'s stack of staged transactions, around `body`. -/
def stagedAll (g : ClusterGraph γ) (now : ℚ) {α : Type} : List Member → MempoolM γ α → MempoolM γ α
  | [], body => body
  | m :: members, body => staged g now m.tx m.fee m.vsize m.weight (stagedAll g now members body)

/-- The mempool with the members entered, one after the other. -/
def enteredAll (now : ℚ) (s : Mempool γ) (members : List Member) : Mempool γ :=
  members.foldl (fun s m => s.entered now m.tx m.fee (some m.vsize) 0 m.weight false) s

theorem stagedAll_sat {α : Type} {now : ℚ} {members : List Member} {body : MempoolM γ α}
    {Q : α → Prop} {E : MempoolError → Prop}
    (hstage : ∀ m ∈ members, Stageable g s m.tx) (hnodup : ∀ m ∈ members, m.tx.vin.Nodup)
    (hid : (members.map fun m => m.tx.id).Nodup) (hhash : (members.map fun m => m.tx.hash).Nodup)
    (hbody : Sat body (enteredAll now s members)
      (fun a t => Restored (enteredAll now s members) t ∧ Q a)
      fun e t => Restored (enteredAll now s members) t ∧ E e) :
    Sat (stagedAll g now members body) s (fun a t => Restored s t ∧ Q a)
      fun e t => Restored s t ∧ E e := by
  induction members generalizing s with
  | nil => exact hbody
  | cons m members ih =>
    rw [List.map_cons, List.nodup_cons] at hid hhash
    refine staged_sat (hstage m List.mem_cons_self) (hnodup m List.mem_cons_self)
      (ih ?_ (fun m' hm' => hnodup m' (List.mem_cons_of_mem _ hm')) hid.2 hhash.2 hbody)
    intro m' hm'
    refine (hstage m' (List.mem_cons_of_mem _ hm')).entered ?_ ?_ _ _ _ _
    · exact fun heq => hid.1 (List.mem_map.mpr ⟨m', hm', heq.symm⟩)
    · exact fun heq => hhash.1 (List.mem_map.mpr ⟨m', hm', heq.symm⟩)

theorem enteredAll_graph (now : ℚ) (s : Mempool γ) (members : List Member) :
    (enteredAll now s members).graph = s.graph := by
  unfold enteredAll
  induction members generalizing s with
  | nil => rfl
  | cons m members ih => exact ih _

/-- **Staging is invisible once left.**  Of a coherent mempool and of transactions that it does
not hold, of distinct txids and each spending an outpoint once, a block that keeps the state it
runs in leaves the mempool as it was, whether it returns or raises; the outcome is the block's,
and the graph is the one it started with throughout. -/
theorem stagedAll_restores {α : Type} (h : Coherent g s) (now : ℚ) (members : List Member)
    (hheld : ∀ m ∈ members, m.tx.id ∉ s.txidIndex) (hnodup : ∀ m ∈ members, m.tx.vin.Nodup)
    (hid : (members.map fun m => m.tx.id).Nodup)
    (hhash : ∀ m ∈ members, ∀ m' ∈ members, m.tx.hash = m'.tx.hash → m.tx.id = m'.tx.id)
    (hhash_held : ∀ m ∈ members, ∀ (w : Txid) (held : MempoolTx), s.transactions[w]? = some held →
      held.hash = m.tx.hash → held.id = m.tx.id)
    (body : MempoolM γ α)
    (hbody : ∀ u, Sat body u (fun _ t => Restored u t) fun _ t => Restored u t) :
    ∃ u : Mempool γ, u.graph = s.graph ∧
      Sat (stagedAll g now members body) s
        (fun a t => Restored s t ∧ ∃ u', body u = .ok a u')
        (fun e t => Restored s t ∧ ∃ u', body u = .error e u') := by
  refine ⟨enteredAll now s members, enteredAll_graph now s members, ?_⟩
  have hwtxids : (members.map fun m => m.tx.hash).Nodup := by
    rw [List.Nodup, List.pairwise_map] at hid ⊢
    exact hid.imp_of_mem fun hm hm' hne heq => hne (hhash _ hm _ hm' heq)
  refine stagedAll_sat (fun m hm => h.stageable (hheld m hm) (hhash_held m hm)) hnodup hid
    hwtxids ?_
  have hb := hbody (enteredAll now s members)
  unfold Sat at hb ⊢
  cases hrun : body (enteredAll now s members) with
  | ok a t =>
    rw [hrun] at hb
    exact ⟨hb, t, rfl⟩
  | error e t =>
    rw [hrun] at hb
    exact ⟨hb, t, rfl⟩

/-- A graph of nothing, which is all that staging over an empty mempool asks of. -/
def noGraph : ClusterGraph Unit where
  sound _ := True
  empty := ()
  feerate? _ _ := none
  depends _ _ _ := False
  linked _ _ _ := true
  addTransaction _ _ _ gr := gr
  addDependency _ _ _ := none
  removeTransaction _ _ := none
  setFee _ _ _ := none
  doWork _ gr := gr
  worstChunk gr := (none, gr)
  trim _ _ _ gr := some ([], gr)
  countDistinctClusters _ _ := some 0
  stagedDiagrams _ _ _ _ gr := (some ([], []), gr)

/-- The txid of 32 equal octets. -/
def txidOf (octet : UInt8) : Txid := ⟨List.replicate 32 octet, List.length_replicate⟩

/-- A parent of one input and a child that spends it. -/
def stagedPair : List Member :=
  [⟨⟨txidOf 2, txidOf 1, 2, [⟨txidOf 9, 0⟩], 400, 1⟩, 100, 100, none⟩,
    ⟨⟨txidOf 4, txidOf 3, 2, [⟨txidOf 1, 0⟩], 400, 1⟩, 200, 100, none⟩]

theorem stagedAll_restores_pair : ∃ u : Mempool Unit, u.graph = () ∧
    Sat (stagedAll noGraph 0 stagedPair (pure ())) (init noGraph 100 1209600)
      (fun a t => Restored (init noGraph 100 1209600) t ∧
        ∃ u', (pure () : MempoolM Unit Unit) u = .ok a u')
      (fun e t => Restored (init noGraph 100 1209600) t ∧
        ∃ u', (pure () : MempoolM Unit Unit) u = .error e u') :=
  stagedAll_restores (Coherent.init ⟨trivial, fun _ => rfl⟩ _ _) 0 stagedPair
    (fun m _ => by simp [init]) (by decide) (by decide) (by decide)
    (fun m _ w held h => by simp [init] at h) (pure ()) fun u => Restored.refl u

/-! ## A transaction that spends an outpoint twice -/

/-- An outpoint without a spender is a `KeyError`, before anything is counted. -/
theorem delOutpoints_missing {vins : List PrevOut} {o : PrevOut} (ho : o ∈ vins)
    (hnone : s.outpointSpender[o]? = none) :
    Sat (delOutpoints vins) s (fun _ _ => False)
      fun e u => e = .keyError ∧ u.sequence = s.sequence := by
  induction vins generalizing s with
  | nil => cases ho
  | cons vin vins ih =>
    rw [delOutpoints]
    cases hv : s.outpointSpender[vin]? with
    | none =>
      rw [sat_bind, popKey, sat_bind, sat_get, hv]
      exact ⟨rfl, rfl⟩
    | some w =>
      refine sat_popKey_bind hv ?_
      have hne : vin ≠ o := by
        rintro rfl
        rw [hnone] at hv
        cases hv
      refine ih (s := { s with outpointSpender := s.outpointSpender.erase vin })
        ((List.mem_cons.mp ho).resolve_left (Ne.symm hne)) ?_
      show (s.outpointSpender.erase vin)[o]? = none
      rw [FiniteMap.getElem?_erase_ne _ hne, hnone]

/-- The second `del` of one outpoint is a `KeyError`. -/
theorem delOutpoints_repeated {vins : List PrevOut} (hdup : ¬ vins.Nodup) :
    Sat (delOutpoints vins) s (fun _ _ => False)
      fun e u => e = .keyError ∧ u.sequence = s.sequence := by
  induction vins generalizing s with
  | nil => exact absurd List.nodup_nil hdup
  | cons vin vins ih =>
    rw [delOutpoints]
    cases hv : s.outpointSpender[vin]? with
    | none =>
      rw [sat_bind, popKey, sat_bind, sat_get, hv]
      exact ⟨rfl, rfl⟩
    | some w =>
      refine sat_popKey_bind hv ?_
      by_cases hmem : vin ∈ vins
      · refine delOutpoints_missing (s := { s with
          outpointSpender := s.outpointSpender.erase vin }) hmem ?_
        show (s.outpointSpender.erase vin)[vin]? = none
        rw [FiniteMap.getElem?_erase, if_pos rfl]
      · exact ih (s := { s with outpointSpender := s.outpointSpender.erase vin })
          fun hnodup => hdup (List.nodup_cons.mpr ⟨hmem, hnodup⟩)

/-- A transaction that spends an outpoint twice goes in, and cannot be taken out: `staged` raises
`KeyError`, and the counters are left as they are inside the block. -/
theorem staged_repeated (h : Stageable g s tx) (hdup : ¬ tx.vin.Nodup) (now : ℚ) (fee : ℤ)
    (vsize : ℕ) (weight : Option ℕ) :
    Sat (staged g now tx fee vsize weight (pure ())) s (fun _ _ => False)
      fun e u => e = .keyError ∧ u.sequence = s.sequence + 1 := by
  unfold staged
  rw [sat_bind, sat_get, sat_bind_of_ok (insert_staged now tx fee vsize weight)]
  refine sat_finally.mpr ?_
  rw [sat_pure]
  generalize ht : s.entered now tx fee (some vsize) 0 weight false = t
  have hseq : t.sequence = s.sequence + 1 := by rw [← ht]; rfl
  have hgraph : (g.feerate? t.graph tx.hash).isSome →
      (g.removeTransaction tx.hash t.graph).isSome := by
    rw [← ht]
    intro hin
    change (g.feerate? s.graph tx.hash).isSome at hin
    rw [h.graph] at hin
    cases hin
  have hself : ∀ {α : Type} (m : Std.ExtTreeMap Txid α) (a : α),
      (m.insert tx.hash a)[tx.hash]? = some a := fun m a => Std.ExtTreeMap.getElem?_insert_self
  have htx : t.transactions[tx.hash]? = some tx := by rw [← ht]; exact hself _ _
  have htxid : t.txids[tx.hash]? = some tx.id := by rw [← ht]; exact hself _ _
  have hvsize : t.vsizes[tx.hash]? = some vsize := by rw [← ht]; exact hself _ _
  have hweight : t.weights[tx.hash]? = some (weight.getD (weightOf tx (some vsize))) := by
    rw [← ht]; exact hself _ _
  have hentry : t.entrySequences[tx.hash]? = some s.sequence := by rw [← ht]; exact hself _ _
  rw [← hseq]
  unfold unstage pop
  rw [sat_bind]
  refine sat_popKey_bind htx (sat_popKey_bind htxid ?_)
  rw [sat_bind, sat_modify]
  refine sat_popKey_bind hvsize (sat_popKey_bind hweight ?_)
  refine (sat_bind_of_ok (popGraph_eq ?_)).mpr ?_
  · exact hgraph
  rw [sat_bind, sat_modify]
  refine sat_popKey_bind hentry ?_
  rw [sat_bind, sat_modify, sat_bind]
  -- every index has the entry but once for two of its inputs
  refine (delOutpoints_repeated hdup).mono (fun _ _ hf => hf.elim) ?_
  rintro e u ⟨he, hu⟩
  exact ⟨he, hu⟩

/-- Of an empty mempool and a transaction with one outpoint in two inputs, `staged` around
nothing at all does not restore the state. -/
theorem staged_repeated_input :
    ¬ Sat (staged noGraph 0 ⟨txidOf 2, txidOf 1, 2, [⟨txidOf 9, 0⟩, ⟨txidOf 9, 0⟩], 400, 1⟩ 100 100
        none (pure ())) (init noGraph 100 1209600)
      (fun _ t => Restored (init noGraph 100 1209600) t)
      (fun _ t => Restored (init noGraph 100 1209600) t) := by
  intro h
  have hs : Stageable noGraph (init noGraph 100 1209600)
      ⟨txidOf 2, txidOf 1, 2, [⟨txidOf 9, 0⟩, ⟨txidOf 9, 0⟩], 400, 1⟩ :=
    (Coherent.init ⟨trivial, fun _ => rfl⟩ _ _).stageable (by simp [init])
      fun w held hw => by simp [init] at hw
  have hraise := (staged_repeated hs (by decide) 0 100 100 none).and h
  unfold Sat at hraise
  split at hraise
  · exact hraise.1
  · -- the sequence has moved on
    obtain ⟨⟨-, hseq⟩, hrest⟩ := hraise
    rw [hrest.eq] at hseq
    simp [init] at hseq

end Mempool

end BtclibNode
