/-
# What a trickle announces

`_send_due_announcements` of `download.py`: the queues of the connections that are due are ranked
together, and each is read by one of two scans.
-/
import Mathlib
import BtclibNode.Cluster.MiningOrder

namespace BtclibNode.Trickle

open SortedTail

/-- What a trickle reads of the mempool.  A transaction is held where it is in the graph. -/
structure Mempool (ρ κ : Type) where
  graph : TxGraph ρ κ
  txids : ρ → ρ
  fees : ρ → ℤ
  vsizes : ρ → ℤ
  sequence : ℕ

/-- What a trickle reads and writes of a connection.  A queue has each wtxid once. -/
@[ext]
structure Connection (ρ φ τ : Type) where
  id : ℕ
  relayTx : Bool
  noBan : Bool
  wtxidrelayReceived : Bool
  feefilter : ℤ
  nextInvSendTime : τ
  lastInvSequence : ℕ
  txAnnounceQueue : List ρ
  knownTxInventory : φ
  nodup : txAnnounceQueue.Nodup

/-- `KnownTxInventory`, which is a rolling filter: what it answers and what it gains. -/
structure KnownTxInventory (ρ φ : Type) where
  contains : φ → ρ → Bool
  add : φ → ρ → φ

inductive InventoryType where
  | msgTx
  | msgWtx
  deriving DecidableEq

structure Inventory (ρ : Type) where
  typeCode : InventoryType
  hash : ρ
  deriving DecidableEq

/-- `_trickle_cap`. -/
def trickleCap (queued : ℕ) : ℕ := min 1000 (70 + queued / 1000 * 5)

/-! ## Popping -/

section

variable {ρ : Type} {sent : ρ → Bool} {cap : ℕ} {order : List ρ}

/-- Popping a queue to its end, or until `cap` of it are sent: what is sent, and what is left. -/
def popAlone (sent : ρ → Bool) : ℕ → List ρ → List ρ × List ρ
  | _, [] => ([], [])
  | 0, wtxid :: order => ([], wtxid :: order)
  | cap + 1, wtxid :: order =>
    if sent wtxid then
      let rest := popAlone sent cap order
      (wtxid :: rest.1, rest.2)
    else popAlone sent (cap + 1) order

theorem popAlone_sublist (sent : ρ → Bool) (cap : ℕ) (order : List ρ) :
    (popAlone sent cap order).2.Sublist order := by
  induction order generalizing cap with
  | nil => cases cap <;> exact List.Sublist.refl []
  | cons wtxid order ih =>
    cases cap with
    | zero => exact List.Sublist.refl _
    | succ cap =>
      rw [popAlone]
      split_ifs
      · exact (ih cap).cons wtxid
      · exact (ih (cap + 1)).cons wtxid

theorem popAlone_zero (sent : ρ → Bool) (order : List ρ) : popAlone sent 0 order = ([], order) := by
  cases order <;> rfl

/-- What is not sent is popped for nothing. -/
theorem popAlone_append (hsent : ∀ w ∈ order, sent w = false) (rest : List ρ) :
    popAlone sent (cap + 1) (order ++ rest) = popAlone sent (cap + 1) rest := by
  induction order with
  | nil => rfl
  | cons wtxid order ih =>
    obtain ⟨hfirst, hsent⟩ := List.forall_mem_cons.mp hsent
    rw [List.cons_append, popAlone, hfirst, if_neg Bool.false_ne_true, ih hsent]

end

/-! ## The trickle -/

section

variable {ρ κ φ τ : Type} [DecidableEq ρ]
  (filter : KnownTxInventory ρ φ) (feeFromVsize : ℤ → ℤ → ℤ)

def Mempool.Held (m : Mempool ρ κ) (wtxid : ρ) : Prop := wtxid ∈ m.graph.refs

instance (m : Mempool ρ κ) (wtxid : ρ) : Decidable (m.Held wtxid) :=
  inferInstanceAs (Decidable (wtxid ∈ m.graph.refs))

/-- `meets_fee_rate`, of a transaction that is held. -/
def Mempool.meetsFeeRate (m : Mempool ρ κ) (wtxid : ρ) (minFeeRate : ℤ) : Bool :=
  minFeeRate = 0 || feeFromVsize (m.vsizes wtxid) minFeeRate ≤ m.fees wtxid

/-- `_tx_inventory`. -/
def txInventory (m : Mempool ρ κ) (conn : Connection ρ φ τ) (wtxid : ρ) : Inventory ρ :=
  if conn.wtxidrelayReceived then ⟨.msgWtx, wtxid⟩ else ⟨.msgTx, m.txids wtxid⟩

/-- `_offer`. -/
def offer (m : Mempool ρ κ) (conn : Connection ρ φ τ) (wtxid : ρ) (batch : List ρ) : List ρ :=
  if m.Held wtxid then
    let known := filter.contains conn.knownTxInventory (txInventory m conn wtxid).hash
    if !known && m.meetsFeeRate feeFromVsize wtxid conn.feefilter then batch ++ [wtxid]
    else batch
  else batch

/-- The loop of `_pop_trickle`: the batch and the queue after it. -/
def scan (m : Mempool ρ κ) (conn : Connection ρ φ τ) (cap : ℕ) :
    List ρ → List ρ → List ρ → List ρ × List ρ
  | [], queue, batch => (batch, queue)
  | wtxid :: order, queue, batch =>
    if batch.length = cap ∨ queue = [] then (batch, queue)
    else if wtxid ∈ queue then
      scan m conn cap order (queue.erase wtxid) (offer filter feeFromVsize m conn wtxid batch)
    else scan m conn cap order queue batch

/-- The order in which `_pop_trickle` reads a short queue. -/
def ownOrder (conn : Connection ρ φ τ) (ranked : List ρ) : List ρ :=
  sortOn (fun wtxid => ranked.idxOf wtxid) conn.txAnnounceQueue

/-- `_pop_trickle`: the batch and the queue after it. -/
def popTrickle (m : Mempool ρ κ) (conn : Connection ρ φ τ) (cap : ℕ) (ranked : List ρ) :
    List ρ × List ρ :=
  let order := if cap * ranked.length ≤ conn.txAnnounceQueue.length ^ 2 then ranked
    else ownOrder conn ranked
  scan filter feeFromVsize m conn cap order conn.txAnnounceQueue []

theorem scan_sublist (m : Mempool ρ κ) (conn : Connection ρ φ τ) (cap : ℕ)
    (order queue batch : List ρ) :
    (scan filter feeFromVsize m conn cap order queue batch).2.Sublist queue := by
  induction order generalizing queue batch with
  | nil => exact List.Sublist.refl queue
  | cons wtxid order ih =>
    rw [scan]
    split_ifs
    · exact List.Sublist.refl queue
    · exact (ih _ _).trans List.erase_sublist
    · exact ih _ _

variable [LinearOrder κ] [OrderBot κ]

/-- The keys of `_rank_queued`. -/
def rankKey (m : Mempool ρ κ) (wtxid : ρ) : WithBot (MiningKey κ) :=
  if m.Held wtxid then m.graph.orderKey wtxid else ((TxGraph.goneKey : MiningKey κ) :)

/-- What is queued for any of the connections. -/
def queuedFor (conns : List (Connection ρ φ τ)) : List ρ :=
  conns.foldl (fun queued conn => queued ++ conn.txAnnounceQueue.filter (· ∉ queued)) []

/-- `_rank_queued`. -/
def rankQueued (m : Mempool ρ κ) (conns : List (Connection ρ φ τ)) : List ρ :=
  sortOn (rankKey m) (queuedFor conns)

variable [LinearOrder τ] [Zero τ]

/-- The connections that a trickle is for, each with whether its timer is due. -/
def dueConns (now : τ) (m : Mempool ρ κ) (conns : List (Connection ρ φ τ)) :
    List (Connection ρ φ τ × Bool) :=
  conns.filterMap fun conn =>
    if !conn.relayTx then none
    else if conn.nextInvSendTime ≠ 0 ∧ now < conn.nextInvSendTime ∧ !conn.noBan then none
    else
      let sequence := if conn.txAnnounceQueue = [] then conn.lastInvSequence else m.sequence
      some ({ conn with lastInvSequence := sequence }, decide (conn.nextInvSendTime ≤ now))

/-- A connection and what it is sent, once its batch is popped; `draw` is the time of the next
trickle. -/
def sendTrickle (draw : ℕ → τ) (m : Mempool ρ κ) (conn : Connection ρ φ τ) (due : Bool)
    (popped : { p : List ρ × List ρ // p.2.Nodup }) :
    Connection ρ φ τ × Option (List (Inventory ρ)) :=
  let inventory := popped.1.1.map (txInventory m conn)
  ({ conn with
    txAnnounceQueue := popped.1.2
    nodup := popped.2
    knownTxInventory := inventory.foldl (fun known item => filter.add known item.hash)
      conn.knownTxInventory
    nextInvSendTime := if due then draw conn.id else conn.nextInvSendTime },
    if inventory = [] then none else some inventory)

/-- `_send_due_announcements`: the connections that were due, and what each is sent. -/
def sendDueAnnouncements (now : τ) (draw : ℕ → τ) (m : Mempool ρ κ)
    (conns : List (Connection ρ φ τ)) : List (Connection ρ φ τ × Option (List (Inventory ρ))) :=
  let due := dueConns now m conns
  let ranked := rankQueued m (due.map Prod.fst)
  due.map fun (conn, due) =>
    sendTrickle filter draw m conn due ⟨popTrickle filter feeFromVsize m conn
      (trickleCap conn.txAnnounceQueue.length) ranked,
      (scan_sublist filter feeFromVsize m conn _ _ _ _).nodup conn.nodup⟩

end

/-! ## A queue popped alone -/

section

variable {ρ κ φ τ : Type} [DecidableEq ρ]
  (filter : KnownTxInventory ρ φ) (feeFromVsize : ℤ → ℤ → ℤ)

/-- What a trickle sends of a connection's queue. -/
def sends (m : Mempool ρ κ) (conn : Connection ρ φ τ) (wtxid : ρ) : Bool :=
  decide (m.Held wtxid) &&
    !filter.contains conn.knownTxInventory (txInventory m conn wtxid).hash &&
    m.meetsFeeRate feeFromVsize wtxid conn.feefilter

variable {filter feeFromVsize} {m : Mempool ρ κ} {conn : Connection ρ φ τ} {cap : ℕ}
  {order queue batch : List ρ}

theorem offer_eq (wtxid : ρ) (batch : List ρ) : offer filter feeFromVsize m conn wtxid batch =
    if sends filter feeFromVsize m conn wtxid then batch ++ [wtxid] else batch := by
  rw [offer, sends]
  by_cases hheld : m.Held wtxid
  · simp only [hheld, if_true, decide_true, Bool.true_and]
  · simp only [hheld, if_false, decide_false, Bool.false_and, Bool.false_eq_true]

/-- **A scan pops the queue in the order it reads.** -/
theorem scan_eq (horder : order.Nodup) (hqueue : queue.Nodup) (hsub : queue ⊆ order)
    (hbatch : batch.length ≤ cap) :
    scan filter feeFromVsize m conn cap order queue batch =
      (batch ++ (popAlone (sends filter feeFromVsize m conn) (cap - batch.length)
          (order.filter (· ∈ queue))).1,
        queue.filter (· ∈ (popAlone (sends filter feeFromVsize m conn) (cap - batch.length)
          (order.filter (· ∈ queue))).2)) := by
  induction order generalizing queue batch with
  | nil =>
    rw [List.subset_nil.mp hsub]
    simp [scan, popAlone]
  | cons wtxid order ih =>
    obtain ⟨hfirst, horder⟩ := List.nodup_cons.mp horder
    rw [scan]
    split_ifs with hstop hmem
    · rcases hstop with hfull | rfl
      · rw [hfull, Nat.sub_self, popAlone_zero, List.append_nil]
        refine Prod.ext rfl ?_
        refine (List.filter_eq_self.mpr fun w hw => decide_eq_true ?_).symm
        exact List.mem_filter.mpr ⟨hsub hw, decide_eq_true hw⟩
      · have hnone : (wtxid :: order).filter (· ∈ ([] : List ρ)) = [] :=
          List.filter_eq_nil_iff.mpr fun w _ => by simp
        rw [hnone]
        simp [popAlone]
    · -- the entry is popped, and the rest of the queue is further on
      have hlt : batch.length < cap := lt_of_le_of_ne hbatch fun h => hstop (Or.inl h)
      have hsub' : queue.erase wtxid ⊆ order := fun w hw => by
        obtain ⟨hne, hw⟩ := (hqueue.mem_erase_iff).mp hw
        exact (List.mem_cons.mp (hsub hw)).resolve_left hne
      have hfilter : order.filter (· ∈ queue.erase wtxid) = order.filter (· ∈ queue) := by
        refine List.filter_congr fun w hw => decide_eq_decide.mpr ?_
        rw [hqueue.mem_erase_iff]
        exact and_iff_right fun heq => hfirst (heq ▸ hw)
      have hleft : ∀ left : List ρ, left.Sublist (order.filter (· ∈ queue)) →
          (queue.erase wtxid).filter (· ∈ left) = queue.filter (· ∈ left) := by
        intro left hleft
        rw [hqueue.erase_eq_filter, List.filter_filter]
        refine List.filter_congr fun w _ => ?_
        by_cases hw : w ∈ left
        · have hne : w ≠ wtxid := fun heq =>
            hfirst (heq ▸ (List.mem_filter.mp (hleft.subset hw)).1)
          simp [hw, hne]
        · simp [hw]
      obtain ⟨n, hn⟩ : ∃ n, cap - batch.length = n + 1 :=
        Nat.exists_eq_succ_of_ne_zero (Nat.sub_ne_zero_of_lt hlt)
      have hcons : (wtxid :: order).filter (· ∈ queue) = wtxid :: order.filter (· ∈ queue) :=
        List.filter_cons_of_pos (decide_eq_true hmem)
      rw [hcons, hn, popAlone, offer_eq]
      split_ifs with hsends
      · have hn' : cap - (batch ++ [wtxid]).length = n := by
          rw [List.length_append, List.length_singleton]
          omega
        rw [ih horder (hqueue.erase wtxid) hsub' (by
          rw [List.length_append, List.length_singleton]
          exact hlt), hfilter, hn', hleft _ (popAlone_sublist ..), List.append_assoc]
        rfl
      · rw [ih horder (hqueue.erase wtxid) hsub' hbatch, hfilter, hn,
          hleft _ (popAlone_sublist ..)]
    · have hcons : (wtxid :: order).filter (· ∈ queue) = order.filter (· ∈ queue) :=
        List.filter_cons_of_neg (by simpa using hmem)
      rw [hcons]
      refine ih horder hqueue (fun w hw => ?_) hbatch
      exact (List.mem_cons.mp (hsub hw)).resolve_left fun heq => hmem (heq ▸ hw)

variable [LinearOrder κ] [OrderBot κ]

/-- The order of a queue of its own: what is gone, and then the mining order. -/
def queueOrder (m : Mempool ρ κ) (queue : List ρ) : List ρ :=
  queue.filter (fun wtxid => !decide (m.Held wtxid)) ++
    (m.graph.miningOrder.flatMap Chunk.refs).filter (· ∈ queue)

/-- The batch and the queue after it, where the queue is popped alone. -/
def popQueue (filter : KnownTxInventory ρ φ) (feeFromVsize : ℤ → ℤ → ℤ) (m : Mempool ρ κ)
    (conn : Connection ρ φ τ) (cap : ℕ) : List ρ × List ρ :=
  let popped := popAlone (sends filter feeFromVsize m conn) cap
    (queueOrder m conn.txAnnounceQueue)
  (popped.1, conn.txAnnounceQueue.filter (· ∈ popped.2))

variable {ranked : List ρ} {a b : ρ}

theorem rankKey_held (ha : m.Held a) : rankKey m a = m.graph.orderKey a := if_pos ha

/-- What is gone is ranked before what is held. -/
theorem held_of_le (ha : m.Held a) (hle : rankKey m a ≤ rankKey m b) : m.Held b := by
  by_contra hb
  rw [rankKey_held ha, rankKey, if_neg hb] at hle
  exact absurd (TxGraph.goneKey_lt ha) (not_lt.mpr hle)

/-- **A queue in the order of the keys** is what is gone, and then the mining order. -/
theorem filter_sorted (horder : order.Nodup) (hsub : queue ⊆ order)
    (hsorted : order.Pairwise fun a b => rankKey m a ≤ rankKey m b) :
    ∃ gone : List ρ, (∀ w ∈ gone, ¬ m.Held w) ∧ order.filter (· ∈ queue) =
      gone ++ (m.graph.miningOrder.flatMap Chunk.refs).filter (· ∈ queue) := by
  have hown := hsorted.filter (· ∈ queue)
  have hsplit := eq_append_of_last (p := fun w => decide (m.Held w)) (hown.imp
    fun hle ha => decide_eq_true (held_of_le (of_decide_eq_true ha) hle))
  have hmining : ((order.filter (· ∈ queue)).filter fun w => decide (m.Held w)) =
      (m.graph.miningOrder.flatMap Chunk.refs).filter (· ∈ queue) := by
    have hperm := m.graph.miningOrder_perm
    have hleft : ((order.filter (· ∈ queue)).filter fun w => decide (m.Held w)).Pairwise
        fun a b => m.graph.orderKey a ≤ m.graph.orderKey b := by
      refine (hown.filter _).imp_of_mem fun {a b} ha hb hle => ?_
      rw [rankKey_held (of_decide_eq_true (List.mem_filter.mp ha).2),
        rankKey_held (of_decide_eq_true (List.mem_filter.mp hb).2)] at hle
      exact hle
    have hright : ((m.graph.miningOrder.flatMap Chunk.refs).filter (· ∈ queue)).Pairwise
        fun a b => m.graph.orderKey a ≤ m.graph.orderKey b :=
      (m.graph.miningOrder_sorted.imp fun hlt => hlt.le).filter _
    refine List.Perm.eq_of_pairwise (fun a b ha hb hab hba => ?_) hleft hright ?_
    · have hb' : m.Held b := hperm.mem_iff.mp (List.mem_of_mem_filter hb)
      exact TxGraph.eq_of_orderKey_eq (of_decide_eq_true (List.mem_filter.mp ha).2) hb'
        (le_antisymm hab hba)
    · refine (List.perm_ext_iff_of_nodup ((horder.filter _).filter _)
        ((hperm.nodup_iff.mpr m.graph.nodup).filter _)).mpr fun w => ?_
      simp only [List.mem_filter, decide_eq_true_eq, hperm.mem_iff]
      constructor
      · exact fun h => ⟨h.2, h.1.2⟩
      · exact fun h => ⟨⟨hsub h.2, h.2⟩, h.1⟩
  refine ⟨_, fun w hw => ?_, by rw [hsplit, hmining]⟩
  simpa using (List.mem_filter.mp hw).2

/-- What is popped in the order of the keys is what is popped alone. -/
theorem scan_sorted (hcap : 0 < cap) (horder : order.Nodup)
    (hsub : conn.txAnnounceQueue ⊆ order)
    (hsorted : order.Pairwise fun a b => rankKey m a ≤ rankKey m b) :
    scan filter feeFromVsize m conn cap order conn.txAnnounceQueue [] =
      popQueue filter feeFromVsize m conn cap := by
  obtain ⟨cap, rfl⟩ : ∃ n, cap = n + 1 := Nat.exists_eq_succ_of_ne_zero hcap.ne'
  obtain ⟨gone, hgone, heq⟩ := filter_sorted horder hsub hsorted
  have hnot : ∀ w, ¬ m.Held w → sends filter feeFromVsize m conn w = false := by
    intro w hw
    rw [sends, decide_eq_false hw, Bool.false_and, Bool.false_and]
  have hscan : popAlone (sends filter feeFromVsize m conn) (cap + 1)
      (order.filter (· ∈ conn.txAnnounceQueue)) =
      popAlone (sends filter feeFromVsize m conn) (cap + 1)
        (queueOrder m conn.txAnnounceQueue) := by
    rw [heq, queueOrder, popAlone_append fun w hw => hnot w (hgone w hw),
      popAlone_append fun w hw => hnot w (by simpa using (List.mem_filter.mp hw).2)]
  rw [scan_eq horder conn.nodup hsub (Nat.zero_le _), List.length_nil, Nat.sub_zero, hscan]
  rfl

/-! ## The joint ranking -/

theorem queuedFor_spec (conns : List (Connection ρ φ τ)) :
    (queuedFor conns).Nodup ∧ ∀ conn ∈ conns, conn.txAnnounceQueue ⊆ queuedFor conns := by
  have hfold : ∀ (conns : List (Connection ρ φ τ)) (queued : List ρ), queued.Nodup →
      (conns.foldl (fun queued conn =>
        queued ++ conn.txAnnounceQueue.filter (· ∉ queued)) queued).Nodup ∧
      queued ⊆ conns.foldl (fun queued conn =>
        queued ++ conn.txAnnounceQueue.filter (· ∉ queued)) queued ∧
      ∀ conn ∈ conns, conn.txAnnounceQueue ⊆ conns.foldl (fun queued conn =>
        queued ++ conn.txAnnounceQueue.filter (· ∉ queued)) queued := by
    intro conns
    induction conns with
    | nil =>
      exact fun queued h => ⟨h, List.Subset.refl queued, fun _ hc => absurd hc List.not_mem_nil⟩
    | cons conn conns ih =>
      intro queued hqueued
      have hnodup : (queued ++ conn.txAnnounceQueue.filter (· ∉ queued)).Nodup := by
        refine hqueued.append (conn.nodup.filter _) fun w hw hw' => ?_
        exact of_decide_eq_true (List.mem_filter.mp hw').2 hw
      obtain ⟨h, hsub, hall⟩ := ih _ hnodup
      refine ⟨h, fun w hw => hsub (List.mem_append_left _ hw), ?_⟩
      refine List.forall_mem_cons.mpr ⟨fun w hw => hsub ?_, hall⟩
      by_cases hmem : w ∈ queued
      · exact List.mem_append_left _ hmem
      · exact List.mem_append_right _ (List.mem_filter.mpr ⟨hw, decide_eq_true hmem⟩)
  obtain ⟨h, -, hall⟩ := hfold conns [] List.nodup_nil
  exact ⟨h, hall⟩

/-- The order in which a short queue is read is that of the ranking. -/
theorem ownOrder_sorted (hsub : conn.txAnnounceQueue ⊆ ranked)
    (hsorted : ranked.Pairwise fun a b => rankKey m a ≤ rankKey m b) :
    (ownOrder conn ranked).Pairwise fun a b => rankKey m a ≤ rankKey m b := by
  have hmem : ∀ w ∈ ownOrder conn ranked, w ∈ ranked := fun w hw =>
    hsub ((sortOn_perm _ _).mem_iff.mp hw)
  refine (sortOn_sorted (fun w => ranked.idxOf w) conn.txAnnounceQueue).imp_of_mem
    fun {a b} ha hb hle => ?_
  have ha' := List.idxOf_lt_length_iff.mpr (hmem a ha)
  have hb' := List.idxOf_lt_length_iff.mpr (hmem b hb)
  rcases Nat.lt_or_eq_of_le hle with hlt | heq
  · have hrel := (List.pairwise_iff_getElem.mp hsorted) _ _ ha' hb' hlt
    rwa [List.getElem_idxOf, List.getElem_idxOf] at hrel
  · rw [(List.idxOf_inj (hmem a ha)).mp heq]

/-- Two transactions, of which the second pays more. -/
def sampleMempool : Mempool ℕ ℕ where
  graph :=
    { clusters := [[0], [1]]
      feerate := fun wtxid => ⟨1000 * (wtxid + 1), 400⟩
      keys := id
      nodup := by decide
      keys_inj := by decide
      size_pos := by decide
      fee_lt := by decide }
  txids := id
  fees := fun wtxid => 1000 * (wtxid + 1)
  vsizes := fun _ => 100
  sequence := 3

/-- A peer that knows nothing, with both of them queued and one that is gone. -/
def sampleConnection : Connection ℕ (List ℕ) ℕ where
  id := 1
  relayTx := true
  noBan := false
  wtxidrelayReceived := true
  feefilter := 0
  nextInvSendTime := 0
  lastInvSequence := 0
  txAnnounceQueue := [0, 7, 1]
  knownTxInventory := []
  nodup := by decide

/-- What a peer knows, as a list. -/
def sampleFilter : KnownTxInventory ℕ (List ℕ) :=
  ⟨fun known hash => decide (hash ∈ known), fun known hash => hash :: known⟩

end

end BtclibNode.Trickle
