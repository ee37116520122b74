/-
# Linking what a reorg puts back

A txid is a hash of what its transaction spends, so no spends among transactions close a cycle.
That is what lets `update_transactions_from_block` build what a reorg put back into the graph, and
what it trims goes with what is built on it.
-/
import BtclibNode.Mempool.Removals

namespace BtclibNode

/-- What the two hashes of a transaction commit to: a wtxid to the txid, a txid to the outpoints
spent, which are of transactions hashed before it. -/
structure TxHashes where
  txid : Txid → Txid
  inputs : Txid → List PrevOut
  depth : Txid → ℕ
  deeper : ∀ t, ∀ o ∈ inputs t, depth o.txId < depth t

/-- `tx` has the hashes of what it is, and spends no outpoint twice. -/
structure TxHashes.Names (hashes : TxHashes) (tx : MempoolTx) : Prop where
  id : tx.id = hashes.txid tx.hash
  vin : tx.vin = hashes.inputs tx.id
  nodup : tx.vin.Nodup

theorem TxHashes.Names.deeper {hashes : TxHashes} {tx : MempoolTx} (h : hashes.Names tx)
    {o : PrevOut} (ho : o ∈ tx.vin) : hashes.depth o.txId < hashes.depth tx.id :=
  hashes.deeper tx.id o (h.vin ▸ ho)

theorem TxHashes.Names.other {hashes : TxHashes} {tx : MempoolTx} (h : hashes.Names tx) :
    tx.id ∉ tx.vin.map PrevOut.txId := by
  intro hin
  obtain ⟨o, ho, heq⟩ := List.mem_map.mp hin
  have hlt := h.deeper ho
  rw [heq] at hlt
  exact lt_irrefl _ hlt

namespace Mempool

open StateExcept

variable {γ : Type} {g : ClusterGraph γ} {s t u : Mempool γ} {w x p c : Txid} {tx : MempoolTx}
  {ws ws' : List Txid} {hashes : TxHashes}

/-! ## The order of the spends -/

/-- The transactions held have the hashes of what they are, and the graph builds a transaction on
earlier ones only. -/
structure Named (hashes : TxHashes) (g : ClusterGraph γ) (s : Mempool γ) : Prop where
  names : ∀ (w : Txid) (tx : MempoolTx), s.transactions[w]? = some tx → hashes.Names tx
  depth : ∀ (p c : Txid) (tx tx' : MempoolTx), g.depends s.graph p c →
    s.transactions[p]? = some tx → s.transactions[c]? = some tx' →
    hashes.depth tx.id < hashes.depth tx'.id

theorem Named.formed (h : Named hashes g s) (hc : Coherent g s) (hn : hashes.Names tx) :
    Formed s tx := by
  refine ⟨hn.nodup, hn.other, fun hin => ?_⟩
  obtain ⟨held, hw⟩ := (FiniteMap.mem_iff_exists _ _).mp hin
  have hid : held.id = tx.id := by
    rw [(h.names _ _ hw).id, hc.hash _ _ hw, hn.id]
  exact (FiniteMap.mem_iff_exists _ _).mpr ⟨tx.hash, hid ▸ hc.index_of_held hw⟩

theorem Named.gone (h : Named hashes g s) (hgone : Gone g s t ws) : Named hashes g t where
  names w tx hw := h.names w tx (hgone.held hw).2
  depth p c tx tx' hdep hp hc :=
    h.depth p c tx tx' ((hgone.depends p c).mp hdep).2.2 (hgone.held hp).2 (hgone.held hc).2

/-- A parent is held under the txid of an input. -/
theorem Indexed.parent_held (h : Indexed s) (hp : p ∈ s.parents tx) :
    ∃ tx', s.transactions[p]? = some tx' ∧ tx'.id ∈ tx.vin.map PrevOut.txId := by
  obtain ⟨o, ho, hindex⟩ := mem_parents.mp hp
  obtain ⟨tx', hp, hid⟩ := h.held_of_index hindex
  exact ⟨tx', hp, hid ▸ List.mem_map_of_mem ho⟩

theorem Indexed.parent_of_held (h : Indexed s) {tx' : MempoolTx}
    (hp : s.transactions[p]? = some tx') (hid : tx'.id ∈ tx.vin.map PrevOut.txId) :
    p ∈ s.parents tx := by
  obtain ⟨o, ho, heq⟩ := List.mem_map.mp hid
  exact mem_parents.mpr ⟨o, ho, heq ▸ h.index_of_held hp⟩

/-- What is held once `tx` is in. -/
theorem Entered.held {fee : ℤ} {tx' : MempoolTx} (h : Entered g s t tx fee)
    (hx : t.transactions[x]? = some tx') :
    x = tx.hash ∧ tx' = tx ∨ x ≠ tx.hash ∧ s.transactions[x]? = some tx' := by
  rw [h.transactions, FiniteMap.getElem?_insert] at hx
  split at hx
  · rename_i heq
    exact .inl ⟨heq.symm, (Option.some.inj hx).symm⟩
  · rename_i hne
    exact .inr ⟨fun heq => hne heq.symm, hx⟩

theorem Entered.held_self {fee : ℤ} (h : Entered g s t tx fee) :
    t.transactions[tx.hash]? = some tx := by
  rw [h.transactions, FiniteMap.getElem?_insert, if_pos rfl]

theorem Entered.held_of {fee : ℤ} {tx' : MempoolTx} (h : Entered g s t tx fee)
    (he : Enters s tx) (hx : s.transactions[x]? = some tx') : t.transactions[x]? = some tx' := by
  rw [h.transactions, FiniteMap.getElem?_insert, if_neg, hx]
  rintro rfl
  exact he.hash ((FiniteMap.mem_iff_exists _ _).mpr ⟨tx', hx⟩)

theorem Named.entered (hg : g.Lawful) (h : Named hashes g s) (hc : Coherent g s)
    (hn : hashes.Names tx) (he : Enters s tx) {fee : ℤ} (ht : Entered g s t tx fee) :
    Named hashes g t where
  names w tx' hw := by
    rcases ht.held hw with ⟨-, rfl⟩ | ⟨-, hw⟩
    · exact hn
    · exact h.names w tx' hw
  depth p c txp txc hdep hp hchild := by
    have hold : ∀ {x y : Txid}, g.depends s.graph x y → x ≠ tx.hash ∧ y ≠ tx.hash := by
      intro x y hxy
      obtain ⟨hx, hy⟩ := hg.held _ _ _ hc.sound hxy
      exact ⟨fun heq => he.hash (hc.mem_graph_iff.mp (heq ▸ hx)),
        fun heq => he.hash (hc.mem_graph_iff.mp (heq ▸ hy))⟩
    rcases (ht.depends p c).mp hdep with hdep | ⟨rfl, q, hq, hpq⟩
    · obtain ⟨hpne, hcne⟩ := hold hdep
      rcases ht.held hp with ⟨heq, -⟩ | ⟨-, hp⟩
      · exact absurd heq hpne
      rcases ht.held hchild with ⟨heq, -⟩ | ⟨-, hchild⟩
      · exact absurd heq hcne
      exact h.depth p c txp txc hdep hp hchild
    · -- below a parent of `tx`
      rcases ht.held hchild with ⟨-, rfl⟩ | ⟨hne, -⟩
      swap
      · exact absurd rfl hne
      obtain ⟨txq, hq, hid⟩ := hc.parent_held hq
      obtain ⟨o, ho, heq⟩ := List.mem_map.mp hid
      have hlt : hashes.depth txq.id < hashes.depth txc.id := heq ▸ hn.deeper ho
      rcases hpq with rfl | hpq
      · rw [ht.held_of he hq, Option.some.injEq] at hp
        exact hp ▸ hlt
      · rcases ht.held hp with ⟨heq, -⟩ | ⟨-, hp⟩
        · exact absurd heq (hold hpq).1
        · exact (h.depth p q txp txq hpq hp hq).trans hlt

/-! ## What is linked -/

/-- What spends a held transaction is built on it in the graph, but for what spends `ws`. -/
def LinkedBut (g : ClusterGraph γ) (s : Mempool γ) (ws : List Txid) : Prop :=
  ∀ p c, Child s p c → g.depends s.graph p c ∨ p ∈ ws

theorem LinkedBut.gone (h : LinkedBut g s ws) (hgone : Gone g s t ws') : LinkedBut g t ws := by
  intro p c hc
  obtain ⟨hp, hcw, hc⟩ := hgone.child_iff.mp hc
  exact (h p c hc).imp_left fun hdep => (hgone.depends p c).mpr ⟨hp, hcw, hdep⟩

/-- The links of what enters go up only. -/
theorem LinkedBut.entered (hc : Coherent g s) (h : LinkedBut g s ws) (he : Enters s tx) {fee : ℤ}
    (ht : Entered g s t tx fee) : LinkedBut g t (ws ++ [tx.hash]) := by
  rintro p c ⟨txp, txc, hp, hchild, hid⟩
  rcases ht.held hp with ⟨rfl, -⟩ | ⟨-, hp⟩
  · exact .inr (by simp)
  rcases ht.held hchild with ⟨rfl, rfl⟩ | ⟨-, hchild⟩
  · exact .inl ((ht.depends _ _).mpr (.inr ⟨rfl, p, hc.parent_of_held hp hid, .inl rfl⟩))
  · rcases h p c ⟨txp, txc, hp, hchild, hid⟩ with hdep | hin
    · exact .inl ((ht.depends _ _).mpr (.inl hdep))
    · exact .inr (List.mem_append_left _ hin)

/-! ## The trim -/

theorem mem_reorgDependencies (h : Indexed s) :
    (p, c) ∈ s.reorgDependencies ws ↔ p ∈ ws ∧ Child s p c := by
  unfold reorgDependencies
  rw [List.mem_flatMap]
  constructor
  · rintro ⟨w, hw, hmem⟩
    rw [List.mem_filter, List.mem_reverse] at hw
    obtain ⟨tx, hheld⟩ := (FiniteMap.mem_iff_exists _ _).mp (of_decide_eq_true hw.2)
    rw [h.txid_of_held hheld] at hmem
    obtain ⟨c', hc', heq⟩ := List.mem_map.mp hmem
    obtain ⟨rfl, rfl⟩ := Prod.mk.inj heq
    exact ⟨hw.1, (h.mem_spenders_iff hheld).mp hc'⟩
  · rintro ⟨hp, hchild⟩
    obtain ⟨tx, hheld⟩ := (FiniteMap.mem_iff_exists _ _).mp hchild.mem_left
    refine ⟨p, ?_, ?_⟩
    · rw [List.mem_filter, List.mem_reverse]
      exact ⟨hp, decide_eq_true hchild.mem_left⟩
    · rw [h.txid_of_held hheld]
      exact List.mem_map.mpr ⟨c, (h.mem_spenders_iff hheld).mpr hchild, rfl⟩

/-- `_pop` of what the graph has let go. -/
theorem popAll_let_go (h : Indexed s) (hnodup : ws.Nodup) (hheld : ∀ w ∈ ws, w ∈ s.transactions)
    (hout : ∀ w ∈ ws, g.feerate? s.graph w = none) :
    ∃ t, popAll g ws s = .ok () t ∧ Indexed t ∧ t.graph = s.graph ∧ Left s t ws ∧
      ∀ x : Txid, t.weights[x]? = if x ∈ ws then none else s.weights[x]? := by
  induction ws generalizing s with
  | nil => exact ⟨s, rfl, h, rfl, .refl s, by simp⟩
  | cons w ws ih =>
    rw [List.nodup_cons] at hnodup
    obtain ⟨tx, hw⟩ := (FiniteMap.mem_iff_exists _ _).mp (hheld w List.mem_cons_self)
    have hnone : ¬ (g.feerate? s.graph w).isSome := by
      rw [hout w List.mem_cons_self]
      simp
    have hgraph : (s.popped g w tx true).graph = s.graph := by
      show s.graphWithout g w = _
      rw [graphWithout, if_neg hnone]
    have hpop : pop g w true s = .ok tx (s.popped g w tx true) :=
      pop_eq (h.poppable hw fun hin => absurd hin hnone) true
    have hmap : ∀ {α : Type} (m : Std.ExtTreeMap Txid α) (x : Txid),
        (m.erase w)[x]? = if x ∈ [w] then none else m[x]? := by
      intro α m x
      rw [FiniteMap.getElem?_erase]
      by_cases hx : w = x
      · simp [hx]
      · simp [hx, Ne.symm hx]
    have hleft : Left s (s.popped g w tx true) [w] :=
      ⟨hmap _, hmap _, hmap _, hmap _, rfl, .refl s⟩
    obtain ⟨t, hrest, ht, hgraph', hleft', hweights⟩ := ih (h.popped hw true) hnodup.2
      (fun x hx => by
        rw [hleft.mem_iff]
        refine ⟨fun heq => hnodup.1 ?_, hheld x (List.mem_cons_of_mem _ hx)⟩
        rwa [List.mem_singleton.mp heq] at hx)
      (fun x hx => by rw [hgraph]; exact hout x (List.mem_cons_of_mem _ hx))
    refine ⟨t, Sat.eq_ok ?_, ht, hgraph'.trans hgraph, hleft.trans hleft', fun x => ?_⟩
    · rw [popAll, sat_bind_of_ok hpop, sat_of_ok hrest]
      exact ⟨rfl, rfl⟩
    · rw [hweights]
      show (if x ∈ ws then none else (s.weights.erase w)[x]?) = _
      rw [FiniteMap.getElem?_erase]
      by_cases hx : x ∈ ws
      · simp [hx]
      · by_cases hxw : w = x
        · simp [hx, hxw]
        · simp [hx, hxw, Ne.symm hxw]

/-- What the trim of `deps` leaves: the graph is built on them too, but for what went. -/
structure Trimmed (g : ClusterGraph γ) (s t : Mempool γ) (deps : List (Txid × Txid))
    (ws : List Txid) : Prop extends Left s t ws where
  coherent : Coherent g t
  held : ∀ w ∈ ws, w ∈ s.transactions
  closed : ∀ p ∈ ws, ∀ c, g.Reaches s.graph deps p c → c ∈ ws
  depends : ∀ p c, g.depends t.graph p c ↔ p ∉ ws ∧ c ∉ ws ∧ g.Reaches s.graph deps p c

/-- No transaction is built on itself, whatever spends are linked. -/
theorem Named.acyclic (hg : g.Lawful) (h : Named hashes g s) (hc : Coherent g s)
    {deps : List (Txid × Txid)} (hdeps : ∀ p c, (p, c) ∈ deps → Child s p c) :
    (∀ p c, g.Reaches s.graph deps p c → ∀ tx tx' : MempoolTx, s.transactions[p]? = some tx →
      s.transactions[c]? = some tx' → hashes.depth tx.id < hashes.depth tx'.id) ∧
    ∀ x, ¬ g.Reaches s.graph deps x x := by
  have hone : ∀ p c, g.depends s.graph p c ∨ (p, c) ∈ deps → ∃ tx tx' : MempoolTx,
      s.transactions[p]? = some tx ∧ s.transactions[c]? = some tx' ∧
        hashes.depth tx.id < hashes.depth tx'.id := by
    rintro p c (hdep | hmem)
    · obtain ⟨hp, hcin⟩ := hg.held _ _ _ hc.sound hdep
      obtain ⟨tx, hp⟩ := (FiniteMap.mem_iff_exists _ _).mp (hc.mem_graph_iff.mp hp)
      obtain ⟨tx', hcin⟩ := (FiniteMap.mem_iff_exists _ _).mp (hc.mem_graph_iff.mp hcin)
      exact ⟨tx, tx', hp, hcin, h.depth p c tx tx' hdep hp hcin⟩
    · obtain ⟨tx, tx', hp, hchild, hid⟩ := hdeps p c hmem
      obtain ⟨o, ho, heq⟩ := List.mem_map.mp hid
      exact ⟨tx, tx', hp, hchild, heq ▸ (h.names c tx' hchild).deeper ho⟩
  have hall : ∀ p c, g.Reaches s.graph deps p c → ∃ tx tx' : MempoolTx,
      s.transactions[p]? = some tx ∧ s.transactions[c]? = some tx' ∧
        hashes.depth tx.id < hashes.depth tx'.id := by
    intro p c hreach
    induction hreach with
    | single hstep => exact hone _ _ hstep
    | tail _ hstep ih =>
      obtain ⟨tx, tx₁, hp, h1, hlt⟩ := ih
      obtain ⟨tx₂, tx', h2, hc', hlt'⟩ := hone _ _ hstep
      rw [h1, Option.some.injEq] at h2
      exact ⟨tx, tx', hp, hc', hlt.trans (h2 ▸ hlt')⟩
  constructor
  · intro p c hreach tx tx' hp hc'
    obtain ⟨tx₁, tx₂, h1, h2, hlt⟩ := hall p c hreach
    rw [hp, Option.some.injEq] at h1
    rw [hc', Option.some.injEq] at h2
    exact h1 ▸ h2 ▸ hlt
  · intro x hreach
    obtain ⟨tx₁, tx₂, h1, h2, hlt⟩ := hall x x hreach
    rw [h1, Option.some.injEq] at h2
    exact lt_irrefl _ (h2 ▸ hlt)

/-- **`update_transactions_from_block`** links what it is given to its children, and takes only
what the limits do not let stay, with what is built on it. -/
theorem updateTransactionsFromBlock_trimmed (hg : g.Lawful) (h : Coherent g s)
    (hn : Named hashes g s) (ws : List Txid) :
    ∃ t removed, updateTransactionsFromBlock g ws s = .ok () t ∧
      Trimmed g s t (s.reorgDependencies ws) removed := by
  have hdeps : ∀ p c, (p, c) ∈ s.reorgDependencies ws → Child s p c := fun p c hmem =>
    ((mem_reorgDependencies h.toIndexed).mp hmem).2
  obtain ⟨removed, gr, htrim, hsound, hnodup, hheld, hclosed, hfee, hdep⟩ :=
    hg.trim s.graph (s.reorgDependencies ws) clusterLimit clusterWeightLimit h.sound
      (fun d hd => ⟨h.mem_graph_iff.mpr (hdeps d.1 d.2 hd).mem_left,
        h.mem_graph_iff.mpr (hdeps d.1 d.2 hd).mem_right⟩) (hn.acyclic hg h hdeps).2
  have hheld : ∀ w ∈ removed, w ∈ s.transactions := fun w hw => h.mem_graph_iff.mp (hheld w hw)
  obtain ⟨t, hpop, ht, hgraph, hleft, hweights⟩ :=
    @popAll_let_go _ g { s with graph := gr } removed { h.toIndexed with } hnodup hheld
      fun w hw => by
        show g.feerate? gr w = none
        rw [hfee, if_pos hw]
  have hgraph : t.graph = gr := hgraph
  refine ⟨t, removed, Sat.eq_ok ?_, { hleft with
    coherent := ⟨ht, hgraph ▸ hsound, fun w feerate => ?_⟩
    held := hheld
    closed := hclosed
    depends := fun p c => by rw [hgraph, hdep] }⟩
  · rw [updateTransactionsFromBlock, sat_bind, sat_get, htrim, sat_bind_of_ok (walked_some _ s),
      sat_bind, sat_set, sat_of_ok hpop]
    exact ⟨rfl, rfl⟩
  · rw [hgraph, hfee, hweights, hleft.modifiedFees]
    by_cases hw : w ∈ removed
    · simp [hw]
    · simp only [if_neg hw]
      exact h.graph w feerate

theorem Trimmed.named {deps : List (Txid × Txid)} (hg : g.Lawful) (h : Trimmed g s t deps ws)
    (hc : Coherent g s) (hn : Named hashes g s) (hdeps : ∀ p c, (p, c) ∈ deps → Child s p c) :
    Named hashes g t where
  names w tx hw := hn.names w tx (h.toLeft.held hw).2
  depth p c tx tx' hdep hp hchild :=
    (hn.acyclic hg hc hdeps).1 p c ((h.depends p c).mp hdep).2.2 tx tx' (h.toLeft.held hp).2
      (h.toLeft.held hchild).2

/-- **Once the reorg is over every spend is linked**, and what went was closed. -/
theorem Trimmed.linked (hc : Coherent g s) (hl : LinkedBut g s ws)
    (h : Trimmed g s t (s.reorgDependencies ws) ws') : Linked g t ∧ Closed s ws' := by
  have hreach : ∀ p c, Child s p c → g.Reaches s.graph (s.reorgDependencies ws) p c := by
    intro p c hchild
    rcases hl p c hchild with hdep | hin
    · exact .single (.inl hdep)
    · exact .single (.inr ((mem_reorgDependencies hc.toIndexed).mpr ⟨hin, hchild⟩))
  constructor
  · intro p c hchild
    obtain ⟨hp, hcw, hchild⟩ := h.child_iff.mp hchild
    exact (h.depends p c).mpr ⟨hp, hcw, hreach p c hchild⟩
  · exact fun p hp c hchild => h.closed p hp c (hreach p c hchild)

end Mempool

end BtclibNode
