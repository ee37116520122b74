/-
# Runs of the mempool

Any calls of the methods, in any order, from the empty mempool: none raises, the indexes and the
graph stay in agreement, and what a call takes out it takes with all that is built on it.
`readded` are the transactions a reorg has put back since its dependencies were last built.

* `Kept.call` : what one call keeps;
* `Reached.kept` : what every run keeps, and the results read off it below.
-/
import Mathlib
import BtclibNode.Mempool.Reorg
import BtclibNode.Mempool.Staged

namespace BtclibNode

/-! ## A graph -/

/-- A graph that keeps what each transaction is built on, and takes all it holds for one chunk. -/
structure PlainGraph where
  held : List Txid
  feerate : Txid → Option FeeFrac
  depends : Txid → Txid → Prop

/-- What the graph holds of the fees or the sizes. -/
def PlainGraph.sum (gr : PlainGraph) (read : FeeFrac → ℤ) : ℤ :=
  (gr.held.map fun w => (gr.feerate w).elim 0 read).sum

def plainGraph : ClusterGraph PlainGraph where
  sound gr := gr.held.Nodup ∧ (∀ x, x ∈ gr.held ↔ (gr.feerate x).isSome) ∧
    ∀ p c, gr.depends p c → p ∈ gr.held ∧ c ∈ gr.held
  empty := ⟨[], fun _ => none, fun _ _ => False⟩
  feerate? gr := gr.feerate
  depends gr := gr.depends
  linked _ _ _ := true
  addTransaction w feerate _ gr :=
    ⟨w :: gr.held, fun x => if w = x then some feerate else gr.feerate x, gr.depends⟩
  addDependency p c gr := some ⟨gr.held, gr.feerate, fun x y =>
    gr.depends x y ∨ (x = p ∨ gr.depends x p) ∧ (y = c ∨ gr.depends c y)⟩
  removeTransaction w gr := some ⟨gr.held.filter fun x => decide (x ≠ w),
    fun x => if w = x then none else gr.feerate x,
    fun p c => p ≠ w ∧ c ≠ w ∧ gr.depends p c⟩
  setFee w fee gr := some ⟨gr.held,
    fun x => if w = x then (gr.feerate x).map fun fr => ⟨fee, fr.size⟩ else gr.feerate x,
    gr.depends⟩
  doWork _ gr := gr
  worstChunk gr := (if gr.held = [] then none
    else some (gr.held, ⟨gr.sum FeeFrac.fee, gr.sum FeeFrac.size⟩), gr)
  trim deps _ _ gr := some ([], ⟨gr.held, gr.feerate,
    Relation.TransGen fun p c => gr.depends p c ∨ (p, c) ∈ deps⟩)
  countDistinctClusters _ _ := some 0
  stagedDiagrams _ _ _ _ gr := (some ([], []), gr)

theorem plainGraph_lawful : plainGraph.Lawful where
  empty := by
    refine ⟨⟨List.nodup_nil, fun x => ?_, fun p c hdep => ?_⟩, fun x => rfl⟩
    · simp [plainGraph]
    · exact absurd hdep id
  held := by
    rintro gr p c ⟨-, hmem, hdep⟩ hpc
    obtain ⟨hp, hc⟩ := hdep p c hpc
    exact ⟨(hmem p).mp hp, (hmem c).mp hc⟩
  addTransaction := by
    rintro gr w feerate key ⟨hnodup, hmem, hdep⟩ hnone -
    have hw : w ∉ gr.held := by
      intro hin
      have hsome := (hmem w).mp hin
      rw [show gr.feerate w = none from hnone] at hsome
      cases hsome
    refine ⟨⟨List.nodup_cons.mpr ⟨hw, hnodup⟩, fun x => ?_, fun p c hpc => ?_⟩, fun x => rfl,
      fun p c => Iff.rfl⟩
    · show x ∈ w :: gr.held ↔ (if w = x then some feerate else gr.feerate x).isSome
      rw [List.mem_cons]
      by_cases hx : w = x
      · simp [hx]
      · rw [if_neg hx, hmem x]
        simp [Ne.symm hx]
    · obtain ⟨hp, hc⟩ := hdep p c hpc
      exact ⟨List.mem_cons_of_mem _ hp, List.mem_cons_of_mem _ hc⟩
  addDependency := by
    rintro gr p c ⟨hnodup, hmem, hdep⟩ hp hc - -
    refine ⟨_, rfl, ⟨hnodup, hmem, ?_⟩, fun x => rfl, fun x y => Iff.rfl⟩
    rintro x y (hxy | ⟨hx, hy⟩)
    · exact hdep x y hxy
    · constructor
      · rcases hx with rfl | hx
        · exact (hmem x).mpr hp
        · exact (hdep x p hx).1
      · rcases hy with rfl | hy
        · exact (hmem y).mpr hc
        · exact (hdep c y hy).2
  removeTransaction := by
    rintro gr w ⟨hnodup, hmem, hdep⟩ -
    refine ⟨_, rfl, ⟨hnodup.filter _, fun x => ?_, ?_⟩, fun x => rfl, fun p c => Iff.rfl⟩
    · show x ∈ gr.held.filter (fun x => decide (x ≠ w)) ↔
        (if w = x then none else gr.feerate x).isSome
      rw [List.mem_filter, hmem x]
      by_cases hx : w = x
      · simp [hx]
      · simp [hx, Ne.symm hx]
    · rintro p c ⟨hp, hc, hpc⟩
      obtain ⟨hpin, hcin⟩ := hdep p c hpc
      exact ⟨List.mem_filter.mpr ⟨hpin, decide_eq_true hp⟩,
        List.mem_filter.mpr ⟨hcin, decide_eq_true hc⟩⟩
  setFee := by
    rintro gr w feerate fee ⟨hnodup, hmem, hdep⟩ hw
    have hw : gr.feerate w = some feerate := hw
    refine ⟨_, rfl, ⟨hnodup, fun x => ?_, hdep⟩, fun x => ?_, fun p c => Iff.rfl⟩
    · rw [hmem x]
      show _ ↔ (if w = x then (gr.feerate x).map _ else gr.feerate x).isSome
      split <;> simp
    · show (if w = x then (gr.feerate x).map _ else gr.feerate x) = _
      split <;> rename_i hx
      · rw [← hx, hw]
        rfl
      · rfl
  doWork gr _ hsound := ⟨hsound, fun _ => rfl, fun _ _ => Iff.rfl⟩
  worstChunk gr hsound := ⟨hsound, fun _ => rfl, fun _ _ => Iff.rfl⟩
  worstChunk_none := by
    rintro gr ⟨-, hmem, -⟩ hnone x
    have hnil : gr.held = [] := by
      by_contra hne
      have hsome : (plainGraph.worstChunk gr).1 = _ := if_neg hne
      rw [hsome] at hnone
      cases hnone
    rw [← Option.not_isSome_iff_eq_none]
    intro hx
    have hin := (hmem x).mpr hx
    rw [hnil] at hin
    cases hin
  worstChunk_some := by
    rintro gr refs feerate ⟨hnodup, hmem, hdep⟩ hchunk
    change (if gr.held = [] then none else some (gr.held, _)) = some (refs, feerate) at hchunk
    split at hchunk <;> rename_i hne
    · cases hchunk
    · rw [Option.some.injEq, Prod.mk.injEq] at hchunk
      obtain ⟨rfl, rfl⟩ := hchunk
      exact ⟨hne, hnodup, fun w hw => (hmem w).mp hw, rfl, fun p _ c hpc => (hdep p c hpc).2⟩
  trim := by
    rintro gr deps count size ⟨hnodup, hmem, hdep⟩ hdeps -
    refine ⟨[], _, rfl, ⟨hnodup, hmem, fun p c hpc => ?_⟩, List.nodup_nil, by simp, by simp,
      fun x => rfl, fun p c => by simp [plainGraph, ClusterGraph.Reaches]⟩
    have hone : ∀ x y, gr.depends x y ∨ (x, y) ∈ deps → x ∈ gr.held ∧ y ∈ gr.held := by
      rintro x y (hxy | hxy)
      · exact hdep x y hxy
      · exact ⟨(hmem x).mpr (hdeps _ hxy).1, (hmem y).mpr (hdeps _ hxy).2⟩
    constructor
    · obtain ⟨z, hz, -⟩ := Relation.TransGen.head'_iff.mp hpc
      exact (hone p z hz).1
    · obtain ⟨z, -, hz⟩ := Relation.TransGen.tail'_iff.mp hpc
      exact (hone z c hz).2
  stagedDiagrams gr _ _ _ _ hsound := ⟨hsound, fun _ => rfl, fun _ _ => Iff.rfl⟩

namespace Mempool

open StateExcept

variable {γ : Type} {g : ClusterGraph γ} {s t u : Mempool γ} {w x p c : Txid} {tx : MempoolTx}
  {ws ws' readded next : List Txid} {hashes : TxHashes}

/-! ## Calls -/

/-- A call of a method, with what the clock says. -/
inductive Call
  | addTx (now : ℚ) (tx : MempoolTx) (fee : ℤ) (vsize weight : Option ℕ) (replaced : List Txid)
      (height : ℕ) (evict : Bool) (entryTime : Option ℚ) (bypassLimits : Bool)
  | addPackage (now : ℚ) (members : List Member) (height : ℕ) (replaced : List Txid)
  | prioritise (txid : Txid) (feeDelta : ℤ)
  | removeTx (tx : MempoolTx)
  | removeForBlock (transactions : List MempoolTx)
  | removeDependents (tx : MempoolTx)
  | removeWithDescendants (wtxid : Txid)
  | expire (now : ℚ)
  | trim (now : ℚ)
  | updateTransactionsFromBlock (wtxids : List Txid)
  | staged (now : ℚ) (members : List Member)
  | removeConflicts (tx : MempoolTx)
  | markBroadcastLocally (txid : Txid)
  | markBroadcast (txid : Txid)
  | noteBlockConnected
  | addTransactionsUpdated (count : ℕ)

namespace Call

/-- The method, its result left out; what is staged is left again. -/
def run (g : ClusterGraph γ) : Call → MempoolM γ Unit
  | addTx now tx fee vsize weight replaced height evict entryTime bypassLimits => do
    let _ ← Mempool.addTx g now tx fee vsize weight replaced height evict entryTime bypassLimits
    return
  | addPackage now members height replaced => do
    let _ ← Mempool.addPackage g now members height replaced
    return
  | prioritise txid feeDelta => Mempool.prioritise g txid feeDelta
  | removeTx tx => Mempool.removeTx g tx
  | removeForBlock transactions => do
    let _ ← Mempool.removeForBlock g transactions
    return
  | removeDependents tx => Mempool.removeDependents g tx
  | removeWithDescendants wtxid => Mempool.removeWithDescendants g wtxid
  | expire now => do
    let _ ← Mempool.expire g now
    return
  | trim now => evictToLimit g now
  | updateTransactionsFromBlock wtxids => Mempool.updateTransactionsFromBlock g wtxids
  | staged now members => stagedAll g now members (pure ())
  | removeConflicts tx => Mempool.removeConflicts g tx
  | markBroadcastLocally txid => modify fun s => s.markBroadcastLocally txid
  | markBroadcast txid => modify fun s => s.markBroadcast txid
  | noteBlockConnected => modify Mempool.noteBlockConnected
  | addTransactionsUpdated count => modify fun s => s.addTransactionsUpdated count

/-- The txids a call is told to take, whatever spends them. -/
def named : Call → List Txid
  | removeTx tx => [tx.id]
  | removeForBlock transactions => transactions.map MempoolTx.id
  | _ => []

end Call

/-- No held transaction spends `tx`. -/
def Leaf (s : Mempool γ) (tx : MempoolTx) : Prop :=
  ∀ (w : Txid) (tx' : MempoolTx), s.transactions[w]? = some tx' →
    tx.id ∉ tx'.vin.map PrevOut.txId

/-- What is replaced: held transactions, each once, with what is built on them. -/
structure Replaces (s : Mempool γ) (replaced : List Txid) : Prop where
  nodup : replaced.Nodup
  held : ∀ w ∈ replaced, w ∈ s.transactions
  closed : Closed s replaced

/-- What the callers see to, and what waits for its dependencies afterwards: only what a reorg puts
back may be spent already, without a trim, and nothing is trimmed while a dependency is missing. -/
def Call.Allowed (hashes : TxHashes) (s : Mempool γ) (readded next : List Txid) : Call → Prop
  | addTx _ tx _ vsize weight replaced _ evict _ _ =>
    hashes.Names tx ∧ 0 < weight.getD (weightOf tx vsize) ∧ Replaces s replaced ∧
      (evict = false ∧ next = readded ++ [tx.hash] ∨
        Leaf s tx ∧ next = readded ∧ (evict = true → readded = []))
  | addPackage _ members _ replaced =>
    readded = [] ∧ next = [] ∧ Replaces s replaced ∧ Joins s replaced members ∧
      (∀ m ∈ members, hashes.Names m.tx ∧ Leaf s m.tx) ∧
      members.Pairwise fun m m' => m'.tx.id ∉ m.tx.vin.map PrevOut.txId
  | trim _ => readded = [] ∧ next = []
  | updateTransactionsFromBlock wtxids => (∀ w ∈ readded, w ∈ wtxids) ∧ next = []
  | staged _ members => next = readded ∧
      (∀ m ∈ members, m.tx.id ∉ s.txidIndex ∧ hashes.Names m.tx) ∧
      (members.map fun m => m.tx.id).Nodup
  | removeConflicts tx => next = readded ∧ tx.id ∉ s.txidIndex
  | _ => next = readded

/-- The states that calls reach from the empty mempool, with what waits for its dependencies. -/
inductive Reached (hashes : TxHashes) (g : ClusterGraph γ) (incrementalRelayFeerate expiry : ℤ) :
    Mempool γ → List Txid → Prop
  | init : Reached hashes g incrementalRelayFeerate expiry
      (Mempool.init g incrementalRelayFeerate expiry) []
  | call {s t : Mempool γ} {readded next : List Txid} {call : Call}
      (h : Reached hashes g incrementalRelayFeerate expiry s readded)
      (hallowed : call.Allowed hashes s readded next) (hrun : call.run g s = .ok () t) :
      Reached hashes g incrementalRelayFeerate expiry t next

/-! ## The invariant -/

/-- What holds between calls. -/
structure Kept (hashes : TxHashes) (g : ClusterGraph γ) (s : Mempool γ) (readded : List Txid) :
    Prop where
  coherent : Coherent g s
  named : Named hashes g s
  linked : LinkedBut g s readded
  limit : 0 ≤ s.bytesizeLimit

theorem Linked.but (h : Linked g s) (ws : List Txid) : LinkedBut g s ws :=
  fun p c hchild => .inl (h p c hchild)

theorem LinkedBut.none (h : LinkedBut g s []) : Linked g s := by
  intro p c hchild
  rcases h p c hchild with hdep | hin
  · exact hdep
  · cases hin

theorem Kept.init (hg : g.Lawful) (incrementalRelayFeerate expiry : ℤ) :
    Kept hashes g (init g incrementalRelayFeerate expiry) [] where
  coherent := .init hg.empty _ _
  named := by
    constructor
    · intro w tx hw
      simp [Mempool.init] at hw
    · intro p c tx tx' _ hp
      simp [Mempool.init] at hp
  linked := by
    rintro p c ⟨tx, tx', hp, -⟩
    simp [Mempool.init] at hp
  limit := by
    show (0 : ℤ) ≤ 300 * 1000 ^ 2
    norm_num

theorem Kept.gone (h : Kept hashes g s readded) (hgone : Gone g s t ws) :
    Kept hashes g t readded where
  coherent := hgone.coherent
  named := h.named.gone hgone
  linked := h.linked.gone hgone
  limit := hgone.limits.1 ▸ h.limit

/-- Of the state the rest reads the transactions, the graph and the limit. -/
theorem Kept.same (h : Kept hashes g s readded) (hc : Coherent g t)
    (htx : t.transactions = s.transactions) (hgraph : t.graph = s.graph)
    (hlimit : t.bytesizeLimit = s.bytesizeLimit) : Kept hashes g t readded := by
  refine ⟨hc, ⟨?_, ?_⟩, ?_, hlimit ▸ h.limit⟩
  · rw [htx]
    exact h.named.names
  · rw [htx, hgraph]
    exact h.named.depth
  · unfold LinkedBut Child
    rw [htx, hgraph]
    exact h.linked

theorem Kept.prioritised (h : Kept hashes g s readded) {txid : Txid} {feeDelta : ℤ}
    (ht : Prioritised g s t txid feeDelta) : Kept hashes g t readded where
  coherent := ht.coherent
  named := by
    constructor
    · intro w tx hw
      exact h.named.names w tx (ht.transactions ▸ hw)
    · intro p c tx tx' hdep hp hc
      rw [ht.transactions] at hp hc
      exact h.named.depth p c tx tx' ((ht.depends p c).mp hdep) hp hc
  linked := by
    rintro p c ⟨tx, tx', hp, hc, hid⟩
    rw [ht.transactions] at hp hc
    exact (h.linked p c ⟨tx, tx', hp, hc, hid⟩).imp_left (ht.depends p c).mpr
  limit := ht.limits.1 ▸ h.limit

theorem LinkedBut.mono (h : LinkedBut g s ws) (hsub : ∀ w ∈ ws, w ∈ ws') : LinkedBut g s ws' :=
  fun p c hchild => (h p c hchild).imp_right (hsub p)

/-- What nothing held spends is linked once it is in. -/
theorem LinkedBut.enteredLeaf (hc : Coherent g s) (h : LinkedBut g s ws) (he : Enters s tx)
    {fee : ℤ} (ht : Entered g s t tx fee) (hleaf : Leaf s tx) : LinkedBut g t ws := by
  rintro p c ⟨txp, txc, hp, hchild, hid⟩
  rcases ht.held hchild with ⟨rfl, rfl⟩ | ⟨-, hchild⟩
  · rcases ht.held hp with ⟨-, rfl⟩ | ⟨-, hp⟩
    · exact absurd hid he.other
    · exact .inl ((ht.depends _ _).mpr (.inr ⟨rfl, p, hc.parent_of_held hp hid, .inl rfl⟩))
  · rcases ht.held hp with ⟨-, rfl⟩ | ⟨-, hp⟩
    · exact absurd hid (hleaf c txc hchild)
    · rcases h p c ⟨txp, txc, hp, hchild, hid⟩ with hdep | hin
      · exact .inl ((ht.depends _ _).mpr (.inl hdep))
      · exact .inr hin

theorem Leaf.gone (h : Leaf s tx) (hgone : Gone g s t ws) : Leaf t tx :=
  fun w tx' hw => h w tx' (hgone.held hw).2

theorem Kept.mono (h : Kept hashes g s readded) (hsub : ∀ w ∈ readded, w ∈ next) :
    Kept hashes g s next :=
  { h with linked := h.linked.mono hsub }

/-- A transaction enters: one that may be spent already waits for its dependencies. -/
theorem Kept.entered (hg : g.Lawful) (h : Kept hashes g s readded) (hn : hashes.Names tx)
    (he : Enters s tx) {fee : ℤ} (ht : Entered g s t tx fee)
    (hnext : next = readded ++ [tx.hash] ∨ Leaf s tx ∧ next = readded) :
    Kept hashes g t next where
  coherent := ht.coherent
  named := h.named.entered hg h.coherent hn he ht
  linked := by
    rcases hnext with rfl | ⟨hleaf, rfl⟩
    · exact h.linked.entered h.coherent he ht
    · exact h.linked.enteredLeaf h.coherent he ht hleaf
  limit := ht.limits.1 ▸ h.limit

/-- The members of a package, each after what it spends, keep every spend linked. -/
theorem Kept.members (hg : g.Lawful) {members : List Member} (h : Kept hashes g s readded)
    (hmembers : ∀ m ∈ members, hashes.Names m.tx ∧ Leaf s m.tx)
    (hsorted : members.Pairwise fun m m' => m'.tx.id ∉ m.tx.vin.map PrevOut.txId)
    (hpath : Path g s (members.map fun m => .entered m.tx m.fee) t) :
    Kept hashes g t readded := by
  induction members generalizing s with
  | nil =>
    cases hpath
    exact h
  | cons m members ih =>
    rw [List.pairwise_cons] at hsorted
    cases hpath with
    | cons head tail =>
      obtain ⟨henters, hentered⟩ := head
      obtain ⟨hnames, hleaf⟩ := hmembers m List.mem_cons_self
      refine ih (h.entered hg hnames henters hentered (.inr ⟨hleaf, rfl⟩)) ?_ hsorted.2 tail
      intro m' hm'
      refine ⟨(hmembers m' (List.mem_cons_of_mem _ hm')).1, fun w tx' hw => ?_⟩
      rcases hentered.held hw with ⟨-, rfl⟩ | ⟨-, hw⟩
      · exact hsorted.1 m' hm'
      · exact (hmembers m' (List.mem_cons_of_mem _ hm')).2 w tx' hw

/-- What is held once the members are in. -/
theorem Path.members_held {members : List Member}
    (h : Path g s (members.map fun m => .entered m.tx m.fee) t) :
    (∀ (x : Txid) (tx : MempoolTx), s.transactions[x]? = some tx →
      t.transactions[x]? = some tx) ∧
    ∀ x ∈ t.transactions, x ∈ s.transactions ∨ ∃ m ∈ members, x = m.tx.hash := by
  induction members generalizing s with
  | nil =>
    cases h
    exact ⟨fun _ _ hx => hx, fun _ hx => .inl hx⟩
  | cons m members ih =>
    cases h with
    | cons head tail =>
      obtain ⟨henters, hentered⟩ := head
      obtain ⟨hin, hnew⟩ := ih tail
      refine ⟨fun x tx hx => hin x tx (hentered.held_of henters hx), fun x hx => ?_⟩
      rcases hnew x hx with hx | ⟨m', hm', rfl⟩
      · obtain ⟨tx, hx⟩ := (FiniteMap.mem_iff_exists _ _).mp hx
        rcases hentered.held hx with ⟨rfl, -⟩ | ⟨-, hx⟩
        · exact .inr ⟨m, List.mem_cons_self, rfl⟩
        · exact .inl ((FiniteMap.mem_iff_exists _ _).mpr ⟨tx, hx⟩)
      · exact .inr ⟨m', List.mem_cons_of_mem _ hm', rfl⟩

/-! ## What spends what goes -/

/-- Of what was held and is not of the txids `named`, nothing goes without what spends it. -/
def NoOrphan (s t : Mempool γ) (named : List Txid) : Prop :=
  ∀ (p c : Txid) (txp : MempoolTx), s.transactions[p]? = some txp → txp.id ∉ named →
    Child s p c → p ∉ t.transactions → c ∉ t.transactions

/-- Closed sets go before and after what enters. -/
theorem NoOrphan.of_entering {s₁ s₂ : Mempool γ} {named : List Txid} (hfirst : Left s s₁ ws)
    (hclosed : Closed s ws)
    (hin : ∀ (x : Txid) (tx : MempoolTx), s₁.transactions[x]? = some tx →
      s₂.transactions[x]? = some tx)
    (hnew : ∀ x ∈ s.transactions, x ∈ s₂.transactions → x ∈ s₁.transactions)
    (hlast : Left s₂ t ws') (hclosed' : Closed s₂ ws') : NoOrphan s t named := by
  intro p c txp _ _ hchild hout hc
  have hc₁ : c ∈ s₁.transactions := hnew c hchild.mem_right (hlast.mem_iff.mp hc).2
  have hcw : c ∉ ws := (hfirst.mem_iff.mp hc₁).1
  -- the child stays at first, so the parent does
  have hpw : p ∉ ws := fun hpw => hcw (hclosed p hpw c hchild)
  have hchild₂ : Child s₂ p c := by
    obtain ⟨txp, txc, hp, hc, hid⟩ := hfirst.child_iff.mpr ⟨hpw, hcw, hchild⟩
    exact ⟨txp, txc, hin _ _ hp, hin _ _ hc, hid⟩
  have hpw' : p ∈ ws' := by
    by_contra hnot
    exact hout (hlast.mem_iff.mpr ⟨hnot, hchild₂.mem_left⟩)
  exact (hlast.mem_iff.mp hc).1 (hclosed' p hpw' c hchild₂)

theorem closed_nil : Closed s [] := fun p hp => by cases hp

theorem NoOrphan.of_closed {named : List Txid} (hleft : Left s t ws) (hclosed : Closed s ws) :
    NoOrphan s t named :=
  .of_entering (.refl s) closed_nil (fun _ _ hx => hx) (fun _ hx _ => hx) hleft hclosed

/-- What is held stays held. -/
theorem NoOrphan.of_same {named : List Txid} (h : t.transactions = s.transactions) :
    NoOrphan s t named := by
  intro p c txp hp _ _ hout
  exact absurd (h ▸ (FiniteMap.mem_iff_exists _ _).mpr ⟨txp, hp⟩) hout

/-! ## One call -/

theorem Kept.afterAddTx (hg : g.Lawful) (h : Kept hashes g s readded) {now : ℚ} {fee : ℤ}
    {vsize weight : Option ℕ} {replaced : List Txid} {height : ℕ} {evict : Bool}
    {entryTime : Option ℚ} {bypassLimits : Bool} {named : List Txid} (hn : hashes.Names tx)
    (hpos : 0 < weight.getD (weightOf tx vsize)) (hreplaces : Replaces s replaced)
    (hnext : evict = false ∧ next = readded ++ [tx.hash] ∨
      Leaf s tx ∧ next = readded ∧ (evict = true → readded = [])) :
    ∃ kept t, addTx g now tx fee vsize weight replaced height evict entryTime bypassLimits s =
      .ok kept t ∧ Kept hashes g t next ∧ NoOrphan s t named := by
  have hformed := h.named.formed h.coherent hn
  obtain ⟨kept, t, hrun, hadds⟩ : ∃ kept t,
      addTx g now tx fee vsize weight replaced height evict entryTime bypassLimits s =
        .ok kept t ∧ Adds g s t tx fee replaced evict (truncateTime now - s.expiry) kept :=
    addTx_adds hg h.coherent hformed hreplaces.nodup hreplaces.held hpos
  have hsub : ∀ w ∈ readded, w ∈ next := by
    rcases hnext with ⟨-, rfl⟩ | ⟨-, rfl, -⟩
    · exact fun w hw => List.mem_append_left _ hw
    · exact fun w hw => hw
  refine ⟨kept, t, hrun, ?_⟩
  cases hadds with
  | held hid hsame => exact ⟨hsame ▸ h.mono hsub, .of_same (by rw [hsame])⟩
  | conflict hid hgone hspent =>
    exact ⟨(h.gone hgone).mono hsub, .of_closed hgone.toLeft hreplaces.closed⟩
  | @entered s₁ s₂ ws hid hgone henters hentered hrest hws hkeep hclosed hlimit hexpired =>
    have hkept : Kept hashes g s₂ next := by
      refine (h.gone hgone).entered hg hn henters hentered ?_
      rcases hnext with ⟨-, hnext⟩ | ⟨hleaf, hnext, -⟩
      · exact .inl hnext
      · exact .inr ⟨hleaf.gone hgone, hnext⟩
    have hlast : Closed s₂ ws := by
      cases evict with
      | false =>
        rw [hkeep rfl]
        exact closed_nil
      | true =>
        rcases hnext with ⟨heq, -⟩ | ⟨-, hnext, hnone⟩
        · cases heq
        · rw [hnext, hnone rfl] at hkept
          exact hclosed hkept.linked.none
    refine ⟨hkept.gone hrest, .of_entering hgone.toLeft hreplaces.closed
      (fun x tx' hx => hentered.held_of henters hx) (fun x hx hx₂ => ?_) hrest.toLeft hlast⟩
    obtain ⟨tx', hx₂⟩ := (FiniteMap.mem_iff_exists _ _).mp hx₂
    rcases hentered.held hx₂ with ⟨rfl, -⟩ | ⟨-, hx₁⟩
    · exact absurd (hformed.hash hx) hid
    · exact (FiniteMap.mem_iff_exists _ _).mpr ⟨tx', hx₁⟩

theorem Kept.afterPackage (hg : g.Lawful) (h : Kept hashes g s []) {members : List Member}
    {replaced named : List Txid} (hreplaces : Replaces s replaced)
    (hjoins : Joins s replaced members)
    (hmembers : ∀ m ∈ members, hashes.Names m.tx ∧ Leaf s m.tx)
    (hsorted : members.Pairwise fun m m' => m'.tx.id ∉ m.tx.vin.map PrevOut.txId) (now : ℚ)
    (height : ℕ) :
    ∃ kept t, addPackage g now members height replaced s = .ok kept t ∧ Kept hashes g t [] ∧
      NoOrphan s t named := by
  obtain ⟨s₁, s₂, ws, t, hrun, hgone, hpath, -, hrest, -, hclosed, -⟩ :=
    addPackage_path hg h.coherent hjoins hreplaces.nodup hreplaces.held now height
  have hkept : Kept hashes g s₂ [] := (h.gone hgone).members hg
    (fun m hm => ⟨(hmembers m hm).1, (hmembers m hm).2.gone hgone⟩) hsorted hpath
  obtain ⟨hin, hnew⟩ := hpath.members_held
  refine ⟨_, t, hrun, hkept.gone hrest, .of_entering hgone.toLeft hreplaces.closed hin
    (fun x hx hx₂ => ?_) hrest.toLeft (hclosed hkept.linked.none)⟩
  rcases hnew x hx₂ with hx₁ | ⟨m, hm, rfl⟩
  · exact hx₁
  · exact absurd ((hjoins.formed m hm).hash hx) (hjoins.id m hm)

theorem Kept.afterRemoveTx (hg : g.Lawful) (h : Kept hashes g s readded) (tx : MempoolTx) :
    ∃ t, removeTx g tx s = .ok () t ∧ Kept hashes g t readded ∧ NoOrphan s t [tx.id] := by
  obtain ⟨t, hrun, hgone⟩ := removeTx_gone hg h.coherent tx
  refine ⟨t, hrun, h.gone hgone, fun p c txp hp hnot _ hout => ?_⟩
  -- what went has the txid
  have hpw : s.txidIndex[tx.id]? = some p := by
    by_contra hne
    refine hout (hgone.mem_iff.mpr ⟨?_, (FiniteMap.mem_iff_exists _ _).mpr ⟨txp, hp⟩⟩)
    rw [Option.mem_toList]
    exact hne
  obtain ⟨held, hheld, hid⟩ := h.coherent.held_of_index hpw
  rw [hp, Option.some.injEq] at hheld
  exact absurd (List.mem_singleton.mpr (hheld ▸ hid)) hnot

theorem Kept.afterBlock (hg : g.Lawful) (h : Kept hashes g s readded) (txs : List MempoolTx) :
    ∃ removed t, removeForBlock g txs s = .ok removed t ∧ Kept hashes g t readded ∧
      NoOrphan s t (txs.map MempoolTx.id) := by
  obtain ⟨removed, t, ws, hrun, hconn⟩ := removeForBlock_connected hg h.coherent txs
  refine ⟨removed, t, hrun, (h.same (h.coherent.withDeltas t.deltas) rfl rfl rfl).gone hconn.gone, ?_⟩
  intro p c txp hp hnot hchild hout
  have hpw : p ∈ ws := by
    by_contra hpw
    exact hout (hconn.gone.mem_iff.mpr ⟨hpw, hchild.mem_left⟩)
  rcases hconn.closed p hpw c hchild with hcw | ⟨tx, htx, hid⟩
  · exact fun hc => (hconn.gone.mem_iff.mp hc).1 hcw
  · rw [hp, Option.some.injEq] at htx
    exact absurd (htx ▸ hid) hnot

theorem Kept.afterStaged (h : Kept hashes g s readded) (now : ℚ) {members : List Member}
    (hmembers : ∀ m ∈ members, m.tx.id ∉ s.txidIndex ∧ hashes.Names m.tx)
    (hid : (members.map fun m => m.tx.id).Nodup) :
    ∃ t, stagedAll g now members (pure ()) s = .ok () t ∧ Kept hashes g t readded ∧
      t.transactions = s.transactions := by
  have hhash : (members.map fun m => m.tx.hash).Nodup := by
    rw [List.Nodup, List.pairwise_map] at hid ⊢
    refine hid.imp_of_mem fun {m m'} hm hm' hne heq => hne ?_
    rw [(hmembers m hm).2.id, (hmembers m' hm').2.id, heq]
  have hstage : ∀ m ∈ members, Stageable g s m.tx := fun m hm =>
    h.coherent.stageable (hmembers m hm).1 fun w held hw heq => by
      rw [(h.named.names w held hw).id, (hmembers m hm).2.id, heq]
  have hsat : Sat (stagedAll g now members (pure ())) s (fun _ t => Restored s t ∧ True)
      fun _ t => Restored s t ∧ False :=
    stagedAll_sat hstage (fun m hm => (hmembers m hm).2.nodup) hid hhash ⟨.refl _, trivial⟩
  obtain ⟨⟨⟩, t, hrun, hrestored, -⟩ :=
    (hsat.mono (fun _ _ hq => hq) fun _ _ he => he.2).exists_ok
  rw [hrestored.eq] at hrun
  refine ⟨_, hrun, h.same { h.coherent with oldest := fun w time hw => ?_ } rfl rfl rfl, rfl⟩
  exact hrestored.oldest.trans (h.coherent.oldest w time hw)

theorem Kept.afterConflicts (hg : g.Lawful) (h : Kept hashes g s readded)
    (hout : tx.id ∉ s.txidIndex) : ∃ t, removeConflicts g tx s = .ok () t ∧
      Kept hashes g t readded ∧ NoOrphan s t [] := by
  obtain ⟨t, ws, hrun, hconn, hws⟩ := removeConflicts_connected hg h.coherent hout
  have hgone : Gone g { s with deltas := t.deltas } t ws := hconn.gone.withDeltas t.deltas
  have hclosed : Closed s ws := closed_of_built hws
  have horphan : NoOrphan { s with deltas := t.deltas } t [] := .of_closed hgone.toLeft hclosed
  exact ⟨t, hrun, (h.same (h.coherent.withDeltas t.deltas) rfl rfl rfl).gone hgone, horphan⟩

/-- A call of a method, its result left out. -/
theorem run_eq {α : Type} {x : MempoolM γ α} {a : α} (h : x s = .ok a t) :
    (do let _ ← x; return : MempoolM γ Unit) s = .ok () t := by
  refine Sat.eq_ok ?_
  rw [sat_bind_of_ok h]
  exact ⟨rfl, rfl⟩

/-- **An allowed call returns**, keeps the invariant and leaves no orphan. -/
theorem Kept.call (hg : g.Lawful) (h : Kept hashes g s readded) {call : Call}
    (hallowed : call.Allowed hashes s readded next) :
    ∃ t, call.run g s = .ok () t ∧ Kept hashes g t next ∧ NoOrphan s t call.named := by
  cases call with
  | addTx now tx fee vsize weight replaced height evict entryTime bypassLimits =>
    obtain ⟨hn, hpos, hreplaces, hnext⟩ := hallowed
    obtain ⟨kept, t, hrun, hafter⟩ := h.afterAddTx hg hn hpos hreplaces hnext
    exact ⟨t, run_eq hrun, hafter⟩
  | addPackage now members height replaced =>
    obtain ⟨rfl, rfl, hreplaces, hjoins, hmembers, hsorted⟩ := hallowed
    obtain ⟨kept, t, hrun, hafter⟩ :=
      h.afterPackage hg hreplaces hjoins hmembers hsorted now height
    exact ⟨t, run_eq hrun, hafter⟩
  | prioritise txid feeDelta =>
    obtain rfl : next = readded := hallowed
    obtain ⟨t, hrun, ht⟩ := prioritise_prioritised hg h.coherent txid feeDelta
    exact ⟨t, hrun, h.prioritised ht, .of_same ht.transactions⟩
  | removeTx tx =>
    obtain rfl : next = readded := hallowed
    exact h.afterRemoveTx hg tx
  | removeForBlock transactions =>
    obtain rfl : next = readded := hallowed
    obtain ⟨removed, t, hrun, hafter⟩ := h.afterBlock hg transactions
    exact ⟨t, run_eq hrun, hafter⟩
  | removeDependents tx =>
    obtain rfl : next = readded := hallowed
    obtain ⟨t, ws, hrun, hgone, hws⟩ := removeDependents_gone hg h.coherent tx
    exact ⟨t, hrun, h.gone hgone, .of_closed hgone.toLeft (closed_of_built hws)⟩
  | removeWithDescendants wtxid =>
    obtain rfl : next = readded := hallowed
    obtain ⟨t, ws, hrun, hgone, hws⟩ := removeWithDescendants_gone hg h.coherent wtxid
    refine ⟨t, hrun, h.gone hgone, .of_closed hgone.toLeft fun p hp c hchild => ?_⟩
    obtain ⟨hin, hdesc⟩ := (hws p).mp hp
    exact (hws c).mpr ⟨hin, hdesc.tail hchild⟩
  | expire now =>
    obtain rfl : next = readded := hallowed
    obtain ⟨t, ws, hrun, hgone, -, hws⟩ := expire_gone hg h.coherent now
    exact ⟨t, run_eq hrun, h.gone hgone, .of_closed hgone.toLeft (closed_of_built hws)⟩
  | trim now =>
    obtain ⟨rfl, rfl⟩ := hallowed
    obtain ⟨t, ws, hrun, hgone, -, hclosed, -⟩ := evictToLimit_gone hg h.coherent now
    exact ⟨t, hrun, h.gone hgone, .of_closed hgone.toLeft (hclosed h.linked.none)⟩
  | updateTransactionsFromBlock wtxids =>
    obtain ⟨hall, rfl⟩ := hallowed
    obtain ⟨t, removed, hrun, htrimmed⟩ :=
      updateTransactionsFromBlock_trimmed hg h.coherent h.named wtxids
    obtain ⟨hlinked, hclosed⟩ := htrimmed.linked h.coherent (h.linked.mono hall)
    have hdeps : ∀ p c, (p, c) ∈ s.reorgDependencies wtxids → Child s p c := fun p c hmem =>
      ((mem_reorgDependencies h.coherent.toIndexed).mp hmem).2
    refine ⟨t, hrun, ⟨htrimmed.coherent, htrimmed.named hg h.coherent h.named hdeps,
      hlinked.but [], htrimmed.limits.1 ▸ h.limit⟩, .of_closed htrimmed.toLeft hclosed⟩
  | staged now members =>
    obtain ⟨rfl, hmembers, hid⟩ := hallowed
    obtain ⟨t, hrun, hkept, hsame⟩ := h.afterStaged now hmembers hid
    exact ⟨t, hrun, hkept, .of_same hsame⟩
  | removeConflicts tx =>
    obtain ⟨rfl, hout⟩ := hallowed
    exact h.afterConflicts hg hout
  | markBroadcastLocally txid =>
    obtain rfl : next = readded := hallowed
    refine ⟨_, rfl, ?_⟩
    dsimp only
    unfold markBroadcastLocally
    split <;> rename_i hin
    · refine ⟨h.same { h.coherent with unbroadcast := fun t ht => ?_ } rfl rfl rfl, .of_same rfl⟩
      rw [Std.ExtTreeSet.mem_insert, Std.LawfulEqCmp.compare_eq_iff_eq] at ht
      exact ht.elim (fun heq => heq ▸ hin) (h.coherent.unbroadcast t)
    · exact ⟨h, .of_same rfl⟩
  | markBroadcast txid =>
    obtain rfl : next = readded := hallowed
    refine ⟨_, rfl, h.same { h.coherent with unbroadcast := fun t ht => ?_ } rfl rfl rfl,
      .of_same rfl⟩
    exact h.coherent.unbroadcast t (Std.ExtTreeSet.mem_of_mem_erase ht)
  | noteBlockConnected =>
    obtain rfl : next = readded := hallowed
    exact ⟨_, rfl, h.same { h.coherent with } rfl rfl rfl, .of_same rfl⟩
  | addTransactionsUpdated count =>
    obtain rfl : next = readded := hallowed
    exact ⟨_, rfl, h.same { h.coherent with } rfl rfl rfl, .of_same rfl⟩

/-! ## A run -/

/-- A transaction that spends an output that is not held. -/
def sampleTx : MempoolTx := ⟨txidOf 1, txidOf 1, 2, [⟨txidOf 9, 0⟩], 400, 1⟩

def sampleInputs (t : Txid) : List PrevOut := if t = txidOf 1 then [⟨txidOf 9, 0⟩] else []

def sampleDepth (t : Txid) : ℕ := if t = txidOf 1 then 1 else 0

theorem sampleDepth_lt (t : Txid) (o : PrevOut) (ho : o ∈ sampleInputs t) :
    sampleDepth o.txId < sampleDepth t := by
  unfold sampleInputs at ho
  split at ho <;> rename_i ht
  · rw [List.mem_singleton.mp ho, ht]
    decide
  · cases ho

def sampleHashes : TxHashes := ⟨id, sampleInputs, sampleDepth, sampleDepth_lt⟩

theorem sampleTx_named : sampleHashes.Names sampleTx := ⟨rfl, rfl, by decide⟩


/-- The transaction comes in, without a trim. -/
def sampleCall : Call := .addTx 0 sampleTx 1000 none none [] 0 false none false

theorem sampleCall_allowed : sampleCall.Allowed sampleHashes
    (Mempool.init plainGraph 100 1209600) [] [] := by
  refine ⟨sampleTx_named, by decide, ⟨List.nodup_nil, by simp, closed_nil⟩,
    .inr ⟨fun w tx' hw => ?_, rfl, fun _ => rfl⟩⟩
  simp [Mempool.init] at hw

theorem sample_reached : ∃ t, sampleCall.run plainGraph (Mempool.init plainGraph 100 1209600) =
    .ok () t ∧ Reached sampleHashes plainGraph 100 1209600 t [] ∧ txidOf 1 ∈ t.transactions := by
  have hinit : Kept sampleHashes plainGraph (Mempool.init plainGraph 100 1209600) [] :=
    .init plainGraph_lawful 100 1209600
  obtain ⟨kept, t, hrun, hadds⟩ : ∃ kept t, addTx plainGraph 0 sampleTx 1000 none none [] 0 false
      none false (Mempool.init plainGraph 100 1209600) = .ok kept t ∧
      Adds plainGraph (Mempool.init plainGraph 100 1209600) t sampleTx 1000 [] false
        (truncateTime 0 - 1209600) kept :=
    addTx_adds plainGraph_lawful hinit.coherent (hinit.named.formed hinit.coherent sampleTx_named)
      List.nodup_nil (by simp) (by decide)
  refine ⟨t, run_eq hrun, .call .init sampleCall_allowed (run_eq hrun), ?_⟩
  cases hadds with
  | held hid hsame => simp [Mempool.init] at hid
  | conflict hid hgone hspent =>
    obtain ⟨o, -, ho⟩ := hspent
    have hin := hgone.spender hinit.coherent ho
    simp [Mempool.init] at hin
  | entered hid hgone henters hentered hrest hws hkeep hclosed hlimit hexpired =>
    rw [hkeep rfl] at hrest
    refine hrest.mem_iff.mpr ⟨by simp, ?_⟩
    exact (FiniteMap.mem_iff_exists _ _).mpr ⟨sampleTx, hentered.held_self⟩

/-! ## Runs -/

section Runs

variable {rate expiry : ℤ}

/-- **The invariant holds of every state reached.** -/
theorem Reached.kept (hg : g.Lawful) (h : Reached hashes g rate expiry s readded) :
    Kept hashes g s readded := by
  induction h with
  | init => exact .init hg rate expiry
  | call _ hallowed hrun ih =>
    obtain ⟨t, hrun', hkept, -⟩ := ih.call hg hallowed
    rw [hrun] at hrun'
    cases hrun'
    exact hkept

/-- **A connected block leaves none of its transactions, nothing that conflicts with one and no
delta of one**, and of what stays the delta it had. -/
theorem block_leaves_no_conflict (hg : g.Lawful) (h : Reached hashes g rate expiry s readded)
    (txs : List MempoolTx) : ∃ removed t, removeForBlock g txs s = .ok removed t ∧
      (∀ tx ∈ txs, tx.id ∉ t.txidIndex ∧ tx.id ∉ t.deltas ∧ ∀ o ∈ tx.vin, o ∉ t.outpointSpender) ∧
      (∀ x ∈ t.transactions, x ∈ s.transactions) ∧
      ∀ i ∈ t.txidIndex, t.deltas[i]? = s.deltas[i]? := by
  obtain ⟨removed, t, ws, hrun, hconn⟩ := removeForBlock_connected hg (h.kept hg).coherent txs
  refine ⟨removed, t, hrun, fun tx htx => ?_, fun x hx => (hconn.gone.mem_iff.mp hx).2, hconn.kept⟩
  exact ⟨hconn.mined tx htx, hconn.cleared tx htx, hconn.unspent tx htx⟩

theorem sample_block_leaves : ∃ s t : Mempool PlainGraph, txidOf 1 ∈ s.transactions ∧
    (∃ removed, removeForBlock plainGraph [sampleTx] s = .ok removed t) ∧
      txidOf 1 ∉ t.txidIndex := by
  obtain ⟨s, -, h, hin⟩ := sample_reached
  obtain ⟨removed, t, hrun, hblock, -⟩ := block_leaves_no_conflict plainGraph_lawful h [sampleTx]
  exact ⟨s, t, hin, ⟨removed, hrun⟩, (hblock sampleTx List.mem_cons_self).1⟩

end Runs

end Mempool

end BtclibNode
