/-
# What a call does to the mempool

Every method is a sequence of four things that can happen: entries go, one enters, a delta is
added to, or one is dropped.  `Happens` says of each what it changes and what it leaves, so that
an invariant of the four is one of every method.
-/
import Mathlib
import BtclibNode.Mempool.Walks

namespace BtclibNode

namespace Mempool

open StateExcept

variable {γ : Type} {g : ClusterGraph γ} {s t u : Mempool γ} {w x p c : Txid} {tx : MempoolTx}
  {ws ws' : List Txid}

/-! ## The four -/

/-- The settings, which nothing changes. -/
def SameLimits (s t : Mempool γ) : Prop :=
  t.bytesizeLimit = s.bytesizeLimit ∧ t.expiry = s.expiry ∧
    t.incrementalRelayFeerate = s.incrementalRelayFeerate

/-- The entries are those of `s` but for `ws`. -/
structure Left (s t : Mempool γ) (ws : List Txid) : Prop where
  transactions : ∀ x, t.transactions[x]? = if x ∈ ws then none else s.transactions[x]?
  fees : ∀ x, t.fees[x]? = if x ∈ ws then none else s.fees[x]?
  modifiedFees : ∀ x, t.modifiedFees[x]? = if x ∈ ws then none else s.modifiedFees[x]?
  entryTimes : ∀ x, t.entryTimes[x]? = if x ∈ ws then none else s.entryTimes[x]?
  deltas : t.deltas = s.deltas
  limits : SameLimits s t

/-- The entries of `ws` are gone, and the rest is as it was. -/
structure Gone (g : ClusterGraph γ) (s t : Mempool γ) (ws : List Txid) : Prop
    extends Left s t ws where
  coherent : Coherent g t
  depends : ∀ p c, g.depends t.graph p c ↔ p ∉ ws ∧ c ∉ ws ∧ g.depends s.graph p c

/-- `tx` has entered. -/
structure Entered (g : ClusterGraph γ) (s t : Mempool γ) (tx : MempoolTx) (fee : ℤ) : Prop where
  coherent : Coherent g t
  transactions : t.transactions = s.transactions.insert tx.hash tx
  fees : t.fees = s.fees.insert tx.hash fee
  modifiedFees : t.modifiedFees = s.modifiedFees.insert tx.hash (saturate (fee + s.delta tx.id))
  deltas : t.deltas = s.deltas
  limits : SameLimits s t
  depends : ∀ x y, g.depends t.graph x y ↔ g.depends s.graph x y ∨
    y = tx.hash ∧ ∃ p ∈ s.parents tx, x = p ∨ g.depends s.graph x p

/-- `fee_delta` is added to the delta of `txid`, and to the modified fee of what has it. -/
structure Prioritised (g : ClusterGraph γ) (s t : Mempool γ) (txid : Txid) (feeDelta : ℤ) : Prop where
  coherent : Coherent g t
  transactions : t.transactions = s.transactions
  fees : t.fees = s.fees
  modifiedFees : ∀ x, t.modifiedFees[x]? =
    if s.txidIndex[txid]? = some x then s.modifiedFees[x]?.map fun fee => saturate (fee + feeDelta)
    else s.modifiedFees[x]?
  deltas : t.deltas = if saturate (s.delta txid + feeDelta) = 0 then s.deltas.erase txid
    else s.deltas.insert txid (saturate (s.delta txid + feeDelta))
  limits : SameLimits s t
  depends : ∀ p c, g.depends t.graph p c ↔ g.depends s.graph p c

/-- What can happen to the mempool. -/
inductive Event
  | gone (ws : List Txid)
  | entered (tx : MempoolTx) (fee : ℤ)
  | prioritised (txid : Txid) (feeDelta : ℤ)
  | cleared (txid : Txid)

/-- `t` is what the event leaves of `s`. -/
def Happens (g : ClusterGraph γ) (s t : Mempool γ) : Event → Prop
  | .gone ws => Gone g s t ws
  | .entered tx fee => Enters s tx ∧ Entered g s t tx fee
  | .prioritised txid feeDelta => Prioritised g s t txid feeDelta
  | .cleared txid => t = s.clearPrioritisation txid

/-- `t` is what the events leave of `s`, one after the other. -/
inductive Path (g : ClusterGraph γ) : Mempool γ → List Event → Mempool γ → Prop
  | nil (s : Mempool γ) : Path g s [] s
  | cons {s t u : Mempool γ} {e : Event} {es : List Event} (head : Happens g s t e)
      (tail : Path g t es u) : Path g s (e :: es) u

theorem Path.single {e : Event} (h : Happens g s t e) : Path g s [e] t := .cons h (.nil t)

theorem Path.append {es es' : List Event} (h : Path g s es t) (h' : Path g t es' u) :
    Path g s (es ++ es') u := by
  induction h with
  | nil => exact h'
  | cons head _ ih => exact .cons head (ih h')

theorem SameLimits.refl (s : Mempool γ) : SameLimits s s := ⟨rfl, rfl, rfl⟩

theorem SameLimits.trans (h : SameLimits s t) (h' : SameLimits t u) : SameLimits s u :=
  ⟨h'.1.trans h.1, h'.2.1.trans h.2.1, h'.2.2.trans h.2.2⟩

/-! ## Entries going -/

theorem Left.refl (s : Mempool γ) : Left s s [] := by
  refine ⟨?_, ?_, ?_, ?_, rfl, .refl s⟩ <;> simp

theorem Gone.refl (h : Coherent g s) : Gone g s s [] := ⟨.refl s, h, by simp⟩

/-- What goes at once is what goes bit by bit. -/
theorem Left.trans (h : Left s t ws) (h' : Left t u ws') : Left s u (ws ++ ws') := by
  have hmap : ∀ {α : Type} {m m' m'' : Std.ExtTreeMap Txid α},
      (∀ x, m'[x]? = if x ∈ ws then none else m[x]?) →
      (∀ x, m''[x]? = if x ∈ ws' then none else m'[x]?) →
      ∀ x, m''[x]? = if x ∈ ws ++ ws' then none else m[x]? := by
    intro α m m' m'' h1 h2 x
    rw [h2, h1]
    by_cases hw : x ∈ ws <;> by_cases hw' : x ∈ ws' <;> simp [hw, hw']
  exact ⟨hmap h.transactions h'.transactions, hmap h.fees h'.fees,
    hmap h.modifiedFees h'.modifiedFees, hmap h.entryTimes h'.entryTimes,
    h'.deltas.trans h.deltas, h.limits.trans h'.limits⟩

theorem Gone.trans (h : Gone g s t ws) (h' : Gone g t u ws') : Gone g s u (ws ++ ws') := by
  refine ⟨h.toLeft.trans h'.toLeft, h'.coherent, fun p c => ?_⟩
  rw [h'.depends, h.depends]
  simp only [List.mem_append, not_or]
  tauto

/-- Only which entries go matters. -/
theorem Left.congr (h : Left s t ws) (hws : ∀ x, x ∈ ws ↔ x ∈ ws') : Left s t ws' := by
  refine ⟨?_, ?_, ?_, ?_, h.deltas, h.limits⟩
  · intro x
    rw [h.transactions, if_congr (hws x) rfl rfl]
  · intro x
    rw [h.fees, if_congr (hws x) rfl rfl]
  · intro x
    rw [h.modifiedFees, if_congr (hws x) rfl rfl]
  · intro x
    rw [h.entryTimes, if_congr (hws x) rfl rfl]

theorem Gone.congr (h : Gone g s t ws) (hws : ∀ x, x ∈ ws ↔ x ∈ ws') : Gone g s t ws' := by
  refine ⟨h.toLeft.congr hws, h.coherent, fun p c => ?_⟩
  rw [h.depends, hws p, hws c]

theorem Left.mem_iff (h : Left s t ws) : x ∈ t.transactions ↔ x ∉ ws ∧ x ∈ s.transactions := by
  rw [FiniteMap.mem_iff_exists, FiniteMap.mem_iff_exists, h.transactions]
  by_cases hx : x ∈ ws <;> simp [hx]

/-- What is held is a transaction that was. -/
theorem Left.held (h : Left s t ws) (hx : t.transactions[x]? = some tx) :
    x ∉ ws ∧ s.transactions[x]? = some tx := by
  rw [h.transactions] at hx
  split at hx
  · cases hx
  · exact ⟨by assumption, hx⟩

/-- Once a held transaction goes, fewer are held. -/
theorem Left.size_lt (h : Left s t ws) (hw : w ∈ ws) (hheld : w ∈ s.transactions) :
    t.transactions.size < s.transactions.size := by
  rw [← card_wtxids, ← card_wtxids]
  refine Finset.card_lt_card (Finset.ssubset_iff_of_subset ?_ |>.mpr ?_)
  · intro x hx
    exact mem_wtxids.mpr (h.mem_iff.mp (mem_wtxids.mp hx)).2
  · exact ⟨w, mem_wtxids.mpr hheld, fun hx => (h.mem_iff.mp (mem_wtxids.mp hx)).1 hw⟩

theorem Left.child_iff (h : Left s t ws) : Child t p c ↔ p ∉ ws ∧ c ∉ ws ∧ Child s p c := by
  constructor
  · rintro ⟨tx, tx', hp, hc, hmem⟩
    obtain ⟨hpw, hp⟩ := h.held hp
    obtain ⟨hcw, hc⟩ := h.held hc
    exact ⟨hpw, hcw, tx, tx', hp, hc, hmem⟩
  · rintro ⟨hpw, hcw, tx, tx', hp, hc, hmem⟩
    refine ⟨tx, tx', ?_, ?_, hmem⟩
    · rw [h.transactions, if_neg hpw, hp]
    · rw [h.transactions, if_neg hcw, hc]

/-- The same entries, in another state of what nothing here reads. -/
theorem Gone.quiet (hc : Coherent g t) (htx : t.transactions = s.transactions)
    (hfees : t.fees = s.fees) (hmod : t.modifiedFees = s.modifiedFees)
    (htimes : t.entryTimes = s.entryTimes) (hdel : t.deltas = s.deltas)
    (hlim : SameLimits s t) (hdep : ∀ p c, g.depends t.graph p c ↔ g.depends s.graph p c) :
    Gone g s t [] := by
  refine ⟨⟨?_, ?_, ?_, ?_, hdel, hlim⟩, hc, ?_⟩
  · simp [htx]
  · simp [hfees]
  · simp [hmod]
  · simp [htimes]
  · simp [hdep]

/-- `_pop` of a held transaction is one entry going. -/
theorem pop_gone (hg : g.Lawful) (h : Coherent g s) (hw : s.transactions[w]? = some tx)
    (notify : Bool) :
    pop g w notify s = .ok tx (s.popped g w tx notify) ∧
      Gone g s (s.popped g w tx notify) [w] := by
  have hmap : ∀ {α : Type} (m : Std.ExtTreeMap Txid α) (x : Txid),
      (m.erase w)[x]? = if x ∈ [w] then none else m[x]? := by
    intro α m x
    rw [FiniteMap.getElem?_erase]
    by_cases hx : w = x
    · simp [hx]
    · simp [hx, Ne.symm hx]
  refine ⟨h.pop hg hw notify, ⟨hmap _, hmap _, hmap _, hmap _, rfl, .refl s⟩,
    h.popped hg hw notify, ?_⟩
  intro p c
  show g.depends (s.graphWithout g w) p c ↔ _
  have hin : (g.feerate? s.graph w).isSome :=
    h.mem_graph_iff.mpr ((FiniteMap.mem_iff_exists _ _).mpr ⟨tx, hw⟩)
  obtain ⟨gr, hgr, -, -, hdep⟩ := hg.removeTransaction s.graph w h.sound hin
  unfold graphWithout
  rw [if_pos hin, hgr, Option.getD_some, hdep]
  simp

/-- **`_pop` of several held transactions is those entries going.** -/
theorem popAll_gone (hg : g.Lawful) (h : Coherent g s) (hnodup : ws.Nodup)
    (hheld : ∀ w ∈ ws, w ∈ s.transactions) :
    ∃ t, popAll g ws s = .ok () t ∧ Gone g s t ws := by
  induction ws generalizing s with
  | nil => exact ⟨s, rfl, .refl h⟩
  | cons w ws ih =>
    rw [List.nodup_cons] at hnodup
    obtain ⟨tx, hw⟩ := (FiniteMap.mem_iff_exists _ _).mp (hheld w List.mem_cons_self)
    obtain ⟨hpop, hgone⟩ := pop_gone hg h hw true
    obtain ⟨t, hrest, hgone'⟩ := ih hgone.coherent hnodup.2 (fun x hx => by
      rw [hgone.mem_iff]
      refine ⟨fun heq => hnodup.1 ?_, hheld x (List.mem_cons_of_mem _ hx)⟩
      rwa [List.mem_singleton.mp heq] at hx)
    refine ⟨t, Sat.eq_ok ?_, hgone.trans hgone'⟩
    rw [popAll, sat_bind_of_ok hpop, sat_of_ok hrest]
    exact ⟨rfl, rfl⟩

/-! ## An entry coming -/

section Insert

variable {now : ℚ} {fee : ℤ} {vsize weight : Option ℕ} {height : ℕ} {bypassLimits : Bool}

/-- **`_insert` of what may enter is it entering.** -/
theorem insert_entered (hg : g.Lawful) (h : Coherent g s) (he : Enters s tx)
    (hpos : 0 < weight.getD (weightOf tx vsize)) :
    ∃ t, insert g now tx fee vsize height weight true bypassLimits s = .ok () t ∧
      Entered g s t tx fee := by
  obtain ⟨gr, hrun, hc, hdep⟩ :=
    @Coherent.insert _ _ _ _ now fee vsize weight height bypassLimits hg h he hpos
  exact ⟨_, hrun, hc, rfl, rfl, rfl, rfl, .refl s, hdep⟩

end Insert

/-! ## Deltas -/

theorem Coherent.clearPrioritisation (h : Coherent g s) (txid : Txid) :
    Coherent g (s.clearPrioritisation txid) where
  toIndexed := { h.toIndexed with }
  sound := h.sound
  graph := h.graph

/-- **`prioritise` does not raise**, and is the delta added. -/
theorem prioritise_prioritised (hg : g.Lawful) (h : Coherent g s) (txid : Txid) (feeDelta : ℤ) :
    ∃ t, prioritise g txid feeDelta s = .ok () t ∧ Prioritised g s t txid feeDelta := by
  unfold prioritise
  let delta := saturate (s.delta txid + feeDelta)
  let s₁ : Mempool γ := { s with
    deltas := if delta = 0 then s.deltas.erase txid else s.deltas.insert txid delta }
  cases hindex : s.txidIndex[txid]? with
  | none =>
    refine ⟨s₁, Sat.eq_ok ?_, ?_⟩
    · rw [sat_bind, sat_modify, sat_bind, sat_get]
      dsimp only
      rw [hindex]
      exact ⟨rfl, rfl⟩
    · refine ⟨{ toIndexed := { h.toIndexed with }, sound := h.sound, graph := h.graph }, rfl, rfl,
        ?_, rfl, .refl s, fun _ _ => Iff.rfl⟩
      intro x
      rw [hindex, if_neg (by simp)]
  | some w =>
    obtain ⟨tx, hw, -⟩ := h.held_of_index hindex
    have hmem : w ∈ s.transactions := (FiniteMap.mem_iff_exists _ _).mpr ⟨tx, hw⟩
    obtain ⟨fee, hfee⟩ := (FiniteMap.mem_iff_exists _ _).mp ((h.modifiedFees w).mpr hmem)
    obtain ⟨weight, hweight⟩ := (FiniteMap.mem_iff_exists _ _).mp ((h.weights w).mpr hmem)
    obtain ⟨gr, hgr, hsound, hset, hdep⟩ := hg.setFee s.graph w ⟨fee, (weight : ℕ)⟩
      (saturate (fee + feeDelta)) h.sound ((h.graph w _).mpr ⟨fee, weight, hfee, hweight, rfl⟩)
    let s₂ : Mempool γ := { s₁ with
      modifiedFees := s.modifiedFees.insert w (saturate (fee + feeDelta))
      graph := gr
      transactionsUpdated := s.transactionsUpdated + 1 }
    refine ⟨s₂, Sat.eq_ok ?_, ?_⟩
    · rw [sat_bind, sat_modify, sat_bind, sat_get]
      dsimp only
      rw [hindex]
      show Sat (walked s.modifiedFees[w]? >>= _) _ _ _
      rw [hfee, sat_bind_of_ok (walked_some _ _), sat_bind, sat_modify]
      show Sat (walked (g.setFee w _ s.graph) >>= _) _ _ _
      rw [hgr, sat_bind_of_ok (walked_some _ _), sat_modify]
      exact ⟨rfl, rfl⟩
    · refine ⟨?_, rfl, rfl, ?_, rfl, .refl s, hdep⟩
      · refine {
          toIndexed := { h.toIndexed with modifiedFees := fun x => ?_ }
          sound := hsound
          graph := ?_ }
        · show x ∈ s.modifiedFees.insert w _ ↔ _
          rw [Std.ExtTreeMap.mem_insert, Std.LawfulEqCmp.compare_eq_iff_eq, h.modifiedFees x]
          constructor
          · rintro (rfl | hx)
            · exact hmem
            · exact hx
          · exact .inr
        · intro x feerate
          show g.feerate? gr x = _ ↔ ∃ fee' weight', (s.modifiedFees.insert w _)[x]? = _ ∧
            s.weights[x]? = _ ∧ _
          rw [hset, FiniteMap.getElem?_insert]
          by_cases hx : w = x
          · rw [if_pos hx, if_pos hx, ← hx, hweight]
            simp [eq_comm]
          · rw [if_neg hx, if_neg hx]
            exact h.graph x feerate
      · intro x
        show (s.modifiedFees.insert w _)[x]? = _
        rw [FiniteMap.getElem?_insert]
        by_cases hx : w = x
        · rw [if_pos hx, if_pos (by rw [hindex, hx]), ← hx, hfee]
          rfl
        · rw [if_neg hx, if_neg (by rw [hindex]; simpa using hx)]

end Mempool

end BtclibNode
