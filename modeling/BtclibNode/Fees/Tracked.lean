/-
# What is counted is what is tracked

Over any sequence of calls, where no block skips a height while something is tracked, each
horizon counts every tracked transaction once and nothing else.
-/
import BtclibNode.Fees.EstimatesFile
import BtclibNode.Fees.Unconfirmed
import Mathlib.Algebra.BigOperators.Group.List.Basic

namespace BtclibNode.FeeEstimator

open Tabulate

variable {A : Arithmetic} {e : FeeEstimator}

/-! ## Runs -/

inductive Call where
  | processTransaction (tx : AcceptedTx)
  | removeTx (txid : Bytes) (inBlock : Bool)
  | processBlock (removed : List RemovedTx) (height : ℕ)

/-- A call, which has no outcome where it indexes past an end. -/
def step (A : Arithmetic) (e : FeeEstimator) : Call → Option FeeEstimator
  | .processTransaction tx => e.processTransaction A tx
  | .removeTx txid inBlock => (e.removeTx A txid inBlock).map (·.1)
  | .processBlock removed height => e.processBlock A removed height

/-- While anything is tracked, a block comes at most one above the best. -/
def Allowed (e : FeeEstimator) : Call → Prop
  | .processBlock _ height => e.mempoolTxs ≠ [] → height ≤ e.bestSeenHeight + 1
  | _ => True

/-- Calls each of which is allowed when it comes. -/
def AllowedRun (A : Arithmetic) : FeeEstimator → List Call → Prop
  | _, [] => True
  | e, call :: calls => Allowed e call ∧ ∀ e', step A e call = some e' → AllowedRun A e' calls

/-! ## The horizons -/

/-- A property of each horizon and of the number of blocks it tracks. -/
structure Horizons (P : ℕ → TxConfirmStats → Prop) (e : FeeEstimator) : Prop where
  fee : P (medScale * medBlockPeriods) e.feeStats
  short : P (shortScale * shortBlockPeriods) e.shortStats
  long : P (longScale * longBlockPeriods) e.longStats

theorem Horizons.imp {P Q : ℕ → TxConfirmStats → Prop} (h : Horizons P e)
    (hPQ : ∀ L s, P L s → Q L s) : Horizons Q e :=
  ⟨hPQ _ _ h.fee, hPQ _ _ h.short, hPQ _ _ h.long⟩

/-- What does not raise on any horizon does not raise. -/
theorem exists_forAllStats {P Q : ℕ → TxConfirmStats → Prop}
    {f : TxConfirmStats → Option TxConfirmStats} (h : Horizons P e)
    (hf : ∀ L s, P L s → ∃ s', f s = some s' ∧ Q L s') :
    ∃ fee short long, e.forAllStats f =
        some { e with feeStats := fee, shortStats := short, longStats := long } ∧
      Horizons Q { e with feeStats := fee, shortStats := short, longStats := long } := by
  obtain ⟨fee, hfee, hQfee⟩ := hf _ _ h.fee
  obtain ⟨short, hshort, hQshort⟩ := hf _ _ h.short
  obtain ⟨long, hlong, hQlong⟩ := hf _ _ h.long
  refine ⟨fee, short, long, ?_, hQfee, hQshort, hQlong⟩
  rw [forAllStats, hfee, hshort, hlong]
  rfl

/-- The heights and buckets of what is tracked. -/
def tracked (e : FeeEstimator) : List (ℕ × ℕ) := e.mempoolTxs.map (·.2)

/-- A horizon of the right shape that counts what is tracked. -/
structure Good (b : Buckets) (best : ℕ) (tracked : List (ℕ × ℕ)) (L : ℕ) (s : TxConfirmStats) :
    Prop where
  pos : 0 < L
  shape : Shape b L s
  counts : Counts b.bounds.length L best tracked s

/-- The invariant of the calls. -/
structure Tracks (A : Arithmetic) (e : FeeEstimator) : Prop where
  finds : e.buckets.Finds A
  entries : ∀ t ∈ e.tracked, t.1 ≤ e.bestSeenHeight ∧ t.2 < e.buckets.bounds.length
  horizons : Horizons (Good e.buckets e.bestSeenHeight e.tracked) e

theorem tracks_fresh (A : Arithmetic) : Tracks A (fresh A) := by
  have hne : ((List.range A.turns).map fun i => (A.mul · feeSpacing)^[i] minBucketFeerate) ++
      [infFeerate] ≠ [] := List.concat_ne_nil _ _
  have hgood : ∀ (periods scale : ℕ) (decay : Double), 0 < scale * periods → IsDecay decay →
      Good (defaultBuckets A) 0 [] (scale * periods)
        (TxConfirmStats.new (defaultBuckets A) periods decay scale) := by
    intro periods scale decay hpos hdecay
    refine ⟨hpos, shape_new hdecay, ?_, replicate_eq_tab _ _⟩
    change List.replicate (scale * (List.replicate periods _).length) (List.replicate _ 0) = _
    rw [List.length_replicate, replicate_eq_tab, replicate_eq_tab]
    rfl
  refine ⟨Buckets.finds_new hne, nofun, ?_, ?_, ?_⟩
  · exact hgood _ _ _ (by decide) ⟨by decide, by decide⟩
  · exact hgood _ _ _ (by decide) ⟨by decide, by decide⟩
  · exact hgood _ _ _ (by decide) ⟨by decide, by decide⟩

/-! ## Transactions -/

theorem Tracks.processTransaction (h : Tracks A e) (tx : AcceptedTx) :
    ∃ e', e.processTransaction A tx = some e' ∧ Tracks A e' := by
  rw [FeeEstimator.processTransaction]
  split_ifs with hknown hheight hskip
  · exact ⟨e, rfl, h⟩
  · exact ⟨e, rfl, h⟩
  · exact ⟨_, rfl, h.finds, h.entries, h.horizons.fee, h.horizons.short, h.horizons.long⟩
  · rw [not_not] at hheight
    obtain ⟨bucket, hbucket, hfind⟩ := h.finds (A.float (feePerK tx.fee tx.vsize))
    have hnew : ∀ L s, Good e.buckets e.bestSeenHeight e.tracked L s →
        ∃ s', s.newTx A tx.height (A.float (feePerK tx.fee tx.vsize)) = some (s', bucket) ∧
          Good e.buckets e.bestSeenHeight (e.tracked ++ [(tx.height, bucket)]) L s' := by
      intro L s hs
      rw [hheight]
      obtain ⟨s', hs', hcounts⟩ :=
        hs.counts.newTx hs.pos (by rw [hs.shape.buckets]; exact hfind) hbucket
      exact ⟨s', hs', hs.pos, hs.shape.newTx hs', hcounts⟩
    obtain ⟨fee, hfee, hgoodFee⟩ := hnew _ _ h.horizons.fee
    obtain ⟨short, hshort, hgoodShort⟩ := hnew _ _ h.horizons.short
    obtain ⟨long, hlong, hgoodLong⟩ := hnew _ _ h.horizons.long
    have htracked : (e.mempoolTxs ++ [(tx.txid, tx.height, bucket)]).map (·.2) =
        e.tracked ++ [(tx.height, bucket)] := by
      rw [List.map_append]
      rfl
    dsimp only
    rw [hfee, hshort, hlong]
    refine ⟨_, rfl, h.finds, ?_, ?_, ?_, ?_⟩
    · intro t ht
      change t ∈ (e.mempoolTxs ++ [(tx.txid, tx.height, bucket)]).map (·.2) at ht
      rw [htracked] at ht
      rcases List.mem_append.mp ht with ht | ht
      · exact h.entries t ht
      · rw [List.mem_singleton.mp ht]
        exact ⟨hheight.le, hbucket⟩
    · rw [tracked, htracked]
      exact hgoodFee
    · rw [tracked, htracked]
      exact hgoodShort
    · rw [tracked, htracked]
      exact hgoodLong

/-- The transaction found is the one erased. -/
theorem perm_of_find {α : Type} {l : List α} {p : α → Bool} {x : α} (h : l.find? p = some x) :
    l.Perm (x :: l.eraseP p) := by
  induction l with
  | nil => cases h
  | cons y l ih =>
    rw [List.find?_cons] at h
    cases hy : p y with
    | true =>
      rw [hy] at h
      cases h
      rw [List.eraseP_cons_of_pos hy]
    | false =>
      rw [hy] at h
      rw [List.eraseP_cons_of_neg (by simp [hy])]
      exact ((ih h).cons y).trans (List.Perm.swap _ _ _)

theorem Tracks.removeTx (h : Tracks A e) (txid : Bytes) (inBlock : Bool) :
    ∃ e' found, e.removeTx A txid inBlock = some (e', found) ∧ Tracks A e' ∧
      e'.bestSeenHeight = e.bestSeenHeight := by
  rw [FeeEstimator.removeTx]
  cases hfind : e.mempoolTxs.find? fun p => p.1 = txid with
  | none => exact ⟨e, false, rfl, h, rfl⟩
  | some p =>
    obtain ⟨known, height, bucket⟩ := p
    have hperm : e.tracked.Perm
        ((height, bucket) :: (e.mempoolTxs.eraseP fun p => p.1 = txid).map (·.2)) :=
      (perm_of_find hfind).map _
    have hentry := h.entries _ (hperm.mem_iff.mpr List.mem_cons_self)
    have hgood : ∀ L s, Good e.buckets e.bestSeenHeight e.tracked L s →
        ∃ s', s.removeTx A height e.bestSeenHeight bucket inBlock = some s' ∧
          Good e.buckets e.bestSeenHeight
            ((e.mempoolTxs.eraseP fun p => p.1 = txid).map (·.2)) L s' := by
      intro L s hs
      obtain ⟨s₁, hs₁, hcounts⟩ := hs.counts.uncount hs.pos hperm hentry.1 hentry.2
      obtain ⟨s', s₂, hs', hs₂, hunconf, hold⟩ :=
        exists_removeTx (A := A) hs.shape hentry.2 hentry.1 ⟨s₁, hs₁⟩
      rw [hs₁] at hs₂
      cases hs₂
      exact ⟨s', hs', hs.pos, hs.shape.removeTx hs', hunconf.trans hcounts.unconfTxs,
        hold.trans hcounts.oldUnconfTxs⟩
    obtain ⟨fee, short, long, hall, hhorizons⟩ := exists_forAllStats (e := { e with
      mempoolTxs := e.mempoolTxs.eraseP fun p => p.1 = txid })
      ⟨h.horizons.fee, h.horizons.short, h.horizons.long⟩ hgood
    dsimp only
    rw [hall]
    refine ⟨_, true, rfl, ⟨h.finds, fun t ht => ?_, hhorizons⟩, rfl⟩
    exact h.entries t (hperm.mem_iff.mpr (List.mem_cons_of_mem _ ht))

/-! ## Blocks -/

theorem Tracks.processBlockTx (h : Tracks A e) (height : ℕ) (tx : RemovedTx) :
    ∃ e' counted, processBlockTx A height e tx = some (e', counted) ∧ Tracks A e' ∧
      e'.bestSeenHeight = e.bestSeenHeight := by
  obtain ⟨e₁, found, hremove, h₁, hbest⟩ := h.removeTx tx.txid true
  rw [FeeEstimator.processBlockTx, hremove, Option.bind_eq_bind, Option.bind_some]
  dsimp only
  by_cases hskip : ¬ found = true
  · rw [if_pos hskip]
    exact ⟨e₁, false, rfl, h₁, hbest⟩
  rw [if_neg hskip]
  split_ifs
  · exact ⟨e₁, false, rfl, h₁, hbest⟩
  · have hrecord : ∀ L s, Good e₁.buckets e₁.bestSeenHeight e₁.tracked L s →
        ∃ s', s.record A (height - tx.height) (A.float (feePerK tx.fee tx.vsize)) = some s' ∧
          Good e₁.buckets e₁.bestSeenHeight e₁.tracked L s' := by
      intro L s hs
      obtain ⟨s', hs', hunconf, hold⟩ := exists_record hs.shape hs.pos h₁.finds
        (height - tx.height) (A.float (feePerK tx.fee tx.vsize))
      exact ⟨s', hs', hs.pos, hs.shape.record hs', hunconf.trans hs.counts.unconfTxs,
        hold.trans hs.counts.oldUnconfTxs⟩
    obtain ⟨fee, short, long, hall, hhorizons⟩ := exists_forAllStats h₁.horizons hrecord
    rw [hall]
    exact ⟨_, true, rfl, ⟨h₁.finds, h₁.entries, hhorizons⟩, hbest⟩

theorem Tracks.processBlockTxs (h : Tracks A e) (height : ℕ) (txs : List RemovedTx) :
    ∃ e' counted, processBlockTxs A height e txs = some (e', counted) ∧ Tracks A e' := by
  induction txs generalizing e with
  | nil => exact ⟨e, 0, rfl, h⟩
  | cons tx txs ih =>
    obtain ⟨e₁, counts, htx, h₁, -⟩ := h.processBlockTx height tx
    obtain ⟨e₂, counted, htxs, h₂⟩ := ih h₁
    refine ⟨e₂, counts.toNat + counted, ?_, h₂⟩
    rw [FeeEstimator.processBlockTxs, htx, Option.bind_eq_bind, Option.bind_some]
    dsimp only
    rw [htxs]
    rfl

theorem Tracks.processBlock (h : Tracks A e) (removed : List RemovedTx) {height : ℕ}
    (hallowed : e.mempoolTxs ≠ [] → height ≤ e.bestSeenHeight + 1) :
    ∃ e', e.processBlock A removed height = some e' ∧ Tracks A e' := by
  rw [FeeEstimator.processBlock]
  split_ifs with hlow
  · exact ⟨e, rfl, h⟩
  · have hheight : e.tracked ≠ [] → height = e.bestSeenHeight + 1 := by
      intro hne
      have hle := hallowed fun hnil => hne (by rw [tracked, hnil, List.map_nil])
      omega
    -- the buffers roll before the transactions of the block leave them
    have hroll : ∀ L s, Good e.buckets e.bestSeenHeight e.tracked L s →
        ∃ s', s.clearCurrent height = some s' ∧ Good e.buckets height e.tracked L s' := by
      intro L s hs
      obtain ⟨s', hs', hcounts⟩ := hs.counts.clearCurrent hs.pos (by rw [hs.shape.buckets])
        (fun t ht => (h.entries t ht).1) hheight
      exact ⟨s', hs', hs.pos, hs.shape.clearCurrent hs', hcounts⟩
    have hdecay : ∀ L s, Good e.buckets height e.tracked L s →
        ∃ s', some (s.updateMovingAverages A) = some s' ∧
          Good e.buckets height e.tracked L s' := fun L s hs =>
      ⟨_, rfl, hs.pos, hs.shape.updateMovingAverages, hs.counts.unconfTxs, hs.counts.oldUnconfTxs⟩
    obtain ⟨fee₁, short₁, long₁, hall₁, h₁⟩ := exists_forAllStats
      (e := { e with bestSeenHeight := height })
      ⟨h.horizons.fee, h.horizons.short, h.horizons.long⟩ hroll
    obtain ⟨fee₂, short₂, long₂, hall₂, h₂⟩ := exists_forAllStats h₁ hdecay
    have htracks : Tracks A { e with
        bestSeenHeight := height, feeStats := fee₂, shortStats := short₂, longStats := long₂ } := by
      refine ⟨h.finds, fun t ht => ?_, h₂⟩
      obtain ⟨hle, hbucket⟩ := h.entries t ht
      exact ⟨hle.trans (Nat.le_of_not_le hlow), hbucket⟩
    obtain ⟨e₃, counted, htxs, h₃⟩ := htracks.processBlockTxs height removed
    dsimp only
    rw [hall₁, Option.bind_eq_bind, Option.bind_some, hall₂, Option.bind_eq_bind,
      Option.bind_some]
    dsimp only
    rw [htxs]
    exact ⟨_, rfl, h₃.finds, h₃.entries, h₃.horizons.fee, h₃.horizons.short, h₃.horizons.long⟩

theorem Tracks.step (h : Tracks A e) {call : Call} (hallowed : Allowed e call) :
    ∃ e', step A e call = some e' ∧ Tracks A e' := by
  cases call with
  | processTransaction tx => exact h.processTransaction tx
  | removeTx txid inBlock =>
    obtain ⟨e', found, hremove, h', -⟩ := h.removeTx txid inBlock
    exact ⟨e', by rw [FeeEstimator.step, hremove, Option.map_some], h'⟩
  | processBlock removed height => exact h.processBlock removed hallowed

theorem Tracks.exec (h : Tracks A e) {calls : List Call} (hallowed : AllowedRun A e calls) :
    ∃ e', Run.exec (FeeEstimator.step A) e calls = some e' ∧ Tracks A e' := by
  induction calls generalizing e with
  | nil => exact ⟨e, rfl, h⟩
  | cons call calls ih =>
    obtain ⟨e₁, hstep, h₁⟩ := h.step hallowed.1
    obtain ⟨e₂, hrun, h₂⟩ := ih h₁ (hallowed.2 e₁ hstep)
    exact ⟨e₂, Run.exec_cons.mpr ⟨e₁, hstep, hrun⟩, h₂⟩

/-! ## The counts -/

theorem sum_range_ite {L x : ℕ} (P : Prop) [Decidable P] :
    ((List.range L).map fun i => if P ∧ x = i then 1 else 0).sum = if P ∧ x < L then 1 else 0 := by
  induction L with
  | zero => simp
  | succ L ih =>
    rw [List.range_succ, List.map_append, List.sum_append, ih, List.map_singleton,
      List.sum_singleton]
    by_cases hP : P
    · simp only [hP, true_and]
      split_ifs <;> omega
    · simp only [hP, false_and, if_false]

/-- The slots together hold what entered within the buffer's length. -/
theorem sum_inSlot {L : ℕ} (hpos : 0 < L) (best bucket : ℕ) (tracked : List (ℕ × ℕ)) :
    ((List.range L).map fun slot => inSlot L best tracked slot bucket).sum =
      tracked.countP fun t => t.2 = bucket ∧ best < t.1 + L := by
  induction tracked with
  | nil => exact List.sum_eq_zero (by simp [inSlot])
  | cons t tracked ih =>
    have hsplit : ∀ slot, inSlot L best (t :: tracked) slot bucket =
        inSlot L best tracked slot bucket +
          if (t.2 = bucket ∧ best < t.1 + L) ∧ t.1 % L = slot then 1 else 0 := fun slot => by
      rw [inSlot_of_perm (List.Perm.refl _)]
      simp only [and_assoc]
    simp only [hsplit]
    rw [List.sum_map_add, ih, sum_range_ite, List.countP_cons]
    simp only [Nat.mod_lt _ hpos, and_true, decide_eq_true_eq]

/-- The numbers of a horizon are those of what is tracked: `ago` blocks after a transaction
entered it counts in the slot of its height while `ago` is below the buffer's length, and in
the old counts afterwards. -/
structure Accounts (e : FeeEstimator) (L : ℕ) (s : TxConfirmStats) : Prop where
  total : ∀ bucket < e.buckets.bounds.length,
    (s.unconfTxs.map fun row => row.getD bucket 0).sum + s.oldUnconfTxs.getD bucket 0 =
      e.mempoolTxs.countP fun p => p.2.2 = bucket
  slots : ∀ slot < L, ∀ bucket < e.buckets.bounds.length,
    s.unconfTxs[slot]?.bind (·[bucket]?) = some (e.mempoolTxs.countP fun p =>
      p.2.2 = bucket ∧ e.bestSeenHeight - p.2.1 < L ∧ p.2.1 % L = slot)
  old : ∀ bucket < e.buckets.bounds.length,
    s.oldUnconfTxs[bucket]? = some (e.mempoolTxs.countP fun p =>
      p.2.2 = bucket ∧ L ≤ e.bestSeenHeight - p.2.1)
  guarded : ∀ p ∈ e.mempoolTxs,
    (e.bestSeenHeight - p.2.1 < L →
      ∃ count, s.unconfTxs[p.2.1 % L]?.bind (·[p.2.2]?) = some count ∧ 0 < count) ∧
    (L ≤ e.bestSeenHeight - p.2.1 → ∃ count, s.oldUnconfTxs[p.2.2]? = some count ∧ 0 < count)

theorem Good.accounts {L : ℕ} {s : TxConfirmStats} (h : Tracks A e)
    (hs : Good e.buckets e.bestSeenHeight e.tracked L s) : Accounts e L s := by
  have hslots : ∀ slot < L, ∀ bucket < e.buckets.bounds.length,
      s.unconfTxs[slot]?.bind (·[bucket]?) = some (e.mempoolTxs.countP fun p =>
        p.2.2 = bucket ∧ e.bestSeenHeight - p.2.1 < L ∧ p.2.1 % L = slot) := by
    intro slot hslot bucket hbucket
    rw [hs.counts.row hslot, Option.bind_some, getElem?_tab hbucket, inSlot, tracked,
      List.countP_map]
    congr 1
    refine List.countP_congr fun p hp => ?_
    obtain ⟨hle, -⟩ := h.entries p.2 (List.mem_map_of_mem hp)
    have hheld : e.bestSeenHeight < p.2.1 + L ↔ e.bestSeenHeight - p.2.1 < L := by
      have := hs.pos
      omega
    simp only [Function.comp_apply, hheld]
  have hold : ∀ bucket < e.buckets.bounds.length,
      s.oldUnconfTxs[bucket]? = some (e.mempoolTxs.countP fun p =>
        p.2.2 = bucket ∧ L ≤ e.bestSeenHeight - p.2.1) := by
    intro bucket hbucket
    rw [hs.counts.oldUnconfTxs, getElem?_tab hbucket, inOld, tracked, List.countP_map]
    congr 1
    refine List.countP_congr fun p hp => ?_
    obtain ⟨hle, -⟩ := h.entries p.2 (List.mem_map_of_mem hp)
    have hout : p.2.1 + L ≤ e.bestSeenHeight ↔ L ≤ e.bestSeenHeight - p.2.1 := by omega
    simp only [Function.comp_apply, hout]
  refine ⟨fun bucket hbucket => ?_, hslots, hold, fun p hp => ⟨fun hheld => ?_, fun hout => ?_⟩⟩
  · have hrow : ∀ slot, (tab e.buckets.bounds.length
        (inSlot L e.bestSeenHeight e.tracked slot)).getD bucket 0 =
          inSlot L e.bestSeenHeight e.tracked slot bucket := fun slot => by
      rw [List.getD_eq_getElem?_getD, getElem?_tab hbucket, Option.getD_some]
    rw [hs.counts.unconfTxs, hs.counts.oldUnconfTxs, List.getD_eq_getElem?_getD,
      getElem?_tab hbucket, Option.getD_some, tab, List.map_map]
    simp only [Function.comp_def, hrow]
    have hsplit : (e.tracked.countP fun t => t.2 = bucket) =
        (e.tracked.countP fun t => t.2 = bucket ∧ e.bestSeenHeight < t.1 + L) +
          e.tracked.countP fun t => t.2 = bucket ∧ t.1 + L ≤ e.bestSeenHeight := by
      refine countP_add fun t _ => ⟨⟨fun ht => ?_, ?_⟩, by omega⟩
      · rcases Nat.lt_or_ge e.bestSeenHeight (t.1 + L) with hlt | hge
        · exact Or.inl ⟨ht, hlt⟩
        · exact Or.inr ⟨ht, hge⟩
      · rintro (⟨ht, -⟩ | ⟨ht, -⟩) <;> exact ht
    rw [sum_inSlot hs.pos, inOld, ← hsplit, tracked, List.countP_map]
    rfl
  · obtain ⟨-, hbucket⟩ := h.entries p.2 (List.mem_map_of_mem hp)
    refine ⟨_, hslots _ (Nat.mod_lt _ hs.pos) _ hbucket, List.countP_pos_iff.mpr ⟨p, hp, ?_⟩⟩
    exact decide_eq_true ⟨rfl, hheld, rfl⟩
  · obtain ⟨-, hbucket⟩ := h.entries p.2 (List.mem_map_of_mem hp)
    exact ⟨_, hold _ hbucket, List.countP_pos_iff.mpr ⟨p, hp, decide_eq_true ⟨rfl, hout⟩⟩⟩

/-- **The unconfirmed counts are those of the tracked transactions**, after any allowed calls. -/
theorem accounts_run (A : Arithmetic) (calls : List Call)
    (hallowed : AllowedRun A (fresh A) calls) :
    ∃ e, Run.exec (step A) (fresh A) calls = some e ∧ Horizons (Accounts e) e := by
  obtain ⟨e, hrun, h⟩ := (tracks_fresh A).exec hallowed
  exact ⟨e, hrun, h.horizons.imp fun L s hs => hs.accounts h⟩

/-- A transaction of the mempool, and the block after it. -/
theorem accounts_run_block : ∃ e, Run.exec (step Ieee.arithmetic) (fresh Ieee.arithmetic)
    [.processTransaction ⟨[1], 1000, 200, 0, false, false, true, true⟩, .processBlock [] 1] =
      some e ∧ Horizons (Accounts e) e :=
  accounts_run Ieee.arithmetic _
    ⟨trivial, fun _ _ => ⟨fun _ => Nat.succ_le_succ (Nat.zero_le _), fun _ _ => trivial⟩⟩

end BtclibNode.FeeEstimator
