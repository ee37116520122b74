/-
# The unconfirmed counts

A circular buffer of `confirms` slots holds, for each height among the last `confirms`, the
transactions that entered at it; those that entered before are in the old counts.
-/
import BtclibNode.Fees.Shape
import BtclibNode.Lib.Run
import Mathlib.Data.Nat.ModEq

namespace BtclibNode.FeeEstimator

open Tabulate TxConfirmStats

variable {A : Arithmetic} {n confirms best height bucket : ℕ} {tracked tracked' : List (ℕ × ℕ)}
  {s : TxConfirmStats}

/-! ## What is to be counted -/

/-- The tracked transactions of a bucket that count in a slot. -/
def inSlot (confirms best : ℕ) (tracked : List (ℕ × ℕ)) (slot bucket : ℕ) : ℕ :=
  tracked.countP fun t => t.2 = bucket ∧ best < t.1 + confirms ∧ t.1 % confirms = slot

/-- Those that entered too long ago for a slot. -/
def inOld (confirms best : ℕ) (tracked : List (ℕ × ℕ)) (bucket : ℕ) : ℕ :=
  tracked.countP fun t => t.2 = bucket ∧ t.1 + confirms ≤ best

/-- A horizon counts what is tracked. -/
structure Counts (n confirms best : ℕ) (tracked : List (ℕ × ℕ)) (s : TxConfirmStats) : Prop where
  unconfTxs : s.unconfTxs = tab confirms fun slot => tab n (inSlot confirms best tracked slot)
  oldUnconfTxs : s.oldUnconfTxs = tab n (inOld confirms best tracked)

theorem Counts.length (h : Counts n confirms best tracked s) : s.unconfTxs.length = confirms := by
  rw [h.unconfTxs, length_tab]

theorem Counts.row (h : Counts n confirms best tracked s) {slot : ℕ} (hslot : slot < confirms) :
    s.unconfTxs[slot]? = some (tab n (inSlot confirms best tracked slot)) := by
  rw [h.unconfTxs, getElem?_tab hslot]

/-! ## A block -/

/-- Of the heights a buffer holds, the slot of the next one is that of the oldest. -/
theorem slot_next_iff {t : ℕ} (hle : t ≤ best) (hheld : best < t + confirms) :
    t % confirms = (best + 1) % confirms ↔ t + confirms = best + 1 := by
  constructor
  · intro hmod
    have hdvd : confirms ∣ best + 1 - t := (Nat.modEq_iff_dvd' (by omega)).mp hmod
    have hge := Nat.le_of_dvd (by omega) hdvd
    omega
  · intro h
    rw [← h, Nat.add_mod_right]

theorem inSlot_next (hheights : ∀ t ∈ tracked, t.1 ≤ best)
    (hheight : tracked ≠ [] → height = best + 1) (slot bucket : ℕ) :
    inSlot confirms height tracked slot bucket =
      if slot = height % confirms then 0 else inSlot confirms best tracked slot bucket := by
  split_ifs with hslot
  · refine List.countP_eq_zero.mpr fun t ht => ?_
    have hnext := hheight (List.ne_nil_of_mem ht)
    have hle := hheights t ht
    rw [decide_eq_true_eq]
    rintro ⟨-, hheld, hmod⟩
    rw [hslot, hnext, slot_next_iff hle (by omega)] at hmod
    omega
  · refine List.countP_congr fun t ht => ?_
    have hnext := hheight (List.ne_nil_of_mem ht)
    have hle := hheights t ht
    rw [decide_eq_true_eq, decide_eq_true_eq]
    refine and_congr_right fun _ => ⟨fun ⟨hheld, hmod⟩ => ⟨by omega, hmod⟩,
      fun ⟨hheld, hmod⟩ => ⟨?_, hmod⟩⟩
    by_contra hlast
    exact hslot (by rw [← hmod, hnext]; exact (slot_next_iff hle hheld).mpr (by omega))

theorem countP_add {α : Type} {l : List α} {p q r : α → Prop} [DecidablePred p] [DecidablePred q]
    [DecidablePred r] (h : ∀ x ∈ l, (r x ↔ p x ∨ q x) ∧ ¬ (p x ∧ q x)) :
    (l.countP fun x => r x) = (l.countP fun x => p x) + l.countP fun x => q x := by
  induction l with
  | nil => rfl
  | cons x l ih =>
    obtain ⟨⟨hor, hand⟩, hl⟩ := List.forall_mem_cons.mp h
    rw [List.countP_cons, List.countP_cons, List.countP_cons, ih hl]
    by_cases hp : p x <;> by_cases hq : q x <;> simp_all <;> omega

theorem inOld_next (hheights : ∀ t ∈ tracked, t.1 ≤ best)
    (hheight : tracked ≠ [] → height = best + 1) (bucket : ℕ) :
    inOld confirms height tracked bucket = inOld confirms best tracked bucket +
      inSlot confirms best tracked (height % confirms) bucket := by
  refine countP_add fun t ht => ?_
  have hnext := hheight (List.ne_nil_of_mem ht)
  have hle := hheights t ht
  rw [hnext]
  constructor
  · constructor
    · rintro ⟨hbucket, hout⟩
      by_cases hheld : best < t.1 + confirms
      · exact Or.inr ⟨hbucket, hheld, (slot_next_iff hle hheld).mpr (by omega)⟩
      · exact Or.inl ⟨hbucket, by omega⟩
    · rintro (⟨hbucket, hout⟩ | ⟨hbucket, hheld, hmod⟩)
      · exact ⟨hbucket, by omega⟩
      · rw [slot_next_iff hle hheld] at hmod
        exact ⟨hbucket, by omega⟩
  · rintro ⟨⟨-, hout⟩, -, hheld, -⟩
    omega

/-- The loop of `clear_current`, over some of the buckets. -/
theorem foldlM_clearBucket (f g : ℕ → ℕ) {m : ℕ} (hm : m ≤ n) :
    (List.range m).foldlM clearBucket (tab n f, tab n g) =
      some (tab n fun j => if j < m then f j + g j else f j,
        tab n fun j => if j < m then 0 else g j) := by
  induction m with
  | zero => simp
  | succ m ih =>
    rw [List.range_succ, List.foldlM_append, ih (by omega)]
    change ([m].foldlM clearBucket (_, _)) = _
    rw [List.foldlM_cons, clearBucket, getElem?_tab (by omega)]
    simp only [Option.bind_eq_bind, Option.bind_some]
    rw [modifyAt_tab _ (by omega), Option.bind_some, setAt_tab _ (by omega)]
    change some (_, _) = some (_, _)
    congr 2
    · refine tab_congr fun j _ => ?_
      by_cases hj : j = m
      · rw [hj, Function.update_self, if_neg (by omega), if_neg (by omega), if_pos (by omega)]
      · rw [Function.update_of_ne hj]
        split_ifs <;> omega
    · refine tab_congr fun j _ => ?_
      by_cases hj : j = m
      · rw [hj, Function.update_self, if_pos (by omega)]
      · rw [Function.update_of_ne hj]
        split_ifs <;> omega

/-- **A block rolls the buffer**: what leaves it is counted as old. -/
theorem Counts.clearCurrent (h : Counts n confirms best tracked s) (hpos : 0 < confirms)
    (hn : s.buckets.bounds.length = n) (hheights : ∀ t ∈ tracked, t.1 ≤ best)
    (hheight : tracked ≠ [] → height = best + 1) :
    ∃ s', s.clearCurrent height = some s' ∧ Counts n confirms height tracked s' := by
  have hslot : height % confirms < confirms := Nat.mod_lt _ hpos
  rw [TxConfirmStats.clearCurrent, h.length, hn]
  dsimp only
  rw [h.row hslot, h.oldUnconfTxs, Option.bind_eq_bind, Option.bind_some,
    foldlM_clearBucket _ _ le_rfl]
  change ∃ s', (setAt s.unconfTxs _ _).bind _ = some s' ∧ _
  rw [h.unconfTxs, setAt_tab _ hslot]
  refine ⟨_, rfl, ?_, ?_⟩
  · refine tab_congr fun slot _ => ?_
    by_cases hs : slot = height % confirms
    · rw [hs, Function.update_self]
      refine tab_congr fun bucket hbucket => ?_
      rw [if_pos hbucket, inSlot_next hheights hheight, if_pos rfl]
    · rw [Function.update_of_ne hs]
      refine tab_congr fun bucket _ => ?_
      rw [inSlot_next hheights hheight, if_neg hs]
  · refine tab_congr fun bucket hbucket => ?_
    rw [if_pos hbucket, inOld_next hheights hheight]

/-! ## Transactions -/

theorem inSlot_append (confirms best slot bucket : ℕ) (t : ℕ × ℕ) :
    inSlot confirms best (tracked ++ [t]) slot bucket = inSlot confirms best tracked slot bucket +
      if t.2 = bucket ∧ best < t.1 + confirms ∧ t.1 % confirms = slot then 1 else 0 := by
  rw [inSlot, List.countP_append, List.countP_singleton]
  simp only [decide_eq_true_eq]
  rfl

theorem inSlot_of_perm {t : ℕ × ℕ} (h : tracked.Perm (t :: tracked')) (slot bucket : ℕ) :
    inSlot confirms best tracked slot bucket = inSlot confirms best tracked' slot bucket +
      if t.2 = bucket ∧ best < t.1 + confirms ∧ t.1 % confirms = slot then 1 else 0 := by
  rw [inSlot, h.countP_eq, List.countP_cons]
  simp only [decide_eq_true_eq]
  rfl

theorem inOld_append (confirms best bucket : ℕ) (t : ℕ × ℕ) :
    inOld confirms best (tracked ++ [t]) bucket = inOld confirms best tracked bucket +
      if t.2 = bucket ∧ t.1 + confirms ≤ best then 1 else 0 := by
  rw [inOld, List.countP_append, List.countP_singleton]
  simp only [decide_eq_true_eq]
  rfl

theorem inOld_of_perm {t : ℕ × ℕ} (h : tracked.Perm (t :: tracked')) (bucket : ℕ) :
    inOld confirms best tracked bucket = inOld confirms best tracked' bucket +
      if t.2 = bucket ∧ t.1 + confirms ≤ best then 1 else 0 := by
  rw [inOld, h.countP_eq, List.countP_cons]
  simp only [decide_eq_true_eq]
  rfl

/-- A transaction that enters counts in the slot of the best height. -/
theorem Counts.newTx (h : Counts n confirms best tracked s) (hpos : 0 < confirms) {x : Double}
    (hfind : s.buckets.find A x = some bucket) (hbucket : bucket < n) :
    ∃ s', s.newTx A best x = some (s', bucket) ∧
      Counts n confirms best (tracked ++ [(best, bucket)]) s' := by
  have hslot : best % confirms < confirms := Nat.mod_lt _ hpos
  rw [TxConfirmStats.newTx, hfind, h.length]
  dsimp only
  rw [Option.bind_eq_bind, Option.bind_some, h.row hslot, Option.bind_eq_bind, Option.bind_some,
    modifyAt_tab _ hbucket]
  change ∃ s', (setAt s.unconfTxs _ _).bind _ = some (s', _) ∧ _
  rw [h.unconfTxs, setAt_tab _ hslot]
  refine ⟨_, rfl, ?_, ?_⟩
  · refine tab_congr fun slot _ => ?_
    by_cases hs : slot = best % confirms
    · rw [hs, Function.update_self]
      refine tab_congr fun j _ => ?_
      rw [inSlot_append]
      by_cases hj : j = bucket
      · rw [hj, Function.update_self, if_pos ⟨rfl, by omega, rfl⟩]
      · rw [Function.update_of_ne hj, if_neg fun hc => hj hc.1.symm, Nat.add_zero]
    · rw [Function.update_of_ne hs]
      refine tab_congr fun j _ => ?_
      rw [inSlot_append, if_neg fun hc => hs hc.2.2.symm, Nat.add_zero]
  · refine h.oldUnconfTxs.trans (tab_congr fun j _ => ?_)
    rw [inOld_append, if_neg (by omega), Nat.add_zero]

theorem decrement_tab {f : ℕ → ℕ} (hbucket : bucket < n) (hpos : 0 < f bucket) :
    decrement (tab n f) bucket = some (tab n (Function.update f bucket (f bucket - 1))) := by
  rw [decrement, getElem?_tab hbucket, Option.bind_eq_bind, Option.bind_some, if_pos hpos,
    modifyAt_tab _ hbucket]

/-- **A transaction that leaves is uncounted where it was counted**, and the guard finds it. -/
theorem Counts.uncount {entry : ℕ} (h : Counts n confirms best tracked s) (hpos : 0 < confirms)
    (hperm : tracked.Perm ((entry, bucket) :: tracked')) (hentry : entry ≤ best)
    (hbucket : bucket < n) :
    ∃ s', s.uncount entry (best - entry) bucket = some s' ∧
      Counts n confirms best tracked' s' := by
  have hslot : entry % confirms < confirms := Nat.mod_lt _ hpos
  rw [TxConfirmStats.uncount, h.length]
  by_cases hago : confirms ≤ best - entry
  · have hold : ∀ j, inOld confirms best tracked j = inOld confirms best tracked' j +
        if bucket = j ∧ entry + confirms ≤ best then 1 else 0 := inOld_of_perm hperm
    have hfound : 0 < inOld confirms best tracked bucket := by
      rw [hold, if_pos ⟨rfl, by omega⟩]
      exact Nat.succ_pos _
    rw [if_pos hago, h.oldUnconfTxs, decrement_tab hbucket hfound]
    refine ⟨_, rfl, h.unconfTxs.trans (tab_congr fun slot _ => tab_congr fun j _ => ?_),
      tab_congr fun j _ => ?_⟩
    · rw [inSlot_of_perm hperm, if_neg (by omega), Nat.add_zero]
    · by_cases hj : j = bucket
      · rw [hj, Function.update_self, hold, if_pos ⟨rfl, by omega⟩]
        rfl
      · rw [Function.update_of_ne hj, hold, if_neg fun hc => hj hc.1.symm, Nat.add_zero]
  · have hheld : best < entry + confirms := by omega
    have hfound : 0 < inSlot confirms best tracked (entry % confirms) bucket := by
      rw [inSlot_of_perm hperm, if_pos ⟨rfl, hheld, rfl⟩]
      exact Nat.succ_pos _
    rw [if_neg hago]
    dsimp only
    rw [h.row hslot, Option.bind_eq_bind, Option.bind_some, decrement_tab hbucket hfound]
    change ∃ s', (setAt s.unconfTxs _ _).bind _ = some s' ∧ _
    rw [h.unconfTxs, setAt_tab _ hslot]
    refine ⟨_, rfl, tab_congr fun slot _ => ?_,
      h.oldUnconfTxs.trans (tab_congr fun j _ => ?_)⟩
    · by_cases hs : slot = entry % confirms
      · rw [hs, Function.update_self]
        refine tab_congr fun j _ => ?_
        by_cases hj : j = bucket
        · rw [hj, Function.update_self, inSlot_of_perm hperm, if_pos ⟨rfl, hheld, rfl⟩]
          rfl
        · rw [Function.update_of_ne hj, inSlot_of_perm hperm, if_neg fun hc => hj hc.1.symm,
            Nat.add_zero]
      · rw [Function.update_of_ne hs]
        refine tab_congr fun j _ => ?_
        rw [inSlot_of_perm hperm, if_neg fun hc => hs hc.2.2.symm, Nat.add_zero]
    · rw [inOld_of_perm hperm, if_neg (by omega), Nat.add_zero]

end BtclibNode.FeeEstimator
