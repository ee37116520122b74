/-
# The shape of a horizon

Every row of a horizon has an entry for each bucket, and every feerate falls into one of
them, so no call indexes past an end.
-/
import Mathlib
import BtclibNode.Fees.Estimator

namespace BtclibNode.FeeEstimator

open Tabulate TxConfirmStats

variable {A : Arithmetic}

/-! ## Buckets -/

/-- Every feerate falls into a bucket. -/
def Buckets.Finds (A : Arithmetic) (b : Buckets) : Prop :=
  ∀ x, ∃ i < b.bounds.length, b.find A x = some i

theorem setKey_values {index : List (Double × ℕ)} {bound : Double} {i n : ℕ} (hi : i < n)
    (h : ∀ p ∈ index, p.2 < n) : ∀ p ∈ setKey A index bound i, p.2 < n := by
  intro p hp
  rw [setKey] at hp
  split_ifs at hp
  · obtain ⟨q, hq, rfl⟩ := List.mem_map.mp hp
    split_ifs
    · exact hi
    · exact h q hq
  · rcases List.mem_append.mp hp with hp | hp
    · exact h p hp
    · rw [List.mem_singleton.mp hp]
      exact hi

theorem setKey_ne_nil (index : List (Double × ℕ)) (bound : Double) (i : ℕ) :
    setKey A index bound i ≠ [] := by
  rw [setKey]
  split_ifs with h
  · obtain ⟨p, hp, -⟩ := List.any_eq_true.mp h
    exact List.ne_nil_of_mem (List.mem_map_of_mem hp)
  · exact List.concat_ne_nil _ _

theorem foldl_setKey {n : ℕ} (ps : List (Double × ℕ)) (hps : ∀ p ∈ ps, p.2 < n)
    (index : List (Double × ℕ)) (h : ∀ p ∈ index, p.2 < n) :
    (∀ p ∈ ps.foldl (fun index p => setKey A index p.1 p.2) index, p.2 < n) ∧
      (index ≠ [] ∨ ps ≠ [] → ps.foldl (fun index p => setKey A index p.1 p.2) index ≠ []) := by
  induction ps generalizing index with
  | nil => exact ⟨h, fun hne => hne.elim id (absurd rfl)⟩
  | cons p ps ih =>
    obtain ⟨hp, hps⟩ := List.forall_mem_cons.mp hps
    obtain ⟨hvalues, hne⟩ := ih hps _ (setKey_values hp h)
    exact ⟨hvalues, fun _ => hne (Or.inl (setKey_ne_nil _ _ _))⟩

/-- **Any bounds at all give buckets that a feerate falls into.** -/
theorem Buckets.finds_new {bounds : List Double} (h : bounds ≠ []) :
    (Buckets.new A bounds).Finds A := by
  intro x
  have hpos : 0 < bounds.length := List.length_pos_iff.mpr h
  obtain ⟨hvalues, hne⟩ := foldl_setKey (A := A) (n := bounds.length) bounds.zipIdx
    (fun p hp => by simpa using List.snd_lt_of_mem_zipIdx hp) [] nofun
  have hindex := hne (Or.inr (by simpa using h))
  rw [Buckets.find, Buckets.new]
  dsimp only
  generalize bounds.zipIdx.foldl (fun index p => setKey A index p.1 p.2) [] = index
    at hvalues hindex
  have hlen : 0 < (A.sorted (index.map (·.1))).length := by
    rw [(A.sorted_perm _).length_eq, List.length_map]
    exact List.length_pos_iff.mpr hindex
  have hposition : min (bisectLeft A (A.sorted (index.map (·.1))) x 0
      (A.sorted (index.map (·.1))).length) ((A.sorted (index.map (·.1))).length - 1) <
      (A.sorted (index.map (·.1))).length := by omega
  rw [List.getElem?_map, List.getElem?_eq_getElem hposition]
  have hvalue : ∀ key, ((index.find? fun p => A.equal p.1 key).map (·.2)).getD 0 <
      bounds.length := by
    intro key
    cases hfind : index.find? fun p => A.equal p.1 key with
    | none => exact hpos
    | some p => exact hvalues p (List.mem_of_find?_eq_some hfind)
  exact ⟨_, hvalue _, rfl⟩

/-! ## Rows -/

variable {rows rows' : List (List Double)} {i bucket n : ℕ}

theorem length_of_setAt {α : Type} {l l' : List α} {x : α} (h : setAt l i x = some l') :
    l'.length = l.length := by
  rw [setAt] at h
  split_ifs at h
  cases h
  exact List.length_set ..

theorem length_of_modifyAt {α : Type} {l l' : List α} {f : α → α}
    (h : modifyAt l i f = some l') : l'.length = l.length := by
  rw [modifyAt] at h
  split_ifs at h
  cases h
  exact List.length_modify ..

/-- Rows of one length. -/
def Rows (n : ℕ) (rows : List (List Double)) : Prop := ∀ row ∈ rows, row.length = n

theorem addOne_rows (h : addOne A rows i bucket = some rows') (hrows : Rows n rows) :
    rows'.length = rows.length ∧ Rows n rows' := by
  obtain ⟨row, hrow, h⟩ := Option.bind_eq_some_iff.mp h
  obtain ⟨row', hrow', h⟩ := Option.bind_eq_some_iff.mp h
  refine ⟨length_of_setAt h, fun x hx => ?_⟩
  rw [setAt] at h
  split_ifs at h
  cases h
  rcases List.mem_or_eq_of_mem_set hx with hx | rfl
  · exact hrows x hx
  · rw [length_of_modifyAt hrow']
    exact hrows row (List.mem_of_getElem? hrow)

theorem exists_addOne (hrows : Rows n rows) (hi : i < rows.length) (hbucket : bucket < n) :
    ∃ rows', addOne A rows i bucket = some rows' := by
  have hlt : bucket < rows[i].length := by
    rw [hrows _ (List.getElem_mem hi)]
    exact hbucket
  rw [addOne, List.getElem?_eq_getElem hi]
  change ∃ rows', (modifyAt rows[i] bucket _).bind _ = some rows'
  rw [modifyAt, if_pos hlt]
  exact ⟨_, if_pos hi⟩

theorem foldlM_addOne_rows {index : ℕ → ℕ} {is : List ℕ}
    (h : is.foldlM (fun rows i => addOne A rows (index i) bucket) rows = some rows')
    (hrows : Rows n rows) : rows'.length = rows.length ∧ Rows n rows' := by
  induction is generalizing rows with
  | nil =>
    cases h
    exact ⟨rfl, hrows⟩
  | cons i is ih =>
    rw [List.foldlM_cons] at h
    obtain ⟨rows₁, hadd, h⟩ := Option.bind_eq_some_iff.mp h
    obtain ⟨hlen, hrows₁⟩ := addOne_rows hadd hrows
    obtain ⟨hlen', hrows'⟩ := ih h hrows₁
    exact ⟨hlen'.trans hlen, hrows'⟩

theorem exists_foldlM_addOne {index : ℕ → ℕ} {is : List ℕ} (hrows : Rows n rows)
    (his : ∀ i ∈ is, index i < rows.length) (hbucket : bucket < n) :
    ∃ rows', is.foldlM (fun rows i => addOne A rows (index i) bucket) rows = some rows' := by
  induction is generalizing rows with
  | nil => exact ⟨rows, rfl⟩
  | cons i is ih =>
    obtain ⟨hi, his⟩ := List.forall_mem_cons.mp his
    obtain ⟨rows₁, hadd⟩ := exists_addOne (A := A) hrows hi hbucket
    obtain ⟨hlen, hrows₁⟩ := addOne_rows hadd hrows
    obtain ⟨rows₂, hfold⟩ := ih hrows₁ (by rwa [hlen])
    exact ⟨rows₂, by rw [List.foldlM_cons, hadd]; exact hfold⟩

theorem rows_map {f : Double → Double} (hrows : Rows n rows) :
    Rows n (rows.map fun row => row.map f) := by
  intro row hrow
  obtain ⟨row', hrow', rfl⟩ := List.mem_map.mp hrow
  rw [List.length_map]
  exact hrows row' hrow'

/-! ## Horizons -/

/-- A decay that lies between 0 and 1: the bits of positive doubles stand in their order. -/
def IsDecay (decay : Double) : Prop := 0 < decay.bits ∧ decay.bits < Double.one.bits

/-- A horizon over some buckets that tracks `confirms` blocks. -/
structure Shape (b : Buckets) (confirms : ℕ) (s : TxConfirmStats) : Prop where
  buckets : s.buckets = b
  decay : IsDecay s.decay
  confirms : s.maxConfirms = confirms
  confAvg : Rows b.bounds.length s.confAvg
  failAvg : Rows b.bounds.length s.failAvg
  failLength : s.failAvg.length = s.confAvg.length
  txCtAvg : s.txCtAvg.length = b.bounds.length
  feerateAvg : s.feerateAvg.length = b.bounds.length

variable {b : Buckets} {confirms height best : ℕ} {s s' : TxConfirmStats} {x : Double}
  {inBlock : Bool}

theorem Shape.clearCurrent (hs : Shape b confirms s) (h : s.clearCurrent height = some s') :
    Shape b confirms s' := by
  obtain ⟨current, -, h⟩ := Option.bind_eq_some_iff.mp h
  obtain ⟨counts, -, h⟩ := Option.bind_eq_some_iff.mp h
  obtain ⟨unconfTxs, -, h⟩ := Option.bind_eq_some_iff.mp h
  cases h
  exact ⟨hs.buckets, hs.decay, hs.confirms, hs.confAvg, hs.failAvg, hs.failLength, hs.txCtAvg,
    hs.feerateAvg⟩

theorem Shape.newTx (hs : Shape b confirms s) (h : s.newTx A height x = some (s', bucket)) :
    Shape b confirms s' := by
  obtain ⟨i, -, h⟩ := Option.bind_eq_some_iff.mp h
  obtain ⟨row, -, h⟩ := Option.bind_eq_some_iff.mp h
  obtain ⟨row', -, h⟩ := Option.bind_eq_some_iff.mp h
  obtain ⟨unconfTxs, -, h⟩ := Option.bind_eq_some_iff.mp h
  cases h
  exact ⟨hs.buckets, hs.decay, hs.confirms, hs.confAvg, hs.failAvg, hs.failLength, hs.txCtAvg,
    hs.feerateAvg⟩

theorem Shape.updateMovingAverages (hs : Shape b confirms s) :
    Shape b confirms (s.updateMovingAverages A) where
  buckets := hs.buckets
  decay := hs.decay
  confirms := by
    rw [← hs.confirms]
    exact congrArg (s.scale * ·) (List.length_map _)
  confAvg := rows_map hs.confAvg
  failAvg := rows_map hs.failAvg
  failLength := by
    change (s.failAvg.map _).length = (s.confAvg.map _).length
    rw [List.length_map, List.length_map, hs.failLength]
  txCtAvg := (List.length_map _).trans hs.txCtAvg
  feerateAvg := (List.length_map _).trans hs.feerateAvg

theorem Shape.record (hs : Shape b confirms s) {blocks : ℕ}
    (h : s.record A blocks x = some s') : Shape b confirms s' := by
  rw [TxConfirmStats.record] at h
  split_ifs at h
  · cases h
    exact hs
  · obtain ⟨i, -, h⟩ := Option.bind_eq_some_iff.mp h
    obtain ⟨confAvg, hconf, h⟩ := Option.bind_eq_some_iff.mp h
    obtain ⟨txCtAvg, htx, h⟩ := Option.bind_eq_some_iff.mp h
    obtain ⟨feerateAvg, hfee, h⟩ := Option.bind_eq_some_iff.mp h
    cases h
    obtain ⟨hlen, hrows⟩ := foldlM_addOne_rows hconf hs.confAvg
    refine ⟨hs.buckets, hs.decay, ?_, hrows, hs.failAvg, hs.failLength.trans hlen.symm,
      (length_of_modifyAt htx).trans hs.txCtAvg, (length_of_modifyAt hfee).trans hs.feerateAvg⟩
    rw [← hs.confirms]
    exact congrArg (s.scale * ·) hlen

theorem Shape.uncount (hs : Shape b confirms s) {entry blocksAgo : ℕ}
    (h : s.uncount entry blocksAgo bucket = some s') : Shape b confirms s' := by
  rw [TxConfirmStats.uncount] at h
  split_ifs at h
  · obtain ⟨old, -, h⟩ := Option.bind_eq_some_iff.mp h
    cases h
    exact ⟨hs.buckets, hs.decay, hs.confirms, hs.confAvg, hs.failAvg, hs.failLength, hs.txCtAvg,
      hs.feerateAvg⟩
  · obtain ⟨row, -, h⟩ := Option.bind_eq_some_iff.mp h
    obtain ⟨row', -, h⟩ := Option.bind_eq_some_iff.mp h
    obtain ⟨unconfTxs, -, h⟩ := Option.bind_eq_some_iff.mp h
    cases h
    exact ⟨hs.buckets, hs.decay, hs.confirms, hs.confAvg, hs.failAvg, hs.failLength, hs.txCtAvg,
      hs.feerateAvg⟩

theorem Shape.removeTx (hs : Shape b confirms s) {entry : ℕ}
    (h : s.removeTx A entry best bucket inBlock = some s') : Shape b confirms s' := by
  rw [TxConfirmStats.removeTx] at h
  dsimp only at h
  generalize (if best = 0 then (0 : ℤ) else best - entry) = ago at h
  split_ifs at h
  · cases h
    exact hs
  · obtain ⟨s₁, huncount, h⟩ := Option.bind_eq_some_iff.mp h
    have hs₁ := hs.uncount huncount
    split_ifs at h
    · obtain ⟨failAvg, hfail, h⟩ := Option.bind_eq_some_iff.mp h
      cases h
      obtain ⟨hlen, hrows⟩ := foldlM_addOne_rows hfail hs₁.failAvg
      exact ⟨hs₁.buckets, hs₁.decay, hs₁.confirms, hs₁.confAvg, hrows, hlen.trans hs₁.failLength,
        hs₁.txCtAvg, hs₁.feerateAvg⟩
    · cases h
      exact hs₁

/-- A horizon before anything is seen. -/
theorem shape_new {maxPeriods scale : ℕ} {decay : Double} (hdecay : IsDecay decay) :
    Shape b (scale * maxPeriods) (TxConfirmStats.new b maxPeriods decay scale) where
  buckets := rfl
  decay := hdecay
  confirms := congrArg (scale * ·) List.length_replicate
  confAvg row hrow := by
    rw [List.eq_of_mem_replicate hrow]
    exact List.length_replicate
  failAvg row hrow := by
    rw [List.eq_of_mem_replicate hrow]
    exact List.length_replicate
  failLength := List.length_replicate.trans List.length_replicate.symm
  txCtAvg := List.length_replicate
  feerateAvg := List.length_replicate

/-! ## Calls that do not raise -/

theorem Shape.length_pos (hs : Shape b confirms s) (hpos : 0 < confirms) :
    0 < s.confAvg.length := by
  have hmul := hs.confirms
  rw [TxConfirmStats.maxConfirms] at hmul
  exact Nat.pos_of_mul_pos_left (hmul ▸ hpos)

theorem exists_record (hs : Shape b confirms s) (hpos : 0 < confirms) (hfinds : b.Finds A)
    (blocks : ℕ) (x : Double) :
    ∃ s', s.record A blocks x = some s' ∧ s'.unconfTxs = s.unconfTxs ∧
      s'.oldUnconfTxs = s.oldUnconfTxs := by
  rw [TxConfirmStats.record]
  split_ifs with hblocks
  · exact ⟨s, rfl, rfl, rfl⟩
  · obtain ⟨bucket, hbucket, hfind⟩ := hfinds x
    have hindex : ∀ i ∈ List.range' ((blocks + s.scale - 1) / s.scale)
        (s.confAvg.length + 1 - (blocks + s.scale - 1) / s.scale), i - 1 < s.confAvg.length := by
      intro i hi
      have hlen := hs.length_pos hpos
      obtain ⟨hlow, hbound⟩ := List.mem_range'_1.mp hi
      omega
    obtain ⟨confAvg, hconf⟩ := exists_foldlM_addOne (A := A) hs.confAvg hindex hbucket
    have htx : bucket < s.txCtAvg.length := by rw [hs.txCtAvg]; exact hbucket
    have hfee : bucket < s.feerateAvg.length := by rw [hs.feerateAvg]; exact hbucket
    rw [hs.buckets, hfind, Option.bind_eq_bind, Option.bind_some, hconf, modifyAt, if_pos htx,
      modifyAt, if_pos hfee]
    exact ⟨_, rfl, rfl, rfl⟩

theorem exists_removeTx (hs : Shape b confirms s) {entry : ℕ} (hbucket : bucket < b.bounds.length)
    (hentry : entry ≤ best) (hcount : ∃ s₁, s.uncount entry (best - entry) bucket = some s₁) :
    ∃ s' s₁, s.removeTx A entry best bucket inBlock = some s' ∧
      s.uncount entry (best - entry) bucket = some s₁ ∧ s'.unconfTxs = s₁.unconfTxs ∧
      s'.oldUnconfTxs = s₁.oldUnconfTxs := by
  obtain ⟨s₁, huncount⟩ := hcount
  have hago : (if best = 0 then (0 : ℤ) else best - entry) = ((best - entry : ℕ) : ℤ) := by
    split_ifs <;> omega
  have hs₁ := hs.uncount huncount
  have hindex : ∀ i ∈ List.range (min ((best - entry) / s₁.scale) s₁.failAvg.length),
      i < s₁.failAvg.length := by
    intro i hi
    have hlt := List.mem_range.mp hi
    omega
  obtain ⟨failAvg, hfail⟩ : ∃ failAvg,
      (List.range (min ((best - entry) / s₁.scale) s₁.failAvg.length)).foldlM
        (fun rows i => addOne A rows i bucket) s₁.failAvg = some failAvg :=
    exists_foldlM_addOne hs₁.failAvg hindex hbucket
  rw [TxConfirmStats.removeTx, hago]
  dsimp only
  rw [if_neg (by omega), Int.toNat_natCast, huncount, Option.bind_eq_bind, Option.bind_some]
  split_ifs
  · rw [hfail]
    exact ⟨{ s₁ with failAvg := failAvg }, s₁, rfl, rfl, rfl, rfl⟩
  · exact ⟨s₁, s₁, rfl, rfl, rfl, rfl⟩

end BtclibNode.FeeEstimator
