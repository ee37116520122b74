/-
# What the walks find

`_descendants` and `_ancestors` end, and find what a held transaction leads to along the spends
of held transactions, and what leads to it.
-/
import BtclibNode.Mempool.Coherent

namespace BtclibNode

namespace Mempool

open StateExcept

variable {γ : Type} {g : ClusterGraph γ} {s : Mempool γ} {w x p c : Txid} {tx : MempoolTx}

/-- `c` spends an output of `p`, both held. -/
def Child (s : Mempool γ) (p c : Txid) : Prop :=
  ∃ tx tx', s.transactions[p]? = some tx ∧ s.transactions[c]? = some tx' ∧
    tx.id ∈ tx'.vin.map PrevOut.txId

/-- `x` is `w` or built on it. -/
abbrev Descends (s : Mempool γ) (w x : Txid) : Prop := Relation.ReflTransGen (Child s) w x

theorem Child.mem_left (h : Child s p c) : p ∈ s.transactions := by
  obtain ⟨tx, -, hp, -⟩ := h
  exact (FiniteMap.mem_iff_exists _ _).mpr ⟨tx, hp⟩

theorem Child.mem_right (h : Child s p c) : c ∈ s.transactions := by
  obtain ⟨-, tx, -, hc, -⟩ := h
  exact (FiniteMap.mem_iff_exists _ _).mpr ⟨tx, hc⟩

theorem Descends.mem (h : Descends s w x) (hw : w ∈ s.transactions) : x ∈ s.transactions := by
  induction h with
  | refl => exact hw
  | tail _ hstep _ => exact hstep.mem_right

theorem mem_spenders {t : Txid} : x ∈ s.spenders t ↔
    ∃ ws : Std.ExtTreeSet Txid, s.spentBy[t]? = some ws ∧ x ∈ ws := by
  unfold spenders
  cases hws : s.spentBy[t]? with
  | none => simp
  | some ws => simp [Std.ExtTreeSet.mem_toList]

/-- `spent_by` names the children. -/
theorem Indexed.mem_spenders_iff (h : Indexed s) (hp : s.transactions[p]? = some tx) :
    c ∈ s.spenders tx.id ↔ Child s p c := by
  rw [mem_spenders, h.spentBy]
  constructor
  · rintro ⟨tx', hc, hmem⟩
    exact ⟨tx, tx', hp, hc, hmem⟩
  · rintro ⟨tx₁, tx', hp', hc, hmem⟩
    rw [hp, Option.some.injEq] at hp'
    exact ⟨tx', hc, hp' ▸ hmem⟩

/-- The wtxids held. -/
def wtxids (s : Mempool γ) : Finset Txid := (s.transactions.toList.map Prod.fst).toFinset

theorem mem_wtxids : w ∈ s.wtxids ↔ w ∈ s.transactions := by
  unfold wtxids
  rw [List.mem_toFinset, List.mem_map, FiniteMap.mem_iff_exists]
  constructor
  · rintro ⟨⟨w, tx⟩, hrow, rfl⟩
    exact ⟨tx, (FiniteMap.mem_toList _ _ _).mp hrow⟩
  · rintro ⟨tx, hw⟩
    exact ⟨(w, tx), (FiniteMap.mem_toList _ _ _).mpr hw, rfl⟩

theorem card_wtxids (s : Mempool γ) : s.wtxids.card = s.transactions.size := by
  unfold wtxids
  rw [List.toFinset_card_of_nodup (FiniteMap.nodup_keys _), List.length_map,
    Std.ExtTreeMap.length_toList]

/-- A sum over the wtxids held is one over the rows. -/
theorem sum_wtxids (f : Txid → ℕ) :
    ∑ x ∈ s.wtxids, f x = (s.transactions.toList.map fun row => f row.1).sum := by
  unfold wtxids
  rw [List.sum_toFinset _ (FiniteMap.nodup_keys _), List.map_map]
  rfl

/-! ## Down -/

section Down

/-- What the walk down pushes of an entry. -/
private def downPush (s : Mempool γ) (w : Txid) : Option (List Txid) := s.txids[w]?.map ([·])

private theorem leads_down (h : Indexed s) :
    Closure.Leads s.spenders s.downPush p c ↔ Child s p c := by
  unfold Closure.Leads downPush
  rw [h.txids p]
  cases hp : s.transactions[p]? with
  | none =>
    constructor
    · rintro ⟨bs, hbs, -⟩
      cases hbs
    · intro hc
      have hmem := (FiniteMap.mem_iff_exists _ _).mp hc.mem_left
      rw [hp] at hmem
      simp at hmem
  | some tx =>
    rw [← h.mem_spenders_iff hp]
    simp

private theorem downPush_of_held (h : Indexed s) (hw : s.transactions[w]? = some tx) :
    s.downPush w = some [tx.id] := by
  unfold downPush
  rw [h.txid_of_held hw]
  rfl

private theorem down_fuel (h : Indexed s) :
    (∑ x ∈ s.wtxids, ((s.downPush x).getD []).length) = s.transactions.size := by
  have hone : ∀ x ∈ s.wtxids, ((s.downPush x).getD []).length = 1 := by
    intro x hx
    obtain ⟨tx, hw⟩ := (FiniteMap.mem_iff_exists _ _).mp (mem_wtxids.mp hx)
    rw [downPush_of_held h hw]
    rfl
  rw [Finset.sum_congr rfl hone, sum_wtxids fun _ => 1, ← Std.ExtTreeMap.length_toList,
    List.map_const', List.sum_replicate]
  simp

private theorem reaches_down (h : Indexed s) :
    Relation.ReflTransGen (Closure.Leads s.spenders s.downPush) w x ↔ Descends s w x := by
  have heq : Closure.Leads s.spenders s.downPush = Child s := by
    funext p c
    exact propext (leads_down h)
  rw [heq]

/-- **`_descendants` of a held transaction ends with it and what is built on it.** -/
theorem descendants_eq (h : Indexed s) (hw : s.transactions[w]? = some tx) :
    ∃ ws, descendants w s = .ok ws s ∧ ∀ x, x ∈ ws ↔ Descends s w x := by
  have hmem : w ∈ s.transactions := (FiniteMap.mem_iff_exists _ _).mpr ⟨tx, hw⟩
  have hheld : ∀ x, Descends s w x → x ∈ s.transactions := fun x hx => hx.mem hmem
  obtain ⟨ws, hclose, hws⟩ := @Closure.close_item _ _ _ _ _ s.spenders s.downPush s.wtxids
    (s.walkFuel 1) _ _ (downPush_of_held h hw)
    (fun x hx => by
      obtain ⟨tx', hx'⟩ := (FiniteMap.mem_iff_exists _ _).mp (hheld x ((reaches_down h).mp hx))
      rw [downPush_of_held h hx']
      rfl)
    (fun x hx => mem_wtxids.mpr (hheld x ((reaches_down h).mp hx)))
    (by rw [down_fuel h]; unfold walkFuel; omega)
  refine ⟨ws, Sat.eq_ok ?_, fun x => (hws x).trans (reaches_down h)⟩
  unfold descendants
  rw [sat_bind, sat_get, h.txid_of_held hw, sat_bind_of_ok (walked_some _ s)]
  have hsame : Closure.close s.spenders (fun w => s.txids[w]?.map ([·])) (s.walkFuel 1)
      ((∅ : Std.ExtTreeSet Txid).insert w) [tx.id] = some ws := hclose
  rw [hsame, sat_of_ok (walked_some _ s)]
  exact ⟨rfl, rfl⟩

/-- **`remove_dependents`' walk finds what spends `tx` and what is built on that.** -/
theorem dependents_eq (h : Indexed s) (txid : Txid) :
    ∃ ws, Closure.close s.spenders (fun w => s.transactions[w]?.map fun tx => [tx.id])
        (s.walkFuel 1) ∅ [txid] = some ws ∧
      ∀ x, x ∈ ws ↔ ∃ c ∈ s.spenders txid, Descends s c x := by
  have hpush : (fun w => s.transactions[w]?.map fun tx => [tx.id]) = s.downPush := by
    funext w
    unfold downPush
    rw [h.txids w, Option.map_map]
    rfl
  have hspender : ∀ c ∈ s.spenders txid, c ∈ s.transactions := by
    intro c hc
    obtain ⟨tx, hw, -⟩ := (h.spentBy txid c).mp (mem_spenders.mp hc)
    exact (FiniteMap.mem_iff_exists _ _).mpr ⟨tx, hw⟩
  rw [hpush]
  obtain ⟨ws, hclose, hws⟩ := @Closure.close_place _ _ _ _ _ s.spenders s.downPush s.wtxids
    (s.walkFuel 1) txid
    (fun c hc x hx => by
      obtain ⟨tx', hx'⟩ := (FiniteMap.mem_iff_exists _ _).mp
        (((reaches_down h).mp hx).mem (hspender c hc))
      rw [downPush_of_held h hx']
      rfl)
    (fun c hc x hx => mem_wtxids.mpr (((reaches_down h).mp hx).mem (hspender c hc)))
    (by rw [down_fuel h]; unfold walkFuel; omega)
  refine ⟨ws, hclose, fun x => (hws x).trans ?_⟩
  constructor
  · rintro ⟨c, hc, hx⟩
    exact ⟨c, hc, (reaches_down h).mp hx⟩
  · rintro ⟨c, hc, hx⟩
    exact ⟨c, hc, (reaches_down h).mpr hx⟩

end Down

/-! ## Up -/

section Up

private def upPush (s : Mempool γ) (w : Txid) : Option (List PrevOut) :=
  s.transactions[w]?.map MempoolTx.vin

private def upNext (s : Mempool γ) (vin : PrevOut) : List Txid := s.txidIndex[vin.txId]?.toList

private theorem leads_up (h : Indexed s) : Closure.Leads s.upNext s.upPush c p ↔ Child s p c := by
  unfold Closure.Leads upPush upNext
  constructor
  · rintro ⟨bs, hbs, o, ho, hp⟩
    obtain ⟨tx', hc, rfl⟩ := Option.map_eq_some_iff.mp hbs
    obtain ⟨tx, hp', hid⟩ := h.held_of_index (Option.mem_toList.mp hp)
    exact ⟨tx, tx', hp', hc, hid ▸ List.mem_map_of_mem ho⟩
  · rintro ⟨tx, tx', hp, hc, hmem⟩
    obtain ⟨o, ho, hid⟩ := List.mem_map.mp hmem
    refine ⟨tx'.vin, by rw [hc]; rfl, o, ho, ?_⟩
    rw [hid, h.index_of_held hp]
    simp

private theorem reaches_up (h : Indexed s) :
    Relation.ReflTransGen (Closure.Leads s.upNext s.upPush) w x ↔ Descends s x w := by
  have heq : Closure.Leads s.upNext s.upPush = Function.swap (Child s) := by
    funext c p
    exact propext (leads_up h)
  rw [heq, Relation.reflTransGen_swap]

private theorem up_fuel (s : Mempool γ) :
    (∑ x ∈ s.wtxids, ((s.upPush x).getD []).length) =
      (s.transactions.toList.map fun row => row.2.vin.length).sum := by
  rw [sum_wtxids fun x => ((s.upPush x).getD []).length]
  congr 1
  apply List.map_congr_left
  rintro ⟨w, tx⟩ hrow
  unfold upPush
  rw [(FiniteMap.mem_toList _ _ _).mp hrow]
  rfl

/-- **`_ancestors` of a held transaction ends with it and what it is built on.** -/
theorem ancestors_eq (h : Indexed s) (hw : s.transactions[w]? = some tx) :
    ∃ ws, ancestors w s = .ok ws s ∧ ∀ x, x ∈ ws ↔ Descends s x w := by
  have hmem : w ∈ s.transactions := (FiniteMap.mem_iff_exists _ _).mpr ⟨tx, hw⟩
  have hheld : ∀ x, Descends s x w → x ∈ s.transactions := by
    intro x hx
    rcases Relation.ReflTransGen.cases_head hx with rfl | ⟨y, hxy, -⟩
    · exact hmem
    · exact hxy.mem_left
  have hpush : s.upPush w = some tx.vin := by
    unfold upPush
    rw [hw]
    rfl
  obtain ⟨ws, hclose, hws⟩ := @Closure.close_item _ _ _ _ _ s.upNext s.upPush s.wtxids
    (s.walkFuel tx.vin.length) _ _ hpush
    (fun x hx => by
      obtain ⟨tx', hx'⟩ := (FiniteMap.mem_iff_exists _ _).mp (hheld x ((reaches_up h).mp hx))
      unfold upPush
      rw [hx']
      rfl)
    (fun x hx => mem_wtxids.mpr (hheld x ((reaches_up h).mp hx)))
    (by rw [up_fuel]; unfold walkFuel; omega)
  refine ⟨ws, Sat.eq_ok ?_, fun x => (hws x).trans (reaches_up h)⟩
  unfold ancestors
  rw [sat_bind, sat_get, hw, sat_bind_of_ok (walked_some _ s)]
  have hsame : Closure.close (fun vin => s.txidIndex[vin.txId]?.toList)
      (fun w => s.transactions[w]?.map MempoolTx.vin) (s.walkFuel tx.vin.length)
      ((∅ : Std.ExtTreeSet Txid).insert w) tx.vin.reverse = some ws := hclose
  rw [hsame, sat_of_ok (walked_some _ s)]
  exact ⟨rfl, rfl⟩

end Up

end Mempool

end BtclibNode
