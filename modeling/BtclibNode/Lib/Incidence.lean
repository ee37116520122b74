/-
# Items and who holds them

A finite set of pairs of an item and a holder, with a weight on the items.  The
load of a holder is the weight of its pairs; the weight of the items, each
counted once, is at most the sum of the loads, so that where it passes a share
for each holder some holder is loaded above that share.
-/
import Mathlib.Algebra.Order.BigOperators.Ring.Finset
import Mathlib.Algebra.Module.NatInt

namespace Incidence

universe u v

variable {α : Type u} {β : Type v} [DecidableEq α] [DecidableEq β]
  {A B : Finset (α × β)} {a : α} {b : β} (w : α → ℕ)

/-- Those who hold an item. -/
def holders (A : Finset (α × β)) : Finset β := A.image Prod.snd

/-- The items held. -/
def items (A : Finset (α × β)) : Finset α := A.image Prod.fst

/-- The weight of what `b` holds. -/
def load (A : Finset (α × β)) (b : β) : ℕ := ∑ x ∈ A with x.2 = b, w x.1

/-- The weight of what is held, an item counted once. -/
def once (A : Finset (α × β)) : ℕ := ∑ a ∈ items A, w a

omit [DecidableEq α] in
theorem mem_holders : b ∈ holders A ↔ ∃ a, (a, b) ∈ A := by
  simp [holders]

omit [DecidableEq β] in
theorem mem_items : a ∈ items A ↔ ∃ b, (a, b) ∈ A := by
  simp [items]

/-! ## The loads and the whole -/

omit [DecidableEq α] in
theorem sum_load (A : Finset (α × β)) : ∑ b ∈ holders A, load w A b = ∑ x ∈ A, w x.1 :=
  Finset.sum_fiberwise_of_maps_to (fun _ hx => Finset.mem_image_of_mem Prod.snd hx) _

omit [DecidableEq β] in
/-- Counting an item once counts no more than counting it for each holder. -/
theorem once_le (A : Finset (α × β)) : once w A ≤ ∑ x ∈ A, w x.1 := by
  unfold once items
  rw [← Finset.sum_fiberwise_of_maps_to (g := Prod.fst)
    (fun _ hx => Finset.mem_image_of_mem Prod.fst hx) fun x : α × β => w x.1]
  apply Finset.sum_le_sum
  intro a ha
  obtain ⟨x, hx, rfl⟩ := Finset.mem_image.mp ha
  exact Finset.single_le_sum (f := fun y : α × β => w y.1) (fun y _ => Nat.zero_le _)
    (Finset.mem_filter.mpr ⟨hx, rfl⟩)

omit [DecidableEq α] in
/-- **Above one share for each holder, some holder is above the share.** -/
theorem exists_share_lt_load {share : ℕ} (h : (holders A).card * share < ∑ x ∈ A, w x.1) :
    ∃ b ∈ holders A, share < load w A b := by
  apply Finset.exists_lt_of_sum_lt
  rw [Finset.sum_const, smul_eq_mul, sum_load]
  exact h

omit [DecidableEq α] in
theorem load_mono (h : B ⊆ A) (b : β) : load w B b ≤ load w A b := by
  apply Finset.sum_le_sum_of_subset
  exact Finset.filter_subset_filter _ h

/-! ## One more pair, and one less -/

theorem load_insert (h : (a, b) ∉ A) (c : β) :
    load w (insert (a, b) A) c = load w A c + if b = c then w a else 0 := by
  unfold load
  rw [Finset.filter_insert]
  split
  · rw [Finset.sum_insert (fun hmem => h (Finset.mem_filter.mp hmem).1), add_comm]
  · rfl

theorem load_erase (h : (a, b) ∈ A) (c : β) :
    load w A c = load w (A.erase (a, b)) c + if b = c then w a else 0 := by
  rw [← load_insert w (Finset.notMem_erase _ A), Finset.insert_erase h]

theorem items_insert : items (insert (a, b) A) = insert a (items A) := Finset.image_insert ..

theorem holders_insert : holders (insert (a, b) A) = insert b (holders A) :=
  Finset.image_insert ..

theorem once_insert_of_mem (h : a ∈ items A) : once w (insert (a, b) A) = once w A := by
  unfold once
  rw [items_insert, Finset.insert_eq_of_mem h]

theorem once_insert_of_notMem (h : a ∉ items A) :
    once w (insert (a, b) A) = once w A + w a := by
  unfold once
  rw [items_insert, Finset.sum_insert h, add_comm]

theorem once_erase_of_mem (h : (a, b) ∈ A) (hmore : a ∈ items (A.erase (a, b))) :
    once w A = once w (A.erase (a, b)) := by
  rw [← once_insert_of_mem w hmore, Finset.insert_erase h]

theorem once_erase_of_notMem (h : (a, b) ∈ A) (hlast : a ∉ items (A.erase (a, b))) :
    once w A = once w (A.erase (a, b)) + w a := by
  rw [← once_insert_of_notMem w hlast, Finset.insert_erase h]

omit [DecidableEq α] in
theorem holders_mono (h : B ⊆ A) : holders B ⊆ holders A := Finset.image_subset_image h

omit [DecidableEq α] in
/-- A holder holds something where the count of what it holds is positive. -/
theorem mem_holders_iff_load : b ∈ holders A ↔ load (fun _ => 1) A b ≠ 0 := by
  unfold load
  rw [Finset.sum_const, smul_eq_mul, mul_one, Finset.card_ne_zero, mem_holders]
  constructor
  · rintro ⟨a, ha⟩
    exact ⟨(a, b), Finset.mem_filter.mpr ⟨ha, rfl⟩⟩
  · rintro ⟨x, hx⟩
    obtain ⟨hmem, rfl⟩ := Finset.mem_filter.mp hx
    exact ⟨x.1, hmem⟩

omit [DecidableEq α] in
theorem load_eq_zero (h : b ∉ holders A) : load w A b = 0 := by
  unfold load
  apply Finset.sum_eq_zero
  intro x hx
  obtain ⟨hmem, rfl⟩ := Finset.mem_filter.mp hx
  exact absurd (mem_holders.mpr ⟨x.1, hmem⟩) h

end Incidence
