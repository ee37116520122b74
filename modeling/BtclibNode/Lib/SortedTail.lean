/-
# The last of a sorted list

A list sorted by a key, what stands at its end, and how many of these meet a predicate
that sorts last.
-/
import Mathlib.Data.List.Sort

namespace SortedTail

universe u v

variable {α : Type u} {κ : Type v} [LinearOrder κ] {p : α → Bool} {r : α → α → Prop}
  {l : List α} {k : ℕ}

/-- Sorted by a key, where equal keys keep their order. -/
def sortOn (key : α → κ) (l : List α) : List α := l.mergeSort fun a b => decide (key a ≤ key b)

theorem sortOn_perm (key : α → κ) (l : List α) : (sortOn key l).Perm l := List.mergeSort_perm _ _

theorem sortOn_sorted (key : α → κ) (l : List α) :
    (sortOn key l).Pairwise fun a b => key a ≤ key b := by
  refine (List.pairwise_mergeSort ?_ ?_ l).imp fun h => of_decide_eq_true h
  · intro a b c hab hbc
    exact decide_eq_true ((of_decide_eq_true hab).trans (of_decide_eq_true hbc))
  · intro a b
    rw [Bool.or_eq_true, decide_eq_true_eq, decide_eq_true_eq]
    exact le_total _ _

/-- All but the last `k`. -/
def front (k : ℕ) (l : List α) : List α := l.take (l.length - min k l.length)

/-- The last `k`. -/
def tail (k : ℕ) (l : List α) : List α := l.drop (l.length - min k l.length)

theorem front_append_tail (k : ℕ) (l : List α) : front k l ++ tail k l = l :=
  List.take_append_drop _ l

theorem length_tail (k : ℕ) (l : List α) : (tail k l).length = min k l.length := by
  unfold tail
  rw [List.length_drop]
  omega

/-- The order of the list holds between the front and the last. -/
theorem rel_of_front_of_tail (h : l.Pairwise r) {a b : α} (ha : a ∈ front k l)
    (hb : b ∈ tail k l) : r a b := by
  rw [← front_append_tail k l, List.pairwise_append] at h
  exact h.2.2 a ha b hb

/-- A list where those that meet a predicate come last is two lists. -/
theorem eq_append_of_last (h : l.Pairwise fun a b => p a = true → p b = true) :
    l = (l.filter fun a => !p a) ++ l.filter p := by
  induction l with
  | nil => rfl
  | cons a l ih =>
    rw [List.pairwise_cons] at h
    cases ha : p a with
    | false => rw [List.filter_cons_of_pos (by simp [ha]), List.filter_cons_of_neg (by simp [ha]),
        List.cons_append, ← ih h.2]
    | true =>
      have hall : ∀ b ∈ l, p b = true := fun b hb => h.1 b hb ha
      rw [List.filter_eq_nil_iff.mpr, List.nil_append, List.filter_eq_self.mpr]
      · exact List.forall_mem_cons.mpr ⟨ha, hall⟩
      · intro b hb
        rcases List.mem_cons.mp hb with rfl | hb
        · simp [ha]
        · simp [hall b hb]

/-- **The last `k` hold `k` of those that come last**, or all of them where these are fewer. -/
theorem countP_tail (h : l.Pairwise fun a b => p a = true → p b = true) :
    (tail k l).countP p = min k (l.countP p) := by
  have hsplit := eq_append_of_last h
  have hnone : (l.filter fun a => !p a).countP p = 0 := by
    rw [List.countP_eq_zero]
    intro a ha
    simpa using (List.mem_filter.mp ha).2
  have hall : ∀ a ∈ l.filter p, p a = true := fun a ha => (List.mem_filter.mp ha).2
  have hlen := congrArg List.length hsplit
  rw [List.length_append] at hlen
  have hcount : l.countP p = (l.filter p).length := List.countP_eq_length_filter
  rw [hcount]
  unfold tail
  by_cases hk : k ≤ (l.filter p).length
  · -- the last are all among those that meet the predicate
    have hdrop : l.drop (l.length - min k l.length) =
        (l.filter p).drop ((l.filter p).length - k) := by
      conv_lhs => rw [hsplit]
      rw [List.drop_append, List.drop_eq_nil_of_le (by rw [← hsplit]; omega), List.nil_append]
      congr 1
      rw [← hsplit]
      omega
    rw [hdrop, List.countP_eq_length.mpr fun a ha => hall a (List.mem_of_mem_drop ha),
      List.length_drop]
    omega
  · have hdrop : l.drop (l.length - min k l.length) =
        (l.filter fun a => !p a).drop (l.length - min k l.length) ++ l.filter p := by
      conv_lhs => rw [hsplit]
      rw [List.drop_append_of_le_length (by rw [← hsplit]; omega), ← hsplit]
    have hdropped : ((l.filter fun a => !p a).drop (l.length - min k l.length)).countP p = 0 := by
      rw [List.countP_eq_zero] at hnone ⊢
      exact fun a ha => hnone a (List.mem_of_mem_drop ha)
    rw [hdrop, List.countP_append, hdropped, List.countP_eq_length.mpr hall]
    omega

end SortedTail
