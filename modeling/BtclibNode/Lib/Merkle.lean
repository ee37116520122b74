/-
# Merkle roots

Hashes paired up level by level, the last of an odd level with itself.  Lists of one length that
have one root are equal, or the hash has a collision.
-/
import Mathlib.Data.List.Basic

namespace Merkle

universe u

variable {α : Type u} {hash : List α → List α} {width : ℕ} {l l' : List (List α)}

/-- Two strings with one hash. -/
def Collision (hash : List α → List α) : Prop := ∃ x y, x ≠ y ∧ hash x = hash y

theorem eq_or_collision {x y : List α} (h : hash x = hash y) : x = y ∨ Collision hash := by
  by_cases hne : x = y
  · exact Or.inl hne
  · exact Or.inr ⟨x, y, hne, h⟩

/-- One level up. -/
def pairUp (hash : List α → List α) : List (List α) → List (List α)
  | a :: b :: rest => hash (a ++ b) :: pairUp hash rest
  | [a] => [hash (a ++ a)]
  | [] => []

theorem length_pairUp (hash : List α → List α) (l : List (List α)) :
    (pairUp hash l).length = (l.length + 1) / 2 := by
  fun_induction pairUp hash l with
  | case1 a b rest ih =>
    rw [List.length_cons, ih, List.length_cons, List.length_cons]
    omega
  | case2 a => simp
  | case3 => simp

theorem width_pairUp (hwidth : ∀ x, (hash x).length = width) (l : List (List α)) :
    ∀ x ∈ pairUp hash l, x.length = width := by
  fun_induction pairUp hash l with
  | case1 a b rest ih => exact List.forall_mem_cons.mpr ⟨hwidth _, ih⟩
  | case2 a => exact List.forall_mem_singleton.mpr (hwidth _)
  | case3 => exact fun x hx => absurd hx List.not_mem_nil

/-- The root; there is none without a leaf. -/
def root (hash : List α → List α) : List (List α) → List α
  | [] => []
  | [a] => a
  | a :: b :: rest => root hash (pairUp hash (a :: b :: rest))
termination_by l => l.length
decreasing_by
  rw [length_pairUp, List.length_cons, List.length_cons]
  omega

/-- The strings of one level are those of the next, or a collision. -/
theorem eq_of_pairUp_eq (hlen : l.length = l'.length) (hl : ∀ x ∈ l, x.length = width)
    (hl' : ∀ x ∈ l', x.length = width) (h : pairUp hash l = pairUp hash l') :
    l = l' ∨ Collision hash := by
  fun_induction pairUp hash l generalizing l' with
  | case1 a b rest ih =>
    match l', hlen with
    | a' :: b' :: rest', hlen =>
      obtain ⟨hhash, hrest⟩ := List.cons.inj h
      rcases eq_or_collision hhash with heq | hcollision
      · have ha : a.length = a'.length := by
          rw [hl a List.mem_cons_self, hl' a' List.mem_cons_self]
        obtain ⟨rfl, rfl⟩ := List.append_inj heq ha
        have hsub : ∀ {x y : List α} {s : List (List α)}, (∀ z ∈ x :: y :: s, z.length = width) →
            ∀ z ∈ s, z.length = width := fun hs z hz =>
          hs z (List.mem_cons_of_mem _ (List.mem_cons_of_mem _ hz))
        rcases ih (Nat.succ.inj (Nat.succ.inj hlen)) (hsub hl) (hsub hl') hrest with rfl | hc
        · exact Or.inl rfl
        · exact Or.inr hc
      · exact Or.inr hcollision
  | case2 a =>
    match l', hlen with
    | [a'], _ =>
      rcases eq_or_collision (List.cons.inj h).1 with heq | hcollision
      · have ha : a.length = a'.length := by
          rw [hl a List.mem_cons_self, hl' a' List.mem_cons_self]
        rw [(List.append_inj heq ha).1]
        exact Or.inl rfl
      · exact Or.inr hcollision
  | case3 => exact Or.inl (List.length_eq_zero_iff.mp hlen.symm).symm

/-- **A root is of one list of leaves** of its length, or the hash has a collision. -/
theorem eq_of_root_eq (hwidth : ∀ x, (hash x).length = width) (hlen : l.length = l'.length)
    (hl : ∀ x ∈ l, x.length = width) (hl' : ∀ x ∈ l', x.length = width)
    (h : root hash l = root hash l') : l = l' ∨ Collision hash := by
  fun_induction root hash l generalizing l' with
  | case1 => exact Or.inl (List.length_eq_zero_iff.mp hlen.symm).symm
  | case2 a =>
    match l', hlen with
    | [a'], _ =>
      rw [root] at h
      exact Or.inl (congrArg (fun x => [x]) h)
  | case3 a b rest ih =>
    match l', hlen with
    | a' :: b' :: rest', hlen =>
      rw [root] at h
      have hup : (pairUp hash (a :: b :: rest)).length =
          (pairUp hash (a' :: b' :: rest')).length := by
        rw [length_pairUp, length_pairUp, hlen]
      rcases ih hup (width_pairUp hwidth _) (width_pairUp hwidth _) h with heq | hcollision
      · exact eq_of_pairUp_eq hlen hl hl' heq
      · exact Or.inr hcollision

/-- A root is as wide as a leaf. -/
theorem length_root (hwidth : ∀ x, (hash x).length = width) (hne : l ≠ [])
    (hl : ∀ x ∈ l, x.length = width) : (root hash l).length = width := by
  fun_induction root hash l with
  | case1 => exact absurd rfl hne
  | case2 a => exact hl a (List.mem_singleton_self a)
  | case3 a b rest ih => exact ih (List.cons_ne_nil _ _) (width_pairUp hwidth _)

end Merkle
