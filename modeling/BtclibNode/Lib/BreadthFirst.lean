/-
# Serving a queue breadth first

A queue whose head is taken off while its children join the end.  What has been
served and what still waits are the start and the children of what has been
served, in that order (`Queued`); on a tree no node is met twice, and a queue that
runs empty has served its start level by level.
-/
import BtclibNode.Lib.Worklist

namespace HeightTree

universe u

variable {α : Type u}

/-- The nodes `k` levels below `start`, those of one parent together. -/
def level (children : α → List α) (start : List α) : ℕ → List α
  | 0 => start
  | k + 1 => (level children start k).flatMap children

/-- The first `d` levels, one after the other. -/
def levels (children : α → List α) (start : List α) (d : ℕ) : List α :=
  (List.range d).flatMap (level children start)

/-- `done` is served and `queue` waits. -/
structure Queued (node : Nodes α) (children : α → List α) (start : α)
    (done queue : List α) : Prop where
  order : done ++ queue = start :: done.flatMap children
  nodup : (done ++ queue).Nodup
  descends : ∀ x ∈ done ++ queue, Descends node start x
  parent_before : ∀ (i : ℕ) (x : α), (done ++ queue)[i]? = some x →
    i = 0 ∨ ∃ j < i, ∃ p, (done ++ queue)[j]? = some p ∧ Child node p x

section Queue

variable {node : Nodes α} {root start a : α} {children : α → List α} {done queue l : List α}
  {k : ℕ}

/-! ## Levels -/

theorem level_append (children : α → List α) (l m : List α) (k : ℕ) :
    level children (l ++ m) k = level children l k ++ level children m k := by
  induction k with
  | zero => rfl
  | succ k ih => rw [level, level, level, ih, List.flatMap_append]

theorem level_flatMap (children : α → List α) (l : List α) (k : ℕ) :
    level children (l.flatMap children) k = level children l (k + 1) := by
  induction k with
  | zero => rfl
  | succ k ih =>
    rw [level, ih]
    rfl

theorem levels_succ (children : α → List α) (start : List α) (d : ℕ) :
    levels children start (d + 1) = levels children start d ++ level children start d := by
  simp [levels, List.range_succ]

/-- What is made of a start and of the children of its own members begins with
the levels of the start. -/
theorem eq_levels_append (h : l = start :: l.flatMap children) (k : ℕ) :
    l = levels children [start] k ++ level children l k := by
  induction k with
  | zero => simp [levels, level]
  | succ k ih =>
    have hlevel : level children l k = level children [start] k ++ level children l (k + 1) := by
      conv_lhs => rw [h]
      rw [← List.singleton_append, level_append, level_flatMap]
    rw [levels_succ, List.append_assoc, ← hlevel]
    exact ih

/-- A level is as high as its number. -/
theorem le_height_of_mem_level (hT : IsTree node root)
    (hsub : ∀ p, ∀ c ∈ children p, Child node p c) (hl : ∀ x ∈ l, ∃ y, node x = some y)
    {x : α} (hx : x ∈ level children l k) :
    ∃ p n, node x = some (p, n) ∧ k ≤ n := by
  induction k generalizing x with
  | zero =>
    obtain ⟨⟨p, n⟩, hn⟩ := hl x hx
    exact ⟨p, n, hn, Nat.zero_le n⟩
  | succ k ih =>
    rw [level, List.mem_flatMap] at hx
    obtain ⟨p, hp, hpx⟩ := hx
    obtain ⟨q, n, hn, hle⟩ := ih hp
    obtain ⟨m, hm⟩ := hsub p x hpx
    obtain ⟨r, hr⟩ := hT.parent_node hm
    obtain ⟨-, rfl⟩ := Prod.mk.inj (Option.some.inj (hn.symm.trans hr))
    exact ⟨p, n + 1, hm, Nat.succ_le_succ hle⟩

/-! ## The queue -/

theorem Queued.init (node : Nodes α) (children : α → List α) (start : α) :
    Queued node children start [] [start] where
  order := rfl
  nodup := List.nodup_singleton start
  descends x hx := by
    rw [List.nil_append, List.mem_singleton] at hx
    exact hx ▸ Descends.refl x
  parent_before i x hx := by
    have hlt := (List.getElem?_eq_some_iff.mp hx).1
    exact .inl (Nat.lt_one_iff.mp hlt)

/-- **One turn**: the head is served and its children wait behind the others. -/
theorem Queued.step (hT : IsTree node root) (hsub : ∀ p, ∀ c ∈ children p, Child node p c)
    (hnodup : ∀ p, (children p).Nodup) (h : Queued node children start done (a :: queue)) :
    Queued node children start (done ++ [a]) (queue ++ children a) := by
  have hperm : done ++ [a] ++ (queue ++ children a) = done ++ a :: queue ++ children a := by simp
  have ha : a ∈ done ++ a :: queue := by simp
  refine ⟨?_, ?_, ?_, ?_⟩
  · rw [hperm, h.order, List.flatMap_append, List.flatMap_singleton, List.cons_append]
  · rw [hperm, List.nodup_append]
    refine ⟨h.nodup, hnodup a, ?_⟩
    rintro c hc _ hca rfl
    rw [h.order, List.mem_cons, List.mem_flatMap] at hc
    rcases hc with rfl | ⟨p, hp, hpc⟩
    · exact (hsub a c hca).ne_start hT (h.descends a ha) rfl
    · -- the parent of a waiting node is served, and `a` is not
      obtain rfl := (hsub p c hpc).parent_unique (hsub a c hca)
      have hnd := h.nodup
      rw [List.nodup_append] at hnd
      exact hnd.2.2 _ hp _ List.mem_cons_self rfl
  · rw [hperm]
    intro x hx
    rcases List.mem_append.mp hx with hx | hx
    · exact h.descends x hx
    · exact (h.descends a ha).trans (Descends.of_child (hsub a x hx))
  · rw [hperm]
    intro i x hx
    by_cases hi : i < (done ++ a :: queue).length
    · rw [List.getElem?_append_left hi] at hx
      rcases h.parent_before i x hx with h0 | ⟨j, hj, p, hp, hpx⟩
      · exact .inl h0
      · refine .inr ⟨j, hj, p, ?_, hpx⟩
        rw [List.getElem?_append_left (Nat.lt_trans hj hi), hp]
    · rw [List.getElem?_append_right (Nat.le_of_not_lt hi)] at hx
      have hlen : done.length < (done ++ a :: queue).length := by simp
      refine .inr ⟨done.length, by omega, a, ?_, hsub a x (List.mem_of_getElem? hx)⟩
      rw [List.getElem?_append_left hlen, List.getElem?_append_right (Nat.le_refl _)]
      simp

theorem Queued.congr {children' : α → List α} (h : Queued node children start done queue)
    (hsame : ∀ p ∈ done, children' p = children p) : Queued node children' start done queue where
  order := by
    rw [h.order]
    exact congrArg _ (List.flatMap_congr fun p hp => (hsame p hp).symm)
  nodup := h.nodup
  descends := h.descends
  parent_before := h.parent_before

/-- **A queue that ran empty has served its start level by level.** -/
theorem Queued.eq_levels (hT : IsTree node root)
    (hsub : ∀ p, ∀ c ∈ children p, Child node p c) (h : Queued node children start done [])
    (hstart : ∃ y, node start = some y) {d : ℕ} (hd : ∀ x p n, node x = some (p, n) → n < d) :
    done = levels children [start] d := by
  have horder := h.order
  rw [List.append_nil] at horder
  have hknown : ∀ x ∈ done, ∃ y, node x = some y := by
    intro x hx
    rw [horder, List.mem_cons, List.mem_flatMap] at hx
    rcases hx with rfl | ⟨p, -, hpx⟩
    · exact hstart
    · obtain ⟨n, hn⟩ := hsub p x hpx
      exact ⟨_, hn⟩
  have hempty : level children done d = [] := by
    rw [List.eq_nil_iff_forall_not_mem]
    intro x hx
    obtain ⟨p, n, hn, hle⟩ := le_height_of_mem_level hT hsub hknown hx
    have := hd x p n hn
    omega
  have := eq_levels_append horder d
  rwa [hempty, List.append_nil] at this

end Queue

end HeightTree
