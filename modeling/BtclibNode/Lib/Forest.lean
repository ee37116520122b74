/-
# Forests and the cuts of their edges

What is connected after an edge is added, and the side of an edge: what its first end is still
connected to without it.  An edge between two trees widens each side that holds one of its ends
by the other end's tree.
-/
import Mathlib.Combinatorics.SimpleGraph.Acyclic

namespace Forest

universe u

variable {V : Type u} {G : SimpleGraph V} {a b p c x y : V}

open SimpleGraph

/-- What is connected where one more edge is. -/
theorem reachable_sup_edge : (G ⊔ edge p c).Reachable a b ↔
    G.Reachable a b ∨ G.Reachable a p ∧ G.Reachable c b ∨ G.Reachable a c ∧ G.Reachable p b := by
  constructor
  · intro h
    rw [reachable_iff_reflTransGen] at h
    induction h with
    | refl => exact Or.inl (Reachable.refl a)
    | tail _ hadj ih =>
      rename_i y z _
      rw [sup_adj, edge_adj] at hadj
      rcases hadj with hadj | ⟨⟨rfl, rfl⟩ | ⟨rfl, rfl⟩, -⟩
      · rcases ih with h | ⟨h, h'⟩ | ⟨h, h'⟩
        · exact Or.inl (h.trans hadj.reachable)
        · exact Or.inr (Or.inl ⟨h, h'.trans hadj.reachable⟩)
        · exact Or.inr (Or.inr ⟨h, h'.trans hadj.reachable⟩)
      · rcases ih with h | ⟨h, -⟩ | ⟨h, -⟩
        · exact Or.inr (Or.inl ⟨h, Reachable.refl _⟩)
        · exact Or.inr (Or.inl ⟨h, Reachable.refl _⟩)
        · exact Or.inl h
      · rcases ih with h | ⟨h, -⟩ | ⟨h, -⟩
        · exact Or.inr (Or.inr ⟨h, Reachable.refl _⟩)
        · exact Or.inl h
        · exact Or.inr (Or.inr ⟨h, Reachable.refl _⟩)
  · have hle : ∀ {u v : V}, G.Reachable u v → (G ⊔ edge p c).Reachable u v :=
      fun h => h.mono le_sup_left
    have hedge : (G ⊔ edge p c).Reachable p c := by
      by_cases hpc : p = c
      · rw [hpc]
      · exact Adj.reachable (Or.inr ((edge_adj ..).mpr ⟨Or.inl ⟨rfl, rfl⟩, hpc⟩))
    rintro (h | ⟨h, h'⟩ | ⟨h, h'⟩)
    · exact hle h
    · exact (hle h).trans (hedge.trans (hle h'))
    · exact (hle h).trans (hedge.symm.trans (hle h'))

/-- The graph without one edge. -/
abbrev without (G : SimpleGraph V) (x y : V) : SimpleGraph V := G.deleteEdges {s(x, y)}

/-- What the first end of an edge is connected to without the edge. -/
def Side (G : SimpleGraph V) (x y b : V) : Prop := (without G x y).Reachable x b

theorem Side.reachable (h : Side G x y b) : G.Reachable x b := h.mono (deleteEdges_le _)

/-- An edge of another tree is not on the way. -/
theorem reachable_without (h : ¬ G.Reachable a x) :
    (without G x y).Reachable a b ↔ G.Reachable a b := by
  refine ⟨fun hreach => hreach.mono (deleteEdges_le _), fun hreach => ?_⟩
  rw [reachable_iff_reflTransGen] at hreach
  induction hreach with
  | refl => exact Reachable.refl a
  | tail hreach hadj ih =>
    rename_i u v
    have hu : G.Reachable a u := (reachable_iff_reflTransGen a u).mpr hreach
    refine ih.trans (Adj.reachable ((deleteEdges_adj ..).mpr ⟨hadj, fun heq => h ?_⟩))
    rcases Sym2.eq_iff.mp (Set.mem_singleton_iff.mp heq) with ⟨rfl, -⟩ | ⟨-, rfl⟩
    · exact hu
    · exact hu.trans hadj.reachable

theorem without_sup_edge (hne : s(x, y) ≠ s(p, c)) :
    without (G ⊔ edge p c) x y = without G x y ⊔ edge p c := by
  refine SimpleGraph.ext (funext fun u => funext fun v => propext ?_)
  rw [deleteEdges_adj, sup_adj, sup_adj, deleteEdges_adj, edge_adj]
  constructor
  · rintro ⟨hadj | hedge, hnot⟩
    · exact Or.inl ⟨hadj, hnot⟩
    · exact Or.inr hedge
  · rintro (⟨hadj, hnot⟩ | hedge)
    · exact ⟨Or.inl hadj, hnot⟩
    · refine ⟨Or.inr hedge, fun heq => hne ?_⟩
      rw [← Set.mem_singleton_iff.mp heq]
      rcases hedge.1 with ⟨rfl, rfl⟩ | ⟨rfl, rfl⟩
      · rfl
      · exact Sym2.eq_swap

theorem without_sup_self (hadj : ¬ G.Adj p c) : without (G ⊔ edge p c) p c = G := by
  refine SimpleGraph.ext (funext fun u => funext fun v => propext ?_)
  rw [deleteEdges_adj, sup_adj, edge_adj]
  constructor
  · rintro ⟨hadj' | ⟨⟨rfl, rfl⟩ | ⟨rfl, rfl⟩, -⟩, hnot⟩
    · exact hadj'
    · exact absurd rfl hnot
    · exact absurd Sym2.eq_swap hnot
  · refine fun hadj' => ⟨Or.inl hadj', fun heq => hadj ?_⟩
    rcases Sym2.eq_iff.mp (Set.mem_singleton_iff.mp heq) with ⟨rfl, rfl⟩ | ⟨rfl, rfl⟩
    · exact hadj'
    · exact hadj'.symm

theorem without_sup_edge_self (hadj : G.Adj p c) : without G p c ⊔ edge p c = G := by
  refine SimpleGraph.ext (funext fun u => funext fun v => propext ?_)
  rw [sup_adj, deleteEdges_adj, edge_adj]
  constructor
  · rintro (⟨hadj', -⟩ | ⟨⟨rfl, rfl⟩ | ⟨rfl, rfl⟩, -⟩)
    · exact hadj'
    · exact hadj
    · exact hadj.symm
  · intro hadj'
    by_cases heq : s(u, v) = s(p, c)
    · exact Or.inr ⟨Sym2.eq_iff.mp heq, hadj'.ne⟩
    · exact Or.inl ⟨hadj', heq⟩

/-- The new edge has the tree of its first end on that end's side. -/
theorem side_new (hpc : ¬ G.Reachable p c) : Side (G ⊔ edge p c) p c b ↔ G.Reachable p b := by
  rw [Side, without_sup_self fun hadj => hpc hadj.reachable]

/-- **A new edge between two trees widens the sides of the tree of its first end** that hold that
end, by the other tree. -/
theorem side_sup_left (hpc : ¬ G.Reachable p c) (hxy : G.Adj x y) (hx : G.Reachable p x) :
    Side (G ⊔ edge p c) x y b ↔ Side G x y b ∨ Side G x y p ∧ G.Reachable c b := by
  have hcx : ¬ G.Reachable c x := fun h => hpc (hx.trans h.symm)
  have hne : s(x, y) ≠ s(p, c) := by
    intro heq
    rcases Sym2.eq_iff.mp heq with ⟨rfl, rfl⟩ | ⟨rfl, rfl⟩
    · exact hpc hxy.reachable
    · exact hpc hxy.reachable.symm
  rw [Side, without_sup_edge hne, reachable_sup_edge, reachable_without hcx]
  refine or_congr_right ((or_iff_left ?_).trans Iff.rfl)
  rintro ⟨h, -⟩
  exact hcx (Side.reachable h).symm

/-- The same for the tree of its second end. -/
theorem side_sup_right (hpc : ¬ G.Reachable p c) (hxy : G.Adj x y) (hx : G.Reachable c x) :
    Side (G ⊔ edge p c) x y b ↔ Side G x y b ∨ Side G x y c ∧ G.Reachable p b := by
  rw [edge_comm]
  exact side_sup_left (fun h => hpc h.symm) hxy hx

/-- The sides of the other trees stay. -/
theorem side_sup_other (hp : ¬ G.Reachable p x) (hc : ¬ G.Reachable c x) :
    Side (G ⊔ edge p c) x y b ↔ Side G x y b := by
  have hne : s(x, y) ≠ s(p, c) := by
    intro heq
    rcases Sym2.eq_iff.mp heq with ⟨rfl, rfl⟩ | ⟨rfl, rfl⟩
    · exact hp (Reachable.refl _)
    · exact hc (Reachable.refl _)
  rw [Side, without_sup_edge hne, reachable_sup_edge]
  refine or_iff_left ?_
  rintro (⟨h, -⟩ | ⟨h, -⟩)
  · exact hp (Side.reachable h).symm
  · exact hc (Side.reachable h).symm

/-- Without an edge of a forest its ends are apart. -/
theorem not_reachable_without (hG : G.IsAcyclic) (hadj : G.Adj p c) :
    ¬ (without G p c).Reachable p c :=
  isBridge_iff.mp (isAcyclic_iff_forall_isBridge.mp hG hadj)

end Forest
