/-
# Walking a subtree from a stack

A loop that pops a node off a stack, visits it and pushes its children.  On a
tree it visits a node and everything built on it, each once, in at most as many
turns as there are nodes.
-/
import BtclibNode.Lib.HeightTree
import Mathlib.Data.List.Perm.Subperm

namespace HeightTree

universe u

variable {α : Type u}

/-- The nodes visited, in order.  The head of the stack is its top, and the
children of a node are pushed in their order, the last one ending on top. -/
def visit (children : α → List α) : ℕ → List α → List α
  | 0, _ => []
  | _ + 1, [] => []
  | fuel + 1, a :: stack => a :: visit children fuel ((children a).reverse ++ stack)

/-- What the loop keeps: `done` is visited, `stack` is to visit, and together
they are the children seen so far of what is visited. -/
structure Visiting (node : Nodes α) (children : α → List α) (start : α)
    (done stack : List α) : Prop where
  nodup : (done ++ stack).Nodup
  start_mem : start ∈ done ++ stack
  descends : ∀ x ∈ done ++ stack, Descends node start x
  parent_done : ∀ x ∈ done ++ stack, x = start ∨ ∃ p ∈ done, Child node p x
  children_seen : ∀ p ∈ done, ∀ c ∈ children p, c ∈ done ++ stack

section Visit

variable {node : Nodes α} {root start a : α} {children : α → List α} {done stack : List α}

theorem Child.parent_unique {p q c : α} (h : Child node p c) (h' : Child node q c) : p = q := by
  obtain ⟨n, hn⟩ := h
  obtain ⟨k, hk⟩ := h'
  rw [hn, Option.some.injEq, Prod.mk.injEq] at hk
  exact hk.1

/-- A child of a descendant of `start` is not `start`. -/
theorem Child.ne_start (hT : IsTree node root) (hstart : Descends node start a) {c : α}
    (hc : Child node a c) : c ≠ start := by
  rintro rfl
  obtain ⟨n, hn⟩ := hc
  obtain ⟨q, hq⟩ := hT.parent_node hn
  have := hstart.height_le hT hn hq
  omega

theorem Visiting.init (node : Nodes α) (children : α → List α) (start : α) :
    Visiting node children start [] [start] where
  nodup := List.nodup_singleton start
  start_mem := List.mem_singleton_self start
  descends x hx := by
    rw [List.nil_append, List.mem_singleton] at hx
    exact hx ▸ Descends.refl x
  parent_done x hx := .inl (List.mem_singleton.mp hx)
  children_seen p hp := by cases hp

/-- One turn of the loop. -/
theorem Visiting.step (hT : IsTree node root) (hsub : ∀ p, ∀ c ∈ children p, Child node p c)
    (hnodup : ∀ p, (children p).Nodup) (h : Visiting node children start done (a :: stack)) :
    Visiting node children start (done ++ [a]) ((children a).reverse ++ stack) := by
  have ha : a ∈ done ++ a :: stack := by simp
  have hnew : ∀ c, Child node a c → c ∉ done ++ a :: stack := by
    intro c hc hseen
    rcases h.parent_done c hseen with rfl | ⟨p, hp, hpc⟩
    · exact hc.ne_start hT (h.descends a ha) rfl
    · obtain rfl := hc.parent_unique hpc
      have hnd := h.nodup
      rw [List.nodup_append] at hnd
      exact hnd.2.2 _ hp _ List.mem_cons_self rfl
  have hold : ∀ x, x ∈ done ++ a :: stack → x ∈ done ++ [a] ++ ((children a).reverse ++ stack) := by
    intro x hx
    simp only [List.mem_append, List.mem_cons] at hx ⊢
    tauto
  have hcases : ∀ x, x ∈ done ++ [a] ++ ((children a).reverse ++ stack) →
      x ∈ done ++ a :: stack ∨ Child node a x := by
    intro x hx
    have hchild := hsub a x
    simp only [List.mem_append, List.mem_cons, List.mem_reverse] at hx ⊢
    tauto
  refine ⟨?_, hold _ h.start_mem, ?_, ?_, ?_⟩
  · have hperm : (done ++ [a] ++ ((children a).reverse ++ stack)).Perm
        (children a ++ (done ++ a :: stack)) := by
      rw [List.append_assoc, List.singleton_append]
      refine (List.Perm.append_left done ((List.Perm.append_right stack
        (List.reverse_perm _)).cons a)).trans ?_
      refine (List.Perm.append_left done (List.perm_middle.symm)).trans ?_
      rw [← List.append_assoc, ← List.append_assoc]
      exact List.Perm.append_right _ List.perm_append_comm
    rw [hperm.nodup_iff, List.nodup_append]
    refine ⟨hnodup a, h.nodup, ?_⟩
    rintro x hx y hy rfl
    exact hnew x (hsub a x hx) hy
  · intro x hx
    rcases hcases x hx with hx | hc
    · exact h.descends x hx
    · exact (h.descends a ha).trans (Descends.of_child hc)
  · intro x hx
    rcases hcases x hx with hx | hc
    · rcases h.parent_done x hx with rfl | ⟨p, hp, hpc⟩
      · exact .inl rfl
      · exact .inr ⟨p, List.mem_append_left _ hp, hpc⟩
    · exact .inr ⟨a, by simp, hc⟩
  · intro p hp c hc
    rcases List.mem_append.mp hp with hp | hp
    · exact hold c (h.children_seen p hp c hc)
    · rw [List.mem_singleton.mp hp] at hc
      simp [hc]

/-- What is left on the stack once every node is visited: nothing. -/
theorem Visiting.stack_eq_nil (h : Visiting node children start done stack) {keys : List α}
    (hkeys : ∀ x, Descends node start x → x ∈ keys) (hle : keys.length ≤ done.length) :
    stack = [] := by
  have hlen := (List.subperm_of_subset h.nodup fun x hx => hkeys x (h.descends x hx)).length_le
  rw [← List.length_eq_zero_iff]
  rw [List.length_append] at hlen
  omega

/-- With nothing left to visit, what is visited is closed under children. -/
theorem Visiting.mem_iff_descends (h : Visiting node children start done [])
    (hmem : ∀ p c, c ∈ children p ↔ Child node p c) (x : α) :
    x ∈ done ↔ Descends node start x := by
  obtain ⟨-, hstart, hdesc, -, hseen⟩ := h
  simp only [List.append_nil] at hstart hdesc hseen
  exact ⟨hdesc x, fun hx =>
    hx.closed (fun p c hpc hp => hseen p hp c ((hmem p c).mpr hpc)) hstart⟩

/-- **The loop visits `start` and its descendants, each once**, given as many
turns as there are nodes. -/
theorem visit_spec (hT : IsTree node root) (hmem : ∀ p c, c ∈ children p ↔ Child node p c)
    (hnodup : ∀ p, (children p).Nodup) {keys : List α}
    (hkeys : ∀ x, Descends node start x → x ∈ keys)
    {fuel : ℕ} (h : Visiting node children start done stack) (hfuel : keys.length ≤ fuel + done.length) :
    (done ++ visit children fuel stack).Nodup ∧
      ∀ x, x ∈ done ++ visit children fuel stack ↔ Descends node start x := by
  induction fuel generalizing done stack with
  | zero =>
    -- every node is visited already
    obtain rfl := h.stack_eq_nil hkeys (by omega)
    exact ⟨h.nodup, by simpa [visit] using h.mem_iff_descends hmem⟩
  | succ fuel ih =>
    cases stack with
    | nil => exact ⟨h.nodup, by simpa [visit] using h.mem_iff_descends hmem⟩
    | cons a stack =>
      have hrest := ih (h.step hT (fun p c => (hmem p c).mp) hnodup) (by simp; omega)
      rw [List.append_assoc, List.singleton_append] at hrest
      exact hrest

end Visit

end HeightTree
