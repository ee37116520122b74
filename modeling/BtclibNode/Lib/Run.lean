/-
# Runs of a step function

A machine is a partial step function; what it may choose is in the label of the
step.  An invariant of one step is an invariant of every run, and a simulation
of one step is a simulation of every run.
-/
import Mathlib.Data.List.Induction
import Mathlib.Tactic.Common

namespace Run

universe u v w

variable {σ : Type u} {ι : Type v} {τ : Type w}

/-- The state after the steps `is`, where every one of them is enabled. -/
def exec (step : σ → ι → Option σ) : σ → List ι → Option σ
  | s, [] => some s
  | s, i :: is => (step s i).bind fun t => exec step t is

section Exec

variable {step : σ → ι → Option σ} {s t : σ} {i : ι} {is : List ι}

@[simp] theorem exec_nil : exec step s [] = some s := rfl

theorem exec_cons : exec step s (i :: is) = some t ↔
    ∃ r, step s i = some r ∧ exec step r is = some t := by
  rw [exec, Option.bind_eq_some_iff]

theorem exec_append {is' : List ι} : exec step s (is ++ is') = some t ↔
    ∃ r, exec step s is = some r ∧ exec step r is' = some t := by
  induction is generalizing s with
  | nil => simp
  | cons i is ih =>
    rw [List.cons_append, exec_cons]
    constructor
    · rintro ⟨r, hstep, hrest⟩
      obtain ⟨q, hq, ht⟩ := ih.mp hrest
      exact ⟨q, exec_cons.mpr ⟨r, hstep, hq⟩, ht⟩
    · rintro ⟨q, hq, ht⟩
      obtain ⟨r, hstep, hrest⟩ := exec_cons.mp hq
      exact ⟨r, hstep, ih.mpr ⟨q, hrest, ht⟩⟩

/-- **What every step keeps, every run keeps.** -/
theorem exec_invariant {P : σ → Prop} (hstep : ∀ s i t, P s → step s i = some t → P t)
    (hs : P s) (hrun : exec step s is = some t) : P t := by
  induction is generalizing s with
  | nil =>
    rw [exec_nil, Option.some.injEq] at hrun
    exact hrun ▸ hs
  | cons i is ih =>
    obtain ⟨r, hr, hrest⟩ := exec_cons.mp hrun
    exact ih (hstep s i r hs hr) hrest

/-- The same, for the steps a run is made of. -/
theorem exec_invariant_of_mem {P : σ → Prop}
    (hstep : ∀ s t, ∀ i ∈ is, P s → step s i = some t → P t)
    (hs : P s) (hrun : exec step s is = some t) : P t := by
  induction is generalizing s with
  | nil =>
    rw [exec_nil, Option.some.injEq] at hrun
    exact hrun ▸ hs
  | cons i is ih =>
    obtain ⟨r, hr, hrest⟩ := exec_cons.mp hrun
    exact ih (fun s t j hj => hstep s t j (List.mem_cons_of_mem i hj))
      (hstep s r i List.mem_cons_self hs hr) hrest

end Exec

/-- **What simulates every step simulates every run.** -/
theorem exec_simulation {step : σ → ι → Option σ} {step' : τ → ι → Option τ} {R : σ → τ → Prop}
    {is : List ι}
    (hstep : ∀ s s' t, ∀ i ∈ is, R s s' → step s i = some t →
      ∃ t', step' s' i = some t' ∧ R t t')
    {s t : σ} {s' : τ} (hs : R s s') (hrun : exec step s is = some t) :
    ∃ t', exec step' s' is = some t' ∧ R t t' := by
  induction is generalizing s s' with
  | nil =>
    rw [exec_nil, Option.some.injEq] at hrun
    exact ⟨s', rfl, hrun ▸ hs⟩
  | cons i is ih =>
    obtain ⟨r, hr, hrest⟩ := exec_cons.mp hrun
    obtain ⟨r', hr', hR⟩ := hstep s s' r i List.mem_cons_self hs hr
    obtain ⟨t', ht', hRt⟩ := ih
      (fun s s' t j hj => hstep s s' t j (List.mem_cons_of_mem i hj)) hR hrest
    exact ⟨t', exec_cons.mpr ⟨r', hr', ht'⟩, hRt⟩

/-- Steps that leave the state alone can be left out. -/
theorem exec_filter {step : σ → ι → Option σ} {p : ι → Bool}
    (hskip : ∀ s i, p i = false → step s i = some s) (s : σ) (is : List ι) :
    exec step s (is.filter p) = exec step s is := by
  induction is generalizing s with
  | nil => rfl
  | cons i is ih =>
    cases hp : p i with
    | false =>
      rw [List.filter_cons_of_neg (by simp [hp]), ih, exec.eq_2, hskip s i hp, Option.bind_some]
    | true =>
      rw [List.filter_cons_of_pos hp, exec, exec]
      exact congrArg _ (funext ih)

/-! ## Steps that are always enabled -/

/-- **A property of every state of a run is one of its steps**, where a step keeps the
property exactly if it meets `C`. -/
theorem forall_prefix_iff {step : σ → ι → σ} {I P : σ → Prop} {C : σ → ι → Prop}
    (hI : ∀ s i, I s → I (step s i)) (hP : ∀ s i, I s → P s → (P (step s i) ↔ C s i))
    {s : σ} (hIs : I s) (hPs : P s) (is : List ι) :
    (∀ js, js <+: is → P (js.foldl step s)) ↔
      ∀ js i, js ++ [i] <+: is → C (js.foldl step s) i := by
  have hall : ∀ js : List ι, I (js.foldl step s) := by
    intro js
    induction js using List.reverseRecOn with
    | nil => exact hIs
    | append_singleton js i ih =>
      rw [List.foldl_append]
      exact hI _ i ih
  have hbefore : ∀ {js : List ι} {i : ι}, js ++ [i] <+: is → js <+: is :=
    fun h => (List.prefix_append _ _).trans h
  constructor
  · intro h js i hjs
    have hnext := h _ hjs
    rw [List.foldl_append] at hnext
    exact (hP _ i (hall js) (h js (hbefore hjs))).mp hnext
  · intro h js hjs
    induction js using List.reverseRecOn with
    | nil => exact hPs
    | append_singleton js i ih =>
      rw [List.foldl_append]
      exact (hP _ i (hall js) (ih (hbefore hjs))).mpr (h js i hjs)

end Run
