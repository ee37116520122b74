/-
# Polylines

A function that starts at a point, follows its steps one after another, each straight, and goes
on flat.  Two of them that are both straight over an interval are compared by its ends.
-/
import Mathlib.Algebra.Order.Field.Basic
import Mathlib.Tactic.Linarith
import Mathlib.Tactic.Ring

namespace Polyline

variable {K : Type} [Field K] [LinearOrder K]

/-- The height at `s` of the polyline from `(x, y)` on; a step is a width and a rise. -/
def height (x y : K) : List (K × K) → K → K
  | [], _ => y
  | (width, rise) :: steps, s =>
    if s ≤ x + width then y + rise / width * (s - x)
    else height (x + width) (y + rise) steps s

/-- A function is straight over an interval. -/
def StraightOn (f : K → K) (x x' : K) : Prop :=
  ∃ u v, ∀ s, x ≤ s → s ≤ x' → f s = u + v * s

section Height

variable {x y s width rise : K} {steps : List (K × K)}

@[simp] theorem height_nil : height x y [] s = y := rfl

theorem height_cons_of_le (h : s ≤ x + width) :
    height x y ((width, rise) :: steps) s = y + rise / width * (s - x) := if_pos h

theorem height_cons_of_lt (h : x + width < s) :
    height x y ((width, rise) :: steps) s = height (x + width) (y + rise) steps s :=
  if_neg (not_le.mpr h)

theorem straightOn_nil {x' : K} (z : K) : StraightOn (height x y []) z x' := by
  refine ⟨y, 0, fun s _ _ => ?_⟩
  rw [height_nil, zero_mul, add_zero]

/-- A polyline is straight up to the end of its first step. -/
theorem straightOn_cons (z : K) : StraightOn (height x y ((width, rise) :: steps)) z
    (x + width) := by
  refine ⟨y - rise / width * x, rise / width, fun s _ hs => ?_⟩
  rw [height_cons_of_le hs]
  ring

theorem StraightOn.mono {f : K → K} {x x' z z' : K} (h : StraightOn f x z) (hx : x ≤ x')
    (hz : z' ≤ z) : StraightOn f x' z' := by
  obtain ⟨u, v, hf⟩ := h
  exact ⟨u, v, fun s hs hs' => hf s (hx.trans hs) (hs'.trans hz)⟩

variable [IsStrictOrderedRing K]

theorem height_start (hsteps : ∀ step ∈ steps, 0 < step.1) : height x y steps x = y := by
  rcases steps with _ | ⟨⟨width, rise⟩, steps⟩
  · rfl
  · have hwidth : 0 < width := hsteps _ List.mem_cons_self
    rw [height_cons_of_le (by linarith), sub_self, mul_zero, add_zero]

/-- At the end of a step, and from there on, the polyline is the one that starts there. -/
theorem height_cons_of_ge (hwidth : 0 < width) (hsteps : ∀ step ∈ steps, 0 < step.1)
    (h : x + width ≤ s) :
    height x y ((width, rise) :: steps) s = height (x + width) (y + rise) steps s := by
  rcases h.eq_or_lt with rfl | hlt
  · rw [height_cons_of_le le_rfl, height_start hsteps, add_sub_cancel_left,
      div_mul_cancel₀ rise hwidth.ne']
  · exact height_cons_of_lt hlt

/-- Where one straight function is above another, it is above it at an end. -/
theorem StraightOn.lt_at_end {f g : K → K} {x x' s : K} (hf : StraightOn f x x')
    (hg : StraightOn g x x') (hx : x ≤ s) (hx' : s ≤ x') (hlt : f s < g s) :
    f x < g x ∨ f x' < g x' := by
  obtain ⟨u, v, hf⟩ := hf
  obtain ⟨u', v', hg⟩ := hg
  rw [hf s hx hx', hg s hx hx'] at hlt
  rw [hf x le_rfl (hx.trans hx'), hg x le_rfl (hx.trans hx'), hf x' (hx.trans hx') le_rfl,
    hg x' (hx.trans hx') le_rfl]
  rcases le_total v v' with hv | hv
  · -- the second rises faster
    right
    have hgap : (v' - v) * s ≤ (v' - v) * x' :=
      mul_le_mul_of_nonneg_left hx' (sub_nonneg.mpr hv)
    linarith
  · left
    have hgap : (v - v') * x ≤ (v - v') * s := mul_le_mul_of_nonneg_left hx (sub_nonneg.mpr hv)
    linarith

/-- Whether one is above the other from `x` on, where both are straight up to `x'`. -/
theorem exists_lt_iff {f g : K → K} {x x' : K} (hle : x ≤ x') (hf : StraightOn f x x')
    (hg : StraightOn g x x') : (∃ s, x ≤ s ∧ f s < g s) ↔
      f x < g x ∨ f x' < g x' ∨ ∃ s, x' ≤ s ∧ f s < g s := by
  constructor
  · rintro ⟨s, hs, hlt⟩
    rcases le_total s x' with hs' | hs'
    · rcases hf.lt_at_end hg hs hs' hlt with h | h
      · exact .inl h
      · exact .inr (.inl h)
    · exact .inr (.inr ⟨s, hs', hlt⟩)
  · rintro (h | h | ⟨s, hs, hlt⟩)
    · exact ⟨x, le_rfl, h⟩
    · exact ⟨x', hle, h⟩
    · exact ⟨s, hle.trans hs, hlt⟩

end Height

end Polyline
