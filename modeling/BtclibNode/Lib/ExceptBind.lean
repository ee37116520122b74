/-
# Sequences that may raise

What a sequence in `Except` has returned or raised, said of its two halves.
-/
import Mathlib.Tactic.Common

namespace ExceptBind

universe u v

variable {ε : Type u} {α β : Type v} {x : Except ε α} {f : α → Except ε β} {b : β} {e : ε}

theorem ok_bind {a : α} : (Except.ok a >>= f) = f a := rfl

theorem error_bind : (Except.error e >>= f) = .error e := rfl

/-- A sequence returns where both halves do. -/
theorem bind_eq_ok_iff : (x >>= f) = .ok b ↔ ∃ a, x = .ok a ∧ f a = .ok b := by
  cases x with
  | error e => exact ⟨nofun, nofun⟩
  | ok a =>
    constructor
    · intro h
      exact ⟨a, rfl, h⟩
    · rintro ⟨_, ha, h⟩
      cases ha
      exact h

/-- It raises what the first half raises, or the second after it. -/
theorem bind_eq_error_iff :
    (x >>= f) = .error e ↔ x = .error e ∨ ∃ a, x = .ok a ∧ f a = .error e := by
  cases x with
  | error e' =>
    constructor
    · intro h
      exact .inl (by cases h; rfl)
    · rintro (h | ⟨_, h, _⟩)
      · cases h
        rfl
      · cases h
  | ok a =>
    constructor
    · intro h
      exact .inr ⟨a, rfl, h⟩
    · rintro (h | ⟨_, ha, h⟩)
      · cases h
      · cases ha
        exact h

end ExceptBind

/-!
# Two runs side by side

Two programs that may raise and that keep their state when they do.  They agree where from every
state both raise the same, or both return what a relation holds of, and leave the same state; the
rules say so of each construct.
-/

namespace RelationalExcept

universe u

variable {ε σ α β α' β' : Type u}

/-- Both raise the same or return related results, and leave the same state. -/
def Agree (R : α → β → Prop) (x : EStateM ε σ α) (y : EStateM ε σ β) : Prop :=
  ∀ s, (∃ a b t, x s = .ok a t ∧ y s = .ok b t ∧ R a b) ∨
    ∃ e t, x s = .error e t ∧ y s = .error e t

variable {R : α → β → Prop} {x : EStateM ε σ α} {y : EStateM ε σ β}

theorem agree_pure {a : α} {b : β} (h : R a b) :
    Agree R (pure a : EStateM ε σ α) (pure b : EStateM ε σ β) :=
  fun s => .inl ⟨a, b, s, rfl, rfl, h⟩

theorem agree_throw (e : ε) : Agree R (throw e : EStateM ε σ α) (throw e : EStateM ε σ β) :=
  fun s => .inr ⟨e, s, rfl, rfl⟩

/-- A program agrees with itself. -/
theorem agree_refl {R : α → α → Prop} (hR : ∀ a, R a a) (x : EStateM ε σ α) : Agree R x x := by
  intro s
  cases hx : x s with
  | ok a t => exact .inl ⟨a, a, t, rfl, rfl, hR a⟩
  | error e t => exact .inr ⟨e, t, rfl, rfl⟩

theorem Agree.imp {R' : α → β → Prop} (h : Agree R x y) (hR : ∀ a b, R a b → R' a b) :
    Agree R' x y := by
  intro s
  rcases h s with ⟨a, b, t, hx, hy, hab⟩ | hraise
  · exact .inl ⟨a, b, t, hx, hy, hR a b hab⟩
  · exact .inr hraise

/-- A sequence. -/
theorem Agree.bind {S : α' → β' → Prop} {f : α → EStateM ε σ α'} {g : β → EStateM ε σ β'}
    (h : Agree R x y) (hfg : ∀ a b, R a b → Agree S (f a) (g b)) :
    Agree S (x >>= f) (y >>= g) := by
  intro s
  change (∃ a b t, EStateM.bind x f s = .ok a t ∧ EStateM.bind y g s = .ok b t ∧ S a b) ∨
    ∃ e t, EStateM.bind x f s = .error e t ∧ EStateM.bind y g s = .error e t
  unfold EStateM.bind
  rcases h s with ⟨a, b, t, hx, hy, hab⟩ | ⟨e, t, hx, hy⟩
  · rw [hx, hy]
    exact hfg a b hab t
  · rw [hx, hy]
    exact .inr ⟨e, t, rfl, rfl⟩

/-- A sequence whose first half is the same. -/
theorem agree_bind_same {S : α' → β' → Prop} (x : EStateM ε σ α) {f : α → EStateM ε σ α'}
    {g : α → EStateM ε σ β'} (hfg : ∀ a, Agree S (f a) (g a)) : Agree S (x >>= f) (x >>= g) :=
  (agree_refl (fun _ => rfl) x).bind fun a b hab => by
    rw [hab]
    exact hfg b

/-- A choice on one condition. -/
theorem Agree.ite {p : Prop} [Decidable p] {x' : EStateM ε σ α} {y' : EStateM ε σ β}
    (h : p → Agree R x y) (h' : ¬ p → Agree R x' y') :
    Agree R (if p then x else x') (if p then y else y') := by
  split_ifs with hp
  · exact h hp
  · exact h' hp

end RelationalExcept
