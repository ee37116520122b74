/-
# Programs that keep their state when they raise

`EStateM ε σ α` is the meaning of a method that may raise: `ok` carries the
result and the object as the method left it, `error` carries the exception and
the object as the statements before the raise left it.  `Sat` is the
two-outcome postcondition over it, with one rule for each construct.
-/
import Mathlib.Tactic.Common

namespace StateExcept

universe u

variable {ε σ α β : Type u}

/-- From state `s` the program `x` either returns with `Q`, or raises with `E`. -/
def Sat (x : EStateM ε σ α) (s : σ) (Q : α → σ → Prop) (E : ε → σ → Prop) : Prop :=
  match x s with
  | .ok a t => Q a t
  | .error e t => E e t

/-- The state a program leaves behind, whichever way it ends. -/
def finalState (x : EStateM ε σ α) (s : σ) : σ :=
  match x s with
  | .ok _ t => t
  | .error _ t => t

/-! ## The rules -/

section Rules

variable {x : EStateM ε σ α} {f : α → EStateM ε σ β} {s : σ}
  {Q Q' : α → σ → Prop} {E E' : ε → σ → Prop}

theorem sat_pure {a : α} : Sat (pure a : EStateM ε σ α) s Q E ↔ Q a s := Iff.rfl

theorem sat_throw {e : ε} : Sat (throw e : EStateM ε σ α) s Q E ↔ E e s := Iff.rfl

theorem sat_get {Q : σ → σ → Prop} : Sat (get : EStateM ε σ σ) s Q E ↔ Q s s := Iff.rfl

theorem sat_modify {g : σ → σ} {Q : PUnit → σ → Prop} :
    Sat (modify g : EStateM ε σ PUnit) s Q E ↔ Q ⟨⟩ (g s) := Iff.rfl

theorem sat_set {t : σ} {Q : PUnit → σ → Prop} :
    Sat (set t : EStateM ε σ PUnit) s Q E ↔ Q ⟨⟩ t := Iff.rfl

/-- A sequence satisfies a postcondition as its first half establishes the
precondition of its second; a raise of the first half is a raise of the whole. -/
theorem sat_bind {R : β → σ → Prop} :
    Sat (x >>= f) s R E ↔ Sat x s (fun a t => Sat (f a) t R E) E := by
  unfold Sat
  show (match EStateM.bind x f s with | .ok a t => R a t | .error e t => E e t) ↔ _
  unfold EStateM.bind
  cases x s <;> exact Iff.rfl

/-- A sequence whose first half is seen to return. -/
theorem sat_bind_of_ok {R : β → σ → Prop} {a : α} {t : σ} (hx : x s = .ok a t) :
    Sat (x >>= f) s R E ↔ Sat (f a) t R E := by
  rw [sat_bind]
  unfold Sat
  rw [hx]

/-- A sequence whose first half is seen to raise. -/
theorem sat_bind_of_error {R : β → σ → Prop} {e : ε} {t : σ} (hx : x s = .error e t) :
    Sat (x >>= f) s R E ↔ E e t := by
  rw [sat_bind]
  unfold Sat
  rw [hx]

theorem sat_of_ok {a : α} {t : σ} (hx : x s = .ok a t) : Sat x s Q E ↔ Q a t := by
  unfold Sat
  rw [hx]

theorem sat_map {g : α → β} {R : β → σ → Prop} :
    Sat (g <$> x) s R E ↔ Sat x s (fun a t => R (g a) t) E := by
  rw [map_eq_pure_bind, sat_bind]
  exact Iff.rfl

/-- A cleanup runs however the block ends, and what it raises takes the place of the outcome. -/
theorem sat_finally {c : EStateM ε σ PUnit} :
    Sat (tryFinally x c) s Q E ↔ Sat x s (fun a t => Sat c t (fun _ u => Q a u) E)
      (fun e t => Sat c t (fun _ u => E e u) E) := by
  unfold Sat
  show (match (Prod.fst <$> tryFinally' x fun _ => c : EStateM ε σ α) s with
    | .ok a t => Q a t | .error e t => E e t) ↔ _
  simp only [Functor.map, EStateM.map, tryFinally']
  cases x s with
  | ok a t =>
    dsimp only
    cases c t <;> exact Iff.rfl
  | error e t =>
    dsimp only
    cases c t <;> exact Iff.rfl

theorem Sat.mono (h : Sat x s Q E) (hQ : ∀ a t, Q a t → Q' a t)
    (hE : ∀ e t, E e t → E' e t) : Sat x s Q' E' := by
  unfold Sat at *
  cases hx : x s with
  | ok a t => rw [hx] at h; exact hQ a t h
  | error e t => rw [hx] at h; exact hE e t h

theorem Sat.and (h : Sat x s Q E) (h' : Sat x s Q' E') :
    Sat x s (fun a t => Q a t ∧ Q' a t) (fun e t => E e t ∧ E' e t) := by
  unfold Sat at *
  cases hx : x s with
  | ok a t => rw [hx] at h h'; exact ⟨h, h'⟩
  | error e t => rw [hx] at h h'; exact ⟨h, h'⟩

/-- What a program that is seen to return has established. -/
theorem Sat.of_ok {a : α} {t : σ} (h : Sat x s Q E) (hx : x s = .ok a t) : Q a t := by
  unfold Sat at h
  rwa [hx] at h

/-- What a program that is seen to raise has established. -/
theorem Sat.of_error {e : ε} {t : σ} (h : Sat x s Q E) (hx : x s = .error e t) : E e t := by
  unfold Sat at h
  rwa [hx] at h

/-- A program that never raises returns. -/
theorem Sat.exists_ok (h : Sat x s Q fun _ _ => False) : ∃ a t, x s = .ok a t ∧ Q a t := by
  unfold Sat at h
  cases hx : x s with
  | ok a t => rw [hx] at h; exact ⟨a, t, rfl, h⟩
  | error e t => rw [hx] at h; exact h.elim

/-- A program that can only return `a` and leave `t` does so. -/
theorem Sat.eq_ok {a : α} {t : σ} (h : Sat x s (fun a' t' => a' = a ∧ t' = t) fun _ _ => False) :
    x s = .ok a t := by
  obtain ⟨a', t', hx, rfl, rfl⟩ := h.exists_ok
  exact hx

/-- A property of every final state is a property of `finalState`. -/
theorem Sat.finalState {P : σ → Prop} (h : Sat x s (fun _ => P) fun _ => P) :
    P (finalState x s) := by
  unfold StateExcept.finalState
  unfold Sat at h
  cases hx : x s <;> rw [hx] at h <;> exact h

end Rules

/-! ## Programs that move the state along a preorder -/

/-- Whatever its outcome, `x` moves the state along `R`. -/
def Moves (R : σ → σ → Prop) (x : EStateM ε σ α) : Prop :=
  ∀ s, Sat x s (fun _ t => R s t) fun _ t => R s t

section Moves

variable {R : σ → σ → Prop}

theorem moves_pure (hrefl : ∀ s, R s s) (a : α) : Moves R (pure a : EStateM ε σ α) :=
  fun s => hrefl s

theorem moves_throw (hrefl : ∀ s, R s s) (e : ε) : Moves R (throw e : EStateM ε σ α) :=
  fun s => hrefl s

theorem moves_get (hrefl : ∀ s, R s s) : Moves R (get : EStateM ε σ σ) := fun s => hrefl s

theorem moves_modify {g : σ → σ} (h : ∀ s, R s (g s)) :
    Moves R (modify g : EStateM ε σ PUnit) := fun s => h s

theorem Moves.mono {R' : σ → σ → Prop} {x : EStateM ε σ α} (h : Moves R x)
    (hR : ∀ s t, R s t → R' s t) : Moves R' x :=
  fun s => (h s).mono (fun _ t => hR s t) fun _ t => hR s t

theorem Moves.bind (htrans : ∀ s t u, R s t → R t u → R s u)
    {x : EStateM ε σ α} {f : α → EStateM ε σ β} (hx : Moves R x) (hf : ∀ a, Moves R (f a)) :
    Moves R (x >>= f) := by
  intro s
  rw [sat_bind]
  refine (hx s).mono (fun a t hst => ?_) fun _ _ hst => hst
  exact (hf a t).mono (fun _ u htu => htrans s t u hst htu) fun _ u htu => htrans s t u hst htu

end Moves

/-! ## Programs that ignore part of the state -/

/-- `f` on the state a program ends in. -/
def mapState (f : σ → σ) : EStateM.Result ε σ α → EStateM.Result ε σ α
  | .ok a t => .ok a (f t)
  | .error e t => .error e (f t)

/-- `x` does the same whether `f` comes before it or after. -/
def Ignores (f : σ → σ) (x : EStateM ε σ α) : Prop := ∀ s, x (f s) = mapState f (x s)

section Ignores

variable {f : σ → σ}

theorem ignores_pure (a : α) : Ignores f (pure a : EStateM ε σ α) := fun _ => rfl

theorem ignores_throw (e : ε) : Ignores f (throw e : EStateM ε σ α) := fun _ => rfl

theorem ignores_modify {g : σ → σ} (h : ∀ s, g (f s) = f (g s)) :
    Ignores f (modify g : EStateM ε σ PUnit) := by
  intro s
  show EStateM.Result.ok _ (g (f s)) = EStateM.Result.ok _ (f (g s))
  rw [h]

theorem Ignores.bind {x : EStateM ε σ α} {k : α → EStateM ε σ β} (hx : Ignores f x)
    (hk : ∀ a, Ignores f (k a)) : Ignores f (x >>= k) := by
  intro s
  show EStateM.bind x k (f s) = mapState f (EStateM.bind x k s)
  unfold EStateM.bind
  rw [hx s]
  cases x s with
  | ok a t => exact hk a t
  | error e t => rfl

/-- What is read of the state must not be what `f` changes. -/
theorem ignores_get_bind {k : σ → EStateM ε σ β} (hread : ∀ s, k (f s) = k s)
    (hk : ∀ s, Ignores f (k s)) : Ignores f (get >>= k) := by
  intro s
  show k (f s) (f s) = mapState f (k s s)
  rw [hread]
  exact hk s s

end Ignores

end StateExcept
