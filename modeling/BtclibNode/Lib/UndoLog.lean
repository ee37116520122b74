/-
# Undo logs

Data whose every mutation pushes an entry on a log, and a `rollback` that pops
entries back to a mark, undoing each.  `Logged.Extends s t` says that `t` came
from `s` by logged mutations alone; it is a preorder, and rolling `t` back to
the length the log had at `s` gives `s` again (`Logged.Extends.rollback_eq`).
The newest entry is the head of the list.
-/
import Mathlib.Tactic.Common

universe u v

/-- Data with the log of what was done to it, newest entry first. -/
@[ext] structure Logged (σ : Type u) (ε : Type v) where
  data : σ
  log : List ε

namespace Logged

variable {σ : Type u} {ε : Type v} (undo : ε → σ → σ)

/-- Undo the entries of a list, the head first. -/
def undoAll (es : List ε) (d : σ) : σ := es.foldl (fun d e => undo e d) d

@[simp] theorem undoAll_nil (d : σ) : undoAll undo [] d = d := rfl

@[simp] theorem undoAll_cons (e : ε) (es : List ε) (d : σ) :
    undoAll undo (e :: es) d = undoAll undo es (undo e d) := rfl

theorem undoAll_append (es es' : List ε) (d : σ) :
    undoAll undo (es ++ es') d = undoAll undo es' (undoAll undo es d) := by
  unfold undoAll
  rw [List.foldl_append]

/-- The point in the log a later `rollback` can go back to. -/
def mark (s : Logged σ ε) : ℕ := s.log.length

/-- Pop entries while the log is longer than `m`, undoing each. -/
def rollbackFrom (m : ℕ) : List ε → σ → Logged σ ε
  | [], d => ⟨d, []⟩
  | e :: es, d => if m < (e :: es).length then rollbackFrom m es (undo e d) else ⟨d, e :: es⟩

/-- Undo every mutation logged since the mark `m`. -/
def rollback (m : ℕ) (s : Logged σ ε) : Logged σ ε := rollbackFrom undo m s.log s.data

theorem rollbackFrom_of_length_le {m : ℕ} {es : List ε} (h : es.length ≤ m) (d : σ) :
    rollbackFrom undo m es d = ⟨d, es⟩ := by
  cases es with
  | nil => rfl
  | cons e es => exact if_neg (by omega)

theorem rollbackFrom_append (es es' : List ε) (d : σ) :
    rollbackFrom undo es'.length (es ++ es') d = ⟨undoAll undo es d, es'⟩ := by
  induction es generalizing d with
  | nil => exact rollbackFrom_of_length_le undo (Nat.le_refl _) d
  | cons e es ih =>
    have hlt : es'.length < (e :: (es ++ es')).length := by
      rw [List.length_cons, List.length_append]
      omega
    rw [List.cons_append, rollbackFrom, if_pos hlt, ih]
    rfl

/-! ## Extension by logged mutations -/

/-- `t` is `s` after mutations whose entries undo it to `s` again. -/
def Extends (s t : Logged σ ε) : Prop :=
  ∃ es, t.log = es ++ s.log ∧ undoAll undo es t.data = s.data

theorem Extends.refl (s : Logged σ ε) : Extends undo s s := ⟨[], rfl, rfl⟩

variable {undo}

theorem Extends.trans {s t r : Logged σ ε} (hst : Extends undo s t) (htr : Extends undo t r) :
    Extends undo s r := by
  obtain ⟨es, hlog, hdata⟩ := hst
  obtain ⟨es', hlog', hdata'⟩ := htr
  refine ⟨es' ++ es, ?_, ?_⟩
  · rw [hlog', hlog, List.append_assoc]
  · rw [undoAll_append, hdata', hdata]

/-- One mutation, logged by an entry that undoes it. -/
theorem Extends.push {s : Logged σ ε} {e : ε} {d : σ} (h : undo e d = s.data) :
    Extends undo s ⟨d, e :: s.log⟩ := ⟨[e], rfl, h⟩

theorem Extends.mark_le {s t : Logged σ ε} (h : Extends undo s t) : s.mark ≤ t.mark := by
  obtain ⟨es, hlog, -⟩ := h
  unfold mark
  rw [hlog, List.length_append]
  omega

/-- **Rolling back to a mark restores the state the mark was read in.** -/
theorem Extends.rollback_eq {s t : Logged σ ε} (h : Extends undo s t) :
    rollback undo s.mark t = s := by
  obtain ⟨es, hlog, hdata⟩ := h
  unfold rollback mark
  rw [hlog, rollbackFrom_append, hdata]

end Logged
