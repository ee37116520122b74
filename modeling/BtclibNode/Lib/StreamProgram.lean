/-
# Programs that read a stream

A parser reads octets of a stream, may step back into what it has just read, and
returns or raises.  What it does on a plain string of octets is what it does on
any device that shows the same octets.
-/
import Mathlib.Data.Int.Notation
import BtclibNode.Lib.StateExcept

/-- A program that reads a stream and steps back in it.  A read of a negative size asks for
all there is; a step is from the current position. -/
inductive StreamProgram (ε α : Type)
  | pure (a : α)
  | raise (e : ε)
  | read (size : ℤ) (next : List UInt8 → StreamProgram ε α)
  | seek (offset : ℤ) (next : StreamProgram ε α)

namespace StreamProgram

open StateExcept

variable {ε σ α : Type}

/-- The program only reads. -/
def NoSeek : StreamProgram ε α → Prop
  | pure _ => True
  | raise _ => True
  | read _ next => ∀ octets, (next octets).NoSeek
  | seek _ _ => False

/-! ## Plain strings of octets -/

/-- What is left of a string of octets, and the last read that can be given back. -/
@[ext]
structure Plain where
  last : List UInt8
  rest : List UInt8

/-- A device: how it reads and how it steps. -/
structure Device (ε σ : Type) where
  read : ℤ → EStateM ε σ (List UInt8)
  seek : ℤ → EStateM ε σ Unit

/-- How many octets a read asks for, `limit` standing for all there is. -/
def amount (limit : ℕ) (size : ℤ) : ℕ := if size < 0 then limit else size.toNat

/-- A step goes back within the last read. -/
def StepsBack (last : List UInt8) (offset : ℤ) : Prop :=
  -(last.length : ℤ) ≤ offset ∧ offset < 0

instance (last : List UInt8) (offset : ℤ) : Decidable (StepsBack last offset) :=
  inferInstanceAs (Decidable (_ ∧ _))

/-- The string once `size` octets are read. -/
def Plain.read (limit : ℕ) (size : ℤ) (t : Plain) : Plain where
  last := t.rest.take (amount limit size)
  rest := t.rest.drop (amount limit size)

/-- The string once the end of the last read is given back. -/
def Plain.seek (offset : ℤ) (t : Plain) : Plain where
  last := t.last.take (t.last.length - offset.natAbs)
  rest := t.last.drop (t.last.length - offset.natAbs) ++ t.rest

/-- The program on a plain string: what it returns and what it leaves, unless it raises or
steps out of its last read. -/
def runPlain (limit : ℕ) : StreamProgram ε α → Plain → Option (α × Plain)
  | pure a, t => some (a, t)
  | raise _, _ => none
  | read size next, t =>
    (next (t.rest.take (amount limit size))).runPlain limit (t.read limit size)
  | seek offset next, t =>
    if StepsBack t.last offset then next.runPlain limit (t.seek offset) else none

/-- The program on a device. -/
def run (d : Device ε σ) : StreamProgram ε α → EStateM ε σ α
  | pure a => EStateM.pure a
  | raise e => EStateM.throw e
  | read size next => d.read size >>= fun octets => (next octets).run d
  | seek offset next => d.seek offset >>= fun _ => next.run d

section RunPlain

variable {limit : ℕ} {last rest : List UInt8}

/-- A read of as many octets as there are in front. -/
theorem runPlain_read {size : ℕ} {octets : List UInt8} (hsize : octets.length = size)
    (next : List UInt8 → StreamProgram ε α) :
    (read size next).runPlain limit ⟨last, octets ++ rest⟩ =
      (next octets).runPlain limit ⟨octets, rest⟩ := by
  have hamount : amount limit size = octets.length := by
    unfold amount
    rw [if_neg (by omega), Int.toNat_natCast, hsize]
  rw [runPlain, Plain.read, hamount, List.take_left' rfl, List.drop_left' rfl]

/-- A step back over the whole of the last read. -/
theorem runPlain_seek {size : ℕ} (hsize : last.length = size) (hpos : 0 < size)
    (next : StreamProgram ε α) :
    (seek (-size) next).runPlain limit ⟨last, rest⟩ = next.runPlain limit ⟨[], last ++ rest⟩ := by
  have hsteps : StepsBack last (-size) := by
    unfold StepsBack
    omega
  have hkept : last.length - (-(size : ℤ)).natAbs = 0 := by omega
  rw [runPlain, if_pos hsteps, Plain.seek, hkept]
  rfl

end RunPlain

/-! ## Devices that show a plain string -/

/-- In the states of `I` the device reads what `view` shows. -/
def ReadsPlain (d : Device ε σ) (limit : ℕ) (view : σ → Plain) (I : σ → Prop) : Prop :=
  ∀ size s, I s → Sat (d.read size) s
    (fun octets s' => octets = (view s).rest.take (amount limit size) ∧
      view s' = (view s).read limit size ∧ I s') fun _ _ => False

/-- In the states of `I` the device steps back as `view` does. -/
def SeeksPlain (d : Device ε σ) (view : σ → Plain) (I : σ → Prop) : Prop :=
  ∀ offset s, I s → StepsBack (view s).last offset → Sat (d.seek offset) s
    (fun _ s' => view s' = (view s).seek offset ∧ I s') fun _ _ => False

/-- **A program does on a device what it does on the string the device shows.** -/
theorem run_of_plain {d : Device ε σ} {limit : ℕ} {view : σ → Plain} {I : σ → Prop}
    (hread : ReadsPlain d limit view I) {p : StreamProgram ε α}
    (hseek : p.NoSeek ∨ SeeksPlain d view I) {s : σ} (hs : I s) {a : α} {t : Plain}
    (h : p.runPlain limit (view s) = some (a, t)) :
    Sat (p.run d) s (fun a' s' => a' = a ∧ view s' = t ∧ I s') fun _ _ => False := by
  induction p generalizing s with
  | pure a' =>
    cases h
    exact ⟨rfl, rfl, hs⟩
  | raise e => cases h
  | read size next ih =>
    show Sat (d.read size >>= fun octets => (next octets).run d) s _ _
    rw [sat_bind]
    apply (hread size s hs).mono
    · rintro octets s' ⟨rfl, hview, hs'⟩
      refine ih _ ?_ hs' (by rw [hview]; exact h)
      exact hseek.imp_left fun hno => hno _
    · exact fun _ _ hfalse => hfalse
  | seek offset next ih =>
    have hsteps : StepsBack (view s).last offset := by
      by_contra hnot
      rw [runPlain, if_neg hnot] at h
      cases h
    rw [runPlain, if_pos hsteps] at h
    have hseeks := hseek.resolve_left fun hno => hno
    show Sat (d.seek offset >>= fun _ => next.run d) s _ _
    rw [sat_bind]
    apply (hseeks offset s hs hsteps).mono
    · rintro - s' ⟨hview, hs'⟩
      exact ih (.inr hseeks) hs' (by rw [hview]; exact h)
    · exact fun _ _ hfalse => hfalse

end StreamProgram
