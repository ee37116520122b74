/-
# Numbers side by side in one number

A list of numbers below `2 ^ w` packed into one, `w` bits a lane.  An operation on the
whole is the operation in every lane where nothing leaves its lane, and a mask drops what
comes in from the next (`mask_eq`).
-/
import Mathlib.Algebra.BigOperators.Ring.List
import Mathlib.Data.Int.Bitwise
import Mathlib.Data.List.GetD
import Mathlib.Data.Nat.Bitwise
import Mathlib.Data.Nat.Factorization.Basic
import Mathlib.Tactic.Ring

namespace Lanes

/-- The numbers of a list, `w` bits each, the first lowest. -/
def pack (w : ℕ) : List ℕ → ℕ
  | [] => 0
  | x :: xs => x + 2 ^ w * pack w xs

/-- One in every lane. -/
def ones (w n : ℕ) : ℕ := pack w (List.replicate n 1)

variable {w n m k i b c x : ℕ} {xs ys : List ℕ}

/-! ## Arithmetic -/

theorem pack_mul (w c : ℕ) (xs : List ℕ) : pack w xs * c = pack w (xs.map (· * c)) := by
  induction xs with
  | nil => exact Nat.zero_mul c
  | cons x xs ih =>
    rw [List.map_cons, pack, pack, ← ih, Nat.add_mul, Nat.mul_assoc]

theorem mul_ones (w n c : ℕ) : c * ones w n = pack w (List.replicate n c) := by
  unfold ones
  rw [Nat.mul_comm, pack_mul, List.map_replicate, Nat.one_mul]

theorem pack_add_ones (w c : ℕ) (xs : List ℕ) :
    pack w xs + c * ones w xs.length = pack w (xs.map (· + c)) := by
  rw [mul_ones]
  induction xs with
  | nil => rfl
  | cons x xs ih =>
    rw [List.map_cons, List.length_cons, List.replicate_succ, pack, pack, pack, ← ih,
      Nat.mul_add]
    omega

theorem pack_shiftLeft (w k : ℕ) (xs : List ℕ) :
    pack w xs <<< k = pack w (xs.map (· <<< k)) := by
  rw [Nat.shiftLeft_eq, pack_mul]
  simp only [Nat.shiftLeft_eq]

/-- A sum of shifted numbers is their pack. -/
theorem sum_shiftLeft (w n : ℕ) (f : ℕ → ℕ) :
    ((List.range n).map fun i => f i <<< (w * i)).sum = pack w ((List.range n).map f) := by
  induction n generalizing f with
  | zero => rfl
  | succ n ih =>
    have hshift : ∀ l : List ℕ, (l.map fun i => f (i + 1) <<< (w * (i + 1))).sum =
        2 ^ w * (l.map fun i => f (i + 1) <<< (w * i)).sum := by
      intro l
      rw [← List.sum_map_mul_left]
      congr 2
      funext i
      rw [Nat.shiftLeft_eq, Nat.shiftLeft_eq, Nat.mul_add, Nat.mul_one, Nat.pow_add]
      ring
    rw [List.range_succ_eq_map, List.map_cons, List.map_cons, List.map_map, List.map_map,
      List.sum_cons, pack, ← ih, Nat.mul_zero, Nat.shiftLeft_zero]
    exact congrArg (f 0 + ·) (hshift (List.range n))

theorem pack_lt (h : ∀ x ∈ xs, x < 2 ^ w) : pack w xs < 2 ^ (w * xs.length) := by
  induction xs with
  | nil => exact Nat.one_pos
  | cons x xs ih =>
    obtain ⟨hx, hxs⟩ := List.forall_mem_cons.mp h
    have hrest := ih hxs
    rw [pack, List.length_cons, Nat.mul_add, Nat.mul_one, Nat.pow_add, Nat.mul_comm]
    calc x + pack w xs * 2 ^ w < (pack w xs + 1) * 2 ^ w := by
          rw [Nat.add_mul, Nat.one_mul]
          omega
      _ ≤ 2 ^ (w * xs.length) * 2 ^ w := Nat.mul_le_mul_right _ hrest

/-! ## Bits -/

/-- **The bits of a lane are those of its number.** -/
theorem testBit_pack (h : ∀ x ∈ xs, x < 2 ^ w) (hb : b < w) :
    (pack w xs).testBit (w * i + b) = (xs.getD i 0).testBit b := by
  induction xs generalizing i with
  | nil => rw [pack, List.getD_nil, Nat.zero_testBit, Nat.zero_testBit]
  | cons x xs ih =>
    obtain ⟨hx, hxs⟩ := List.forall_mem_cons.mp h
    rw [pack, Nat.add_comm, Nat.testBit_two_pow_mul_add _ hx]
    cases i with
    | zero =>
      rw [Nat.mul_zero, Nat.zero_add, if_pos hb, List.getD_cons_zero]
    | succ i =>
      rw [if_neg (by rw [Nat.mul_add]; omega), List.getD_cons_succ, ← ih hxs]
      congr 1
      rw [Nat.mul_add]
      omega

theorem getD_lt (h : ∀ x ∈ xs, x < 2 ^ w) : xs.getD i 0 < 2 ^ w := by
  by_cases hi : i < xs.length
  · rw [List.getD_eq_getElem _ _ hi]
    exact h _ (List.getElem_mem hi)
  · rw [List.getD_eq_default _ _ (Nat.not_lt.mp hi)]
    exact Nat.two_pow_pos w

/-- A number with the bits of a pack is the pack. -/
theorem eq_pack (hw : 0 < w) (h : ∀ x ∈ xs, x < 2 ^ w)
    (hbits : ∀ i b, b < w → x.testBit (w * i + b) = (xs.getD i 0).testBit b) :
    x = pack w xs := by
  refine Nat.eq_of_testBit_eq fun p => ?_
  have hb := Nat.mod_lt p hw
  rw [← Nat.div_add_mod p w, hbits _ _ hb, testBit_pack h hb]

/-- A shift to the right leaves the low bits of each lane to it. -/
theorem testBit_shiftRight_pack (h : ∀ x ∈ xs, x < 2 ^ w) (hb : b + k < w) :
    (pack w xs >>> k).testBit (w * i + b) = (xs.getD i 0 >>> k).testBit b := by
  rw [Nat.testBit_shiftRight, Nat.testBit_shiftRight, Nat.add_comm k b, ← testBit_pack h hb]
  congr 1
  omega

theorem testBit_shiftLeft_pack (h : ∀ x ∈ xs, x <<< k < 2 ^ w) (hb : b < w) :
    (pack w xs <<< k).testBit (w * i + b) = (xs.getD i 0 <<< k).testBit b := by
  have hfit : ∀ x ∈ xs.map (· <<< k), x < 2 ^ w := by
    intro x hx
    obtain ⟨y, hy, rfl⟩ := List.mem_map.mp hx
    exact h y hy
  rw [pack_shiftLeft, testBit_pack hfit hb]
  congr 1
  rw [← Nat.zero_shiftLeft k, List.getD_map, Nat.zero_shiftLeft]

/-- **A mask of `m` bits a lane leaves the pack of what the lanes have there.** -/
theorem mask_eq (hw : 0 < w) (hm : m ≤ w) (h : ∀ x ∈ xs, x < 2 ^ m)
    (hbits : ∀ i < xs.length, ∀ b < m, x.testBit (w * i + b) = (xs.getD i 0).testBit b) :
    x &&& pack w (List.replicate xs.length (2 ^ m - 1)) = pack w xs := by
  have hpow : 2 ^ m ≤ 2 ^ w := Nat.pow_le_pow_right (by decide) hm
  have hwide : ∀ x ∈ xs, x < 2 ^ w := fun x hx => (h x hx).trans_le hpow
  have hmask : ∀ y ∈ List.replicate xs.length (2 ^ m - 1), y < 2 ^ w := by
    intro y hy
    rw [List.eq_of_mem_replicate hy]
    have hpos := Nat.two_pow_pos m
    omega
  refine eq_pack hw hwide fun i b hb => ?_
  rw [Nat.testBit_and, testBit_pack hmask hb]
  by_cases hi : i < xs.length
  · rw [List.getD_replicate _ hi, Nat.testBit_two_pow_sub_one]
    by_cases hbm : b < m
    · rw [hbits i hi b hbm, decide_eq_true hbm, Bool.and_true]
    · rw [decide_eq_false hbm, Bool.and_false]
      refine (Nat.testBit_lt_two_pow ((getD_lt h).trans_le ?_)).symm
      exact Nat.pow_le_pow_right (by decide) (Nat.not_lt.mp hbm)
  · rw [List.getD_eq_default _ _ (by rw [List.length_replicate]; omega),
      List.getD_eq_default _ _ (by omega), Nat.zero_testBit, Bool.and_false]

/-- An operation bit by bit is that operation lane by lane. -/
theorem xor_pack_replicate (hw : 0 < w) (h : ∀ x ∈ xs, x < 2 ^ w) (hc : c < 2 ^ w) :
    pack w xs ^^^ pack w (List.replicate xs.length c) = pack w (xs.map (· ^^^ c)) := by
  have hconst : ∀ y ∈ List.replicate xs.length c, y < 2 ^ w := fun y hy => by
    rw [List.eq_of_mem_replicate hy]
    exact hc
  refine eq_pack hw ?_ fun i b hb => ?_
  · intro y hy
    obtain ⟨x, hx, rfl⟩ := List.mem_map.mp hy
    exact Nat.xor_lt_two_pow (h x hx) hc
  · rw [Nat.testBit_xor, testBit_pack h hb, testBit_pack hconst hb, ← Nat.testBit_xor]
    congr 1
    by_cases hi : i < xs.length
    · rw [List.getD_replicate _ hi, List.getD_eq_getElem _ _ hi,
        List.getD_eq_getElem _ _ (by rw [List.length_map]; exact hi), List.getElem_map]
    · rw [List.getD_eq_default _ _ (by omega), List.getD_eq_default _ _ (by simp; omega),
        List.getD_eq_default _ _ (by simp; omega), Nat.xor_self]

end Lanes

/-!
# The lowest bit of a number

`s & -s` is the lowest bit that is set in `s`, the negative number read as two's complement
without an end.  Taking it away leaves the other bits, so a loop that does it sees each bit
once.
-/

namespace LowestBit

theorem testBit_land_natCast (x : ℕ) (k : ℤ) (j : ℕ) :
    (Int.land x k).toNat.testBit j = (x.testBit j && k.testBit j) := by
  have hland := Int.testBit_land x k j
  obtain ⟨y, hy⟩ : ∃ y : ℕ, Int.land x k = y := by
    cases k with
    | ofNat n => exact ⟨_, rfl⟩
    | negSucc n => exact ⟨_, rfl⟩
  rw [hy] at hland ⊢
  exact hland

/-- `s & -s`. -/
def lowBit (s : ℕ) : ℕ := (Int.land s (-(s : ℤ))).toNat

theorem testBit_neg_succ (n j : ℕ) : (-((n + 1 : ℕ) : ℤ)).testBit j = !n.testBit j := rfl

theorem lowBit_pow_mul_odd (k q : ℕ) : lowBit (2 ^ k * (2 * q + 1)) = 2 ^ k := by
  have hpos := Nat.two_pow_pos k
  -- one below, every bit under the lowest is set and the lowest is not
  have hpred : 2 ^ k * (2 * q + 1) = 2 ^ k * (2 * q) + (2 ^ k - 1) + 1 := by
    rw [Nat.mul_add, Nat.mul_one]
    omega
  refine Nat.eq_of_testBit_eq fun j => ?_
  rw [lowBit, testBit_land_natCast, Nat.testBit_two_pow, Nat.testBit_two_pow_mul]
  rw [hpred, testBit_neg_succ, Nat.testBit_two_pow_mul_add _ (by omega)]
  rcases lt_trichotomy j k with hj | rfl | hj
  · rw [decide_eq_false (by omega), Bool.false_and, Bool.false_and, decide_eq_false (by omega)]
  · simp
  · have hbit : j - k = (j - k - 1) + 1 := by omega
    have hhalf : (2 * q + 1) / 2 = q := by omega
    have hne : k ≠ j := hj.ne
    rw [if_neg (by omega), hbit, Nat.testBit_succ, Nat.testBit_succ, hhalf,
      Nat.mul_div_cancel_left _ (by decide), decide_eq_false hne]
    cases q.testBit (j - k - 1) <;> simp

/-- The lowest bit is a bit of the number, and taking it away leaves a smaller number. -/
theorem lowBit_spec {s : ℕ} (hs : 0 < s) :
    ∃ k, lowBit s = 2 ^ k ∧ s.testBit k = true ∧ s ^^^ lowBit s < s := by
  obtain ⟨k, m, ⟨q, rfl⟩, rfl⟩ := Nat.exists_eq_two_pow_mul_odd hs.ne'
  have hlow := lowBit_pow_mul_odd k q
  have hset : (2 ^ k * (2 * q + 1)).testBit k = true := by
    rw [Nat.testBit_two_pow_mul, Nat.sub_self, Nat.testBit_zero]
    simp
  refine ⟨k, hlow, hset, Nat.lt_of_testBit k ?_ hset fun j hj => ?_⟩
  · rw [hlow, Nat.testBit_xor, hset, Nat.testBit_two_pow_self]
    rfl
  · rw [hlow, Nat.testBit_xor, Nat.testBit_two_pow, decide_eq_false (by omega), Bool.xor_false]

theorem xor_lowBit_lt {s : ℕ} (hs : s ≠ 0) : s ^^^ lowBit s < s := by
  obtain ⟨-, -, -, hlt⟩ := lowBit_spec (Nat.pos_of_ne_zero hs)
  exact hlt

end LowestBit
