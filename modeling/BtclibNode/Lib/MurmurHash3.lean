/-
# MurmurHash3 of 32 bits

One run of the hash, in arithmetic of 32 bits: the blocks of four octets, the tail of up to
three, and the final mix.
-/
import Mathlib
import BtclibNode.Lib.LittleEndian

namespace MurmurHash3

def c1 : UInt32 := 0xCC9E2D51
def c2 : UInt32 := 0x1B873593

/-- Rotated to the left. -/
def rotl (x r : UInt32) : UInt32 := (x <<< r) ||| (x >>> (32 - r))

/-- What a block or the tail brings to the state. -/
def mixK (k : UInt32) : UInt32 := rotl (k * c1) 15 * c2

/-- The state after a block. -/
def block (h k : UInt32) : UInt32 := rotl (h ^^^ mixK k) 13 * 5 + 0xE6546B64

/-- Four octets, the lowest first. -/
def word (a b c d : UInt8) : UInt32 :=
  a.toUInt32 ||| (b.toUInt32 <<< 8) ||| (c.toUInt32 <<< 16) ||| (d.toUInt32 <<< 24)

/-- The state after the blocks and the tail of a key. -/
def body : UInt32 → List UInt8 → UInt32
  | h, [] => h
  | h, [a] => h ^^^ mixK a.toUInt32
  | h, [a, b] => h ^^^ mixK ((b.toUInt32 <<< 8) ^^^ a.toUInt32)
  | h, [a, b, c] => h ^^^ mixK ((c.toUInt32 <<< 16) ^^^ (b.toUInt32 <<< 8) ^^^ a.toUInt32)
  | h, a :: b :: c :: d :: key => body (block h (word a b c d)) key

/-- The final mix. -/
def finalize (h : UInt32) : UInt32 :=
  let h := h ^^^ (h >>> 16)
  let h := h * 0x85EBCA6B
  let h := h ^^^ (h >>> 13)
  let h := h * 0xC2B2AE35
  h ^^^ (h >>> 16)

/-- The hash of a key under a seed. -/
def hash (seed : UInt32) (key : List UInt8) : UInt32 :=
  finalize (body seed key ^^^ UInt32.ofNat key.length)

example : hash 0 [0x21, 0x43, 0x65] = 0x7E4A8634 := by decide

/-! ## Octets in a word -/

theorem shiftLeft_xor_of_lt {x y i : ℕ} (h : y < 2 ^ i) : (x <<< i) ^^^ y = y + x <<< i := by
  rw [Nat.add_comm, Nat.shiftLeft_add_eq_or_of_lt h]
  refine Nat.eq_of_testBit_eq fun j => ?_
  rw [Nat.testBit_xor, Nat.testBit_or, Nat.testBit_shiftLeft]
  by_cases hj : i ≤ j
  · rw [Nat.testBit_lt_two_pow (Nat.lt_of_lt_of_le h (Nat.pow_le_pow_right (by decide) hj))]
    rw [Bool.xor_false, Bool.or_false]
  · rw [decide_eq_false hj, Bool.false_and, Bool.false_xor, Bool.false_or]

theorem toNat_octet (a : UInt8) : a.toUInt32.toNat = a.toNat := UInt8.toNat_toUInt32 a

theorem toNat_octet_shiftLeft (a : UInt8) {r : UInt32} (hr : r.toNat ≤ 24) :
    (a.toUInt32 <<< r).toNat = a.toNat <<< r.toNat := by
  rw [UInt32.toNat_shiftLeft, toNat_octet, Nat.mod_eq_of_lt (show r.toNat < 32 by omega)]
  refine Nat.mod_eq_of_lt ?_
  rw [Nat.shiftLeft_eq]
  calc a.toNat * 2 ^ r.toNat < 2 ^ 8 * 2 ^ r.toNat :=
        Nat.mul_lt_mul_of_pos_right a.toNat_lt (Nat.two_pow_pos _)
    _ ≤ 2 ^ 8 * 2 ^ 24 := Nat.mul_le_mul_left _ (Nat.pow_le_pow_right (by decide) hr)

theorem tail_one (a : UInt8) : UInt32.ofNat (LittleEndian.decode [a]) = a.toUInt32 := by
  rw [← UInt32.toNat_inj, toNat_octet, UInt32.toNat_ofNat']
  have ha := a.toNat_lt
  simp only [LittleEndian.decode]
  omega

theorem tail_two (a b : UInt8) :
    UInt32.ofNat (LittleEndian.decode [a, b]) = (b.toUInt32 <<< 8) ^^^ a.toUInt32 := by
  have ha := a.toNat_lt
  have hb := b.toNat_lt
  rw [← UInt32.toNat_inj, UInt32.toNat_xor, toNat_octet_shiftLeft b (by decide), toNat_octet,
    shiftLeft_xor_of_lt (show a.toNat < 2 ^ (8 : UInt32).toNat from ha), UInt32.toNat_ofNat']
  simp only [LittleEndian.decode, Nat.shiftLeft_eq, UInt32.reduceToNat]
  omega

theorem tail_three (a b c : UInt8) :
    UInt32.ofNat (LittleEndian.decode [a, b, c]) =
      (c.toUInt32 <<< 16) ^^^ (b.toUInt32 <<< 8) ^^^ a.toUInt32 := by
  have ha := a.toNat_lt
  have hb := b.toNat_lt
  have hc := c.toNat_lt
  have hlow : a.toNat + b.toNat <<< (8 : UInt32).toNat < 2 ^ (16 : UInt32).toNat := by
    simp only [Nat.shiftLeft_eq, UInt32.reduceToNat]
    omega
  rw [UInt32.xor_assoc, ← UInt32.toNat_inj, UInt32.toNat_xor, UInt32.toNat_xor,
    toNat_octet_shiftLeft c (by decide), toNat_octet_shiftLeft b (by decide), toNat_octet,
    shiftLeft_xor_of_lt (show a.toNat < 2 ^ (8 : UInt32).toNat from ha),
    shiftLeft_xor_of_lt hlow, UInt32.toNat_ofNat']
  simp only [LittleEndian.decode, Nat.shiftLeft_eq, UInt32.reduceToNat]
  omega

theorem word_eq (a b c d : UInt8) :
    UInt32.ofNat (LittleEndian.decode [a, b, c, d]) = word a b c d := by
  have ha := a.toNat_lt
  have hb := b.toNat_lt
  have hc := c.toNat_lt
  have hd := d.toNat_lt
  unfold word
  rw [← UInt32.toNat_inj, UInt32.toNat_or, UInt32.toNat_or, UInt32.toNat_or,
    toNat_octet_shiftLeft d (by decide), toNat_octet_shiftLeft c (by decide),
    toNat_octet_shiftLeft b (by decide), toNat_octet, Nat.or_comm a.toNat,
    ← Nat.shiftLeft_add_eq_or_of_lt (show a.toNat < 2 ^ (8 : UInt32).toNat from ha),
    Nat.or_comm _ (c.toNat <<< _), ← Nat.shiftLeft_add_eq_or_of_lt, Nat.or_comm _ (d.toNat <<< _),
    ← Nat.shiftLeft_add_eq_or_of_lt, UInt32.toNat_ofNat']
  all_goals
    simp only [LittleEndian.decode, Nat.shiftLeft_eq, UInt32.reduceToNat]
    omega

end MurmurHash3
