/-
# Little-endian numbers

A number in a given count of octets, the lowest first, and back.
-/
import Mathlib

namespace LittleEndian

/-- The low `width` octets of `n`, the lowest first. -/
def encode : ℕ → ℕ → List UInt8
  | 0, _ => []
  | width + 1, n => UInt8.ofNat n :: encode width (n / 256)

/-- The number whose octets are given, the lowest first. -/
def decode : List UInt8 → ℕ
  | [] => 0
  | b :: bs => b.toNat + 256 * decode bs

@[simp] theorem length_encode (width n : ℕ) : (encode width n).length = width := by
  induction width generalizing n with
  | zero => rfl
  | succ width ih => rw [encode, List.length_cons, ih]

theorem decode_encode {width n : ℕ} (h : n < 256 ^ width) : decode (encode width n) = n := by
  induction width generalizing n with
  | zero =>
    rw [Nat.pow_zero] at h
    rw [encode, decode]
    omega
  | succ width ih =>
    rw [Nat.pow_succ] at h
    rw [encode, decode, ih (by omega), UInt8.toNat_ofNat']
    omega

theorem encode_add (v w n : ℕ) : encode (v + w) n = encode v n ++ encode w (n / 256 ^ v) := by
  induction v generalizing n with
  | zero => rw [Nat.zero_add, encode, List.nil_append, Nat.pow_zero, Nat.div_one]
  | succ v ih =>
    rw [Nat.add_right_comm, encode, encode, ih, List.cons_append, Nat.div_div_eq_div_mul,
      Nat.pow_succ, Nat.mul_comm 256]

theorem decode_encode_mod (width n : ℕ) : decode (encode width n) = n % 256 ^ width := by
  induction width generalizing n with
  | zero => rw [Nat.pow_zero, Nat.mod_one, encode, decode]
  | succ width ih =>
    have hpow : 256 ^ (width + 1) = 256 * 256 ^ width := Nat.pow_succ'
    rw [encode, decode, ih, UInt8.toNat_ofNat', hpow, Nat.mod_mul]

theorem decode_append (as bs : List UInt8) :
    decode (as ++ bs) = decode as + 256 ^ as.length * decode bs := by
  induction as with
  | nil => rw [List.nil_append, decode, List.length_nil, Nat.pow_zero, Nat.one_mul, Nat.zero_add]
  | cons a as ih =>
    rw [List.cons_append, decode, decode, ih, List.length_cons, Nat.pow_succ', Nat.mul_add,
      Nat.mul_assoc, Nat.add_assoc]

theorem decode_lt (bs : List UInt8) : decode bs < 256 ^ bs.length := by
  induction bs with
  | nil => decide
  | cons b bs ih =>
    have hb : b.toNat < 256 := b.toNat_lt
    rw [decode, List.length_cons, Nat.pow_succ]
    omega

theorem decode_take_lt (bs : List UInt8) (width : ℕ) : decode (bs.take width) < 256 ^ width :=
  Nat.lt_of_lt_of_le (decode_lt _) (Nat.pow_le_pow_right (by decide) (List.length_take_le _ _))

theorem encode_decode (bs : List UInt8) : encode bs.length (decode bs) = bs := by
  induction bs with
  | nil => rfl
  | cons b bs ih =>
    have hb : b.toNat < 256 := b.toNat_lt
    have hlow : UInt8.ofNat (b.toNat + 256 * decode bs) = b := by
      apply UInt8.toNat_inj.mp
      rw [UInt8.toNat_ofNat']
      omega
    have hhigh : (b.toNat + 256 * decode bs) / 256 = decode bs := by omega
    rw [List.length_cons, decode, encode, hlow, hhigh, ih]

end LittleEndian
