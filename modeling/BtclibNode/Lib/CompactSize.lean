/-
# Octets at a position, and CompactSizes

What stands at a position of a list of octets (`At`), and the CompactSize, a count
of one, three, five or nine octets that has one encoding only.  A loop that reads one
record a turn (`Reads`) reads a sequence of records (`Reads.walk_iff`).
-/
import Mathlib
import BtclibNode.Lib.LittleEndian

namespace Octets

universe u

variable {α : Type u} {raw s t : List α} {i j n : ℕ} {a : α}

/-- `s` stands at position `i` of `raw`. -/
structure At (raw : List α) (i : ℕ) (s : List α) : Prop where
  le_length : i + s.length ≤ raw.length
  isPrefix : s <+: raw.drop i

/-- `raw[i:j]`. -/
def slice (raw : List α) (i j : ℕ) : List α := (raw.drop i).take (j - i)

theorem at_nil (h : i ≤ raw.length) : At raw i [] := ⟨h, List.nil_prefix⟩

theorem at_append : At raw i (s ++ t) ↔ At raw i s ∧ At raw (i + s.length) t := by
  constructor
  · rintro ⟨hle, r, hr⟩
    rw [List.length_append] at hle
    rw [List.append_assoc] at hr
    refine ⟨⟨by omega, t ++ r, hr⟩, by omega, r, ?_⟩
    rw [← List.drop_drop, ← hr, List.drop_left]
  · rintro ⟨⟨-, r, hr⟩, hle, r', hr'⟩
    refine ⟨by rw [List.length_append]; omega, r', ?_⟩
    rw [← List.drop_drop, ← hr, List.drop_left] at hr'
    rw [List.append_assoc, hr', hr]

theorem at_cons : At raw i (a :: s) ↔ raw[i]? = some a ∧ At raw (i + 1) s := by
  rw [← List.singleton_append, at_append, List.length_singleton]
  refine and_congr_left fun hs => ?_
  rw [← List.head?_drop, ← List.singleton_prefix_iff_head?_eq_some]
  refine ⟨At.isPrefix, fun h => ⟨?_, h⟩⟩
  have hle := hs.le_length
  rw [List.length_singleton]
  omega

theorem slice_of_at (h : At raw i s) : slice raw i (i + s.length) = s := by
  unfold slice
  rw [Nat.add_sub_cancel_left]
  exact (List.prefix_iff_eq_take.mp h.isPrefix).symm

theorem length_slice (hij : i ≤ j) (hj : j ≤ raw.length) : (slice raw i j).length = j - i := by
  unfold slice
  rw [List.length_take, List.length_drop]
  omega

theorem length_slice_add (h : i + n ≤ raw.length) : (slice raw i (i + n)).length = n := by
  rw [length_slice (Nat.le_add_right _ _) h, Nat.add_sub_cancel_left]

theorem at_slice (hij : i ≤ j) (hj : j ≤ raw.length) : At raw i (slice raw i j) := by
  refine ⟨?_, List.take_prefix _ _⟩
  rw [length_slice hij hj]
  omega

theorem slice_append (hij : i ≤ j) {k : ℕ} (hjk : j ≤ k) :
    slice raw i j ++ slice raw j k = slice raw i k := by
  unfold slice
  obtain ⟨m, rfl⟩ := Nat.exists_eq_add_of_le hij
  obtain ⟨l, rfl⟩ := Nat.exists_eq_add_of_le hjk
  rw [show i + m - i = m by omega, show i + m + l - (i + m) = l by omega,
    show i + m + l - i = m + l by omega, List.take_add, List.drop_drop]

/-- What stands at the start and covers everything is everything. -/
theorem At.eq_all (h : At raw 0 s) (hlen : s.length = raw.length) : raw = s := by
  have := slice_of_at h
  rw [Nat.zero_add, hlen] at this
  rw [← this, slice, List.drop_zero, Nat.sub_zero, List.take_length]

theorem slice_to_end : slice raw i raw.length = raw.drop i := by
  unfold slice
  rw [← List.length_drop, List.take_length]

theorem at_self (raw : List α) : At raw 0 raw := ⟨by omega, List.prefix_rfl⟩

/-! ## A counted sequence of records -/

/-- `n` turns of a walk. -/
def walk {σ ε : Type u} (step : σ → Except ε σ) : ℕ → σ → Except ε σ
  | 0, w => .ok w
  | n + 1, w => (step w).bind (walk step n)

/-- Each turn of a walk reads one record where it stands, and moves behind it. -/
structure Reads {σ ε β : Type u} (raw : List α) (step : σ → Except ε σ) (pos : σ → ℕ)
    (record : β → List α) (next : σ → β → σ) (valid : β → Prop) : Prop where
  advances : ∀ w w', step w = .ok w' → pos w ≤ pos w'
  pos_next : ∀ w x, pos (next w x) = pos w + (record x).length
  reads : ∀ w w', step w = .ok w' ∧ pos w' ≤ raw.length ↔
    ∃ x, valid x ∧ At raw (pos w) (record x) ∧ w' = next w x

section Reads

variable {σ ε β : Type u} {step : σ → Except ε σ} {pos : σ → ℕ} {record : β → List α}
  {next : σ → β → σ} {valid : β → Prop} {w w' : σ}

theorem Reads.walk_advances (h : Reads raw step pos record next valid)
    (hw : walk step n w = .ok w') : pos w ≤ pos w' := by
  induction n generalizing w with
  | zero =>
    cases hw
    exact Nat.le_refl _
  | succ n ih =>
    rw [walk] at hw
    cases hstep : step w with
    | error e =>
      rw [hstep] at hw
      cases hw
    | ok v =>
      rw [hstep] at hw
      exact (h.advances w v hstep).trans (ih hw)

theorem Reads.pos_foldl (h : Reads raw step pos record next valid) (xs : List β) (w : σ) :
    pos (xs.foldl next w) = pos w + (xs.flatMap record).length := by
  induction xs generalizing w with
  | nil => rfl
  | cons x xs ih =>
    rw [List.foldl_cons, ih, h.pos_next, List.flatMap_cons, List.length_append]
    omega

/-- **A walk that ends within the octets has read a sequence of records**, and one over a
sequence of records reads it. -/
theorem Reads.walk_iff (h : Reads raw step pos record next valid) (hw : pos w ≤ raw.length) :
    walk step n w = .ok w' ∧ pos w' ≤ raw.length ↔
      ∃ xs : List β, xs.length = n ∧ (∀ x ∈ xs, valid x) ∧
        At raw (pos w) (xs.flatMap record) ∧ w' = xs.foldl next w := by
  induction n generalizing w with
  | zero =>
    constructor
    · rintro ⟨heq, -⟩
      cases heq
      exact ⟨[], rfl, by simp, at_nil hw, rfl⟩
    · rintro ⟨xs, hlen, -, -, rfl⟩
      rw [List.length_eq_zero_iff] at hlen
      subst hlen
      exact ⟨rfl, hw⟩
  | succ n ih =>
    constructor
    · rintro ⟨heq, hend⟩
      rw [walk] at heq
      cases hstep : step w with
      | error e =>
        rw [hstep] at heq
        cases heq
      | ok v =>
        rw [hstep] at heq
        have hv : pos v ≤ raw.length := (h.walk_advances heq).trans hend
        obtain ⟨x, hx, hat, rfl⟩ := (h.reads w v).mp ⟨hstep, hv⟩
        obtain ⟨xs, hlen, hxs, hrest, rfl⟩ := (ih hv).mp ⟨heq, hend⟩
        refine ⟨x :: xs, by rw [List.length_cons, hlen], ?_, ?_, rfl⟩
        · exact List.forall_mem_cons.mpr ⟨hx, hxs⟩
        · rw [List.flatMap_cons, at_append, ← h.pos_next]
          exact ⟨hat, hrest⟩
    · rintro ⟨xs, hlen, hxs, hat, rfl⟩
      obtain ⟨x, xs, rfl⟩ := List.exists_cons_of_length_eq_add_one hlen
      obtain ⟨hx, hxs⟩ := List.forall_mem_cons.mp hxs
      rw [List.flatMap_cons, at_append, ← h.pos_next] at hat
      obtain ⟨hstep, hv⟩ := (h.reads w (next w x)).mpr ⟨x, hx, hat.1, rfl⟩
      rw [walk, hstep]
      refine (ih hv).mpr ⟨xs, ?_, hxs, hat.2, rfl⟩
      rw [List.length_cons] at hlen
      omega

end Reads

end Octets

namespace CompactSize

open Octets

/-- The octets behind a first octet and the least number they may carry. -/
def wide (first : UInt8) : Option (ℕ × ℕ) :=
  if first = 0xFD then some (2, 0xFD)
  else if first = 0xFE then some (4, 0x10000)
  else if first = 0xFF then some (8, 0x100000000)
  else none

/-- The canonical encoding. -/
def encode (n : ℕ) : List UInt8 :=
  if n < 0xFD then [UInt8.ofNat n]
  else if n < 0x10000 then 0xFD :: LittleEndian.encode 2 n
  else if n < 0x100000000 then 0xFE :: LittleEndian.encode 4 n
  else 0xFF :: LittleEndian.encode 8 n

/-- The number at a position and where it ends, where its encoding is complete and
canonical. -/
def read? (raw : List UInt8) (i : ℕ) : Option (ℕ × ℕ) :=
  raw[i]?.bind fun first =>
    match wide first with
    | none => some (first.toNat, i + 1)
    | some (size, least) =>
      let value := LittleEndian.decode (slice raw (i + 1) (i + 1 + size))
      if i + 1 + size ≤ raw.length ∧ least ≤ value then some (value, i + 1 + size) else none

variable {raw : List UInt8} {i j n size least : ℕ} {first : UInt8}

theorem wide_eq_none_iff : wide first = none ↔ first.toNat < 0xFD := by
  unfold wide
  have hlt := first.toNat_lt
  simp only [← UInt8.toNat_inj]
  constructor
  · intro h
    split_ifs at h with h1 h2 h3
    simp only [UInt8.reduceToNat] at h1 h2 h3
    omega
  · intro h
    rw [if_neg, if_neg, if_neg] <;> simp only [UInt8.reduceToNat] <;> omega

theorem encode_of_small (hn : n < 0xFD) : encode n = [UInt8.ofNat n] := if_pos hn

/-- The encoding of more than one octet. -/
theorem encode_of_wide (hwide : wide first = some (size, least)) (hle : least ≤ n)
    (hlt : n < 256 ^ size) : encode n = first :: LittleEndian.encode size n := by
  unfold wide at hwide
  unfold encode
  split_ifs at hwide with h1 h2 h3 <;> cases hwide
  · rw [if_neg (by omega), if_pos (by omega), h1]
  · rw [if_neg (by omega), if_neg (by omega), if_pos (by omega), h2]
  · rw [if_neg (by omega), if_neg (by omega), if_neg (by omega), h3]

theorem exists_wide (hn : n < 2 ^ 64) (hbig : 0xFD ≤ n) :
    ∃ first size least, wide first = some (size, least) ∧ least ≤ n ∧ n < 256 ^ size := by
  by_cases h2 : n < 0x10000
  · exact ⟨0xFD, 2, 0xFD, rfl, hbig, h2⟩
  · by_cases h4 : n < 0x100000000
    · exact ⟨0xFE, 4, 0x10000, rfl, by omega, h4⟩
    · exact ⟨0xFF, 8, 0x100000000, rfl, by omega, hn⟩

theorem encode_ne_nil (n : ℕ) : encode n ≠ [] := by
  unfold encode
  split_ifs <;> exact List.cons_ne_nil _ _

theorem length_encode_pos (n : ℕ) : 0 < (encode n).length :=
  List.length_pos_iff.mpr (encode_ne_nil n)

/-- **What is read is what stands there.** -/
theorem read?_eq_some_iff :
    read? raw i = some (n, j) ↔
      n < 2 ^ 64 ∧ At raw i (encode n) ∧ j = i + (encode n).length := by
  unfold read?
  rw [Option.bind_eq_some_iff]
  constructor
  · rintro ⟨first, hfirst, h⟩
    split at h
    · next hnone =>
      have hsmall := wide_eq_none_iff.mp hnone
      cases h
      rw [encode_of_small hsmall, UInt8.ofNat_toNat]
      have hi := (List.getElem?_eq_some_iff.mp hfirst).1
      exact ⟨by omega, at_cons.mpr ⟨hfirst, at_nil hi⟩, rfl⟩
    · next size least hwide =>
      dsimp only at h
      split_ifs at h with hok
      cases h
      obtain ⟨hend, hle⟩ := hok
      -- the octets behind the first are those of the number
      have hlen : (slice raw (i + 1) (i + 1 + size)).length = size := by
        rw [length_slice (by omega) hend]
        omega
      have hlt := LittleEndian.decode_lt (slice raw (i + 1) (i + 1 + size))
      have hback := LittleEndian.encode_decode (slice raw (i + 1) (i + 1 + size))
      rw [hlen] at hlt hback
      rw [encode_of_wide hwide hle hlt, List.length_cons, LittleEndian.length_encode, hback]
      refine ⟨hlt.trans_le ?_, at_cons.mpr ⟨hfirst, at_slice (by omega) hend⟩, by omega⟩
      unfold wide at hwide
      split_ifs at hwide <;> cases hwide <;> decide
  · rintro ⟨hn, hat, rfl⟩
    by_cases hsmall : n < 0xFD
    · rw [encode_of_small hsmall] at hat ⊢
      have hto : (UInt8.ofNat n).toNat = n := by
        rw [UInt8.toNat_ofNat']
        omega
      have hnone : wide (UInt8.ofNat n) = none := wide_eq_none_iff.mpr (by rw [hto]; exact hsmall)
      refine ⟨_, (at_cons.mp hat).1, ?_⟩
      simp only [hnone, hto, List.length_singleton]
    · obtain ⟨first, size, least, hwide, hle, hlt⟩ := exists_wide hn (by omega)
      have hend := hat.le_length
      rw [encode_of_wide hwide hle hlt] at hat hend ⊢
      obtain ⟨hfirst, htail⟩ := at_cons.mp hat
      have hslice := slice_of_at htail
      rw [LittleEndian.length_encode] at hslice
      rw [List.length_cons, LittleEndian.length_encode] at hend
      refine ⟨first, hfirst, ?_⟩
      simp only [hwide, hslice, LittleEndian.decode_encode hlt]
      rw [if_pos ⟨by omega, hle⟩, List.length_cons, LittleEndian.length_encode]
      congr 2
      omega

/-- No encoding is the beginning of another. -/
theorem encode_append_inj {n n' : ℕ} {r r' : List UInt8} (hn : n < 2 ^ 64) (hn' : n' < 2 ^ 64)
    (h : encode n ++ r = encode n' ++ r') : n = n' ∧ r = r' := by
  have hread : ∀ {k : ℕ} (s : List UInt8), k < 2 ^ 64 →
      read? (encode k ++ s) 0 = some (k, 0 + (encode k).length) := fun s hk =>
    read?_eq_some_iff.mpr ⟨hk, (at_append.mp (at_self _)).1, rfl⟩
  have hsome := (hread r hn).symm.trans (h ▸ hread r' hn')
  obtain ⟨rfl, -⟩ := Prod.mk.inj (Option.some.inj hsome)
  exact ⟨rfl, List.append_cancel_left h⟩

/-- The first octet is zero for zero only. -/
theorem eq_zero_of_encode {a : UInt8} {tail : List UInt8} (h : encode n = a :: tail)
    (ha : a = 0) : n = 0 := by
  unfold encode at h
  split_ifs at h with h1 h2 h3
  · have hto := congrArg UInt8.toNat ((List.cons.inj h).1.trans ha)
    rw [UInt8.toNat_ofNat'] at hto
    have hzero : n % 256 = 0 := hto
    omega
  all_goals
    have hne := (List.cons.inj h).1.trans ha
    exact absurd hne (by decide)

end CompactSize
