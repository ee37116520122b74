/-
# The planes bit by bit

The wipe works on a plane as one integer, whose octets stand in the machine's order.  Bit
by bit it compares the entry of a position with the generation that begins (`entry_wipe`),
in either order.
-/
import BtclibNode.Bloom.RollingBloom
import BtclibNode.Lib.Lanes
import Mathlib.Tactic.IntervalCases

namespace BtclibNode.RollingBloom

open Lanes LowestBit

variable {order : ByteOrder} {xs : List ℕ} {n m i b : ℕ}

/-! ## A plane as one integer -/

/-- Where word `i` of `n` stands in the integer. -/
def place : ByteOrder → ℕ → ℕ → ℕ
  | .little, _, i => i
  | .big, n, i => n - 1 - i

theorem place_little (n i : ℕ) : place .little n i = i := rfl

theorem place_big (n i : ℕ) : place .big n i = n - 1 - i := rfl

/-- Words of 64 bits. -/
def Words (xs : List ℕ) : Prop := ∀ x ∈ xs, x < 2 ^ 64

theorem decode_flatMap_encode (h : Words xs) :
    LittleEndian.decode (xs.flatMap (LittleEndian.encode 8)) = pack 64 xs := by
  induction xs with
  | nil => rfl
  | cons x xs ih =>
    obtain ⟨hx, hxs⟩ := List.forall_mem_cons.mp h
    rw [List.flatMap_cons, LittleEndian.decode_append, LittleEndian.length_encode,
      LittleEndian.decode_encode hx, ih hxs, pack]
    rfl

theorem fromBytes_memory (h : Words xs) :
    fromBytes order (memory order xs) = pack 64 (match order with
      | .little => xs
      | .big => xs.reverse) := by
  cases order with
  | little => exact decode_flatMap_encode h
  | big =>
    have hrev : (memory .big xs).reverse = xs.reverse.flatMap (LittleEndian.encode 8) := by
      unfold memory toBytes
      rw [List.reverse_flatMap]
      simp only [Function.comp_def, List.reverse_reverse]
    rw [fromBytes, hrev]
    exact decode_flatMap_encode fun x hx => h x (List.mem_reverse.mp hx)

/-- The bits of the integer are those of the words. -/
theorem testBit_fromBytes_memory (h : Words xs) (hi : i < xs.length) (hb : b < 64) :
    (fromBytes order (memory order xs)).testBit (64 * place order xs.length i + b) =
      (xs.getD i 0).testBit b := by
  rw [fromBytes_memory h]
  cases order with
  | little => exact testBit_pack h hb
  | big =>
    have hrev : Words xs.reverse := fun x hx => h x (List.mem_reverse.mp hx)
    have hplace : place .big xs.length i < xs.reverse.length := by
      rw [List.length_reverse, place_big]
      omega
    rw [testBit_pack hrev hb, List.getD_eq_getElem _ _ hplace, List.getD_eq_getElem _ _ hi,
      List.getElem_reverse]
    congr 2
    rw [place_big]
    omega

theorem length_wordsOf (order : ByteOrder) (n : ℕ) (octets : Bytes) :
    (wordsOf order n octets).length = n := by
  induction n generalizing octets with
  | zero => rfl
  | succ n ih => rw [wordsOf, List.length_cons, ih]

/-- The words of an integer. -/
theorem getD_wordsOf (hi : i < n) :
    (wordsOf order n (toBytes order m (8 * n))).getD i 0 =
      m / 2 ^ (64 * place order n i) % 2 ^ 64 := by
  have hpow : ∀ k : ℕ, 256 ^ (8 * k) = 2 ^ (64 * k) := fun k => by
    rw [show (256 : ℕ) = 2 ^ 8 from rfl, ← Nat.pow_mul]
    congr 1
    omega
  induction n generalizing m i with
  | zero => omega
  | succ n ih =>
    rw [wordsOf]
    cases order with
    | little =>
      have hsplit : toBytes .little m (8 * (n + 1)) =
          LittleEndian.encode 8 m ++ toBytes .little (m / 256 ^ 8) (8 * n) := by
        rw [toBytes, toBytes, ← LittleEndian.encode_add, Nat.mul_add, Nat.mul_one, Nat.add_comm]
      rw [hsplit, List.take_left' (LittleEndian.length_encode _ _),
        List.drop_left' (LittleEndian.length_encode _ _)]
      cases i with
      | zero =>
        rw [List.getD_cons_zero, fromBytes, LittleEndian.decode_encode_mod, place_little,
          Nat.mul_zero, Nat.pow_zero, Nat.div_one]
        rfl
      | succ i =>
        rw [List.getD_cons_succ, ih (by omega), Nat.div_div_eq_div_mul]
        rw [place_little, place_little, Nat.mul_add, Nat.pow_add, Nat.mul_comm (2 ^ (64 * i))]
        rfl
    | big =>
      have hsplit : toBytes .big m (8 * (n + 1)) =
          (LittleEndian.encode 8 (m / 256 ^ (8 * n))).reverse ++ toBytes .big m (8 * n) := by
        rw [toBytes, toBytes, ← List.reverse_append, ← LittleEndian.encode_add, Nat.mul_add,
          Nat.mul_one]
      have hlen : (LittleEndian.encode 8 (m / 256 ^ (8 * n))).reverse.length = 8 := by
        rw [List.length_reverse, LittleEndian.length_encode]
      rw [hsplit, List.take_left' hlen, List.drop_left' hlen]
      cases i with
      | zero =>
        rw [List.getD_cons_zero, fromBytes, List.reverse_reverse, LittleEndian.decode_encode_mod,
          hpow]
        rfl
      | succ i =>
        rw [List.getD_cons_succ, ih (by omega)]
        congr 3
        rw [place_big, place_big]
        omega

theorem words_wordsOf : Words (wordsOf order n (toBytes order m (8 * n))) := by
  intro x hx
  obtain ⟨i, hi, rfl⟩ := List.getElem_of_mem hx
  have hin := hi
  rw [length_wordsOf] at hin
  rw [← List.getD_eq_getElem _ 0 hi, getD_wordsOf hin]
  exact Nat.mod_lt _ (Nat.two_pow_pos 64)

theorem testBit_wordsOf (hi : i < n) (hb : b < 64) :
    ((wordsOf order n (toBytes order m (8 * n))).getD i 0).testBit b =
      m.testBit (64 * place order n i + b) := by
  rw [getD_wordsOf hi, Nat.testBit_mod_two_pow, decide_eq_true hb, Bool.true_and,
    Nat.testBit_div_two_pow, Nat.add_comm]

/-! ## Integers bit by bit -/

theorem testBit_neg_bit {g : ℕ} (hg : g ≤ 1) (j : ℕ) :
    (-(g : ℤ)).testBit j = decide (g = 1) := by
  interval_cases g
  · simp [Int.testBit]
  · change (Int.negSucc 0).testBit j = true
    simp [Int.testBit]

/-! ## Entries -/

/-- The bit of a plane at a position. -/
def bitAt (xs : List ℕ) (p : ℕ × ℕ) : Bool := (xs.getD p.1 0).testBit p.2

/-- The entry of a position: its low bit and its high bit. -/
def entry (planes : List ℕ × List ℕ) (p : ℕ × ℕ) : ℕ :=
  (bitAt planes.1 p).toNat + 2 * (bitAt planes.2 p).toNat

/-- Two planes of `n` words. -/
structure IsPlanes (n : ℕ) (planes : List ℕ × List ℕ) : Prop where
  length_lo : planes.1.length = n
  length_hi : planes.2.length = n
  lo : Words planes.1
  hi : Words planes.2

/-- A position of `n` words. -/
def InRange (n : ℕ) (p : ℕ × ℕ) : Prop := p.1 < n ∧ p.2 < 64

variable {planes : List ℕ × List ℕ} {p : ℕ × ℕ} {g : ℕ}

theorem isPlanes_zero (n : ℕ) : IsPlanes n (List.replicate n 0, List.replicate n 0) := by
  have hwords : Words (List.replicate n 0) := fun x hx => by
    rw [List.eq_of_mem_replicate hx]
    exact Nat.two_pow_pos 64
  exact ⟨List.length_replicate, List.length_replicate, hwords, hwords⟩

theorem entry_zero (n : ℕ) (p : ℕ × ℕ) :
    entry (List.replicate n 0, List.replicate n 0) p = 0 := by
  have hzero : (List.replicate n 0).getD p.1 0 = 0 := by
    by_cases hp : p.1 < n
    · exact List.getD_replicate 0 hp
    · exact List.getD_eq_default _ _ (by rw [List.length_replicate]; omega)
  unfold entry bitAt
  rw [hzero, Nat.zero_testBit]
  rfl

theorem isPlanes_wipe (order : ByteOrder) (n g : ℕ) (planes : List ℕ × List ℕ) :
    IsPlanes n (wipe order n g planes) :=
  ⟨length_wordsOf _ _ _, length_wordsOf _ _ _, words_wordsOf, words_wordsOf⟩

/-- What the wipe keeps of a plane. -/
theorem bitAt_wipe (order : ByteOrder) (h : IsPlanes n planes) (hp : InRange n p) (hg : g ≤ 3) :
    bitAt (wipe order n g planes).1 p = (bitAt planes.1 p &&
      ((bitAt planes.1 p != decide (g &&& 1 = 1)) || (bitAt planes.2 p != decide (g >>> 1 = 1)))) ∧
    bitAt (wipe order n g planes).2 p = (bitAt planes.2 p &&
      ((bitAt planes.1 p != decide (g &&& 1 = 1)) ||
        (bitAt planes.2 p != decide (g >>> 1 = 1)))) := by
  have hlow : g &&& 1 ≤ 1 := Nat.and_le_right
  have hhigh : g >>> 1 ≤ 1 := by
    rw [Nat.shiftRight_eq_div_pow]
    omega
  have hlo : (fromBytes order (memory order planes.1)).testBit (64 * place order n p.1 + p.2) =
      bitAt planes.1 p := by
    rw [← h.length_lo]
    exact testBit_fromBytes_memory h.lo (by rw [h.length_lo]; exact hp.1) hp.2
  have hhi : (fromBytes order (memory order planes.2)).testBit (64 * place order n p.1 + p.2) =
      bitAt planes.2 p := by
    rw [← h.length_hi]
    exact testBit_fromBytes_memory h.hi (by rw [h.length_hi]; exact hp.1) hp.2
  have hcast : ∀ (x j : ℕ), (x : ℤ).testBit j = x.testBit j := fun _ _ => rfl
  -- the mask is the same for both planes
  have hkeep : ∀ x : ℕ, bitAt (wordsOf order n (toBytes order (Int.land x
      (Int.lor (Int.xor (fromBytes order (memory order planes.1)) (-((g &&& 1 : ℕ) : ℤ)))
        (Int.xor (fromBytes order (memory order planes.2)) (-((g >>> 1 : ℕ) : ℤ))))).toNat
      (8 * n))) p = (x.testBit (64 * place order n p.1 + p.2) &&
        ((bitAt planes.1 p != decide (g &&& 1 = 1)) ||
          (bitAt planes.2 p != decide (g >>> 1 = 1)))) := by
    intro x
    rw [bitAt, testBit_wordsOf hp.1 hp.2, testBit_land_natCast, Int.testBit_lor,
      Int.testBit_lxor, Int.testBit_lxor, testBit_neg_bit hlow, testBit_neg_bit hhigh, hcast,
      hcast, hlo, hhi]
  constructor
  · rw [← hlo]
    exact (hkeep _).trans (by rw [hlo])
  · rw [← hhi]
    exact (hkeep _).trans (by rw [hhi])

/-- **The wipe forgets the entries of one generation and no others.** -/
theorem entry_wipe (h : IsPlanes n planes) (hp : InRange n p) (hg : 1 ≤ g ∧ g ≤ 3) :
    entry (wipe order n g planes) p = if entry planes p = g then 0 else entry planes p := by
  obtain ⟨hlo, hhi⟩ := bitAt_wipe order h hp hg.2
  unfold entry
  rw [hlo, hhi]
  obtain ⟨hone, hthree⟩ := hg
  interval_cases g <;> cases bitAt planes.1 p <;> cases bitAt planes.2 p <;> rfl

/-! ## Marks -/

theorem putBit_eq (word value bit : ℕ) :
    putBit word value bit =
      (Int.land word (Int.lnot ((1 <<< bit : ℕ) : ℤ))).toNat ||| (value <<< bit) := by
  unfold putBit
  generalize hk : Int.lnot ((1 <<< bit : ℕ) : ℤ) = k
  cases k with
  | ofNat m => rfl
  | negSucc m => rfl

theorem testBit_putBit {word value bit : ℕ} (hvalue : value ≤ 1) (j : ℕ) :
    (putBit word value bit).testBit j = if j = bit then decide (value = 1) else word.testBit j := by
  have hmask : ((1 <<< bit : ℕ) : ℤ).testBit j = decide (bit = j) := by
    change (1 <<< bit).testBit j = _
    rw [Nat.one_shiftLeft, Nat.testBit_two_pow]
  rw [putBit_eq, Nat.testBit_or, testBit_land_natCast, Int.testBit_lnot, hmask]
  by_cases hj : j = bit
  · rw [if_pos hj, hj, decide_eq_true rfl, Bool.not_true, Bool.and_false, Bool.false_or,
      Nat.testBit_shiftLeft, Nat.sub_self]
    interval_cases value <;> simp
  · rw [if_neg hj, decide_eq_false (Ne.symm hj), Bool.not_false, Bool.and_true,
      Nat.testBit_shiftLeft]
    by_cases hle : bit ≤ j
    · have hzero : value.testBit (j - bit) = false := by
        refine Nat.testBit_lt_two_pow ?_
        calc value < 2 ^ 1 := by omega
          _ ≤ 2 ^ (j - bit) := Nat.pow_le_pow_right (by decide) (by omega)
      rw [hzero, Bool.and_false, Bool.or_false]
    · rw [decide_eq_false hle, Bool.false_and, Bool.or_false]

theorem putBit_lt {word value bit : ℕ} (hword : word < 2 ^ 64) (hvalue : value ≤ 1)
    (hbit : bit < 64) : putBit word value bit < 2 ^ 64 := by
  refine Nat.lt_pow_two_of_testBit _ fun j hj => ?_
  rw [testBit_putBit hvalue, if_neg (by omega)]
  exact Nat.testBit_lt_two_pow (hword.trans_le (Nat.pow_le_pow_right (by decide) hj))

/-- A plane with one bit put. -/
def putAt (xs : List ℕ) (p : ℕ × ℕ) (value : ℕ) : List ℕ :=
  xs.set p.1 (putBit (xs.getD p.1 0) value p.2)

theorem bitAt_putAt {xs : List ℕ} {value : ℕ} (hp : p.1 < xs.length) (hvalue : value ≤ 1)
    (q : ℕ × ℕ) :
    bitAt (putAt xs p value) q = if q = p then decide (value = 1) else bitAt xs q := by
  unfold bitAt putAt
  rw [List.getD_eq_getElem?_getD, List.getElem?_set]
  by_cases hword : p.1 = q.1
  · rw [if_pos hword, if_pos hp, Option.getD_some, testBit_putBit hvalue, hword]
    by_cases hbit : q.2 = p.2
    · rw [if_pos hbit, if_pos (Prod.ext hword.symm hbit)]
    · rw [if_neg hbit, if_neg fun h => hbit (congrArg Prod.snd h)]
  · rw [if_neg hword, if_neg fun h => hword (congrArg Prod.fst h).symm,
      ← List.getD_eq_getElem?_getD]

theorem words_putAt {xs : List ℕ} {value : ℕ} (h : Words xs) (hp : p.2 < 64)
    (hvalue : value ≤ 1) : Words (putAt xs p value) := by
  intro x hx
  rcases List.mem_or_eq_of_mem_set hx with hx | rfl
  · exact h x hx
  · exact putBit_lt (getD_lt h) hvalue hp

/-- **A mark writes the generation at its position and nothing else.** -/
theorem mark_spec (h : IsPlanes n planes) (hp : InRange n p) (hg : 1 ≤ g ∧ g ≤ 3) :
    ∃ planes', mark g planes p = some planes' ∧ IsPlanes n planes' ∧
      ∀ q, entry planes' q = if q = p then g else entry planes q := by
  have hlow : g &&& 1 ≤ 1 := Nat.and_le_right
  have hhigh : g >>> 1 ≤ 1 := by
    rw [Nat.shiftRight_eq_div_pow]
    omega
  have hlo : p.1 < planes.1.length := by
    rw [h.length_lo]
    exact hp.1
  have hhi : p.1 < planes.2.length := by
    rw [h.length_hi]
    exact hp.1
  refine ⟨(putAt planes.1 p (g &&& 1), putAt planes.2 p (g >>> 1)), ?_, ⟨?_, ?_, ?_, ?_⟩, ?_⟩
  · obtain ⟨index, bit⟩ := p
    unfold mark putAt
    dsimp only
    rw [List.getElem?_eq_getElem hlo, List.getElem?_eq_getElem hhi,
      List.getD_eq_getElem _ _ hlo, List.getD_eq_getElem _ _ hhi]
    rfl
  · exact (List.length_set ..).trans h.length_lo
  · exact (List.length_set ..).trans h.length_hi
  · exact words_putAt h.lo hp.2 hlow
  · exact words_putAt h.hi hp.2 hhigh
  · intro q
    unfold entry
    rw [bitAt_putAt hlo hlow, bitAt_putAt hhi hhigh]
    by_cases hq : q = p
    · rw [if_pos hq, if_pos hq, if_pos hq]
      obtain ⟨hone, hthree⟩ := hg
      interval_cases g <;> rfl
    · rw [if_neg hq, if_neg hq, if_neg hq]

/-- The loop of `add` writes the generation at every position of the key. -/
theorem foldlM_mark_spec (hg : 1 ≤ g ∧ g ≤ 3) (ps : List (ℕ × ℕ)) (h : IsPlanes n planes)
    (hps : ∀ p ∈ ps, InRange n p) :
    ∃ planes', ps.foldlM (mark g) planes = some planes' ∧ IsPlanes n planes' ∧
      ∀ q, entry planes' q = if q ∈ ps then g else entry planes q := by
  induction ps generalizing planes with
  | nil => exact ⟨planes, rfl, h, fun q => by simp⟩
  | cons p ps ih =>
    obtain ⟨hp, hps⟩ := List.forall_mem_cons.mp hps
    obtain ⟨planes₁, hmark, h₁, hentry₁⟩ := mark_spec h hp hg
    obtain ⟨planes₂, hfold, h₂, hentry₂⟩ := ih h₁ hps
    refine ⟨planes₂, ?_, h₂, fun q => ?_⟩
    · rw [List.foldlM_cons, hmark]
      exact hfold
    · rw [hentry₂, hentry₁]
      by_cases hq : q ∈ ps
      · rw [if_pos hq, if_pos (List.mem_cons_of_mem _ hq)]
      · rw [if_neg hq]
        by_cases hqp : q = p
        · rw [if_pos hqp, if_pos (by rw [hqp]; exact List.mem_cons_self)]
        · rw [if_neg hqp, if_neg (by simp [hqp, hq])]

end BtclibNode.RollingBloom
