/-
# Every lane runs MurmurHash3

Each step of `_hashes` keeps the lanes apart: what a shift, a product or a sum brings from
one lane into the next lies above its 32 bits, where the mask drops it.
-/
import BtclibNode.Bloom.RollingBloom
import BtclibNode.Lib.Lanes
import BtclibNode.Lib.MurmurHash3

namespace BtclibNode.RollingBloom

open Lanes

/-- The states of the runs, a lane each. -/
def states (us : List UInt32) : ℕ := pack 64 (us.map UInt32.toNat)

variable {us : List UInt32} {n c k m : ℕ}

theorem lanes_eq (n : ℕ) : lanes n = ones 64 n := by
  unfold lanes ones
  rw [sum_shiftLeft 64 n fun _ => 1, List.map_const', List.length_range]

theorem toNat_lt_lane {x : ℕ} (h : x ∈ us.map UInt32.toNat) : x < 2 ^ 32 := by
  obtain ⟨u, -, rfl⟩ := List.mem_map.mp h
  exact u.toNat_lt

theorem toNat_fits {x : ℕ} (h : x ∈ us.map UInt32.toNat) : x < 2 ^ 64 :=
  (toNat_lt_lane h).trans (by decide)

theorem seeds_eq (n : ℕ) (tweak : ℤ) :
    seeds n tweak = states ((List.range n).map fun i => UInt32.ofNat (seedOf tweak i)) := by
  unfold seeds states
  rw [sum_shiftLeft, List.map_map]
  congr 1
  refine List.map_congr_left fun i _ => ?_
  have hlt : seedOf tweak i < 2 ^ 32 := by
    unfold seedOf
    omega
  rw [Function.comp_apply, UInt32.toNat_ofNat', Nat.mod_eq_of_lt hlt]

/-! ## The steps -/

theorem getD_toNat {i : ℕ} (hi : i < us.length) :
    (us.map UInt32.toNat).getD i 0 = us[i].toNat := by
  rw [List.getD_eq_getElem _ _ (by rw [List.length_map]; exact hi), List.getElem_map]

/-- The mask of the lanes makes a number of what each has in 32 bits. -/
theorem and_laneMask {x : ℕ} (hn : us.length = n) (f : UInt32 → UInt32)
    (h : ∀ i, ∀ hi : i < us.length, ∀ b < 32,
      x.testBit (64 * i + b) = (f us[i]).toNat.testBit b) :
    x &&& laneMask n = states (us.map f) := by
  have hlen : ((us.map f).map UInt32.toNat).length = n := by
    rw [List.length_map, List.length_map, hn]
  have hmask : laneMask n =
      pack 64 (List.replicate ((us.map f).map UInt32.toNat).length (2 ^ 32 - 1)) := by
    unfold laneMask
    rw [lanes_eq, mul_ones, hlen]
    rfl
  rw [hmask]
  refine mask_eq (by decide) (by decide) (fun x hx => toNat_lt_lane hx) fun i hi b hb => ?_
  rw [hlen, ← hn] at hi
  rw [h i hi b hb, getD_toNat (by rw [List.length_map]; exact hi), List.getElem_map]

theorem xor_lanes (hn : us.length = n) (c : UInt32) :
    states us ^^^ (c.toNat * lanes n) = states (us.map (· ^^^ c)) := by
  unfold states
  rw [lanes_eq, mul_ones, ← hn, ← List.length_map UInt32.toNat,
    xor_pack_replicate (by decide) (fun x hx => toNat_fits hx) (c.toNat_lt.trans (by decide)),
    List.map_map, List.map_map]
  congr 1

theorem testBit_states {i b : ℕ} (hi : i < us.length) (hb : b < 64) :
    (states us).testBit (64 * i + b) = us[i].toNat.testBit b := by
  unfold states
  rw [testBit_pack (fun x hx => toNat_fits hx) hb, getD_toNat hi]

theorem testBit_states_shiftRight {i b : ℕ} (hi : i < us.length) (hb : b + k < 64) :
    (states us >>> k).testBit (64 * i + b) = (us[i].toNat >>> k).testBit b := by
  unfold states
  rw [testBit_shiftRight_pack (fun x hx => toNat_fits hx) hb, getD_toNat hi]

theorem testBit_states_shiftLeft {i b : ℕ} (hi : i < us.length) (hk : k ≤ 32) (hb : b < 64) :
    (states us <<< k).testBit (64 * i + b) = (us[i].toNat <<< k).testBit b := by
  unfold states
  rw [testBit_shiftLeft_pack _ hb, getD_toNat hi]
  intro x hx
  rw [Nat.shiftLeft_eq]
  calc x * 2 ^ k < 2 ^ 32 * 2 ^ k :=
        Nat.mul_lt_mul_of_pos_right (toNat_lt_lane hx) (Nat.two_pow_pos k)
    _ ≤ 2 ^ 32 * 2 ^ 32 := Nat.mul_le_mul_left _ (Nat.pow_le_pow_right (by decide) hk)

/-- A rotation by 13, as the whole does it. -/
theorem rotate_lanes (hn : us.length = n) :
    ((states us <<< 13) ||| (states us >>> 19)) &&& laneMask n =
      states (us.map (MurmurHash3.rotl · 13)) := by
  refine and_laneMask hn _ fun i hi b hb => ?_
  have hback : (32 - 13 : UInt32) = 19 := by decide
  unfold MurmurHash3.rotl
  rw [Nat.testBit_or, testBit_states_shiftLeft hi (by decide) (by omega),
    testBit_states_shiftRight hi (by omega), UInt32.toNat_or, UInt32.toNat_shiftLeft,
    UInt32.toNat_shiftRight, hback, Nat.testBit_or, Nat.testBit_mod_two_pow, decide_eq_true hb,
    Bool.true_and]
  rfl

/-- A product and a sum. -/
theorem mul_add_lanes (hn : us.length = n) (c d : UInt32) :
    (states us * c.toNat + d.toNat * lanes n) &&& laneMask n =
      states (us.map fun u => u * c + d) := by
  refine and_laneMask hn _ fun i hi b hb => ?_
  have hfit : ∀ x ∈ ((us.map UInt32.toNat).map (· * c.toNat)).map (· + d.toNat), x < 2 ^ 64 := by
    intro x hx
    obtain ⟨y, hy, rfl⟩ := List.mem_map.mp hx
    obtain ⟨z, hz, rfl⟩ := List.mem_map.mp hy
    have hd := d.toNat_lt
    have hprod : z * c.toNat ≤ (2 ^ 32 - 1) * (2 ^ 32 - 1) :=
      Nat.mul_le_mul (Nat.le_pred_of_lt (toNat_lt_lane hz)) (Nat.le_pred_of_lt c.toNat_lt)
    omega
  have hlen : n = ((us.map UInt32.toNat).map (· * c.toNat)).length := by
    rw [List.length_map, List.length_map, hn]
  unfold states
  rw [lanes_eq, hlen, pack_mul, pack_add_ones, testBit_pack hfit (by omega), List.map_map,
    List.map_map, List.getD_eq_getElem _ _ (by rw [List.length_map]; exact hi), List.getElem_map,
    UInt32.toNat_add, UInt32.toNat_mul, Nat.mod_add_mod, Nat.testBit_mod_two_pow,
    decide_eq_true hb, Bool.true_and]
  rfl

theorem mul_lanes (hn : us.length = n) (c : UInt32) :
    (states us * c.toNat) &&& laneMask n = states (us.map (· * c)) := by
  have hsum := mul_add_lanes hn c 0
  rw [UInt32.toNat_zero, Nat.zero_mul, Nat.add_zero] at hsum
  rw [hsum]
  congr 1
  exact List.map_congr_left fun u _ => UInt32.add_zero _

/-- A shift to the right, and its sum without carries. -/
theorem xorshift_lanes (hn : us.length = n) {k : UInt32} (hk : k < 32) :
    (states us ^^^ (states us >>> k.toNat)) &&& laneMask n =
      states (us.map fun u => u ^^^ (u >>> k)) := by
  have hlt : k.toNat < 32 := hk
  refine and_laneMask hn _ fun i hi b hb => ?_
  rw [Nat.testBit_xor, testBit_states hi (by omega), testBit_states_shiftRight hi (by omega),
    UInt32.toNat_xor, UInt32.toNat_shiftRight, Nat.mod_eq_of_lt hlt, Nat.testBit_xor]

/-! ## Blocks and tail -/

theorem and_mask32 (x : ℕ) : x &&& mask32 = x % 2 ^ 32 := Nat.and_two_pow_sub_one_eq_mod x 32

/-- What a block brings to every state. -/
theorem k1_eq (block : ℕ) : k1 block = (MurmurHash3.mixK (UInt32.ofNat block)).toNat := by
  have hback : (32 - 15 : UInt32) = 17 := by decide
  have hmul : ∀ (u : UInt32) (c : UInt32), (u.toNat * c.toNat) % 2 ^ 32 = (u * c).toNat :=
    fun u c => (UInt32.toNat_mul u c).symm
  have hrotl : ∀ u : UInt32, ((u.toNat <<< 15) ||| (u.toNat >>> 17)) % 2 ^ 32 =
      (MurmurHash3.rotl u 15).toNat := by
    intro u
    unfold MurmurHash3.rotl
    rw [Nat.or_mod_two_pow, UInt32.toNat_or, UInt32.toNat_shiftLeft, UInt32.toNat_shiftRight, hback]
    congr 1
    exact Nat.mod_eq_of_lt ((Nat.shiftRight_le _ _).trans_lt u.toNat_lt)
  have hstart : (block * c1) % 2 ^ 32 = (UInt32.ofNat block * MurmurHash3.c1).toNat := by
    rw [← hmul, UInt32.toNat_ofNat', Nat.mod_mul_mod]
    rfl
  unfold k1 MurmurHash3.mixK
  dsimp only
  rw [and_mask32, and_mask32, and_mask32, hstart, hrotl, ← hmul]
  rfl

theorem hashBlock_states (hn : us.length = n) (block : ℕ) :
    hashBlock n (states us) block =
      states (us.map (MurmurHash3.block · (UInt32.ofNat block))) := by
  have hlen : ∀ f : UInt32 → UInt32, (us.map f).length = n := fun f => by
    rw [List.length_map, hn]
  have hrotated : ((us.map (· ^^^ MurmurHash3.mixK (UInt32.ofNat block))).map
      (MurmurHash3.rotl · 13)).length = n := by
    rw [List.length_map, hlen]
  have hfinish := mul_add_lanes hrotated 5 0xE6546B64
  unfold hashBlock
  dsimp only
  rw [k1_eq, xor_lanes hn, rotate_lanes (hlen _)]
  refine hfinish.trans ?_
  rw [List.map_map, List.map_map]
  rfl

/-- The blocks and the tail of `_hashes`. -/
def absorb (hashFuncs h : ℕ) (key : Bytes) : ℕ :=
  let size := key.length
  let body := size - (size &&& 3)
  let h := (iterUnpack (key.take body)).foldl (hashBlock hashFuncs) h
  if size &&& 3 ≠ 0 then
    h ^^^ (k1 (LittleEndian.decode (key.drop body)) * lanes hashFuncs) else h

theorem absorb_block (n h : ℕ) (a b c d : UInt8) (key : Bytes) :
    absorb n h (a :: b :: c :: d :: key) =
      absorb n (hashBlock n h (LittleEndian.decode [a, b, c, d])) key := by
  have hand : ∀ x : ℕ, x &&& 3 = x % 4 := fun x => Nat.and_two_pow_sub_one_eq_mod x 2
  have hmod : (key.length + 4) % 4 = key.length % 4 := Nat.add_mod_right _ _
  have hbody : key.length + 4 - key.length % 4 = key.length - key.length % 4 + 4 := by omega
  unfold absorb
  simp only [List.length_cons, hand]
  rw [show key.length + 1 + 1 + 1 + 1 = key.length + 4 from rfl, hmod, hbody]
  rfl

/-- The tail, which is what is left of the blocks. -/
theorem absorb_tail (hn : us.length = n) {key : Bytes} (hpos : 0 < key.length)
    (hlt : key.length < 4) :
    absorb n (states us) key =
      states (us.map (· ^^^ MurmurHash3.mixK (UInt32.ofNat (LittleEndian.decode key)))) := by
  have hand : key.length &&& 3 = key.length := by
    rw [show key.length &&& 3 = key.length % 4 from Nat.and_two_pow_sub_one_eq_mod _ 2]
    exact Nat.mod_eq_of_lt hlt
  unfold absorb
  simp only [hand, Nat.sub_self, List.take_zero, List.drop_zero, iterUnpack, List.foldl_nil]
  rw [if_pos (by omega), k1_eq, xor_lanes hn]

theorem absorb_states (n : ℕ) : ∀ (key : Bytes) (us : List UInt32), us.length = n →
    absorb n (states us) key = states (us.map (MurmurHash3.body · key))
  | [], us, _ => by
    have hsame : us.map (MurmurHash3.body · []) = us := List.map_id us
    rw [hsame]
    rfl
  | [a], us, hn => by
    rw [absorb_tail hn (by simp) (by simp), MurmurHash3.tail_one]
    rfl
  | [a, b], us, hn => by
    rw [absorb_tail hn (by simp) (by simp), MurmurHash3.tail_two]
    rfl
  | [a, b, c], us, hn => by
    rw [absorb_tail hn (by simp) (by simp), MurmurHash3.tail_three]
    rfl
  | a :: b :: c :: d :: key, us, hn => by
    have hlen : (us.map (MurmurHash3.block · (MurmurHash3.word a b c d))).length = n := by
      rw [List.length_map, hn]
    rw [absorb_block, hashBlock_states hn, MurmurHash3.word_eq, absorb_states n key _ hlen,
      List.map_map]
    rfl

/-! ## The positions -/

/-- **Each lane of `_hashes` is one run of the hash.** -/
theorem hashes_eq (n : ℕ) (tweak : ℤ) (key : Bytes) :
    hashes n (seeds n tweak) key = states ((List.range n).map fun i =>
      MurmurHash3.hash (UInt32.ofNat (seedOf tweak i)) key) := by
  have hstart : ((List.range n).map fun i => UInt32.ofNat (seedOf tweak i)).length = n := by
    rw [List.length_map, List.length_range]
  have hlen : ∀ (us : List UInt32) (f : UInt32 → UInt32), us.length = n →
      (us.map f).length = n := fun us f hn => by rw [List.length_map, hn]
  have hsize : key.length &&& mask32 = (UInt32.ofNat key.length).toNat := by
    rw [and_mask32, UInt32.toNat_ofNat']
  have hbody := hlen _ (MurmurHash3.body · key) hstart
  have hxor := hlen _ (· ^^^ UInt32.ofNat key.length) hbody
  have hone := hlen _ (fun u => u ^^^ (u >>> 16)) hxor
  have htwo := hlen _ (· * 0x85EBCA6B) hone
  have hthree := hlen _ (fun u => u ^^^ (u >>> 13)) htwo
  have hfour := hlen _ (· * 0xC2B2AE35) hthree
  change (let h := absorb n (seeds n tweak) key
    let h := h ^^^ ((key.length &&& mask32) * lanes n)
    let h := (h ^^^ (h >>> (16 : UInt32).toNat)) &&& laneMask n
    let h := (h * (0x85EBCA6B : UInt32).toNat) &&& laneMask n
    let h := (h ^^^ (h >>> (13 : UInt32).toNat)) &&& laneMask n
    let h := (h * (0xC2B2AE35 : UInt32).toNat) &&& laneMask n
    (h ^^^ (h >>> (16 : UInt32).toNat)) &&& laneMask n) = _
  dsimp only
  rw [seeds_eq, absorb_states n key _ hstart, hsize, xor_lanes hbody,
    xorshift_lanes hxor (by decide), mul_lanes hone, xorshift_lanes htwo (by decide),
    mul_lanes hthree, xorshift_lanes hfour (by decide)]
  simp only [List.map_map]
  rfl

theorem unpack_succ (n x rest : ℕ) (hx : x < 2 ^ 32) :
    unpack (n + 1) (LittleEndian.encode (8 * (n + 1)) (x + 2 ^ 64 * rest)) =
      x :: unpack n (LittleEndian.encode (8 * n) rest) := by
  have hlow : (x + 2 ^ 64 * rest) % 256 ^ 4 = x := by omega
  have hhigh : (x + 2 ^ 64 * rest) / 256 ^ 8 = rest := by omega
  rw [unpack, Nat.mul_add, Nat.mul_one, Nat.add_comm (8 * n) 8]
  congr 1
  · rw [show 8 + 8 * n = 4 + (4 + 8 * n) by omega, LittleEndian.encode_add,
      List.take_left' (LittleEndian.length_encode _ _), LittleEndian.decode_encode_mod, hlow]
  · rw [LittleEndian.encode_add, List.drop_left' (LittleEndian.length_encode _ _), hhigh]

/-- What is unpacked is what the lanes hold. -/
theorem unpack_encode (xs : List ℕ) (h : ∀ x ∈ xs, x < 2 ^ 32) :
    unpack xs.length (LittleEndian.encode (8 * xs.length) (pack 64 xs)) = xs := by
  induction xs with
  | nil => rfl
  | cons x xs ih =>
    obtain ⟨hx, hxs⟩ := List.forall_mem_cons.mp h
    rw [List.length_cons, pack, unpack_succ _ _ _ hx, ih hxs]

theorem and_mask {x m : ℕ} {xs : List ℕ} (hn : xs.length = n) (hm : m ≤ 32)
    (h : ∀ x ∈ xs, x < 2 ^ m)
    (hbits : ∀ i < n, ∀ b < m, x.testBit (64 * i + b) = (xs.getD i 0).testBit b) :
    x &&& ((2 ^ m - 1) * lanes n) = pack 64 xs := by
  rw [lanes_eq, mul_ones, ← hn]
  rw [← hn] at hbits
  exact mask_eq (by decide) (hm.trans (by decide)) h hbits

section Range

variable {f : ℕ → ℕ}

theorem length_map_range (n : ℕ) (f : ℕ → ℕ) : ((List.range n).map f).length = n := by
  rw [List.length_map, List.length_range]

theorem getD_map_range {i : ℕ} (f : ℕ → ℕ) (hi : i < n) :
    ((List.range n).map f).getD i 0 = f i := by
  rw [List.getD_eq_getElem _ _ (by rw [length_map_range]; exact hi), List.getElem_map,
    List.getElem_range]

theorem forall_map_range {w : ℕ} (h : ∀ i, f i < 2 ^ w) :
    ∀ x ∈ (List.range n).map f, x < 2 ^ w := by
  intro x hx
  obtain ⟨i, -, rfl⟩ := List.mem_map.mp hx
  exact h i

theorem mul_lt_lane {size : ℕ} (h : ∀ i, f i < 2 ^ 32) (hsize : size < 2 ^ 32) (i : ℕ) :
    f i * size < 2 ^ 64 :=
  calc f i * size < 2 ^ 32 * 2 ^ 32 := Nat.mul_lt_mul'' (h i) hsize
    _ = 2 ^ 64 := by decide

/-- The words: the product with the size fills the lane and no more. -/
theorem index_lanes {size : ℕ} (h : ∀ i, f i < 2 ^ 32) (hsize : size < 2 ^ 32) :
    ((pack 64 ((List.range n).map f) * size) >>> 33) &&& indexMask n =
      pack 64 ((List.range n).map fun i => f i * size / 2 ^ 33) := by
  have hprod := mul_lt_lane h hsize
  have hfit : ∀ x ∈ (List.range n).map ((· * size) ∘ f), x < 2 ^ 64 := forall_map_range hprod
  change _ &&& ((2 ^ 31 - 1) * lanes n) = _
  refine and_mask (length_map_range _ _) (by decide) (forall_map_range fun i => ?_)
    fun i hi b hb => ?_
  · have hlt := hprod i
    omega
  · rw [pack_mul, List.map_map, testBit_shiftRight_pack hfit (show b + 33 < 64 by omega),
      getD_map_range _ hi, getD_map_range _ hi, Nat.shiftRight_eq_div_pow]
    rfl

theorem bit_lanes (h : ∀ i, f i < 2 ^ 32) :
    pack 64 ((List.range n).map f) &&& bitMask n =
      pack 64 ((List.range n).map fun i => f i % 64) := by
  have hfit : ∀ x ∈ (List.range n).map f, x < 2 ^ 64 :=
    forall_map_range fun i => (h i).trans (by decide)
  change _ &&& ((2 ^ 6 - 1) * lanes n) = _
  refine and_mask (length_map_range _ _) (by decide) (forall_map_range fun i => ?_)
    fun i hi b hb => ?_
  · exact Nat.mod_lt _ (by decide)
  · rw [testBit_pack hfit (show b < 64 by omega), getD_map_range _ hi, getD_map_range _ hi,
      show (64 : ℕ) = 2 ^ 6 from rfl, Nat.testBit_mod_two_pow, decide_eq_true hb, Bool.true_and]

theorem unpack_lanes (h : ∀ i, f i < 2 ^ 32) :
    unpack n (LittleEndian.encode (8 * n) (pack 64 ((List.range n).map f))) =
      (List.range n).map f := by
  have hunpack := unpack_encode ((List.range n).map f) (forall_map_range h)
  rw [length_map_range] at hunpack
  exact hunpack

end Range

/-- **The positions of a key**: for each hash function, where its hash falls in the filter and
the low six bits of it. -/
theorem positions_eq (hashFuncs size : ℕ) (tweak : ℤ) (key : Bytes) (hsize : size < 2 ^ 32) :
    positions hashFuncs size (seeds hashFuncs tweak) key = (List.range hashFuncs).map fun n =>
      let h := (MurmurHash3.hash (UInt32.ofNat (seedOf tweak n)) key).toNat
      (h * size / 2 ^ 33, h % 64) := by
  generalize hf : (fun n => (MurmurHash3.hash (UInt32.ofNat (seedOf tweak n)) key).toNat) = f
  have hlt : ∀ i, f i < 2 ^ 32 := fun i => by
    rw [← hf]
    exact UInt32.toNat_lt _
  have hhashes : hashes hashFuncs (seeds hashFuncs tweak) key =
      pack 64 ((List.range hashFuncs).map f) := by
    rw [hashes_eq, states, List.map_map, ← hf]
    rfl
  have hindex : ∀ i, f i * size / 2 ^ 33 < 2 ^ 32 := fun i => by
    have hprod := mul_lt_lane hlt hsize i
    omega
  have hbit : ∀ i, f i % 64 < 2 ^ 32 := fun i => (Nat.mod_lt _ (by decide)).trans (by decide)
  unfold positions
  dsimp only
  rw [hhashes, index_lanes hlt hsize, bit_lanes hlt, unpack_lanes hindex, unpack_lanes hbit,
    List.zip_map', ← hf]

theorem positions_eq_sample :
    positions 2 100 (seeds 2 7) [1, 2, 3] = (List.range 2).map fun n =>
      let h := (MurmurHash3.hash (UInt32.ofNat (seedOf 7 n)) [1, 2, 3]).toNat
      (h * 100 / 2 ^ 33, h % 64) :=
  positions_eq 2 100 7 [1, 2, 3] (by decide)

end BtclibNode.RollingBloom
