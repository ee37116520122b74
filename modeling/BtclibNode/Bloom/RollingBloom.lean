/-
# The rolling bloom filter

`rolling_bloom.py`: one number holds every run of the hash, 64 bits a lane, and two planes
of words hold the generation of each position, its low bit and its high bit.
-/
import BtclibNode.Lib.LittleEndian
import Mathlib.Data.Int.Bitwise

namespace BtclibNode.RollingBloom

abbrev Bytes := List UInt8

def mask32 : ℕ := 0xFFFFFFFF
def c1 : ℕ := 0xCC9E2D51
def c2 : ℕ := 0x1B873593

/-! ## Lanes -/

/-- `_lanes`. -/
def lanes (hashFuncs : ℕ) : ℕ := ((List.range hashFuncs).map fun n => 1 <<< (64 * n)).sum

/-- `_lane_mask`. -/
def laneMask (hashFuncs : ℕ) : ℕ := mask32 * lanes hashFuncs

/-- `_index_mask`. -/
def indexMask (hashFuncs : ℕ) : ℕ := (mask32 >>> 1) * lanes hashFuncs

/-- `_bit_mask`. -/
def bitMask (hashFuncs : ℕ) : ℕ := 63 * lanes hashFuncs

/-- `_add`. -/
def addend (hashFuncs : ℕ) : ℕ := 0xE6546B64 * lanes hashFuncs

/-- What seeds the hash function `n`: the low 32 bits of a number that may be negative. -/
def seedOf (tweak : ℤ) (n : ℕ) : ℕ := ((n * 0xFBA4C795 + tweak) % 2 ^ 32).toNat

/-- `_set_tweak`. -/
def seeds (hashFuncs : ℕ) (tweak : ℤ) : ℕ :=
  ((List.range hashFuncs).map fun n => seedOf tweak n <<< (64 * n)).sum

/-- `struct.iter_unpack("<I", ..)`. -/
def iterUnpack : Bytes → List ℕ
  | a :: b :: c :: d :: key => LittleEndian.decode [a, b, c, d] :: iterUnpack key
  | _ => []

/-- `k1`, from a block or from the tail. -/
def k1 (block : ℕ) : ℕ :=
  let k1 := (block * c1) &&& mask32
  let k1 := ((k1 <<< 15) ||| (k1 >>> 17)) &&& mask32
  (k1 * c2) &&& mask32

/-- The loop of `_hashes` over a block. -/
def hashBlock (hashFuncs h block : ℕ) : ℕ :=
  let h := h ^^^ (k1 block * lanes hashFuncs)
  let h := ((h <<< 13) ||| (h >>> 19)) &&& laneMask hashFuncs
  (h * 5 + addend hashFuncs) &&& laneMask hashFuncs

/-- `_hashes`. -/
def hashes (hashFuncs seeds : ℕ) (key : Bytes) : ℕ :=
  let size := key.length
  let body := size - (size &&& 3)
  let h := (iterUnpack (key.take body)).foldl (hashBlock hashFuncs) seeds
  let h := if size &&& 3 ≠ 0 then
    h ^^^ (k1 (LittleEndian.decode (key.drop body)) * lanes hashFuncs) else h
  let h := h ^^^ ((size &&& mask32) * lanes hashFuncs)
  let h := (h ^^^ (h >>> 16)) &&& laneMask hashFuncs
  let h := (h * 0x85EBCA6B) &&& laneMask hashFuncs
  let h := (h ^^^ (h >>> 13)) &&& laneMask hashFuncs
  let h := (h * 0xC2B2AE35) &&& laneMask hashFuncs
  (h ^^^ (h >>> 16)) &&& laneMask hashFuncs

/-- `_unpack`: the low half of each lane. -/
def unpack : ℕ → Bytes → List ℕ
  | 0, _ => []
  | n + 1, octets => LittleEndian.decode (octets.take 4) :: unpack n (octets.drop 8)

/-- `_positions`. -/
def positions (hashFuncs size seeds : ℕ) (key : Bytes) : List (ℕ × ℕ) :=
  let h := hashes hashFuncs seeds key
  let nBytes := 8 * hashFuncs
  let index := ((h * size) >>> 33) &&& indexMask hashFuncs
  let bit := h &&& bitMask hashFuncs
  (unpack hashFuncs (LittleEndian.encode nBytes index)).zip
    (unpack hashFuncs (LittleEndian.encode nBytes bit))

/-! ## Planes -/

/-- `sys.byteorder`. -/
inductive ByteOrder where
  | little
  | big
  deriving DecidableEq, Repr

/-- `int.from_bytes`. -/
def fromBytes : ByteOrder → Bytes → ℕ
  | .little, octets => LittleEndian.decode octets
  | .big, octets => LittleEndian.decode octets.reverse

/-- `int.to_bytes`. -/
def toBytes : ByteOrder → ℕ → ℕ → Bytes
  | .little, n, length => LittleEndian.encode length n
  | .big, n, length => (LittleEndian.encode length n).reverse

/-- The octets of an array of words. -/
def memory (order : ByteOrder) (words : List ℕ) : Bytes :=
  words.flatMap fun word => toBytes order word 8

/-- The words of an array from its octets. -/
def wordsOf (order : ByteOrder) : ℕ → Bytes → List ℕ
  | 0, _ => []
  | n + 1, octets => fromBytes order (octets.take 8) :: wordsOf order n (octets.drop 8)

structure RollingBloomFilter where
  hashFuncs : ℕ
  perGeneration : ℕ
  words : ℕ
  planes : Option (List ℕ × List ℕ)
  generation : ℕ
  thisGeneration : ℕ
  seeds : ℕ

namespace RollingBloomFilter

/-- `__init__`, from what it computes in floating point: the hash functions it rounds to and
the bits it asks for. -/
def init (nElements : ℕ) (rounded : ℤ) (filterBits : ℕ) (tweak : ℤ) : RollingBloomFilter :=
  let hashFuncs := (max 1 (min rounded 50)).toNat
  { hashFuncs := hashFuncs
    perGeneration := (nElements + 1) / 2
    words := (filterBits + 63) / 64
    planes := none
    generation := 1
    thisGeneration := 0
    seeds := RollingBloom.seeds hashFuncs tweak }

/-- `_size`. -/
def size (f : RollingBloomFilter) : ℕ := f.words * 2

def reset (f : RollingBloomFilter) (tweak : ℤ) : RollingBloomFilter :=
  { f with
    seeds := RollingBloom.seeds f.hashFuncs tweak
    planes := none
    generation := 1
    thisGeneration := 0 }

/-- `_positions`. -/
def positions (f : RollingBloomFilter) (key : Bytes) : List (ℕ × ℕ) :=
  RollingBloom.positions f.hashFuncs f.size f.seeds key

end RollingBloomFilter

/-- The wipe of `_next_generation`: what it keeps of both planes. -/
def wipe (order : ByteOrder) (words generation : ℕ) (planes : List ℕ × List ℕ) :
    List ℕ × List ℕ :=
  let lo : ℤ := fromBytes order (memory order planes.1)
  let hi : ℤ := fromBytes order (memory order planes.2)
  let keep := Int.lor (Int.xor lo (-((generation &&& 1 : ℕ) : ℤ)))
    (Int.xor hi (-((generation >>> 1 : ℕ) : ℤ)))
  let nBytes := 8 * words
  (wordsOf order words (toBytes order (Int.land lo keep).toNat nBytes),
    wordsOf order words (toBytes order (Int.land hi keep).toNat nBytes))

/-- A word with a bit cleared and set to `value`. -/
def putBit (word value bit : ℕ) : ℕ :=
  (Int.lor (Int.land word (Int.lnot ((1 <<< bit : ℕ) : ℤ))) ((value <<< bit : ℕ) : ℤ)).toNat

/-- A turn of the loop of `add`; there is none where an index is out of range. -/
def mark (generation : ℕ) (planes : List ℕ × List ℕ) (position : ℕ × ℕ) :
    Option (List ℕ × List ℕ) := do
  let (index, bit) := position
  let lo ← planes.1[index]?
  let hi ← planes.2[index]?
  some (planes.1.set index (putBit lo (generation &&& 1) bit),
    planes.2.set index (putBit hi (generation >>> 1) bit))

namespace RollingBloomFilter

/-- `add`. -/
def add (order : ByteOrder) (f : RollingBloomFilter) (key : Bytes) :
    Option RollingBloomFilter := do
  let planes := f.planes.getD (List.replicate f.words 0, List.replicate f.words 0)
  let next := f.thisGeneration = f.perGeneration
  let generation := if next then f.generation % 3 + 1 else f.generation
  let thisGeneration := if next then 0 else f.thisGeneration
  let planes := if next then wipe order f.words generation planes else planes
  let planes ← (f.positions key).foldlM (mark generation) planes
  some { f with
    planes := some planes
    generation := generation
    thisGeneration := thisGeneration + 1 }

/-- `__contains__`. -/
def contains (f : RollingBloomFilter) (key : Bytes) : Option Bool :=
  match f.planes with
  | none => some false
  | some (lo, hi) => (f.positions key).allM fun (index, bit) => do
    let low ← lo[index]?
    let high ← hi[index]?
    some (decide (((low ||| high) >>> bit) &&& 1 ≠ 0))

end RollingBloomFilter

/-! ## Runs -/

/-- A call that changes a filter. -/
inductive Call where
  | add (key : Bytes)
  | reset (tweak : ℤ)

def Call.run (order : ByteOrder) (f : RollingBloomFilter) : Call → Option RollingBloomFilter
  | .add key => f.add order key
  | .reset tweak => some (f.reset tweak)

/-- A filter after a sequence of calls. -/
def run (order : ByteOrder) (f : RollingBloomFilter) (calls : List Call) :
    Option RollingBloomFilter :=
  calls.foldlM (Call.run order) f

/-- The tweak, and the keys added since the last reset, the oldest first. -/
def record : ℤ × List Bytes → Call → ℤ × List Bytes
  | (tweak, keys), .add key => (tweak, keys ++ [key])
  | _, .reset tweak => (tweak, [])

/-- What a sequence of calls leaves to remember. -/
def history (tweak : ℤ) (calls : List Call) : ℤ × List Bytes :=
  calls.foldl record (tweak, [])

end BtclibNode.RollingBloom
