/-
# The estimates file

`FeeEstimator.write` and `read`, octet for octet.  An exception of the reader is a
`ValueError` or any other; it is the first that `read` answers `False` to.
-/
import Mathlib
import BtclibNode.Fees.Estimator
import BtclibNode.Lib.LittleEndian

namespace BtclibNode.FeeEstimator

/-- An exception, by its class as far as a handler looks at it. -/
inductive Exn where
  | valueError (message : String)
  | other (message : String)
  deriving DecidableEq, Repr

/-- `btclib.var_int`. -/
structure VarInt where
  parse : Bytes → Except Exn (ℕ × Bytes)
  serialize : ℕ → Bytes
  parse_serialize : ∀ n < 2 ^ 64, ∀ rest, parse (serialize n ++ rest) = .ok (n, rest)

def fileVersion : ℕ := 309900

/-! ## Octets -/

/-- `_Reader`, and what is left of its stream. -/
abbrev Reader (α : Type) := Bytes → Except Exn (α × Bytes)

namespace Reader

/-- `read`. -/
def read (size : ℕ) : Reader Bytes := fun stream =>
  if (stream.take size).length ≠ size then .error (.valueError "AutoFile::read: end of file")
  else .ok (stream.take size, stream.drop size)

/-- `u32`. -/
def u32 : Reader ℕ := fun stream => do
  let (octets, stream) ← read 4 stream
  .ok (LittleEndian.decode octets, stream)

/-- `i32`. -/
def i32 : Reader ℤ := fun stream => do
  let (n, stream) ← u32 stream
  .ok (if n < 2 ^ 31 then (n : ℤ) else n - 2 ^ 32, stream)

/-- The double of eight octets: any NaN is the one. -/
def ofBits (bits : ℕ) : Double :=
  if h : bits < 2 ^ 64 ∧ ¬ IsNan bits then ⟨bits, h.1, fun hnan => absurd hnan h.2⟩
  else ⟨nanBits, by decide, fun _ => rfl⟩

/-- `double`. -/
def double : Reader Double := fun stream => do
  let (octets, stream) ← read 8 stream
  .ok (ofBits (LittleEndian.decode octets), stream)

/-- `[f() for _ in range(count)]`. -/
def times {α : Type} (f : Reader α) : ℕ → Reader (List α)
  | 0, stream => .ok ([], stream)
  | count + 1, stream => do
    let (x, stream) ← f stream
    let (xs, stream) ← times f count stream
    .ok (x :: xs, stream)

variable (V : VarInt)

/-- `size`. -/
def size : Reader ℕ := fun stream =>
  match V.parse stream with
  | .ok n => .ok n
  | .error (.valueError message) => .error (.valueError message)
  | .error (.other message) => .error (.valueError message)

/-- `[f() for _ in range(reader.size())]`. -/
def vector {α : Type} (f : Reader α) : Reader (List α) := fun stream => do
  let (count, stream) ← size V stream
  times f count stream

/-- `doubles`. -/
def doubles : Reader (List Double) := vector V double

end Reader

/-- `raise ValueError(msg)` where a check fails. -/
def check (ok : Bool) (message : String) : Except Exn Unit :=
  if ok then .ok () else .error (.valueError message)

/-- `_double`. -/
def doubleOctets (value : Double) : Bytes := LittleEndian.encode 8 value.bits

/-- `struct.pack` of an unsigned number of 32 bits. -/
def packU32 (n : ℕ) : Option Bytes := if n < 2 ^ 32 then some (LittleEndian.encode 4 n) else none

section File

variable (A : Arithmetic) (V : VarInt)

/-- `_doubles`. -/
def doublesOctets (values : List Double) : Bytes :=
  V.serialize values.length ++ values.flatMap doubleOctets

namespace TxConfirmStats

/-- `write`. -/
def write (s : TxConfirmStats) : Option Bytes := do
  let scale ← packU32 s.scale
  some (doubleOctets s.decay ++ (scale ++ (doublesOctets V s.feerateAvg ++
    (doublesOctets V s.txCtAvg ++ ((V.serialize s.confAvg.length ++
      s.confAvg.flatMap (doublesOctets V)) ++ (V.serialize s.failAvg.length ++
        s.failAvg.flatMap (doublesOctets V)))))))

/-- `read`. -/
def read (buckets : Buckets) : Reader TxConfirmStats := fun stream => do
  let count := buckets.bounds.length
  let (decay, stream) ← Reader.double stream
  check (0 < decay.bits ∧ decay.bits < Double.one.bits)
    "Corrupt estimates file. Decay must be between 0 and 1 (non-inclusive)"
  let (scale, stream) ← Reader.u32 stream
  check (scale ≠ 0) "Corrupt estimates file. Scale must be non-zero"
  let stats := new buckets 0 decay scale
  let (feerateAvg, stream) ← Reader.doubles V stream
  check (feerateAvg.length = count)
    "Corrupt estimates file. Mismatch in feerate average bucket count"
  let (txCtAvg, stream) ← Reader.doubles V stream
  check (txCtAvg.length = count)
    "Corrupt estimates file. Mismatch in tx count bucket count"
  let (confAvg, stream) ← Reader.vector V (Reader.doubles V) stream
  let maxPeriods := confAvg.length
  check (0 < scale * maxPeriods ∧ scale * maxPeriods ≤ 6 * 24 * 7)
    ("Corrupt estimates file.  Must maintain estimates for between 1 " ++
      "and 1008 (one week) confirms")
  check (confAvg.all fun row => row.length = count)
    "Corrupt estimates file. Mismatch in feerate conf average bucket count"
  let (failAvg, stream) ← Reader.vector V (Reader.doubles V) stream
  check (failAvg.length = maxPeriods)
    "Corrupt estimates file. Mismatch in confirms tracked for failures"
  check (failAvg.all fun row => row.length = count)
    "Corrupt estimates file. Mismatch in one of failure average bucket counts"
  let stats := { stats with
    feerateAvg := feerateAvg, txCtAvg := txCtAvg, confAvg := confAvg, failAvg := failAvg }
  .ok (stats.resizeInMemoryCounters count, stream)

end TxConfirmStats

/-- `_block_span`. -/
def blockSpan (e : FeeEstimator) : ℤ :=
  if e.firstRecordedHeight = 0 then 0 else (e.bestSeenHeight : ℤ) - e.firstRecordedHeight

/-- `_historical_block_span`. -/
def historicalBlockSpan (e : FeeEstimator) : ℤ :=
  if e.historicalFirst = 0 then 0
  else if (oldestEstimateHistory : ℤ) < (e.bestSeenHeight : ℤ) - e.historicalBest then 0
  else (e.historicalBest : ℤ) - e.historicalFirst

/-- The historical range that `write` chooses. -/
def writtenRange (e : FeeEstimator) : ℕ × ℕ :=
  if e.historicalBlockSpan / 2 < e.blockSpan then (e.firstRecordedHeight, e.bestSeenHeight)
  else (e.historicalFirst, e.historicalBest)

/-- `write`; `struct.pack` raises on a height that has no 32 bits. -/
def write (e : FeeEstimator) : Option Bytes := do
  let (first, best) := e.writtenRange
  let bestSeen ← packU32 e.bestSeenHeight
  let first ← packU32 first
  let best ← packU32 best
  let feeStats ← e.feeStats.write V
  let shortStats ← e.shortStats.write V
  let longStats ← e.longStats.write V
  some (LittleEndian.encode 4 fileVersion ++ (bestSeen ++ (first ++ (best ++
    (doublesOctets V e.buckets.bounds ++ (feeStats ++ (shortStats ++ longStats)))))))

/-- `_read`, whose assignments all come last. -/
def readFile (e : FeeEstimator) (data : Bytes) : Except Exn FeeEstimator := do
  let (version, stream) ← Reader.i32 data
  check (¬ fileVersion < version) s!"File version ({version}) too high to be read."
  check (¬ version < fileVersion) s!"File version ({version}) incompatible: Too old to be read"
  let (bestSeen, stream) ← Reader.u32 stream
  let (first, stream) ← Reader.u32 stream
  let (best, stream) ← Reader.u32 stream
  check (¬ (best < first ∨ bestSeen < best))
    "Corrupt estimates file. Historical block range for estimates is invalid"
  let (bounds, stream) ← Reader.doubles V stream
  check (1 < bounds.length ∧ bounds.length ≤ 1000)
    "Corrupt estimates file. Must have between 2 and 1000 feerate buckets"
  let buckets := Buckets.new A bounds
  let (feeStats, stream) ← TxConfirmStats.read V buckets stream
  let (shortStats, stream) ← TxConfirmStats.read V buckets stream
  let (longStats, _) ← TxConfirmStats.read V buckets stream
  .ok { e with
    buckets := buckets
    feeStats := feeStats
    shortStats := shortStats
    longStats := longStats
    bestSeenHeight := bestSeen
    historicalFirst := first
    historicalBest := best }

/-- `read`: what it answers, and the estimator afterwards. -/
def read (e : FeeEstimator) (data : Bytes) : Except Exn (Bool × FeeEstimator) :=
  match readFile A V e data with
  | .ok e => .ok (true, e)
  | .error (.valueError _) => .ok (false, e)
  | .error (.other message) => .error (.other message)

end File

end BtclibNode.FeeEstimator

/-!
# The arithmetic of IEEE

Binary64 addition and multiplication, to nearest with ties to even.  A finite magnitude is a
whole number of units of `2 ^ -1074`.
-/

namespace BtclibNode.FeeEstimator.Ieee

open FeeEstimator

def negative (d : Double) : Bool := decide (2 ^ 63 ≤ d.bits)

def magnitude (d : Double) : ℕ := d.bits % 2 ^ 63

def isNan (d : Double) : Bool := decide (exponentBits < magnitude d)

def isInfinite (d : Double) : Bool := magnitude d = exponentBits

/-- The units of a finite magnitude. -/
def units (d : Double) : ℕ :=
  let exponent := magnitude d / 2 ^ 52
  let fraction := magnitude d % 2 ^ 52
  if exponent = 0 then fraction else (2 ^ 52 + fraction) * 2 ^ (exponent - 1)

def ofParts (neg : Bool) (bits : ℕ) : Double :=
  Reader.ofBits (if neg then 2 ^ 63 + bits else bits)

def nan : Double := Reader.ofBits nanBits

/-- The double nearest to `n` times `2 ^ -k` units. -/
def round (neg : Bool) (n k : ℕ) : Double :=
  let drop := max k (Nat.log2 n + 1 - 53)
  let quotient := n / 2 ^ drop
  let rest := n % 2 ^ drop
  let up := 2 ^ drop < 2 * rest ∨ 2 * rest = 2 ^ drop ∧ quotient % 2 = 1
  let rounded := if up then quotient + 1 else quotient
  -- a carry out of the fraction is one into the exponent
  ofParts neg (min exponentBits ((drop - k) * 2 ^ 52 + rounded))

/-- The value of a finite double, in units. -/
def value (d : Double) : ℤ := if negative d then -(units d : ℤ) else units d

def add (x y : Double) : Double :=
  if isNan x ∨ isNan y then nan
  else if isInfinite x then
    if isInfinite y ∧ negative x ≠ negative y then nan else x
  else if isInfinite y then y
  else
    let sum := value x + value y
    round (if sum = 0 then negative x && negative y else decide (sum < 0)) sum.natAbs 0

def mul (x y : Double) : Double :=
  let neg := negative x != negative y
  if isNan x ∨ isNan y then nan
  else if isInfinite x ∨ isInfinite y then
    if magnitude x = 0 ∨ magnitude y = 0 then nan else ofParts neg exponentBits
  else round neg (units x * units y) 1074

/-- Where a double stands in the order, with both zeros at one place. -/
def rank (d : Double) : ℤ := if negative d then -(magnitude d : ℤ) else magnitude d

def lt (x y : Double) : Bool := !isNan x && !isNan y && decide (rank x < rank y)

def le (x y : Double) : Bool := !isNan x && !isNan y && decide (rank x ≤ rank y)

def equal (x y : Double) : Bool := !isNan x && !isNan y && decide (rank x = rank y)

/-- Whether the bound passes the largest feerate after exactly `n` turns. -/
def turnsFrom : ℕ → Double → Bool
  | 0, bound => !le bound maxBucketFeerate
  | n + 1, bound => le bound maxBucketFeerate && turnsFrom n (mul bound feeSpacing)

theorem turnsFrom_spec {n : ℕ} {bound : Double} (h : turnsFrom n bound = true) :
    (∀ i < n, le ((mul · feeSpacing)^[i] bound) maxBucketFeerate = true) ∧
      le ((mul · feeSpacing)^[n] bound) maxBucketFeerate = false := by
  induction n generalizing bound with
  | zero => exact ⟨fun i hi => absurd hi (Nat.not_lt_zero i), by simpa [turnsFrom] using h⟩
  | succ n ih =>
    rw [turnsFrom, Bool.and_eq_true] at h
    obtain ⟨hturn, hend⟩ := ih h.2
    refine ⟨fun i hi => ?_, hend⟩
    rcases i with _ | i
    · exact h.1
    · exact hturn i (by omega)

theorem turnsFrom_min : turnsFrom 236 minBucketFeerate = true := by decide +kernel

/-- The arithmetic of binary64. -/
def arithmetic : Arithmetic where
  add := add
  mul := mul
  float n := round (decide (n < 0)) (n.natAbs * 2 ^ 1074) 0
  lt := lt
  le := le
  equal := equal
  sorted l := l.mergeSort fun x y => !lt y x
  turns := 236
  sorted_perm l := List.mergeSort_perm l _
  turn := (turnsFrom_spec turnsFrom_min).1
  ended := (turnsFrom_spec turnsFrom_min).2
  turns_pos := by decide
  turns_lt := by decide

-- 0.1 + 0.2
example : add ⟨0x3FB999999999999A, by decide, by decide⟩ ⟨0x3FC999999999999A, by decide, by decide⟩
    = ⟨0x3FD3333333333334, by decide, by decide⟩ := by decide +kernel

end BtclibNode.FeeEstimator.Ieee
