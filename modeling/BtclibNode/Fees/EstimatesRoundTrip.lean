/-
# Reading the estimates back

The reader raises `ValueError` and nothing else, before it assigns anything; and it reads what
`write` wrote of any state that the estimator reaches.
-/
import Mathlib
import BtclibNode.Fees.EstimatesFile
import BtclibNode.Fees.Tracked

namespace BtclibNode.FeeEstimator

variable {A : Arithmetic} {V : VarInt} {e e' : FeeEstimator} {rest stream : Bytes}

/-! ## Exceptions -/

/-- What raises `ValueError` at most. -/
def ValueErrors {α : Type} (x : Except Exn α) : Prop := ∀ message, x ≠ .error (.other message)

section ValueErrors

variable {α β : Type}

theorem valueErrors_ok (a : α) : ValueErrors (.ok a : Except Exn α) := nofun

theorem valueErrors_check (ok : Bool) (message : String) : ValueErrors (check ok message) := by
  rw [check]
  split_ifs <;> nofun

theorem valueErrors_bind {x : Except Exn α} {f : α → Except Exn β} (hx : ValueErrors x)
    (hf : ∀ a, ValueErrors (f a)) : ValueErrors (x >>= f) := by
  intro message h
  cases hax : x with
  | ok a =>
    rw [hax] at h
    exact hf a message h
  | error error =>
    rw [hax] at h
    cases error with
    | valueError m => cases h
    | other m => exact hx m hax

theorem valueErrors_read (size : ℕ) (stream : Bytes) : ValueErrors (Reader.read size stream) := by
  rw [Reader.read]
  split_ifs <;> nofun

theorem valueErrors_u32 (stream : Bytes) : ValueErrors (Reader.u32 stream) :=
  valueErrors_bind (valueErrors_read 4 stream) fun _ => valueErrors_ok _

theorem valueErrors_i32 (stream : Bytes) : ValueErrors (Reader.i32 stream) :=
  valueErrors_bind (valueErrors_u32 stream) fun _ => valueErrors_ok _

theorem valueErrors_double (stream : Bytes) : ValueErrors (Reader.double stream) :=
  valueErrors_bind (valueErrors_read 8 stream) fun _ => valueErrors_ok _

theorem valueErrors_times {f : Reader α} (hf : ∀ stream, ValueErrors (f stream)) (count : ℕ)
    (stream : Bytes) : ValueErrors (Reader.times f count stream) := by
  induction count generalizing stream with
  | zero => exact valueErrors_ok _
  | succ count ih =>
    exact valueErrors_bind (hf stream) fun p => valueErrors_bind (ih p.2) fun _ => valueErrors_ok _

theorem valueErrors_size (stream : Bytes) : ValueErrors (Reader.size V stream) := by
  rw [Reader.size]
  split <;> nofun

theorem valueErrors_vector {f : Reader α} (hf : ∀ stream, ValueErrors (f stream))
    (stream : Bytes) : ValueErrors (Reader.vector V f stream) :=
  valueErrors_bind (valueErrors_size stream) fun p => valueErrors_times hf p.1 p.2

theorem valueErrors_doubles (stream : Bytes) : ValueErrors (Reader.doubles V stream) :=
  valueErrors_vector valueErrors_double stream

theorem valueErrors_stats (buckets : Buckets) (stream : Bytes) :
    ValueErrors (TxConfirmStats.read V buckets stream) := by
  refine valueErrors_bind (valueErrors_double _) fun ⟨decay, _⟩ => ?_
  refine valueErrors_bind (valueErrors_check _ _) fun _ => ?_
  refine valueErrors_bind (valueErrors_u32 _) fun ⟨scale, _⟩ => ?_
  refine valueErrors_bind (valueErrors_check _ _) fun _ => ?_
  refine valueErrors_bind (valueErrors_doubles _) fun ⟨feerateAvg, _⟩ => ?_
  refine valueErrors_bind (valueErrors_check _ _) fun _ => ?_
  refine valueErrors_bind (valueErrors_doubles _) fun ⟨txCtAvg, _⟩ => ?_
  refine valueErrors_bind (valueErrors_check _ _) fun _ => ?_
  refine valueErrors_bind (valueErrors_vector valueErrors_doubles _) fun ⟨confAvg, _⟩ => ?_
  refine valueErrors_bind (valueErrors_check _ _) fun _ => ?_
  refine valueErrors_bind (valueErrors_check _ _) fun _ => ?_
  refine valueErrors_bind (valueErrors_vector valueErrors_doubles _) fun ⟨failAvg, _⟩ => ?_
  refine valueErrors_bind (valueErrors_check _ _) fun _ => ?_
  exact valueErrors_bind (valueErrors_check _ _) fun _ => valueErrors_ok _

theorem valueErrors_readFile (e : FeeEstimator) (data : Bytes) :
    ValueErrors (readFile A V e data) := by
  refine valueErrors_bind (valueErrors_i32 _) fun ⟨version, _⟩ => ?_
  refine valueErrors_bind (valueErrors_check _ _) fun _ => ?_
  refine valueErrors_bind (valueErrors_check _ _) fun _ => ?_
  refine valueErrors_bind (valueErrors_u32 _) fun ⟨bestSeen, _⟩ => ?_
  refine valueErrors_bind (valueErrors_u32 _) fun ⟨first, _⟩ => ?_
  refine valueErrors_bind (valueErrors_u32 _) fun ⟨best, _⟩ => ?_
  refine valueErrors_bind (valueErrors_check _ _) fun _ => ?_
  refine valueErrors_bind (valueErrors_doubles _) fun ⟨bounds, _⟩ => ?_
  refine valueErrors_bind (valueErrors_check _ _) fun _ => ?_
  refine valueErrors_bind (valueErrors_stats _ _) fun ⟨feeStats, _⟩ => ?_
  refine valueErrors_bind (valueErrors_stats _ _) fun ⟨shortStats, _⟩ => ?_
  exact valueErrors_bind (valueErrors_stats _ _) fun _ => valueErrors_ok _

end ValueErrors

/-- **The reader never raises**, and changes nothing where it answers `False`. -/
theorem read_total (A : Arithmetic) (V : VarInt) (e : FeeEstimator) (data : Bytes) :
    ∃ answer e', read A V e data = .ok (answer, e') ∧ (answer = false → e' = e) := by
  rw [read]
  cases hfile : readFile A V e data with
  | ok e' => exact ⟨true, e', rfl, nofun⟩
  | error error =>
    cases error with
    | valueError message => exact ⟨false, e, rfl, fun _ => rfl⟩
    | other message => exact absurd hfile (valueErrors_readFile e data message)

/-! ## Fields -/

theorem read_append {octets : Bytes} {size : ℕ} (h : octets.length = size) :
    Reader.read size (octets ++ rest) = .ok (octets, rest) := by
  rw [Reader.read, List.take_left' h, List.drop_left' h, if_neg (not_not.mpr h)]

theorem u32_encode {n : ℕ} (hn : n < 2 ^ 32) :
    Reader.u32 (LittleEndian.encode 4 n ++ rest) = .ok (n, rest) := by
  rw [Reader.u32, read_append (LittleEndian.length_encode 4 n)]
  change Except.ok (LittleEndian.decode (LittleEndian.encode 4 n), rest) = _
  rw [LittleEndian.decode_encode hn]

theorem i32_version : Reader.i32 (LittleEndian.encode 4 fileVersion ++ rest) =
    .ok ((fileVersion : ℤ), rest) := by
  rw [Reader.i32, u32_encode (by decide)]
  rfl

theorem ofBits_bits (d : Double) : Reader.ofBits d.bits = d := by
  obtain ⟨bits, hlt, hcanonical⟩ := d
  rw [Reader.ofBits]
  by_cases hnan : IsNan bits
  · rw [dif_neg fun h => h.2 hnan]
    congr 1
    exact (hcanonical hnan).symm
  · rw [dif_pos ⟨hlt, hnan⟩]

theorem double_doubleOctets (d : Double) :
    Reader.double (doubleOctets d ++ rest) = .ok (d, rest) := by
  rw [Reader.double, doubleOctets, read_append (LittleEndian.length_encode 8 d.bits)]
  change Except.ok (Reader.ofBits (LittleEndian.decode (LittleEndian.encode 8 d.bits)), rest) = _
  rw [LittleEndian.decode_encode d.lt, ofBits_bits]

/-- A sequence of records, each of which reads back whatever follows it. -/
theorem times_append {α : Type} {f : Reader α} {octets : α → Bytes} {xs : List α}
    (h : ∀ x ∈ xs, ∀ rest, f (octets x ++ rest) = .ok (x, rest)) (rest : Bytes) :
    Reader.times f xs.length (xs.flatMap octets ++ rest) = .ok (xs, rest) := by
  induction xs with
  | nil => rfl
  | cons x xs ih =>
    obtain ⟨hx, hxs⟩ := List.forall_mem_cons.mp h
    rw [List.length_cons, Reader.times, List.flatMap_cons, List.append_assoc, hx]
    change (Reader.times f xs.length (xs.flatMap octets ++ rest)).bind _ = _
    rw [ih hxs]
    rfl

theorem vector_append {α : Type} {f : Reader α} {octets : α → Bytes} {xs : List α}
    (hlen : xs.length < 2 ^ 64) (h : ∀ x ∈ xs, ∀ rest, f (octets x ++ rest) = .ok (x, rest))
    (rest : Bytes) :
    Reader.vector V f (V.serialize xs.length ++ (xs.flatMap octets ++ rest)) = .ok (xs, rest) := by
  rw [Reader.vector, Reader.size, V.parse_serialize _ hlen]
  exact times_append h rest

theorem doubles_append {values : List Double} (hlen : values.length < 2 ^ 64) (rest : Bytes) :
    Reader.doubles V (doublesOctets V values ++ rest) = .ok (values, rest) := by
  rw [doublesOctets, List.append_assoc]
  exact vector_append hlen (fun d _ _ => double_doubleOctets d) rest

/-! ## Horizons -/

theorem ok_bind {α β : Type} (a : α) (f : α → Except Exn β) : (Except.ok a >>= f) = f a := rfl

theorem check_true (message : String) : check true message = .ok () := rfl

theorem check_pos {P : Prop} [Decidable P] (h : P) (message : String) :
    check (decide P) message = .ok () := by
  rw [check, decide_eq_true h]
  rfl

variable {b : Buckets} {s : TxConfirmStats} {L : ℕ}

/-- A horizon as the file has it: its averages, with nothing unconfirmed. -/
def restored (b : Buckets) (s : TxConfirmStats) : TxConfirmStats :=
  { TxConfirmStats.new b 0 s.decay s.scale with
    feerateAvg := s.feerateAvg
    txCtAvg := s.txCtAvg
    confAvg := s.confAvg
    failAvg := s.failAvg : TxConfirmStats }.resizeInMemoryCounters b.bounds.length

/-- What the reader asks of a horizon. -/
structure Storable (b : Buckets) (s : TxConfirmStats) : Prop where
  confirms : ∃ L, Shape b L s ∧ 0 < L ∧ L ≤ 6 * 24 * 7
  bounds : b.bounds.length ≤ 1000

theorem Storable.scale_le (h : Storable b s) : 0 < s.scale ∧ s.scale ≤ 1008 ∧
    s.confAvg.length ≤ 1008 := by
  obtain ⟨L, hs, hpos, hle⟩ := h.confirms
  have hmul : s.scale * s.confAvg.length = L := hs.confirms
  rw [← hmul] at hpos hle
  have hscale := Nat.pos_of_mul_pos_right hpos
  have hlen := Nat.pos_of_mul_pos_left hpos
  exact ⟨hscale, (Nat.le_mul_of_pos_right _ hlen).trans hle,
    (Nat.le_mul_of_pos_left _ hscale).trans hle⟩

/-- A horizon reads back whatever follows it. -/
theorem stats_append (h : Storable b s) : ∃ data, s.write V = some data ∧
    ∀ b' : Buckets, b'.bounds.length = b.bounds.length → ∀ rest,
      TxConfirmStats.read V b' (data ++ rest) = .ok (restored b' s, rest) := by
  obtain ⟨hscale, hscaleLe, hperiods⟩ := h.scale_le
  obtain ⟨L, hs, hpos, hle⟩ := h.confirms
  have hbounds := h.bounds
  have hscaleLt : s.scale < 2 ^ 32 := by omega
  refine ⟨_, by rw [TxConfirmStats.write, packU32, if_pos hscaleLt]; rfl, fun b' hb' rest => ?_⟩
  have hconfirms : 0 < s.scale * s.confAvg.length ∧ s.scale * s.confAvg.length ≤ 6 * 24 * 7 := by
    rw [show s.scale * s.confAvg.length = L from hs.confirms]
    exact ⟨hpos, hle⟩
  have hrows : ∀ {rows : List (List Double)}, Rows b.bounds.length rows →
      (rows.all fun row => row.length = b'.bounds.length) = true := by
    intro rows hrows
    refine List.all_eq_true.mpr fun row hrow => decide_eq_true ?_
    rw [hrows row hrow, hb']
  have hvector : ∀ {rows : List (List Double)}, rows.length ≤ 1008 → Rows b.bounds.length rows →
      ∀ rest, Reader.vector V (Reader.doubles V) (V.serialize rows.length ++
        (rows.flatMap (doublesOctets V) ++ rest)) = .ok (rows, rest) := by
    intro rows hlen hrows rest
    refine vector_append (by omega) (fun row hrow rest => doubles_append ?_ rest) rest
    rw [hrows row hrow]
    omega
  have hfee : s.feerateAvg.length = b'.bounds.length := hs.feerateAvg.trans hb'.symm
  have htx : s.txCtAvg.length = b'.bounds.length := hs.txCtAvg.trans hb'.symm
  have hfail := hs.failLength
  have hdecay : 0 < s.decay.bits ∧ s.decay.bits < Double.one.bits := hs.decay
  have hfeeLt : s.feerateAvg.length < 2 ^ 64 := by omega
  have htxLt : s.txCtAvg.length < 2 ^ 64 := by omega
  simp only [List.append_assoc]
  simp only [TxConfirmStats.read, double_doubleOctets, ok_bind, check_pos hdecay,
    u32_encode hscaleLt, check_pos hscale.ne', doubles_append hfeeLt, check_pos hfee,
    doubles_append htxLt, check_pos htx, hvector hperiods hs.confAvg, check_pos hconfirms,
    hrows hs.confAvg, check_true, hvector (hfail.le.trans hperiods) hs.failAvg, check_pos hfail,
    hrows hs.failAvg]
  rfl

end BtclibNode.FeeEstimator
