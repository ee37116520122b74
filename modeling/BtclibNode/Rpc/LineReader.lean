/-
# `_LineReader` and `_FieldReader`

`rpc/connection.py`: lines and header fields read off the front of a buffer that
grows.  Octets are lists.  A reader owns the buffer it shares in the source with
the connection; a read that raises leaves the line reader as it was, `scan` apart.
-/
import Mathlib.Data.List.Basic
import Mathlib.Tactic.Common

namespace BtclibNode

/-- A string of octets. -/
abbrev Bytes := List UInt8

/-! ## What Python's `bytes` offers -/

/-- The octets of an ASCII literal. -/
def ascii (s : String) : Bytes := s.toList.map fun c => c.toNat.toUInt8

def lf : UInt8 := 10

def cr : UInt8 := 13

/-- `b.find(b"\n", start)`. -/
def findLf (b : Bytes) (start : ℕ) : Option ℕ :=
  ((b.drop start).findIdx? (· == lf)).map (· + start)

/-- `b.partition(bytes([sep]))`, the separator as whether it was found. -/
def partitionAt (sep : UInt8) (b : Bytes) : Bytes × Bool × Bytes :=
  match b.findIdx? (· == sep) with
  | none => (b, false, [])
  | some i => (b.take i, true, b.drop (i + 1))

/-- `_WHITESPACE`. -/
def whitespace : Bytes := [32, 12, 10, 13, 9, 11]

/-- `b.strip(_WHITESPACE)`. -/
def strip (b : Bytes) : Bytes :=
  ((b.dropWhile (whitespace.contains ·)).reverse.dropWhile (whitespace.contains ·)).reverse

/-- `b.lower()`. -/
def lower (b : Bytes) : Bytes :=
  b.map fun c => if 65 ≤ c ∧ c ≤ 90 then c + 32 else c

/-! ## The readers -/

/-- `MAX_HEADER_BYTES`. -/
def maxHeaderBytes : ℕ := 8192

/-- `MAX_BODY_BYTES`. -/
def maxBodyBytes : ℕ := 32 * 1024 * 1024

/-- `MalformedRequestHeadError` and `OversizedRequestBodyError`, with their detail. -/
inductive FramingError
  | malformed (detail : String)
  | oversized (detail : String)
  deriving DecidableEq, Repr

/-- What a read comes to: the reader to go on with, the end, or an exception. -/
inductive Reading (σ α ρ : Type)
  | more (reader : σ)
  | done (result : α)
  | refused (error : FramingError) (left : ρ)

/-- `_LineReader`; no octet before `scan` is a line feed. -/
@[ext]
structure LineReader where
  buffer : Bytes
  record : Option Bytes
  consumed : ℕ
  scan : ℕ
  scan_le : scan ≤ buffer.length
  scanned : lf ∉ buffer.take scan

namespace LineReader

/-- `__init__`. -/
def init (buffer : Bytes) (record : Option Bytes) : LineReader where
  buffer := buffer
  record := record
  consumed := 0
  scan := 0
  scan_le := Nat.zero_le _
  scanned := by rw [List.take_zero]; exact List.not_mem_nil

/-- `take`, what is taken being the front of the buffer. -/
def take (r : LineReader) (size : ℕ) : LineReader where
  buffer := r.buffer.drop size
  record := r.record.map (· ++ r.buffer.take size)
  consumed := r.consumed + size
  scan := 0
  scan_le := Nat.zero_le _
  scanned := by rw [List.take_zero]; exact List.not_mem_nil

theorem findLf_eq_none {r : LineReader} (h : findLf r.buffer r.scan = none) : lf ∉ r.buffer := by
  intro hmem
  rw [← List.take_append_drop r.scan r.buffer, List.mem_append] at hmem
  rcases hmem with hmem | hmem
  · exact r.scanned hmem
  · have hnone := List.findIdx?_eq_none_iff.1 (Option.map_eq_none_iff.1 h) lf hmem
    exact absurd hnone (by decide)

/-- `readln`. -/
def readln (r : LineReader) : Except FramingError (Option Bytes × LineReader) :=
  match h : findLf r.buffer r.scan with
  | none =>
    if r.buffer.length > maxHeaderBytes then
      .error (.malformed "a line past MAX_HEADER_BYTES")
    else
      .ok (none, { r with
        scan := r.buffer.length
        scan_le := Nat.le_refl _
        scanned := by rw [List.take_length]; exact findLf_eq_none h })
  | some eol =>
    if eol > maxHeaderBytes then
      .error (.malformed "a line past MAX_HEADER_BYTES")
    else
      let stop := if eol ≠ 0 ∧ r.buffer[eol - 1]? = some cr then eol - 1 else eol
      .ok (some (r.buffer.take stop), r.take (eol + 1))

/-- More octets at the end of the buffer. -/
def extend (r : LineReader) (data : Bytes) : LineReader where
  buffer := r.buffer ++ data
  record := r.record
  consumed := r.consumed
  scan := r.scan
  scan_le := by
    rw [List.length_append]
    exact Nat.le_add_right_of_le r.scan_le
  scanned := by
    rw [List.take_append_of_le_length r.scan_le]
    exact r.scanned

/-! ### What `readln` does -/

/-- A line without the carriage return that may end it. -/
def dropCr (e : Bytes) : Bytes := if e.getLast? = some cr then e.dropLast else e

/-- The refusal of a line past the limit. -/
def longLine : FramingError := .malformed "a line past MAX_HEADER_BYTES"

/-- The reader whose whole buffer is known to hold no line feed. -/
def scannedAll (r : LineReader) (h : lf ∉ r.buffer) : LineReader where
  buffer := r.buffer
  record := r.record
  consumed := r.consumed
  scan := r.buffer.length
  scan_le := Nat.le_refl _
  scanned := by rw [List.take_length]; exact h

/-- A string of octets holds a line feed, or none. -/
theorem exists_line (b : Bytes) : lf ∉ b ∨ ∃ e rest, b = e ++ lf :: rest ∧ lf ∉ e := by
  by_cases h : lf ∈ b
  · right
    exact List.eq_append_cons_of_mem h
  · exact .inl h

/-- The first line feed is found, `scan` being before it. -/
theorem findLf_eq_some {r : LineReader} {e rest : Bytes} (hb : r.buffer = e ++ lf :: rest)
    (he : lf ∉ e) : findLf r.buffer r.scan = some e.length := by
  have hscan : r.scan ≤ e.length := by
    apply Nat.le_of_not_lt
    intro hlt
    apply r.scanned
    rw [hb, List.take_append, List.mem_append]
    right
    obtain ⟨k, hk⟩ := Nat.exists_eq_add_of_lt hlt
    rw [show r.scan - e.length = k + 1 by omega, List.take_succ_cons]
    exact List.mem_cons_self
  have hnone : (e.drop r.scan).findIdx? (· == lf) = none := by
    rw [List.findIdx?_eq_none_iff]
    intro x hx
    apply beq_eq_false_iff_ne.2
    rintro rfl
    exact he (List.mem_of_mem_drop hx)
  unfold findLf
  rw [hb, List.drop_append_of_le_length hscan, List.findIdx?_append, hnone, List.findIdx?_cons]
  rw [beq_self_eq_true, if_pos rfl, List.length_drop]
  show some (0 + (e.length - r.scan) + r.scan) = some e.length
  rw [Nat.zero_add, Nat.sub_add_cancel hscan]

theorem findLf_of_not_mem {r : LineReader} (h : lf ∉ r.buffer) :
    findLf r.buffer r.scan = none := by
  unfold findLf
  rw [Option.map_eq_none_iff, List.findIdx?_eq_none_iff]
  intro x hx
  apply beq_eq_false_iff_ne.2
  rintro rfl
  exact h (List.mem_of_mem_drop hx)

section Readln

variable {r s : LineReader} {e rest line data : Bytes} {error : FramingError}

theorem readln_wait (h : lf ∉ r.buffer) (hlen : r.buffer.length ≤ maxHeaderBytes) :
    r.readln = .ok (none, r.scannedAll h) := by
  unfold readln
  split
  · rw [if_neg (Nat.not_lt.2 hlen)]
    rfl
  · next eol heol =>
    rw [findLf_of_not_mem h] at heol
    cases heol

theorem readln_long (h : lf ∉ r.buffer) (hlen : maxHeaderBytes < r.buffer.length) :
    r.readln = .error longLine := by
  unfold readln
  split
  · rw [if_pos hlen]
    rfl
  · next eol heol =>
    rw [findLf_of_not_mem h] at heol
    cases heol

theorem readln_line (hb : r.buffer = e ++ lf :: rest) (he : lf ∉ e) :
    r.readln = if maxHeaderBytes < e.length then .error longLine
      else .ok (some (dropCr e), r.take (e.length + 1)) := by
  have hfind := findLf_eq_some hb he
  have hstop : r.buffer.take (if e.length ≠ 0 ∧ r.buffer[e.length - 1]? = some cr
      then e.length - 1 else e.length) = dropCr e := by
    rw [hb]
    unfold dropCr
    rcases List.eq_nil_or_concat' e with rfl | ⟨front, last, rfl⟩
    · rfl
    · have hlen : (front ++ [last]).length = front.length + 1 := by simp
      rw [hlen, List.getLast?_concat, List.dropLast_concat, Nat.add_sub_cancel,
        List.append_assoc, List.getElem?_append_right (Nat.le_refl _), Nat.sub_self]
      by_cases hcr : last = cr
      · rw [hcr, if_pos ⟨Nat.succ_ne_zero _, rfl⟩, if_pos rfl, List.take_left]
      · rw [if_neg (by rintro ⟨-, h⟩; exact hcr (Option.some.inj h)),
          if_neg (by rintro h; exact hcr (Option.some.inj h)), ← List.append_assoc]
        exact List.take_left' hlen
  unfold readln
  split
  · next hnone =>
    rw [hfind] at hnone
    cases hnone
  · next eol heol =>
    rw [hfind] at heol
    cases heol
    by_cases hlen : maxHeaderBytes < e.length
    · rw [if_pos hlen, if_pos hlen]
      rfl
    · rw [if_neg hlen, if_neg hlen, ← hstop]

/-- A reader reads on alike wherever it had searched. -/
theorem readln_congr (hbuffer : r.buffer = s.buffer) (hrecord : r.record = s.record)
    (hconsumed : r.consumed = s.consumed) : r.readln = s.readln := by
  rcases exists_line r.buffer with hno | ⟨e, rest, hb, he⟩
  · have hno' : lf ∉ s.buffer := hbuffer ▸ hno
    rcases Nat.lt_or_ge maxHeaderBytes r.buffer.length with hlen | hlen
    · rw [readln_long hno hlen, readln_long hno' (hbuffer ▸ hlen)]
    · rw [readln_wait hno hlen, readln_wait hno' (hbuffer ▸ hlen)]
      have hall : r.scannedAll hno = s.scannedAll hno' := by
        refine LineReader.ext ?_ ?_ ?_ ?_
        · exact hbuffer
        · exact hrecord
        · exact hconsumed
        · exact congrArg List.length hbuffer
      rw [hall]
  · have htake : r.take (e.length + 1) = s.take (e.length + 1) := by
      refine LineReader.ext ?_ ?_ ?_ rfl
      · exact congrArg (List.drop _) hbuffer
      · show r.record.map _ = s.record.map _
        rw [hrecord, hbuffer]
      · exact congrArg (· + _) hconsumed
    rw [readln_line hb he, readln_line (hbuffer ▸ hb) he, htake]

/-- **A refused line stays refused** as more octets arrive. -/
theorem readln_extend_error (h : r.readln = .error error) :
    (r.extend data).readln = .error error := by
  rcases exists_line r.buffer with hno | ⟨e, rest, hb, he⟩
  · rcases Nat.lt_or_ge maxHeaderBytes r.buffer.length with hlen | hlen
    · rw [readln_long hno hlen] at h
      rw [← h]
      -- a line feed that arrives now ends a line past the limit
      rcases exists_line (r.extend data).buffer with hno' | ⟨e, rest, hb, he⟩
      · apply readln_long hno'
        show _ < (r.buffer ++ data).length
        rw [List.length_append]
        omega
      · rw [readln_line hb he, if_pos]
        apply Nat.lt_of_not_le
        intro hle
        apply hno
        have hpre : r.buffer <+: e ++ lf :: rest := ⟨data, hb⟩
        have hshort : e ++ [lf] <+: r.buffer := by
          apply List.prefix_of_prefix_length_le ⟨rest, by simp⟩ hpre
          rw [List.length_append, List.length_singleton]
          omega
        exact hshort.subset (by simp)
    · rw [readln_wait hno hlen] at h
      cases h
  · have hb' : (r.extend data).buffer = e ++ lf :: (rest ++ data) := by
      show r.buffer ++ data = _
      rw [hb, List.append_assoc, List.cons_append]
    rw [readln_line hb he] at h
    rw [readln_line hb' he]
    split at h
    · rw [if_pos (by assumption), ← h]
    · cases h

theorem readln_some (h : r.readln = .ok (some line, s)) :
    ∃ e rest, r.buffer = e ++ lf :: rest ∧ lf ∉ e ∧ e.length ≤ maxHeaderBytes ∧
      line = dropCr e ∧ s = r.take (e.length + 1) := by
  rcases exists_line r.buffer with hno | ⟨e, rest, hb, he⟩
  · rcases Nat.lt_or_ge maxHeaderBytes r.buffer.length with hlen | hlen
    · rw [readln_long hno hlen] at h
      cases h
    · rw [readln_wait hno hlen] at h
      cases h
  · rw [readln_line hb he] at h
    split at h
    · cases h
    · next hlen =>
      cases h
      exact ⟨e, rest, hb, he, Nat.le_of_not_lt hlen, rfl, rfl⟩

theorem readln_none (h : r.readln = .ok (none, s)) :
    s.buffer = r.buffer ∧ s.record = r.record ∧ s.consumed = r.consumed := by
  rcases exists_line r.buffer with hno | ⟨e, rest, hb, he⟩
  · rcases Nat.lt_or_ge maxHeaderBytes r.buffer.length with hlen | hlen
    · rw [readln_long hno hlen] at h
      cases h
    · rw [readln_wait hno hlen] at h
      cases h
      exact ⟨rfl, rfl, rfl⟩
  · rw [readln_line hb he] at h
    split at h <;> cases h

/-- What is taken of a buffer is taken of a longer one. -/
theorem take_extend {size : ℕ} (h : size ≤ r.buffer.length) :
    (r.extend data).take size = (r.take size).extend data := by
  refine LineReader.ext ?_ ?_ rfl rfl
  · exact List.drop_append_of_le_length h
  · show r.record.map (· ++ (r.buffer ++ data).take size) = r.record.map (· ++ r.buffer.take size)
    rw [List.take_append_of_le_length h]

/-- **A line read is the line read of a longer buffer.** -/
theorem readln_extend_some (h : r.readln = .ok (some line, s)) :
    (r.extend data).readln = .ok (some line, s.extend data) := by
  obtain ⟨e, rest, hb, he, hlen, rfl, rfl⟩ := readln_some h
  have hb' : (r.extend data).buffer = e ++ lf :: (rest ++ data) := by
    show r.buffer ++ data = _
    rw [hb, List.append_assoc, List.cons_append]
  rw [readln_line hb' he, if_neg (Nat.not_lt.2 hlen)]
  have hle : e.length + 1 ≤ r.buffer.length := by
    rw [hb, List.length_append, List.length_cons]
    omega
  rw [take_extend hle]

/-- **A read that waits goes on** as if it had not been made. -/
theorem readln_extend_none (h : r.readln = .ok (none, s)) :
    (s.extend data).readln = (r.extend data).readln := by
  obtain ⟨hbuffer, hrecord, hconsumed⟩ := readln_none h
  exact readln_congr (congrArg (· ++ data) hbuffer) hrecord hconsumed

theorem readln_length (h : r.readln = .ok (some line, s)) :
    s.buffer.length < r.buffer.length := by
  obtain ⟨e, rest, hb, he, hlen, rfl, rfl⟩ := readln_some h
  show (r.buffer.drop _).length < _
  rw [hb, List.length_drop, List.length_append, List.length_cons]
  omega

end Readln

end LineReader

end BtclibNode
