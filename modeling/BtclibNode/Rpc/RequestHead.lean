/-
# `_FieldReader`, `RequestHead` and `_HeadReader`

`rpc/connection.py`: one request's header section, and the body length it declares.
-/
import Mathlib
import BtclibNode.Rpc.LineReader

namespace BtclibNode

/-! ## Field lines -/

/-- `_FieldReader`, the line reader it reads off apart. -/
structure FieldReader where
  size : ℕ
  keep : Bool
  fields : List (Bytes × Bytes)
  deriving DecidableEq, Repr

namespace FieldReader

/-- The carriage return, line feed and NUL of `_INVALID_IN_FIELD`. -/
def invalidInField : Bytes := [cr, lf, 0]

/-- One turn of the loop of `read`, `taken` octets having been read for the line: the next
turn, the section's end, or a refusal. -/
def takeLine (f : FieldReader) (line : Bytes) (taken : ℕ) :
    Reading FieldReader FieldReader FieldReader :=
  let f := { f with size := f.size + taken }
  if f.size > maxHeaderBytes then
    .refused (.malformed "header section past MAX_HEADER_BYTES") f
  else if line = [] then
    .done f
  else
    let (key, colon, value) := partitionAt 58 line
    if line.any (invalidInField.contains ·) ∨ ¬colon ∨ key = [] ∨
        key.any (whitespace.contains ·) then
      .refused (.malformed s!"header field {f.fields.length} of {line.length} octets") f
    else if f.keep then
      .more { f with fields := f.fields ++ [(key, strip value)] }
    else
      .more f

/-- A line read leads to readers that have counted `size` octets, within the limit. -/
def Counted (size : ℕ) (x : Reading FieldReader FieldReader FieldReader) : Prop :=
  match x with
  | .refused _ _ => True
  | .done f => f.size = size ∧ f.size ≤ maxHeaderBytes
  | .more f => f.size = size ∧ f.size ≤ maxHeaderBytes

theorem takeLine_counted (f : FieldReader) (line : Bytes) (taken : ℕ) :
    Counted (f.size + taken) (f.takeLine line taken) := by
  unfold takeLine
  dsimp only
  by_cases hsize : f.size + taken > maxHeaderBytes
  · rw [if_pos hsize]
    trivial
  · have hle := Nat.le_of_not_lt hsize
    rw [if_neg hsize]
    split
    · exact ⟨rfl, hle⟩
    · split
      · trivial
      · split <;> exact ⟨rfl, hle⟩

/-- `read`; a refusal leaves the fields, the record and the buffer. -/
def read (f : FieldReader) (lines : LineReader) :
    Reading (FieldReader × LineReader) (FieldReader × LineReader)
      (FieldReader × Option Bytes × Bytes) :=
  match _h : lines.readln with
  | .error e => .refused e (f, lines.record, lines.buffer)
  | .ok (none, lines') => .more (f, lines')
  | .ok (some line, lines') =>
    match f.takeLine line (lines'.consumed - lines.consumed) with
    | .refused e f => .refused e (f, lines'.record, lines'.buffer)
    | .done f => .done (f, lines')
    | .more f => f.read lines'
termination_by lines.buffer.length
decreasing_by exact LineReader.readln_length _h

/-! ### What `read` does with what `readln` returns -/

section Read

variable {f f' : FieldReader} {lines lines' : LineReader} {line : Bytes} {e : FramingError}

theorem read_of_error (h : lines.readln = .error e) :
    f.read lines = .refused e (f, lines.record, lines.buffer) := by
  rw [read]
  split
  · next h' => rw [h] at h'; cases h'; rfl
  · next h' => rw [h] at h'; cases h'
  · next h' => rw [h] at h'; cases h'

theorem read_of_none (h : lines.readln = .ok (none, lines')) :
    f.read lines = .more (f, lines') := by
  rw [read]
  split
  · next h' => rw [h] at h'; cases h'
  · next h' => rw [h] at h'; cases h'; rfl
  · next h' => rw [h] at h'; cases h'

theorem read_of_some (h : lines.readln = .ok (some line, lines')) :
    f.read lines = match f.takeLine line (lines'.consumed - lines.consumed) with
      | .refused e f => .refused e (f, lines'.record, lines'.buffer)
      | .done f => .done (f, lines')
      | .more f => f.read lines' := by
  rw [read]
  split
  · next h' => rw [h] at h'; cases h'
  · next h' => rw [h] at h'; cases h'
  · next h' => rw [h] at h'; cases h'; rfl

/-- A field reader reads on alike wherever the line reader had searched. -/
theorem read_congr {lines lines' : LineReader} (hbuffer : lines.buffer = lines'.buffer)
    (hrecord : lines.record = lines'.record) (hconsumed : lines.consumed = lines'.consumed) :
    f.read lines = f.read lines' := by
  have hreadln := LineReader.readln_congr hbuffer hrecord hconsumed
  cases h : lines.readln with
  | error e => rw [read_of_error h, read_of_error (hreadln ▸ h), hbuffer, hrecord]
  | ok taken =>
    obtain ⟨line, after⟩ := taken
    cases line with
    | none => rw [read_of_none h, read_of_none (hreadln ▸ h)]
    | some line => rw [read_of_some h, read_of_some (hreadln ▸ h), hconsumed]

end Read

/-- **A field reader reads on** over a longer buffer from where it stopped. -/
theorem read_extend (f : FieldReader) (lines : LineReader) (data : Bytes) :
    f.read (lines.extend data) = match f.read lines with
      | .refused e (f', record, buffer) => .refused e (f', record, buffer ++ data)
      | .done (f', lines') => .done (f', lines'.extend data)
      | .more (f', lines') => f'.read (lines'.extend data) := by
  fun_induction read f lines with
  | case1 f lines e h => exact read_of_error (LineReader.readln_extend_error h)
  | case2 f lines lines' h =>
    obtain ⟨hbuffer, hrecord, hconsumed⟩ := LineReader.readln_none h
    exact read_congr (congrArg (· ++ data) hbuffer.symm) hrecord.symm hconsumed.symm
  | case3 f lines line lines' h e f' hstep =>
    have hstep' : f.takeLine line ((lines'.extend data).consumed - (lines.extend data).consumed) =
        .refused e f' := hstep
    rw [read_of_some (LineReader.readln_extend_some h), hstep']
    rfl
  | case4 f lines line lines' h f' hstep =>
    have hstep' : f.takeLine line ((lines'.extend data).consumed - (lines.extend data).consumed) =
        .done f' := hstep
    rw [read_of_some (LineReader.readln_extend_some h), hstep']
  | case5 f lines line lines' h f' hstep ih =>
    have hstep' : f.takeLine line ((lines'.extend data).consumed - (lines.extend data).consumed) =
        .more f' := hstep
    rw [read_of_some (LineReader.readln_extend_some h), hstep']
    exact ih

theorem read_length {f f' : FieldReader} {lines lines' : LineReader}
    (h : f.read lines = .done (f', lines')) : lines'.buffer.length < lines.buffer.length := by
  fun_induction read f lines with
  | case1 f lines e hln => cases h
  | case2 f lines lines' hln => cases h
  | case3 f lines line lines' hln e f' hstep => cases h
  | case4 f lines line lines' hln f' hstep =>
    cases h
    exact LineReader.readln_length hln
  | case5 f lines line lines' hln f' hstep ih =>
    exact Nat.lt_trans (ih h) (LineReader.readln_length hln)

end FieldReader

/-! ## The request line and the body length -/

/-- `_uint64` in base 10 or 16: the digits read as a number, where it is one. -/
def uint64 (text : Bytes) (base : ℕ) : Option ℕ :=
  let digit (c : UInt8) : Option ℕ :=
    if 48 ≤ c ∧ c ≤ 57 then some (c.toNat - 48)
    else if base = 16 ∧ 65 ≤ c ∧ c ≤ 70 then some (c.toNat - 55)
    else if base = 16 ∧ 97 ≤ c ∧ c ≤ 102 then some (c.toNat - 87)
    else none
  if text = [] then none
  else do
    let digits ← text.mapM digit
    let significant := digits.dropWhile (· == 0)
    if significant.length > (if base = 16 then 16 else 20) then none
    else
      let number := significant.foldl (fun n d => n * base + d) 0
      if number ≤ 2 ^ 64 - 1 then some number else none

/-- `_request_line`; the version is the digit after `HTTP/1.`. -/
def requestLine (line : Bytes) : Except FramingError (Bytes × Bytes × ℕ × ℕ) :=
  match line.splitOn 32 with
  | [method, target, version] =>
    if line.length < 14 ∨ line.contains 0 then
      .error (.malformed "request line not method, target and version")
    else
      match version.take 7, version.drop 7 with
      | prefixed, [digit] =>
        if prefixed = ascii "HTTP/1." ∧ 48 ≤ digit ∧ digit ≤ 57 then
          .ok (method, target, 1, digit.toNat - 48)
        else .error (.malformed "unsupported HTTP version")
      | _, _ => .error (.malformed "unsupported HTTP version")
  | _ => .error (.malformed "request line not method, target and version")

/-- `RequestHead`. -/
structure RequestHead where
  raw : Bytes
  method : Bytes
  target : Bytes
  version : Option (ℕ × ℕ)
  fields : List (Bytes × Bytes)
  size : ℕ
  chunked : Bool
  length : ℕ
  error : Option FramingError
  deriving DecidableEq, Repr

/-- `RequestHead.field`, the value before it is decoded. -/
def RequestHead.field (head : RequestHead) (name : Bytes) : Option Bytes :=
  (head.fields.find? fun field => lower field.1 = lower name).map Prod.snd

/-- `repr` of a byte, inside quotes of the octet `quote`. -/
def reprByte (quote c : UInt8) : String :=
  if c = quote ∨ c = 92 then "\\" ++ String.ofList [Char.ofNat c.toNat]
  else if c = 9 then "\\t"
  else if c = 10 then "\\n"
  else if c = 13 then "\\r"
  else if 32 ≤ c ∧ c < 127 then String.ofList [Char.ofNat c.toNat]
  else
    let hex := Nat.toDigits 16 c.toNat
    "\\x" ++ String.ofList (if c < 16 then '0' :: hex else hex)

/-- `repr` of a string of octets. -/
def reprBytes (b : Bytes) : String :=
  let quote : UInt8 := if b.contains 39 ∧ ¬b.contains 34 then 34 else 39
  let mark := String.ofList [Char.ofNat quote.toNat]
  "b" ++ mark ++ String.join (b.map (reprByte quote)) ++ mark

/-- `_content_length`. -/
def contentLength (head : RequestHead) : Except FramingError ℕ :=
  let values := (head.fields.filter fun field =>
    lower field.1 = ascii "content-length").map Prod.snd
  match values with
  | [] => .ok 0
  | first :: _ =>
    if values.any (· ≠ first) then .error (.malformed "Content-Length values that differ")
    else match uint64 first 10 with
      | none => .error (.malformed ("Content-Length " ++ reprBytes first))
      | some length =>
        if length > maxBodyBytes then
          .error (.oversized s!"Content-Length past {maxBodyBytes}")
        else .ok length

theorem contentLength_le {head : RequestHead} {n : ℕ} (h : contentLength head = .ok n) :
    n ≤ maxBodyBytes := by
  unfold contentLength at h
  dsimp only at h
  split at h
  · cases h
    exact Nat.zero_le _
  · split at h
    · cases h
    · split at h
      · cases h
      · next length _ =>
        split at h
        · cases h
        · next hle =>
          cases h
          exact Nat.le_of_not_lt hle

/-! ## The header section -/

/-- `_HeadReader`; its `raw` is the record of its line reader. -/
structure HeadReader where
  lines : LineReader
  method : Bytes
  target : Bytes
  version : Option (ℕ × ℕ)
  fields : Option FieldReader

namespace HeadReader

/-- `__init__`. -/
def init (buffer : Bytes) : HeadReader where
  lines := .init buffer (some [])
  method := []
  target := []
  version := none
  fields := none

/-- `_head`, over the fields read and the record. -/
def head (r : HeadReader) (fields : Option FieldReader) (raw : Option Bytes)
    (error : Option FramingError) : RequestHead where
  raw := raw.getD []
  method := r.method
  target := r.target
  version := r.version
  fields := match fields with
    | none => []
    | some f => f.fields
  size := match fields with
    | none => 0
    | some f => f.size
  chunked := false
  length := 0
  error := error

/-- The second half of `_read_section`: the fields are read on.  A refusal leaves the head
made of it and the buffer. -/
def readFields (r : HeadReader) (f : FieldReader) :
    Reading HeadReader (RequestHead × Bytes) (RequestHead × Bytes) :=
  match f.read r.lines with
  | .refused e (f, record, buffer) => .refused e (r.head (some f) record (some e), buffer)
  | .more (f, lines) => .more { r with lines := lines, fields := some f }
  | .done (f, lines) => .done (r.head (some f) lines.record none, lines.buffer)

/-- The first half of `_read_section`: the request line is read, then the fields. -/
def readRequestLine (r : HeadReader) :
    Reading HeadReader (RequestHead × Bytes) (RequestHead × Bytes) :=
  match r.lines.readln with
  | .error e => .refused e (r.head none r.lines.record (some e), r.lines.buffer)
  | .ok (none, lines) => .more { r with lines := lines }
  | .ok (some line, lines) =>
    match requestLine line with
    | .error e => .refused e (r.head none lines.record (some e), lines.buffer)
    | .ok (method, target, version) =>
      readFields { lines, method, target, version := some version, fields := none }
        { size := 0, keep := true, fields := [] }

/-- `_read_section`. -/
def readSection (r : HeadReader) :
    Reading HeadReader (RequestHead × Bytes) (RequestHead × Bytes) :=
  match r.fields with
  | some f => r.readFields f
  | none => r.readRequestLine

/-- What `read` makes of a whole section: the body is chunked, has a length or is refused. -/
def declareBody (head : RequestHead) : RequestHead :=
  match head.field (ascii "Transfer-Encoding") with
  | some encoding =>
    if lower encoding = ascii "chunked" then { head with chunked := true }
    else withLength
  | none => withLength
where
  withLength : RequestHead :=
    match contentLength head with
    | .ok length => { head with length := length }
    | .error e => { head with error := some e }

/-- `read`: the reader to go on with, or a head and the buffer after it. -/
def read (r : HeadReader) : HeadReader ⊕ (RequestHead × Bytes) :=
  match r.readSection with
  | .more r => .inl r
  | .refused _ (head, buffer) => .inr (head, buffer)
  | .done (head, buffer) => .inr (declareBody head, buffer)

/-- More octets at the end of the buffer. -/
def extend (r : HeadReader) (data : Bytes) : HeadReader :=
  { r with lines := r.lines.extend data }

theorem readFields_extend (r : HeadReader) (f : FieldReader) (data : Bytes) :
    (r.extend data).readFields f = match r.readFields f with
      | .refused e (head, buffer) => .refused e (head, buffer ++ data)
      | .done (head, buffer) => .done (head, buffer ++ data)
      | .more r' => (r'.extend data).readSection := by
  have hread := f.read_extend r.lines data
  unfold readFields
  rw [show (r.extend data).lines = r.lines.extend data from rfl, hread]
  cases f.read r.lines with
  | refused e left => rfl
  | done result => rfl
  | more reader => rfl

theorem readRequestLine_congr (r : HeadReader) {lines lines' : LineReader}
    (hreadln : lines.readln = lines'.readln) (hrecord : lines.record = lines'.record)
    (hbuffer : lines.buffer = lines'.buffer) :
    readRequestLine { r with lines := lines } = readRequestLine { r with lines := lines' } := by
  unfold readRequestLine
  dsimp only
  rw [hreadln, hrecord, hbuffer]
  rfl

theorem readRequestLine_extend {r : HeadReader} (hfields : r.fields = none) (data : Bytes) :
    (r.extend data).readRequestLine = match r.readRequestLine with
      | .refused e (head, buffer) => .refused e (head, buffer ++ data)
      | .done (head, buffer) => .done (head, buffer ++ data)
      | .more r' => (r'.extend data).readSection := by
  cases h : r.lines.readln with
  | error e =>
    unfold readRequestLine
    rw [show (r.extend data).lines = r.lines.extend data from rfl, h,
      LineReader.readln_extend_error h]
    rfl
  | ok taken =>
    obtain ⟨line, lines⟩ := taken
    cases line with
    | none =>
      -- the request line is looked for again, from where the search stopped
      obtain ⟨hbuffer, hrecord, hconsumed⟩ := LineReader.readln_none h
      have hmore : r.readRequestLine = .more { r with lines := lines } := by
        unfold readRequestLine
        rw [h]
      have hsection : (extend { r with lines := lines } data).readSection =
          (extend { r with lines := lines } data).readRequestLine := by
        unfold readSection
        rw [show (extend { r with lines := lines } data).fields = r.fields from rfl, hfields]
      rw [hmore]
      dsimp only
      rw [hsection]
      exact (readRequestLine_congr r (LineReader.readln_extend_none h)
        (show (lines.extend data).record = (r.lines.extend data).record from hrecord)
        (congrArg (· ++ data) hbuffer)).symm
    | some line =>
      unfold readRequestLine
      rw [show (r.extend data).lines = r.lines.extend data from rfl, h,
        LineReader.readln_extend_some h]
      dsimp only
      cases requestLine line with
      | error e => rfl
      | ok parts =>
        obtain ⟨method, target, version⟩ := parts
        exact readFields_extend
          { lines, method, target, version := some version, fields := none }
          { size := 0, keep := true, fields := [] } data

theorem readSection_extend (r : HeadReader) (data : Bytes) :
    (r.extend data).readSection = match r.readSection with
      | .refused e (head, buffer) => .refused e (head, buffer ++ data)
      | .done (head, buffer) => .done (head, buffer ++ data)
      | .more r' => (r'.extend data).readSection := by
  cases hfields : r.fields with
  | some f =>
    have h : ∀ s : HeadReader, s.fields = some f → s.readSection = s.readFields f := by
      intro s hs
      unfold readSection
      rw [hs]
    rw [h r hfields, h (r.extend data) hfields]
    exact r.readFields_extend f data
  | none =>
    have h : ∀ s : HeadReader, s.fields = none → s.readSection = s.readRequestLine := by
      intro s hs
      unfold readSection
      rw [hs]
    rw [h r hfields, h (r.extend data) hfields]
    exact readRequestLine_extend hfields data

/-- **A head reader reads on** over a longer buffer from where it stopped. -/
theorem read_extend (r : HeadReader) (data : Bytes) :
    (r.extend data).read = match r.read with
      | .inr (head, buffer) => .inr (head, buffer ++ data)
      | .inl r' => (r'.extend data).read := by
  unfold read
  rw [r.readSection_extend data]
  cases r.readSection <;> rfl

/-! ### What a whole section is -/

/-- What a section read comes to: its end takes octets off the buffer, a refusal is the
head's error, and no body is declared yet. -/
def SectionEnds (r : HeadReader)
    (x : Reading HeadReader (RequestHead × Bytes) (RequestHead × Bytes)) : Prop :=
  match x with
  | .more _ => True
  | .done (head, buffer) => buffer.length < r.lines.buffer.length ∧ head.length = 0
  | .refused e (head, _) => head.error = some e ∧ head.length = 0

theorem readFields_ends (r : HeadReader) (f : FieldReader) : SectionEnds r (r.readFields f) := by
  unfold readFields
  cases h : f.read r.lines with
  | refused e left => exact ⟨rfl, rfl⟩
  | more reader => trivial
  | done result => exact ⟨FieldReader.read_length h, rfl⟩

theorem readSection_ends (r : HeadReader) : SectionEnds r r.readSection := by
  unfold readSection
  cases hfields : r.fields with
  | some f => exact r.readFields_ends f
  | none =>
    unfold readRequestLine
    cases hln : r.lines.readln with
    | error e => exact ⟨rfl, rfl⟩
    | ok taken =>
      obtain ⟨line, lines⟩ := taken
      cases line with
      | none => trivial
      | some line =>
        dsimp only
        cases requestLine line with
        | error e => exact ⟨rfl, rfl⟩
        | ok parts =>
          obtain ⟨method, target, version⟩ := parts
          dsimp only
          have hrest := readFields_ends
            { lines, method, target, version := some version, fields := none }
            { size := 0, keep := true, fields := [] }
          generalize readFields _ _ = x at hrest ⊢
          cases x with
          | more r' => trivial
          | refused e left => exact hrest
          | done result => exact ⟨Nat.lt_trans hrest.1 (LineReader.readln_length hln), hrest.2⟩

/-- A head without an error has taken octets off the buffer. -/
theorem read_length {r : HeadReader} {head : RequestHead} {buffer : Bytes}
    (h : r.read = .inr (head, buffer)) (hok : head.error = none) :
    buffer.length < r.lines.buffer.length := by
  have hends := r.readSection_ends
  unfold read at h
  cases hread : r.readSection with
  | more r' => rw [hread] at h; cases h
  | refused e left =>
    rw [hread] at h hends
    cases h
    rw [show (_ : Option FramingError) = some e from hends.1] at hok
    cases hok
  | done result =>
    rw [hread] at h hends
    cases h
    exact hends.1

end HeadReader

end BtclibNode
