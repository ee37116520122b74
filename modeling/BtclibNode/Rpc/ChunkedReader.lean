/-
# `_ChunkedReader`

`rpc/connection.py`: a chunked body and its trailer, read off a buffer that grows.
-/
import BtclibNode.Rpc.RequestHead

namespace BtclibNode

/-- `_ChunkedReader`. -/
structure ChunkedReader where
  lines : LineReader
  head : RequestHead
  body : Bytes
  size : Option ℕ
  taken : Bool
  trailer : Option FieldReader

namespace ChunkedReader

/-- What a step of the reader comes to; a refusal leaves nothing that is read. -/
abbrev Step := Reading ChunkedReader ChunkedReader Unit

/-- `__init__`. -/
def init (buffer : Bytes) (head : RequestHead) : ChunkedReader where
  lines := .init buffer none
  head := head
  body := []
  size := none
  taken := false
  trailer := none

/-- `_chunk_size`. -/
def chunkSize (r : ChunkedReader) (line : Bytes) : Except FramingError ℕ :=
  match uint64 (strip (partitionAt 59 line).1) 16 with
  | none => .error (.malformed s!"chunk size line of {line.length} octets")
  | some size =>
    if size > maxBodyBytes - r.body.length then
      .error (.oversized "chunked body past MAX_BODY_BYTES")
    else .ok size

/-- The first part of a turn: the size is read, unless it has been.  A size of 0 starts the
trailer. -/
def readSize (r : ChunkedReader) : Step :=
  match r.size with
  | some _ => .done r
  | none =>
    match r.lines.readln with
    | .error e => .refused e ()
    | .ok (none, lines) => .more { r with lines := lines }
    | .ok (some line, lines) =>
      match r.chunkSize line with
      | .error e => .refused e ()
      | .ok size =>
        if size = 0 then
          .done { r with
            lines := lines, size := some 0
            trailer := some { size := r.head.size, keep := false, fields := [] } }
        else .done { r with lines := lines, size := some size }

/-- The last part of a turn: the line after the data must be empty. -/
def endChunk (r : ChunkedReader) : Step :=
  match r.lines.readln with
  | .error e => .refused e ()
  | .ok (none, lines) => .more { r with lines := lines }
  | .ok (some line, lines) =>
    if line ≠ [] then .refused (.malformed "a chunk not ended by an empty line") ()
    else .done { r with lines := lines, size := none, taken := false }

/-- The reader once it has taken the data of `size` octets. -/
def takeData (r : ChunkedReader) (size : ℕ) : ChunkedReader :=
  { r with body := r.body ++ r.lines.buffer.take size, lines := r.lines.take size, taken := true }

/-- The middle of a turn: the data of `size` octets is taken whole, unless it has been. -/
def takeChunk (r : ChunkedReader) (size : ℕ) : Step :=
  if r.taken then r.endChunk
  else if r.lines.buffer.length < size then .more r
  else (r.takeData size).endChunk

/-- What is read once the trailer has started. -/
def readTrailer (r : ChunkedReader) (f : FieldReader) : Step :=
  match f.read r.lines with
  | .refused e _ => .refused e ()
  | .more (f, lines) => .more { r with lines := lines, trailer := some f }
  | .done (f, lines) => .done { r with lines := lines, trailer := some f }

/-- More octets at the end of the buffer. -/
def extend (r : ChunkedReader) (data : Bytes) : ChunkedReader :=
  { r with lines := r.lines.extend data }

section Parts

variable {r r' : ChunkedReader} {data : Bytes}

theorem endChunk_length (h : r.endChunk = .done r') :
    r'.lines.buffer.length < r.lines.buffer.length ∧ r'.size = none := by
  unfold endChunk at h
  split at h
  · cases h
  · cases h
  · next line lines hln =>
    split at h
    · cases h
    · cases h
      exact ⟨LineReader.readln_length hln, rfl⟩

theorem takeChunk_length {size : ℕ} (h : r.takeChunk size = .done r') :
    r'.lines.buffer.length < r.lines.buffer.length := by
  unfold takeChunk at h
  split at h
  · exact (endChunk_length h).1
  · split at h
    · cases h
    · apply Nat.lt_of_lt_of_le (endChunk_length h).1
      show (r.lines.buffer.drop size).length ≤ _
      rw [List.length_drop]
      exact Nat.sub_le _ _

theorem readSize_length (h : r.readSize = .done r') :
    r'.lines.buffer.length ≤ r.lines.buffer.length := by
  unfold readSize at h
  split at h
  · cases h
    exact Nat.le_refl _
  · split at h
    · cases h
    · cases h
    · next line lines hln =>
      split at h
      · cases h
      · split at h <;> cases h <;> exact Nat.le_of_lt (LineReader.readln_length hln)

end Parts

/-- `read`. -/
def read (r : ChunkedReader) : Step :=
  match r.trailer with
  | some f => r.readTrailer f
  | none =>
    match _hsize : r.readSize with
    | .refused e _ => .refused e ()
    | .more r => .more r
    | .done r' =>
      match r'.trailer with
      | some f => r'.readTrailer f
      | none =>
        match _hchunk : r'.takeChunk (r'.size.getD 0) with
        | .refused e _ => .refused e ()
        | .more r => .more r
        | .done r => r.read
termination_by r.lines.buffer.length
decreasing_by exact Nat.lt_of_lt_of_le (takeChunk_length _hchunk) (readSize_length _hsize)

/-! ### Reading on -/

/-- What a step reads over a longer buffer, from what it read of this one. -/
def Step.extend (x : Step) (again : ChunkedReader → Step) (data : Bytes) : Step :=
  match x with
  | .refused e _ => .refused e ()
  | .done r => .done (r.extend data)
  | .more r => again (r.extend data)

section Extend

variable (r : ChunkedReader) (data : Bytes)

theorem endChunk_extend : (r.extend data).endChunk = r.endChunk.extend endChunk data := by
  unfold endChunk
  rw [show (r.extend data).lines = r.lines.extend data from rfl]
  cases h : r.lines.readln with
  | error e =>
    rw [LineReader.readln_extend_error h]
    rfl
  | ok taken =>
    obtain ⟨line, lines⟩ := taken
    cases line with
    | none =>
      rw [← LineReader.readln_extend_none h]
      rfl
    | some line =>
      rw [LineReader.readln_extend_some h]
      dsimp only
      split <;> rfl

theorem readTrailer_extend (f : FieldReader) :
    (r.extend data).readTrailer f = match r.readTrailer f with
      | .refused e _ => .refused e ()
      | .done r' => .done (r'.extend data)
      | .more r' => (r'.extend data).readTrailer (r'.trailer.getD f) := by
  have hread := f.read_extend r.lines data
  unfold readTrailer
  rw [show (r.extend data).lines = r.lines.extend data from rfl, hread]
  cases f.read r.lines <;> rfl

theorem readSize_of_some {r : ChunkedReader} {size : ℕ} (h : r.size = some size) :
    r.readSize = .done r := by
  unfold readSize
  rw [h]

theorem readSize_extend : (r.extend data).readSize = r.readSize.extend readSize data := by
  cases hsize : r.size with
  | some size =>
    rw [readSize_of_some hsize, readSize_of_some (r := r.extend data) hsize]
    rfl
  | none =>
    unfold readSize
    rw [show (r.extend data).size = none from hsize, hsize,
      show (r.extend data).lines = r.lines.extend data from rfl]
    dsimp only
    cases h : r.lines.readln with
    | error e =>
      rw [LineReader.readln_extend_error h]
      rfl
    | ok taken =>
      obtain ⟨line, lines⟩ := taken
      cases line with
      | none =>
        rw [← LineReader.readln_extend_none h]
        rfl
      | some line =>
        rw [LineReader.readln_extend_some h]
        dsimp only
        rw [show (r.extend data).chunkSize line = r.chunkSize line from rfl]
        cases r.chunkSize line with
        | error e => rfl
        | ok size =>
          dsimp only
          split <;> rfl

theorem endChunk_more {r r' : ChunkedReader} (h : r.endChunk = .more r') :
    r'.taken = r.taken ∧ r'.size = r.size ∧ r'.trailer = r.trailer := by
  unfold endChunk at h
  split at h
  · cases h
  · cases h
    exact ⟨rfl, rfl, rfl⟩
  · split at h <;> cases h

theorem takeChunk_extend (size : ℕ) :
    (r.extend data).takeChunk size = (r.takeChunk size).extend (takeChunk · size) data := by
  have htaken : ∀ s : ChunkedReader, s.taken = true → s.takeChunk size = s.endChunk := by
    intro s hs
    unfold takeChunk
    rw [if_pos hs]
  -- a read that waits for the line after the data is past the data
  have hend : ∀ s : ChunkedReader, s.taken = true →
      s.endChunk.extend endChunk data = s.endChunk.extend (takeChunk · size) data := by
    intro s hs
    cases h : s.endChunk with
    | refused e left => rfl
    | done s' => rfl
    | more s' => exact (htaken (s'.extend data) ((endChunk_more h).1.trans hs)).symm
  by_cases h : r.taken = true
  · rw [htaken r h, htaken (r.extend data) h, endChunk_extend, hend r h]
  · by_cases hlen : r.lines.buffer.length < size
    · have hwait : r.takeChunk size = .more r := by
        unfold takeChunk
        rw [if_neg h, if_pos hlen]
      rw [hwait]
      rfl
    · have hlen' : ¬(r.extend data).lines.buffer.length < size := by
        show ¬(r.lines.buffer ++ data).length < size
        rw [List.length_append]
        omega
      have henough : ∀ s : ChunkedReader, ¬s.taken = true → ¬s.lines.buffer.length < size →
          s.takeChunk size = (s.takeData size).endChunk := by
        intro s hs hslen
        unfold takeChunk
        rw [if_neg hs, if_neg hslen]
      have hdata : (r.extend data).takeData size = (r.takeData size).extend data := by
        unfold takeData ChunkedReader.extend
        rw [ChunkedReader.mk.injEq]
        refine ⟨LineReader.take_extend (Nat.le_of_not_lt hlen), rfl, ?_, rfl, rfl, rfl⟩
        show r.body ++ (r.lines.buffer ++ data).take size = r.body ++ r.lines.buffer.take size
        rw [List.take_append_of_le_length (Nat.le_of_not_lt hlen)]
      rw [henough r h hlen, henough (r.extend data) h hlen', hdata, endChunk_extend]
      exact hend (r.takeData size) rfl

theorem readSize_more {r r' : ChunkedReader} (h : r.readSize = .more r') :
    r'.trailer = r.trailer := by
  unfold readSize at h
  split at h
  · cases h
  · split at h
    · cases h
    · cases h
      rfl
    · split at h
      · cases h
      · split at h <;> cases h

theorem readSize_done {r r' : ChunkedReader} (h : r.readSize = .done r') :
    ∃ size, r'.size = some size := by
  unfold readSize at h
  split at h
  · next size hsize =>
    cases h
    exact ⟨size, hsize⟩
  · split at h
    · cases h
    · cases h
    · split at h
      · cases h
      · split at h <;> cases h <;> exact ⟨_, rfl⟩

theorem takeChunk_more {r r' : ChunkedReader} {size : ℕ} (h : r.takeChunk size = .more r') :
    r'.size = r.size ∧ r'.trailer = r.trailer := by
  unfold takeChunk at h
  split at h
  · exact (endChunk_more h).2
  · split at h
    · cases h
      exact ⟨rfl, rfl⟩
    · exact (endChunk_more h).2

end Extend

/-! ### What `read` does -/

section Read

variable {r r' r'' : ChunkedReader} {e : FramingError} {f : FieldReader}

theorem read_of_trailer (h : r.trailer = some f) : r.read = r.readTrailer f := by
  rw [read]
  split
  · next h' => rw [h] at h'; cases h'; rfl
  · next h' => rw [h] at h'; cases h'

theorem read_of_none (h : r.trailer = none) : r.read = match r.readSize with
    | .refused e _ => .refused e ()
    | .more r => .more r
    | .done r => match r.trailer with
      | some f => r.readTrailer f
      | none => match r.takeChunk (r.size.getD 0) with
        | .refused e _ => .refused e ()
        | .more r => .more r
        | .done r => r.read := by
  rw [read]
  split
  · next h' => rw [h] at h'; cases h'
  · split
    · next hsize => rw [hsize]
    · next hsize => rw [hsize]
    · next r' hsize =>
      rw [hsize]
      dsimp only
      split
      · next f hf => rfl
      · next hf =>
        split
        · next hchunk => rw [hchunk]
        · next hchunk => rw [hchunk]
        · next hchunk => rw [hchunk]

theorem read_of_size (h : r.trailer = none) (hsize : r.readSize = .done r')
    (h' : r'.trailer = none) : r.read = match r'.takeChunk (r'.size.getD 0) with
      | .refused e _ => .refused e ()
      | .more r => .more r
      | .done r => r.read := by
  rw [read_of_none h, hsize]
  dsimp only
  rw [h']

end Read

theorem readTrailer_resume (r : ChunkedReader) (f : FieldReader) (data : Bytes) :
    (r.extend data).readTrailer f = (r.readTrailer f).extend read data := by
  rw [readTrailer_extend]
  cases h : r.readTrailer f with
  | refused e left => rfl
  | done r' => rfl
  | more r' =>
    have htrailer : ∃ f', r'.trailer = some f' := by
      unfold readTrailer at h
      split at h
      · cases h
      · cases h
        exact ⟨_, rfl⟩
      · cases h
    obtain ⟨f', hf'⟩ := htrailer
    show (r'.extend data).readTrailer (r'.trailer.getD f) = (r'.extend data).read
    rw [read_of_trailer (r := r'.extend data) hf', hf']
    rfl

/-- **A chunked reader reads on** over a longer buffer from where it stopped. -/
theorem read_extend (r : ChunkedReader) (data : Bytes) :
    (r.extend data).read = r.read.extend read data := by
  fun_induction read r with
  | case1 r f hf =>
    rw [read_of_trailer (r := r.extend data) hf]
    exact r.readTrailer_resume f data
  | case2 r hnone e left hsize =>
    rw [read_of_none (r := r.extend data) hnone, readSize_extend, hsize]
    rfl
  | case3 r hnone r' hsize =>
    have hnone' : (r'.extend data).trailer = none := (readSize_more hsize).trans hnone
    rw [read_of_none (r := r.extend data) hnone, readSize_extend, hsize]
    exact (read_of_none hnone').symm
  | case4 r hnone r' hsize f hf =>
    rw [read_of_none (r := r.extend data) hnone, readSize_extend, hsize]
    show (match (r'.extend data).trailer with | some f => _ | none => _) = _
    rw [show (r'.extend data).trailer = some f from hf]
    exact r'.readTrailer_resume f data
  | case5 r hnone r' hsize hf e left hchunk =>
    have hsize' := r.readSize_extend data
    rw [hsize] at hsize'
    rw [read_of_size (r := r.extend data) hnone hsize' hf, takeChunk_extend,
      show (r'.extend data).size = r'.size from rfl, hchunk]
    rfl
  | case6 r hnone r' hsize hf r'' hchunk =>
    have hsize' := r.readSize_extend data
    rw [hsize] at hsize'
    rw [read_of_size (r := r.extend data) hnone hsize' hf, takeChunk_extend,
      show (r'.extend data).size = r'.size from rfl, hchunk]
    -- the reader waits within the chunk: its size is read already
    obtain ⟨hsame, htrailer⟩ := takeChunk_more hchunk
    obtain ⟨size, hsome⟩ := readSize_done hsize
    have hread := read_of_size (r := r''.extend data) (htrailer.trans hf)
      (readSize_of_some (r := r''.extend data) (hsame.trans hsome)) (htrailer.trans hf)
    rw [show (r''.extend data).size = r'.size from hsame] at hread
    exact hread.symm
  | case7 r hnone r' hsize hf r'' hchunk ih =>
    have hsize' := r.readSize_extend data
    rw [hsize] at hsize'
    rw [read_of_size (r := r.extend data) hnone hsize' hf, takeChunk_extend,
      show (r'.extend data).size = r'.size from rfl, hchunk]
    exact ih

/-! ### The head stays -/

/-- A step leads to readers of the request `head`. -/
def Step.Keeps (head : RequestHead) (x : Step) : Prop :=
  match x with
  | .refused _ _ => True
  | .done r => r.head = head
  | .more r => r.head = head

theorem endChunk_keeps (r : ChunkedReader) : r.endChunk.Keeps r.head := by
  unfold endChunk
  split
  · trivial
  · exact rfl
  · split
    · trivial
    · exact rfl

theorem takeChunk_keeps (r : ChunkedReader) (size : ℕ) : (r.takeChunk size).Keeps r.head := by
  unfold takeChunk
  split
  · exact r.endChunk_keeps
  · split
    · exact rfl
    · exact (r.takeData size).endChunk_keeps

theorem readSize_keeps (r : ChunkedReader) : r.readSize.Keeps r.head := by
  unfold readSize
  split
  · exact rfl
  · split
    · trivial
    · exact rfl
    · split
      · trivial
      · split <;> exact rfl

theorem readTrailer_keeps (r : ChunkedReader) (f : FieldReader) :
    (r.readTrailer f).Keeps r.head := by
  unfold readTrailer
  split
  · trivial
  · exact rfl
  · exact rfl

theorem read_keeps (r : ChunkedReader) : r.read.Keeps r.head := by
  have hsizeKeeps : ∀ {r r' : ChunkedReader}, r.readSize = .done r' → r'.head = r.head := by
    intro r r' h
    have hkeeps := r.readSize_keeps
    rw [h] at hkeeps
    exact hkeeps
  fun_induction read r with
  | case1 r f hf => exact r.readTrailer_keeps f
  | case2 r hnone e left hsize => trivial
  | case3 r hnone r' hsize =>
    have hkeeps := r.readSize_keeps
    rw [hsize] at hkeeps
    exact hkeeps
  | case4 r hnone r' hsize f hf =>
    rw [← hsizeKeeps hsize]
    exact r'.readTrailer_keeps f
  | case5 r hnone r' hsize hf e left hchunk => trivial
  | case6 r hnone r' hsize hf r'' hchunk =>
    have hkeeps := r'.takeChunk_keeps (r'.size.getD 0)
    rw [hchunk, hsizeKeeps hsize] at hkeeps
    exact hkeeps
  | case7 r hnone r' hsize hf r'' hchunk ih =>
    have hkeeps := r'.takeChunk_keeps (r'.size.getD 0)
    rw [hchunk, hsizeKeeps hsize] at hkeeps
    rw [← show r''.head = r.head from hkeeps]
    exact ih

end ChunkedReader

end BtclibNode
