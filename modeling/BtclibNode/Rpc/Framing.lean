/-
# The requests of a connection

`RpcConnection` reads a header section, then its body, then the next request, off one
buffer that grows by a read of the socket at a time.  Whatever the reads, the same
requests come out of the same octets.
-/
import BtclibNode.Rpc.ChunkedReader

namespace BtclibNode

/-- Where the reading of a request stands. -/
inductive ReadPhase
  | head (reader : HeadReader)
  | length (head : RequestHead) (buffer : Bytes)
  | chunked (reader : ChunkedReader)

namespace ReadPhase

/-- The octets read off the socket and not taken. -/
def buffer : ReadPhase → Bytes
  | .head reader => reader.lines.buffer
  | .length _ buffer => buffer
  | .chunked reader => reader.lines.buffer

/-- More octets at the end of the buffer. -/
def extend (data : Bytes) : ReadPhase → ReadPhase
  | .head reader => .head (reader.extend data)
  | .length request buffer => .length request (buffer ++ data)
  | .chunked reader => .chunked (reader.extend data)

/-- What the loop over phases makes smaller: the octets left, a header section before the
body it has declared. -/
def measure : ReadPhase → ℕ
  | .head reader => 2 * reader.lines.buffer.length
  | .length _ buffer => 2 * buffer.length + 1
  | .chunked reader => 2 * reader.lines.buffer.length + 1

end ReadPhase

/-- The requests read so far, with the phase the next one is in or the refusal the
connection ended with. -/
inductive Framing
  | reading (served : List (RequestHead × Bytes)) (phase : ReadPhase)
  | refused (served : List (RequestHead × Bytes)) (head : RequestHead) (error : FramingError)

namespace Framing

/-- The requests read, each with its body. -/
def served : Framing → List (RequestHead × Bytes)
  | reading served _ => served
  | refused served _ _ => served

/-- The refusal the connection ended with; without one it waits for more. -/
def refusal : Framing → Option (RequestHead × FramingError)
  | reading _ _ => none
  | refused _ head error => some (head, error)

end Framing

theorem ChunkedReader.readTrailer_length {r r' : ChunkedReader} {f : FieldReader}
    (h : r.readTrailer f = .done r') : r'.lines.buffer.length < r.lines.buffer.length := by
  unfold readTrailer at h
  split at h
  · cases h
  · cases h
  · next f' lines hread =>
    cases h
    exact FieldReader.read_length hread

theorem ChunkedReader.read_length {r r' : ChunkedReader} (h : r.read = .done r') :
    r'.lines.buffer.length < r.lines.buffer.length := by
  fun_induction read r with
  | case1 r f hf => exact readTrailer_length h
  | case2 r hnone e left hsize => cases h
  | case3 r hnone r' hsize => cases h
  | case4 r hnone r' hsize f hf =>
    exact Nat.lt_of_lt_of_le (readTrailer_length h) (readSize_length hsize)
  | case5 r hnone r' hsize hf e left hchunk => cases h
  | case6 r hnone r' hsize hf r'' hchunk => cases h
  | case7 r hnone r' hsize hf r'' hchunk ih =>
    exact Nat.lt_trans (ih h) (Nat.lt_of_lt_of_le (takeChunk_length hchunk)
      (readSize_length hsize))

/-- The reads of `run` and `_read_body`, request after request, as far as the buffer goes. -/
def advance (served : List (RequestHead × Bytes)) (phase : ReadPhase) : Framing :=
  match phase with
  | .head reader =>
    match _hread : reader.read with
    | .inl reader => .reading served (.head reader)
    | .inr (head, buffer) =>
      match _hok : head.error with
      | some e => .refused served head e
      | none =>
        if head.chunked then advance served (.chunked (.init buffer head))
        else advance served (.length head buffer)
  | .length head buffer =>
    if buffer.length < head.length then .reading served (.length head buffer)
    else advance (served ++ [(head, buffer.take head.length)])
      (.head (.init (buffer.drop head.length)))
  | .chunked reader =>
    match _hread : reader.read with
    | .more reader => .reading served (.chunked reader)
    | .refused e _ => .refused served reader.head e
    | .done reader =>
      advance (served ++ [(reader.head, reader.body)]) (.head (.init reader.lines.buffer))
termination_by phase.measure
decreasing_by
  · have h := HeadReader.read_length _hread _hok
    show 2 * buffer.length + 1 < 2 * reader.lines.buffer.length
    omega
  · have h := HeadReader.read_length _hread _hok
    show 2 * buffer.length + 1 < 2 * reader.lines.buffer.length
    omega
  · show 2 * (buffer.drop head.length).length < 2 * buffer.length + 1
    rw [List.length_drop]
    omega
  · have h := ChunkedReader.read_length _hread
    simp only [ReadPhase.measure, HeadReader.init, LineReader.init]
    omega

/-- What a read of the socket does: the octets are added and the reading goes on. -/
def receive (f : Framing) (data : Bytes) : Framing :=
  match f with
  | .reading served phase => advance served (phase.extend data)
  | .refused served head e => .refused served head e

/-- A connection fed by the given reads, one after the other. -/
def readAll (reads : List Bytes) : Framing :=
  reads.foldl receive (advance [] (.head (.init [])))

/-! ## The reads do not matter -/

section Advance

variable {served : List (RequestHead × Bytes)} {reader : HeadReader} {chunks : ChunkedReader}
  {head : RequestHead} {buffer : Bytes}

theorem advance_head_more {reader' : HeadReader} (h : reader.read = .inl reader') :
    advance served (.head reader) = .reading served (.head reader') := by
  rw [advance]
  split
  · next h' => rw [h] at h'; cases h'; rfl
  · next h' => rw [h] at h'; cases h'

theorem advance_head_done (h : reader.read = .inr (head, buffer)) :
    advance served (.head reader) = match head.error with
      | some e => .refused served head e
      | none =>
        if head.chunked then advance served (.chunked (.init buffer head))
        else advance served (.length head buffer) := by
  rw [advance]
  split
  · next h' => rw [h] at h'; cases h'
  · next h' =>
    rw [h] at h'
    cases h'
    split
    · next hok => rw [hok]
    · next hok => rw [hok]

theorem advance_chunked : advance served (.chunked chunks) = match chunks.read with
    | .more chunks => .reading served (.chunked chunks)
    | .refused e _ => .refused served chunks.head e
    | .done chunks =>
      advance (served ++ [(chunks.head, chunks.body)]) (.head (.init chunks.lines.buffer)) := by
  rw [advance]
  split
  · next h => rw [h]
  · next h => rw [h]
  · next h => rw [h]

theorem advance_length (h : head.length ≤ buffer.length) :
    advance served (.length head buffer) =
      advance (served ++ [(head, buffer.take head.length)])
        (.head (.init (buffer.drop head.length))) := by
  conv_lhs => rw [advance, if_neg (Nat.not_lt.2 h)]

end Advance

/-- **The reading goes on** over a longer buffer from where it stopped. -/
theorem advance_extend (served : List (RequestHead × Bytes)) (phase : ReadPhase)
    (data : Bytes) : advance served (phase.extend data) = receive (advance served phase) data := by
  fun_induction advance served phase with
  | case1 served reader reader' h =>
    have hread := reader.read_extend data
    rw [h] at hread
    show advance served (.head (reader.extend data)) = advance served (.head (reader'.extend data))
    rw [advance, advance, hread]
  | case2 served reader head buffer h e hok =>
    have hread := reader.read_extend data
    rw [h] at hread
    show advance served (.head (reader.extend data)) = _
    rw [advance_head_done hread, hok]
    rfl
  | case3 served reader head buffer h hok hchunked ih =>
    have hread := reader.read_extend data
    rw [h] at hread
    show advance served (.head (reader.extend data)) = _
    rw [advance_head_done hread, hok]
    dsimp only
    rw [if_pos hchunked]
    exact ih
  | case4 served reader head buffer h hok hchunked ih =>
    have hread := reader.read_extend data
    rw [h] at hread
    show advance served (.head (reader.extend data)) = _
    rw [advance_head_done hread, hok]
    dsimp only
    rw [if_neg hchunked]
    exact ih
  | case5 served head buffer hlt => rfl
  | case6 served head buffer hlt ih =>
    have hle : head.length ≤ buffer.length := Nat.le_of_not_lt hlt
    have hle' : head.length ≤ (buffer ++ data).length := by
      rw [List.length_append]
      omega
    show advance served (.length head (buffer ++ data)) = _
    rw [advance_length hle', List.take_append_of_le_length hle,
      List.drop_append_of_le_length hle]
    exact ih
  | case7 served reader reader' h =>
    have hread := reader.read_extend data
    rw [h] at hread
    show advance served (.chunked (reader.extend data)) =
      advance served (.chunked (reader'.extend data))
    have hkeeps := reader.read_keeps
    rw [h] at hkeeps
    rw [advance_chunked, advance_chunked, hread,
      show (reader.extend data).head = (reader'.extend data).head from hkeeps.symm]
    rfl
  | case8 served reader e left h =>
    have hread := reader.read_extend data
    rw [h] at hread
    show advance served (.chunked (reader.extend data)) = _
    rw [advance_chunked, hread]
    rfl
  | case9 served reader reader' h ih =>
    have hread := reader.read_extend data
    rw [h] at hread
    show advance served (.chunked (reader.extend data)) = _
    rw [advance_chunked, hread]
    exact ih

theorem ReadPhase.extend_append (phase : ReadPhase) (data data' : Bytes) :
    (phase.extend data).extend data' = phase.extend (data ++ data') := by
  have hlines : ∀ lines : LineReader,
      (lines.extend data).extend data' = lines.extend (data ++ data') := by
    intro lines
    exact LineReader.ext (List.append_assoc _ _ _) rfl rfl rfl
  cases phase with
  | head reader =>
    show ReadPhase.head { reader with lines := (reader.lines.extend data).extend data' } = _
    rw [hlines]
    rfl
  | length head buffer => exact congrArg (ReadPhase.length head) (List.append_assoc _ _ _)
  | chunked reader =>
    show ReadPhase.chunked { reader with lines := (reader.lines.extend data).extend data' } = _
    rw [hlines]
    rfl

theorem receive_append (f : Framing) (data data' : Bytes) :
    receive (receive f data) data' = receive f (data ++ data') := by
  cases f with
  | refused served head e => rfl
  | reading served phase =>
    show receive (advance served (phase.extend data)) data' = _
    rw [← advance_extend, ReadPhase.extend_append]
    rfl

/-- Reads one after the other come to what one read of all their octets comes to. -/
theorem foldl_receive (reads : List Bytes) (f : Framing) (data : Bytes) :
    reads.foldl receive (receive f data) = receive f (data ++ reads.flatten) := by
  induction reads generalizing data with
  | nil => rw [List.flatten_nil, List.append_nil]; rfl
  | cons next reads ih =>
    rw [List.foldl_cons, receive_append, ih, List.flatten_cons, List.append_assoc]

/-- **The reads of a connection come to what its stream comes to.** -/
theorem readAll_eq (reads : List Bytes) :
    readAll reads = advance [] (.head (.init reads.flatten)) := by
  have hempty : advance [] (.head (.init [])) =
      receive (advance [] (.head (.init []))) [] := by
    rw [← advance_extend]
    rfl
  unfold readAll
  rw [hempty, foldl_receive, ← advance_extend]
  rfl

end BtclibNode
