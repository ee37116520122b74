/-
# What a request is

The octets of the requests a connection reads: header sections and bodies within the
limits, one after the other in the stream.
-/
import BtclibNode.Rpc.Framing

namespace BtclibNode

/-- Octets that are whole lines, none of them past the limit. -/
def WholeLines (octets : Bytes) : Prop :=
  ∃ lines : List Bytes, octets = (lines.map (· ++ [lf])).flatten ∧
    ∀ e ∈ lines, lf ∉ e ∧ e.length ≤ maxHeaderBytes

/-- A header section: a request line, then lines of the size counted, within the limit. -/
def HeaderSection (head : RequestHead) : Prop :=
  ∃ line rest, head.raw = line ++ lf :: rest ∧ lf ∉ line ∧ line.length ≤ maxHeaderBytes ∧
    WholeLines rest ∧ head.size = rest.length ∧ head.size ≤ maxHeaderBytes

/-- The size a line of a chunked body declares. -/
def declaredSize (line : Bytes) : Option ℕ :=
  uint64 (strip (partitionAt 59 (LineReader.dropCr line)).1) 16

/-- A chunked body `data` in its octets, after a header section of `size` octets: chunks
of a size line, the data and an empty line, then a size of 0 and a trailer. -/
inductive ChunkedSection (size : ℕ) : Bytes → Bytes → Prop
  | last {line trailer : Bytes} (hline : lf ∉ line) (hlength : line.length ≤ maxHeaderBytes)
      (hsize : declaredSize line = some 0) (htrailer : WholeLines trailer)
      (hlimit : size + trailer.length ≤ maxHeaderBytes) :
      ChunkedSection size (line ++ lf :: trailer) []
  | chunk {line data after octets rest : Bytes} (hline : lf ∉ line)
      (hlength : line.length ≤ maxHeaderBytes) (hsize : declaredSize line = some data.length)
      (hafter : after = [] ∨ after = [cr]) (hrest : ChunkedSection size octets rest) :
      ChunkedSection size (line ++ lf :: (data ++ (after ++ lf :: octets))) (data ++ rest)

/-- The octets of a body after its header section. -/
def BodySection (head : RequestHead) (body octets : Bytes) : Prop :=
  if head.chunked then ChunkedSection head.size octets body
  else octets = body ∧ body.length = head.length

/-- Requests laid one after the other in the front of a stream, and what is left of it. -/
inductive Laid : List (RequestHead × Bytes) → Bytes → Bytes → Prop
  | nil (rest : Bytes) : Laid [] rest rest
  | cons {head : RequestHead} {body octets : Bytes} {requests : List (RequestHead × Bytes)}
      {stream rest : Bytes} (hhead : HeaderSection head) (hbody : BodySection head body octets)
      (hlimit : body.length ≤ maxBodyBytes) (hrest : Laid requests stream rest) :
      Laid ((head, body) :: requests) (head.raw ++ octets ++ stream) rest

theorem WholeLines.nil : WholeLines [] := ⟨[], rfl, fun _ h => absurd h List.not_mem_nil⟩

theorem WholeLines.cons {line rest : Bytes} (hline : lf ∉ line)
    (hlength : line.length ≤ maxHeaderBytes) (hrest : WholeLines rest) :
    WholeLines (line ++ lf :: rest) := by
  obtain ⟨lines, rfl, hlines⟩ := hrest
  refine ⟨line :: lines, by simp, ?_⟩
  intro e he
  rcases List.mem_cons.1 he with rfl | he
  · exact ⟨hline, hlength⟩
  · exact hlines e he

theorem Laid.append {requests requests' : List (RequestHead × Bytes)} {stream middle rest : Bytes}
    (h : Laid requests stream middle) (h' : Laid requests' middle rest) :
    Laid (requests ++ requests') stream rest := by
  induction h with
  | nil middle => exact h'
  | cons hhead hbody hlimit hrest ih => exact .cons hhead hbody hlimit (ih h')

/-- What a line read takes off the buffer. -/
theorem LineReader.readln_octets {r s : LineReader} {line : Bytes}
    (h : r.readln = .ok (some line, s)) :
    ∃ e, r.buffer = e ++ lf :: s.buffer ∧ lf ∉ e ∧ e.length ≤ maxHeaderBytes ∧
      line = dropCr e ∧ s.record = r.record.map (· ++ (e ++ [lf])) ∧
      s.consumed = r.consumed + (e.length + 1) := by
  obtain ⟨e, rest, hb, he, hlen, hline, rfl⟩ := readln_some h
  have hlength : (e ++ [lf]).length = e.length + 1 := by simp
  refine ⟨e, ?_, he, hlen, hline, ?_, rfl⟩
  · show r.buffer = e ++ lf :: r.buffer.drop (e.length + 1)
    rw [hb, show e ++ lf :: rest = (e ++ [lf]) ++ rest by simp, ← hlength, List.drop_left]
    simp
  · show r.record.map (· ++ r.buffer.take (e.length + 1)) = _
    rw [hb, show e ++ lf :: rest = (e ++ [lf]) ++ rest by simp, ← hlength, List.take_left]

/-- What a whole header section takes off the buffer. -/
theorem FieldReader.read_octets {f f' : FieldReader} {lines lines' : LineReader}
    (h : f.read lines = .done (f', lines')) :
    ∃ octets, lines.buffer = octets ++ lines'.buffer ∧ WholeLines octets ∧
      lines'.record = lines.record.map (· ++ octets) ∧ f'.size = f.size + octets.length ∧
      f'.size ≤ maxHeaderBytes := by
  fun_induction read f lines with
  | case1 f lines e hln => cases h
  | case2 f lines lines' hln => cases h
  | case3 f lines line lines' hln e f' hstep => cases h
  | case4 f lines line lines'' hln f'' hstep =>
    cases h
    obtain ⟨e, hb, he, hlen, hline, hrecord, hconsumed⟩ := LineReader.readln_octets hln
    have hsize := f.takeLine_counted line (lines'.consumed - lines.consumed)
    rw [hstep, hconsumed, Nat.add_sub_cancel_left] at hsize
    refine ⟨e ++ [lf], by rw [hb]; simp, WholeLines.cons he hlen .nil, hrecord, ?_, hsize.2⟩
    rw [hsize.1]
    simp
  | case5 f lines line lines'' hln f'' hstep ih =>
    obtain ⟨e, hb, he, hlen, hline, hrecord, hconsumed⟩ := LineReader.readln_octets hln
    obtain ⟨octets, hb', hwhole, hrecord', hsize', hlimit⟩ := ih h
    have hsize := f.takeLine_counted line (lines''.consumed - lines.consumed)
    rw [hstep, hconsumed, Nat.add_sub_cancel_left] at hsize
    refine ⟨e ++ lf :: octets, by rw [hb, hb']; simp, WholeLines.cons he hlen hwhole, ?_, ?_,
      hlimit⟩
    · rw [hrecord', hrecord, Option.map_map]
      congr 1
      funext record
      simp
    · rw [hsize', hsize.1, List.length_append, List.length_cons]
      omega

/-- What a whole head takes off the buffer. -/
theorem HeadReader.read_octets {buffer buffer' : Bytes} {head : RequestHead}
    (h : (HeadReader.init buffer).read = .inr (head, buffer')) (hok : head.error = none) :
    buffer = head.raw ++ buffer' ∧ HeaderSection head := by
  have hends := (HeadReader.init buffer).readSection_ends
  have hdeclare : ∀ head, (declareBody head).raw = head.raw ∧
      (declareBody head).size = head.size := by
    intro head
    have hlength : (declareBody.withLength head).raw = head.raw ∧
        (declareBody.withLength head).size = head.size := by
      unfold declareBody.withLength
      split <;> exact ⟨rfl, rfl⟩
    unfold declareBody
    split
    · split
      · exact ⟨rfl, rfl⟩
      · exact hlength
    · exact hlength
  unfold read at h
  cases hread : (HeadReader.init buffer).readSection with
  | more r' => rw [hread] at h; cases h
  | refused e left =>
    rw [hread] at h hends
    cases h
    rw [show (_ : Option FramingError) = some e from hends.1] at hok
    cases hok
  | done result =>
    rw [hread] at h
    cases h
    obtain ⟨section', rest⟩ := result
    rw [(hdeclare section').1]
    unfold HeaderSection
    rw [(hdeclare section').1, (hdeclare section').2]
    -- the request line, then the field lines
    have hline : (HeadReader.init buffer).readRequestLine = .done (section', rest) := hread
    unfold readRequestLine at hline
    split at hline
    · cases hline
    · cases hline
    · next line lines hln =>
      split at hline
      · cases hline
      · next method target version hparts =>
        unfold readFields at hline
        split at hline
        · cases hline
        · cases hline
        · next f lines' hfields =>
          cases hline
          obtain ⟨e, hb, he, hlen, -, hrecord, -⟩ := LineReader.readln_octets hln
          obtain ⟨octets, hb', hwhole, hrecord', hsize, hlimit⟩ :=
            FieldReader.read_octets hfields
          have hraw : lines'.record.getD [] = e ++ lf :: octets := by
            rw [hrecord', hrecord]
            simp [HeadReader.init, LineReader.init]
          have hbuffer : buffer = e ++ lf :: lines.buffer := hb
          refine ⟨?_, e, octets, hraw, he, hlen, hwhole, ?_, hlimit⟩
          · show buffer = lines'.record.getD [] ++ lines'.buffer
            rw [hraw, hbuffer, hb']
            simp
          · rw [← Nat.zero_add octets.length]
            exact hsize

namespace ChunkedReader

/-- What the size line of a chunk takes off the buffer. -/
theorem readSize_octets {r r' : ChunkedReader} (h : r.readSize = .done r')
    (hsize : r.size = none) :
    ∃ e size, r.lines.buffer = e ++ lf :: r'.lines.buffer ∧ lf ∉ e ∧
      e.length ≤ maxHeaderBytes ∧ declaredSize e = some size ∧ r'.size = some size ∧
      size ≤ maxBodyBytes - r.body.length ∧ r'.head = r.head ∧ r'.body = r.body ∧
      r'.taken = r.taken ∧ r'.trailer = if size = 0
        then some { size := r.head.size, keep := false, fields := [] } else r.trailer := by
  unfold readSize at h
  rw [hsize] at h
  dsimp only at h
  split at h
  · cases h
  · cases h
  · next line lines hln =>
    obtain ⟨e, hb, he, hlen, hline, -, -⟩ := LineReader.readln_octets hln
    split at h
    · cases h
    · next size hchunk =>
      have hdeclared : declaredSize e = some size ∧ size ≤ maxBodyBytes - r.body.length := by
        unfold chunkSize at hchunk
        rw [hline] at hchunk
        split at hchunk
        · cases hchunk
        · next size' hu =>
          split at hchunk
          · cases hchunk
          · next hle =>
            cases hchunk
            exact ⟨hu, Nat.le_of_not_lt hle⟩
      by_cases hzero : size = 0
      · rw [if_pos hzero] at h
        cases h
        exact ⟨e, size, hb, he, hlen, hdeclared.1, congrArg some hzero.symm, hdeclared.2, rfl,
          rfl, rfl, (if_pos hzero).symm⟩
      · rw [if_neg hzero] at h
        cases h
        exact ⟨e, size, hb, he, hlen, hdeclared.1, rfl, hdeclared.2, rfl, rfl, rfl,
          (if_neg hzero).symm⟩

/-- What the data of a chunk and the line after it take off the buffer. -/
theorem takeChunk_octets {r r' : ChunkedReader} {size : ℕ} (h : r.takeChunk size = .done r')
    (htaken : r.taken = false) :
    ∃ data after, r.lines.buffer = data ++ (after ++ lf :: r'.lines.buffer) ∧
      data.length = size ∧ (after = [] ∨ after = [cr]) ∧ r'.body = r.body ++ data ∧
      r'.head = r.head ∧ r'.trailer = r.trailer ∧ r'.size = none ∧ r'.taken = false := by
  unfold takeChunk at h
  rw [if_neg (by rw [htaken]; exact Bool.false_ne_true)] at h
  split at h
  · cases h
  · next hlen =>
    have hle : size ≤ r.lines.buffer.length := Nat.le_of_not_lt hlen
    unfold endChunk at h
    split at h
    · cases h
    · cases h
    · next line lines hln =>
      split at h
      · cases h
      · next hline =>
        cases h
        obtain ⟨e, hb, he, -, hdrop, -, -⟩ := LineReader.readln_octets hln
        have hafter : e = [] ∨ e = [cr] := by
          rw [not_not] at hline
          rw [hline] at hdrop
          unfold LineReader.dropCr at hdrop
          split at hdrop
          · next hcr =>
            right
            rcases List.eq_nil_or_concat' e with rfl | ⟨front, last, rfl⟩
            · cases hcr
            · rw [List.dropLast_concat] at hdrop
              rw [List.getLast?_concat] at hcr
              rw [← hdrop, Option.some.inj hcr, List.nil_append]
          · exact .inl hdrop.symm
        refine ⟨r.lines.buffer.take size, e, ?_, List.length_take_of_le hle, hafter, rfl, rfl,
          rfl, rfl, rfl⟩
        conv_lhs => rw [← List.take_append_drop size r.lines.buffer]
        exact congrArg (_ ++ ·) hb

/-- What a whole chunked body takes off the buffer. -/
theorem read_octets {r r' : ChunkedReader} (h : r.read = .done r') (htrailer : r.trailer = none)
    (hsize : r.size = none) (htaken : r.taken = false) (hbody : r.body.length ≤ maxBodyBytes) :
    ∃ octets data, r.lines.buffer = octets ++ r'.lines.buffer ∧ r'.body = r.body ++ data ∧
      ChunkedSection r.head.size octets data ∧ r'.body.length ≤ maxBodyBytes := by
  fun_induction read r with
  | case1 r f hf =>
    rw [htrailer] at hf
    cases hf
  | case2 r hnone e left hread => cases h
  | case3 r hnone r' hread => cases h
  | case4 r hnone r₁ hread f hf =>
    obtain ⟨e, size, hb, he, hlen, hdeclared, -, -, -, hsame, -, htr⟩ :=
      readSize_octets hread hsize
    by_cases hzero : size = 0
    · rw [if_pos hzero, hf, Option.some.injEq] at htr
      unfold readTrailer at h
      split at h
      · cases h
      · cases h
      · next f' lines hfields =>
        cases h
        obtain ⟨octets, hb', hwhole, -, hcount, hlimit⟩ := FieldReader.read_octets hfields
        rw [htr] at hcount
        refine ⟨e ++ lf :: octets, [], by rw [hb, hb']; simp, ?_,
          .last he hlen (hzero ▸ hdeclared) hwhole ?_, ?_⟩
        · show r₁.body = r.body ++ []
          rw [hsame, List.append_nil]
        · rw [← hcount]
          exact hlimit
        · show r₁.body.length ≤ _
          rw [hsame]
          exact hbody
    · rw [if_neg hzero, htrailer, hf] at htr
      cases htr
  | case5 r hnone r₁ hread hf e left hchunk => cases h
  | case6 r hnone r₁ hread hf r₂ hchunk => cases h
  | case7 r hnone r₁ hread hf r₂ hchunk ih =>
    obtain ⟨e, size, hb, he, hlen, hdeclared, hsome, hfits, hhead, hsame, hnot, -⟩ :=
      readSize_octets hread hsize
    rw [hsome] at hchunk
    obtain ⟨data, after, hb', hdata, hafter, hbody', hhead', htr', hsize', htaken'⟩ :=
      takeChunk_octets hchunk (hnot.trans htaken)
    have hle : r₂.body.length ≤ maxBodyBytes := by
      rw [hbody', hsame, List.length_append, hdata, Option.getD_some]
      omega
    obtain ⟨octets, rest, hb'', hbody'', hrest, hlimit⟩ :=
      ih h (htr'.trans hf) hsize' htaken' hle
    rw [hhead', hhead] at hrest
    refine ⟨e ++ lf :: (data ++ (after ++ lf :: octets)), data ++ rest, ?_, ?_,
      .chunk he hlen ?_ hafter hrest, hlimit⟩
    · rw [hb, hb', hb'']
      simp
    · rw [hbody'', hbody', hsame, List.append_assoc]
    · rw [hdeclared, hdata, Option.getD_some]

end ChunkedReader

/-- A head that is read declares a length within the limit. -/
theorem HeadReader.read_limit {r : HeadReader} {head : RequestHead} {buffer : Bytes}
    (h : r.read = .inr (head, buffer)) : head.length ≤ maxBodyBytes := by
  have hdeclare : ∀ head : RequestHead, head.length ≤ maxBodyBytes →
      (declareBody head).length ≤ maxBodyBytes := by
    intro head hlength
    have hwith : (declareBody.withLength head).length ≤ maxBodyBytes := by
      unfold declareBody.withLength
      split
      · next hcontent => exact contentLength_le hcontent
      · exact hlength
    unfold declareBody
    split
    · split
      · exact hlength
      · exact hwith
    · exact hwith
  have hends := r.readSection_ends
  unfold read at h
  cases hread : r.readSection with
  | more r' => rw [hread] at h; cases h
  | refused e left =>
    rw [hread] at h hends
    cases h
    exact le_of_eq_of_le hends.2 (Nat.zero_le _)
  | done result =>
    rw [hread] at h hends
    cases h
    exact hdeclare _ (le_of_eq_of_le hends.2 (Nat.zero_le _))

/-- The requests a connection has read lie one after the other in its stream, from the
start of a request on. -/
theorem advance_laid (served : List (RequestHead × Bytes)) (buffer : Bytes) :
    ∃ requests rest, (advance served (.head (.init buffer))).served = served ++ requests ∧
      Laid requests buffer rest := by
  have hnone : ∀ buffer, ∃ requests rest, served = served ++ requests ∧
      Laid requests buffer rest :=
    fun buffer => ⟨[], buffer, (List.append_nil served).symm, .nil buffer⟩
  cases hread : (HeadReader.init buffer).read with
  | inl reader =>
    rw [advance_head_more hread]
    exact hnone buffer
  | inr result =>
    obtain ⟨head, after⟩ := result
    rw [advance_head_done hread]
    cases hok : head.error with
    | some e => exact hnone buffer
    | none =>
      obtain ⟨hbuffer, hhead⟩ := HeadReader.read_octets hread hok
      have hshort : after.length < buffer.length := HeadReader.read_length hread hok
      dsimp only
      by_cases hchunked : head.chunked = true
      · rw [if_pos hchunked, advance_chunked]
        cases hbody : (ChunkedReader.init after head).read with
        | more chunks => exact hnone buffer
        | refused e left => exact hnone buffer
        | done chunks =>
          have hshort' : chunks.lines.buffer.length < after.length :=
            ChunkedReader.read_length hbody
          have hkeeps := (ChunkedReader.init after head).read_keeps
          rw [hbody] at hkeeps
          obtain ⟨octets, data, hafter, hdata, hsection, hlimit⟩ :=
            ChunkedReader.read_octets hbody rfl rfl rfl (Nat.zero_le _)
          obtain ⟨requests, rest, hserved, hlaid⟩ :=
            advance_laid (served ++ [(chunks.head, chunks.body)]) chunks.lines.buffer
          refine ⟨(chunks.head, chunks.body) :: requests, rest, ?_, ?_⟩
          · exact hserved.trans (List.append_cons served _ requests).symm
          · have hsection' : BodySection head chunks.body octets := by
              unfold BodySection
              rw [if_pos hchunked, hdata]
              exact hsection
            have hall := Laid.cons hhead hsection' hlimit hlaid
            rw [show chunks.head = head from hkeeps, hbuffer, show after = _ from hafter,
              ← List.append_assoc]
            exact hall
      · rw [if_neg hchunked]
        by_cases hlen : after.length < head.length
        · rw [advance, if_pos hlen]
          exact hnone buffer
        · have hle : head.length ≤ after.length := Nat.le_of_not_lt hlen
          rw [advance_length hle]
          obtain ⟨requests, rest, hserved, hlaid⟩ :=
            advance_laid (served ++ [(head, after.take head.length)]) (after.drop head.length)
          refine ⟨(head, after.take head.length) :: requests, rest, ?_, ?_⟩
          · exact hserved.trans (List.append_cons served _ requests).symm
          · have hsection : BodySection head (after.take head.length) (after.take head.length) := by
              unfold BodySection
              rw [if_neg hchunked]
              exact ⟨rfl, List.length_take_of_le hle⟩
            have hlimit : (after.take head.length).length ≤ maxBodyBytes := by
              rw [List.length_take_of_le hle]
              exact HeadReader.read_limit hread
            have hall := Laid.cons hhead hsection hlimit hlaid
            rw [List.append_assoc, List.take_append_drop, ← hbuffer] at hall
            exact hall
termination_by buffer.length
decreasing_by
  · exact Nat.lt_trans hshort' hshort
  · rw [List.length_drop]
    omega

/-- **HTTP framing does not depend on segmentation.**  Two ways of splitting a stream into
reads give the same requests and the same refusal, or both wait; and the requests read lie
one after the other in the stream, each a header section within the limits and its body. -/
theorem framing_independent_of_segmentation (reads reads' : List Bytes)
    (h : reads.flatten = reads'.flatten) :
    (readAll reads).served = (readAll reads').served ∧
      (readAll reads).refusal = (readAll reads').refusal ∧
      ∃ rest, Laid (readAll reads).served reads.flatten rest := by
  rw [readAll_eq, readAll_eq, h]
  refine ⟨rfl, rfl, ?_⟩
  obtain ⟨requests, rest, hserved, hlaid⟩ := advance_laid [] reads'.flatten
  rw [hserved]
  exact ⟨rest, hlaid⟩

/-- A request that arrives in two reads, its request line cut, and in one. -/
theorem framing_independent_of_segmentation_cut :
    (readAll [[71, 69, 84, 32, 47, 32, 72, 84], [84, 80, 47, 49, 46, 49, 10, 10]]).served =
      (readAll [[71, 69, 84, 32, 47, 32, 72, 84, 84, 80, 47, 49, 46, 49, 10, 10]]).served ∧
    (readAll [[71, 69, 84, 32, 47, 32, 72, 84], [84, 80, 47, 49, 46, 49, 10, 10]]).refusal =
      (readAll [[71, 69, 84, 32, 47, 32, 72, 84, 84, 80, 47, 49, 46, 49, 10, 10]]).refusal ∧
    ∃ rest, Laid
      (readAll [[71, 69, 84, 32, 47, 32, 72, 84], [84, 80, 47, 49, 46, 49, 10, 10]]).served
      [71, 69, 84, 32, 47, 32, 72, 84, 84, 80, 47, 49, 46, 49, 10, 10] rest :=
  framing_independent_of_segmentation _ _ (by decide)

end BtclibNode
