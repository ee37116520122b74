/-
# The signet section of a commitment script

`_push_data` and `_fetch_and_clear_signet_section` of `signet.py`, over what `op_code_spans` and
`serialize` of btclib give.
-/
import Mathlib
import BtclibNode.P2p.RawBlock
import BtclibNode.Lib.Merkle
import BtclibNode.Rpc.LineReader

namespace BtclibNode.Signet

open RawBlock Octets

/-! ## Opcodes -/

/-- An opcode and what it pushes. -/
structure Op where
  code : ℕ
  data : Bytes

namespace Op

/-- The octets behind OP_PUSHDATA1, OP_PUSHDATA2 and OP_PUSHDATA4 for the length of the push. -/
def width (op : Op) : ℕ := if 75 < op.code ∧ op.code ≤ 78 then 2 ^ (op.code - 76) else 0

/-- What can stand in a script. -/
structure WellFormed (op : Op) : Prop where
  code_lt : op.code < 256
  other : op.code = 0 ∨ 78 < op.code → op.data = []
  direct : 0 < op.code → op.code ≤ 75 → op.data.length = op.code
  counted : 75 < op.code → op.code ≤ 78 → op.data.length < 256 ^ op.width

def encode (op : Op) : Bytes :=
  UInt8.ofNat op.code :: (LittleEndian.encode op.width op.data.length ++ op.data)

/-- The minimal push of some octets. -/
def minimal (data : Bytes) : Op where
  code :=
    if data.length < 76 then data.length
    else if data.length < 256 then 76
    else if data.length < 65536 then 77
    else 78
  data := data

/-- An empty push is minimal as OP_0, and any other push in its least form. -/
structure Minimal (op : Op) : Prop where
  empty : op.data = [] → op.code = 0 ∨ 78 < op.code
  push : op.data ≠ [] → op = minimal op.data

end Op

/-- The opcodes of a script, one after the other. -/
def encodeOps (ops : List Op) : Bytes := ops.flatMap Op.encode

/-- Where no opcode can be read. -/
def Unreadable (tail : Bytes) : Prop := ∀ op : Op, op.WellFormed → ¬ op.encode <+: tail

/-- The opcodes with where each starts and stops. -/
def spans : ℕ → List Op → List (ℕ × ℕ × ℕ)
  | _, [] => []
  | start, op :: ops =>
    (op.code, start, start + op.encode.length) :: spans (start + op.encode.length) ops

/-- What `signet.py` takes from btclib: `op_code_spans` splits a script into its opcodes up to
where none can be read, `serialize` of one push is the minimal one, a transaction is serialized
in its wire format, and a Merkle root pairs up the hashes of its leaves. -/
structure Btclib where
  opCodeSpans : Bytes → List (ℕ × ℕ × ℕ)
  push : Bytes → Bytes
  hash256 : Bytes → Bytes
  serializeTx : RawTx → Bytes
  merkleRoot : List Bytes → Bytes
  parseVarBytes : Bytes → Option (Bytes × Bytes)
  parseVarInt : Bytes → Option (ℕ × Bytes)
  opCodeSpans_eq : ∀ (ops : List Op) (tail : Bytes), (∀ op ∈ ops, op.WellFormed) →
    Unreadable tail → opCodeSpans (encodeOps ops ++ tail) = spans 0 ops
  push_eq : ∀ data, data ≠ [] → data.length < 2 ^ 32 → push data = (Op.minimal data).encode
  length_hash256 : ∀ x, (hash256 x).length = 32
  serializeTx_eq : ∀ tx, serializeTx tx = tx.stripped
  merkleRoot_eq : ∀ leaves, leaves ≠ [] → merkleRoot leaves = Merkle.root hash256 leaves

/-! ## The section -/

/-- `_SIGNET_HEADER`. -/
def signetHeader : Bytes := [0xec, 0xc7, 0xda, 0xa2]

/-- `_push_data`. -/
def pushData (script : Bytes) (opCode start stop : ℕ) : Bytes :=
  if 0 < opCode ∧ opCode ≤ 78 then
    slice script (start + 1 + if 75 < opCode then 2 ^ (opCode - 76) else 0) stop
  else []

/-- What the loop of `_fetch_and_clear_signet_section` carries. -/
@[ext]
structure Rebuilt where
  out : Bytes
  solution : Option Bytes
  found : Bool

/-- A turn of the loop, where an opcode pushes `data`. -/
def rebuild (lib : Btclib) (s : Rebuilt) (opCode : ℕ) (data : Bytes) : Rebuilt :=
  if data ≠ [] then
    if s.found = false ∧ signetHeader.length < data.length ∧ signetHeader <+: data then
      ⟨s.out ++ lib.push (data.take signetHeader.length), some (data.drop signetHeader.length),
        true⟩
    else { s with out := s.out ++ lib.push data }
  else { s with out := s.out ++ [UInt8.ofNat opCode] }

/-- `_fetch_and_clear_signet_section`. -/
def fetchAndClear (lib : Btclib) (script : Bytes) : Bytes × Option Bytes :=
  let s := (lib.opCodeSpans script).foldl
    (fun s (opCode, start, stop) => rebuild lib s opCode (pushData script opCode start stop))
    ⟨[], none, false⟩
  if s.found then (s.out, s.solution) else (script, none)

/-! ## What is rebuilt -/

variable {lib : Btclib} {op m : Op} {ops pre post : List Op} {script tail before after : Bytes}

/-- A push of the header and more. -/
def Op.Matches (op : Op) : Prop :=
  signetHeader.length < op.data.length ∧ signetHeader <+: op.data

instance (op : Op) : Decidable op.Matches :=
  inferInstanceAs (Decidable (signetHeader.length < op.data.length ∧ signetHeader <+: op.data))

/-- What a turn of the loop writes of an opcode that is not the section. -/
def emit (lib : Btclib) (op : Op) : Bytes :=
  if op.data ≠ [] then lib.push op.data else [UInt8.ofNat op.code]

theorem Op.Matches.ne_nil (h : op.Matches) : op.data ≠ [] :=
  List.ne_nil_of_length_pos ((Nat.zero_le _).trans_lt h.1)

theorem Op.WellFormed.push_of_ne_nil (h : op.WellFormed) (hne : op.data ≠ []) :
    0 < op.code ∧ op.code ≤ 78 := by
  by_contra hnot
  refine hne (h.other ?_)
  omega

theorem Op.WellFormed.length_lt (h : op.WellFormed) : op.data.length < 2 ^ 32 := by
  by_cases hpush : 0 < op.code ∧ op.code ≤ 78
  · by_cases hdirect : op.code ≤ 75
    · rw [h.direct hpush.1 hdirect]
      omega
    · have hlt := h.counted (by omega) hpush.2
      have hwidth : op.width ≤ 4 := by
        rw [Op.width, if_pos ⟨by omega, hpush.2⟩]
        have hle : op.code - 76 ≤ 2 := by omega
        exact Nat.pow_le_pow_right (by decide) hle
      exact hlt.trans_le (Nat.pow_le_pow_right (by decide) hwidth)
  · rw [h.other (by omega)]
    decide

/-- What is pushed stands between the ends of the opcode. -/
theorem pushData_op (h : op.WellFormed) :
    pushData (before ++ (op.encode ++ after)) op.code before.length
      (before.length + op.encode.length) = op.data := by
  have hmiddle : ∀ a b c : Bytes, slice (a ++ (b ++ c)) a.length (a.length + b.length) = b := by
    intro a b c
    rw [slice, List.drop_left, Nat.add_sub_cancel_left, List.take_left]
  rw [pushData]
  by_cases hpush : 0 < op.code ∧ op.code ≤ 78
  · rw [if_pos hpush]
    have hwidth : (if 75 < op.code then 2 ^ (op.code - 76) else 0) = op.width := by
      rw [Op.width]
      refine if_congr ?_ rfl rfl
      exact (and_iff_left hpush.2).symm
    have h := hmiddle (before ++ (UInt8.ofNat op.code ::
      LittleEndian.encode op.width op.data.length)) op.data after
    rw [List.length_append, List.length_cons, LittleEndian.length_encode] at h
    rw [hwidth, Op.encode, List.length_cons, List.length_append, LittleEndian.length_encode]
    convert h using 2
    · rw [List.append_assoc, List.cons_append, List.cons_append, List.append_assoc]
    · omega
    · omega
  · rw [if_neg hpush]
    exact (h.other (by omega)).symm

/-- The loop goes over the opcodes. -/
theorem foldl_spans (lib : Btclib) (before after : Bytes)
    (hops : ∀ op ∈ ops, op.WellFormed) (s : Rebuilt)
    (hscript : script = before ++ (encodeOps ops ++ after)) :
    (spans before.length ops).foldl (fun s (opCode, start, stop) =>
      rebuild lib s opCode (pushData script opCode start stop)) s =
      ops.foldl (fun s op => rebuild lib s op.code op.data) s := by
  induction ops generalizing before s with
  | nil => rfl
  | cons op ops ih =>
    obtain ⟨hop, hops⟩ := List.forall_mem_cons.mp hops
    rw [encodeOps, List.flatMap_cons, List.append_assoc] at hscript
    rw [spans, List.foldl_cons, List.foldl_cons]
    dsimp only
    rw [hscript, pushData_op hop, ← hscript, ← List.length_append]
    refine ih (before ++ op.encode) hops _ ?_
    rw [hscript, List.append_assoc]
    rfl

/-- Behind the section, or where there is none, every opcode is written again. -/
theorem foldl_emit (s : Rebuilt) (h : s.found = true ∨ ∀ op ∈ ops, ¬ op.Matches) :
    ops.foldl (fun s op => rebuild lib s op.code op.data) s =
      { s with out := s.out ++ ops.flatMap (emit lib) } := by
  induction ops generalizing s with
  | nil => rw [List.flatMap_nil, List.append_nil]; rfl
  | cons op ops ih =>
    have hstep : rebuild lib s op.code op.data = { s with out := s.out ++ emit lib op } := by
      rw [rebuild, emit]
      by_cases hdata : op.data ≠ []
      · have hnot : ¬ (s.found = false ∧ signetHeader.length < op.data.length ∧
            signetHeader <+: op.data) := by
          rintro ⟨hfound, hmatch⟩
          rcases h with hf | hall
          · rw [hf] at hfound
            cases hfound
          · exact hall op List.mem_cons_self hmatch
        rw [if_pos hdata, if_neg hnot, if_pos hdata]
      · rw [if_neg hdata, if_neg hdata]
    have hrest := ih { s with out := s.out ++ emit lib op } (h.imp id fun hall op' hop' =>
      hall op' (List.mem_cons_of_mem _ hop'))
    rw [List.foldl_cons, hstep, hrest, List.flatMap_cons]
    exact Rebuilt.ext (List.append_assoc ..) rfl rfl

/-- The section is written as its header. -/
theorem rebuild_section {s : Rebuilt} (hs : s.found = false) (hm : m.Matches) :
    rebuild lib s m.code m.data =
      ⟨s.out ++ lib.push signetHeader, some (m.data.drop signetHeader.length), true⟩ := by
  have hheader : m.data.take signetHeader.length = signetHeader :=
    (List.prefix_iff_eq_take.mp hm.2).symm
  rw [rebuild, if_pos hm.ne_nil, if_pos ⟨hs, hm.1, hm.2⟩, hheader]

/-- **A script with a section** is rebuilt with the header in its place. -/
theorem fetchAndClear_section (lib : Btclib) (hops : ∀ op ∈ pre ++ m :: post, op.WellFormed)
    (htail : Unreadable tail) (hpre : ∀ op ∈ pre, ¬ op.Matches) (hm : m.Matches) :
    fetchAndClear lib (encodeOps (pre ++ m :: post) ++ tail) =
      (pre.flatMap (emit lib) ++ (lib.push signetHeader ++ post.flatMap (emit lib)),
        some (m.data.drop signetHeader.length)) := by
  have hfold := foldl_spans lib [] tail hops ⟨[], none, false⟩ rfl
  rw [fetchAndClear, lib.opCodeSpans_eq _ _ hops htail]
  rw [List.nil_append, List.length_nil] at hfold
  dsimp only
  rw [hfold, List.foldl_append, foldl_emit _ (Or.inr hpre), List.foldl_cons,
    rebuild_section rfl hm, foldl_emit _ (Or.inl rfl), if_pos rfl, List.nil_append,
    List.append_assoc]

/-- A script without a section is left as it is. -/
theorem fetchAndClear_none (lib : Btclib) (hops : ∀ op ∈ ops, op.WellFormed) (htail : Unreadable tail)
    (hnone : ∀ op ∈ ops, ¬ op.Matches) :
    fetchAndClear lib (encodeOps ops ++ tail) = (encodeOps ops ++ tail, none) := by
  have hfold := foldl_spans lib [] tail hops ⟨[], none, false⟩ rfl
  rw [fetchAndClear, lib.opCodeSpans_eq _ _ hops htail]
  rw [List.nil_append, List.length_nil] at hfold
  dsimp only
  rw [hfold, foldl_emit _ (Or.inr hnone), if_neg Bool.false_ne_true]

/-- A minimal push is written as it stood. -/
theorem emit_minimal (hop : op.WellFormed) (hmin : op.Minimal) : emit lib op = op.encode := by
  rw [emit]
  split_ifs with hdata
  · rw [lib.push_eq _ hdata hop.length_lt, ← hmin.push hdata]
  · have hnil : op.data = [] := not_not.mp hdata
    have hcode := hmin.empty hnil
    have hwidth : op.width = 0 := by
      rw [Op.width, if_neg]
      omega
    rw [Op.encode, hnil, hwidth]
    rfl

/-- Every script is opcodes, and then a part where none can be read. -/
theorem exists_ops (script : Bytes) : ∃ (ops : List Op) (tail : Bytes),
    script = encodeOps ops ++ tail ∧ (∀ op ∈ ops, op.WellFormed) ∧ Unreadable tail := by
  induction hn : script.length using Nat.strong_induction_on generalizing script with
  | _ n ih =>
    by_cases hread : Unreadable script
    · exact ⟨[], script, rfl, fun _ h => absurd h List.not_mem_nil, hread⟩
    · obtain ⟨op, hop, rest, rfl⟩ : ∃ op : Op, op.WellFormed ∧ op.encode <+: script := by
        by_contra hnone
        exact hread fun op hop hstart => hnone ⟨op, hop, hstart⟩
      have hlt : rest.length < n := by
        rw [← hn, List.length_append, Op.encode, List.length_cons]
        omega
      obtain ⟨ops, tail, rfl, hops, htail⟩ := ih _ hlt rest rfl
      refine ⟨op :: ops, tail, ?_, List.forall_mem_cons.mpr ⟨hop, hops⟩, htail⟩
      rw [encodeOps, encodeOps, List.flatMap_cons, List.append_assoc]

/-- The section is the first push of the header and more. -/
theorem exists_first (h : ¬ ∀ op ∈ ops, ¬ op.Matches) :
    ∃ pre m post, ops = pre ++ m :: post ∧ (∀ op ∈ pre, ¬ op.Matches) ∧ m.Matches := by
  induction ops with
  | nil => exact absurd (fun _ hop => absurd hop List.not_mem_nil) h
  | cons op ops ih =>
    by_cases hop : op.Matches
    · exact ⟨[], op, ops, rfl, fun _ hmem => absurd hmem List.not_mem_nil, hop⟩
    · obtain ⟨pre, m, post, rfl, hpre, hm⟩ := ih fun hall =>
        h (List.forall_mem_cons.mpr ⟨hop, hall⟩)
      exact ⟨op :: pre, m, post, rfl, List.forall_mem_cons.mpr ⟨hop, hpre⟩, hm⟩

/-! ## What the stripped script holds -/

/-- The octets of an opcode that are not about lengths. -/
def Op.octets (op : Op) : Bytes := if op.data ≠ [] then op.data else [UInt8.ofNat op.code]

/-- Two lists of opcodes that push as much. -/
def SameShape (ops ops' : List Op) : Prop :=
  List.Forall₂ (fun op op' => op.data.length = op'.data.length) ops ops'

theorem Op.minimal_code_eq {data data' : Bytes} (h : data.length = data'.length) :
    (Op.minimal data).code = (Op.minimal data').code := by
  rw [Op.minimal, Op.minimal]
  dsimp only
  rw [h]

/-- Minimal pushes of one length are equal for equal octets only. -/
theorem encode_minimal_inj {data data' r r' : Bytes} (hlen : data.length = data'.length)
    (h : (Op.minimal data).encode ++ r = (Op.minimal data').encode ++ r') :
    data = data' ∧ r = r' := by
  have hcode := Op.minimal_code_eq hlen
  have hwidth : (Op.minimal data).width = (Op.minimal data').width := by
    rw [Op.width, Op.width, hcode]
  rw [Op.encode, Op.encode, hcode, hwidth, List.cons_append, List.cons_append,
    List.append_assoc, List.append_assoc] at h
  have hrest := (List.append_inj (List.cons.inj h).2 (by
    rw [LittleEndian.length_encode, LittleEndian.length_encode])).2
  exact List.append_inj hrest hlen

/-- **Every octet of the opcodes is one of what is rebuilt.** -/
theorem octets_of_emit {ops' : List Op} {r r' : Bytes} (hops : ∀ op ∈ ops, op.WellFormed)
    (hops' : ∀ op ∈ ops', op.WellFormed) (hshape : SameShape ops ops')
    (h : ops.flatMap (emit lib) ++ r = ops'.flatMap (emit lib) ++ r') :
    ops.map Op.octets = ops'.map Op.octets ∧ r = r' := by
  induction hshape with
  | nil => exact ⟨rfl, h⟩
  | @cons op op' ops ops' hlen hshape ih =>
    obtain ⟨hop, hops⟩ := List.forall_mem_cons.mp hops
    obtain ⟨hop', hops'⟩ := List.forall_mem_cons.mp hops'
    rw [List.flatMap_cons, List.flatMap_cons, List.append_assoc, List.append_assoc] at h
    have hfirst : op.octets = op'.octets ∧ ops.flatMap (emit lib) ++ r =
        ops'.flatMap (emit lib) ++ r' := by
      by_cases hdata : op.data ≠ []
      · have hdata' : op'.data ≠ [] := fun hnil =>
          hdata (List.length_eq_zero_iff.mp (hlen.trans (List.length_eq_zero_iff.mpr hnil)))
        rw [emit, emit, if_pos hdata, if_pos hdata', lib.push_eq _ hdata hop.length_lt,
          lib.push_eq _ hdata' hop'.length_lt] at h
        rw [Op.octets, Op.octets, if_pos hdata, if_pos hdata']
        exact encode_minimal_inj hlen h
      · have hdata' : ¬ op'.data ≠ [] := fun hne => hdata fun hnil =>
          hne (List.length_eq_zero_iff.mp (hlen.symm.trans (List.length_eq_zero_iff.mpr hnil)))
        rw [emit, emit, if_neg hdata, if_neg hdata'] at h
        rw [Op.octets, Op.octets, if_neg hdata, if_neg hdata']
        exact List.append_inj h rfl
    obtain ⟨hrest, heq⟩ := ih hops hops' hfirst.2
    rw [List.map_cons, List.map_cons, hfirst.1, hrest]
    exact ⟨rfl, heq⟩

theorem width_minimal (data : Bytes) : (Op.minimal data).width =
    if data.length < 76 then 0 else if data.length < 256 then 1
    else if data.length < 65536 then 2 else 4 := by
  rw [Op.width, Op.minimal]
  dsimp only
  by_cases h1 : data.length < 76
  · rw [if_pos h1, if_pos h1, if_neg (by omega)]
  · rw [if_neg h1, if_neg h1]
    split_ifs <;> first | rfl | omega

/-- No push of some octets is shorter than the minimal one. -/
theorem width_minimal_le (hop : op.WellFormed) (hdata : op.data ≠ []) :
    (Op.minimal op.data).width ≤ op.width := by
  obtain ⟨hpos, hle⟩ := hop.push_of_ne_nil hdata
  rw [width_minimal]
  by_cases hdirect : op.code ≤ 75
  · have hlen := hop.direct hpos hdirect
    rw [if_pos (by omega)]
    exact Nat.zero_le _
  · have hcounted := hop.counted (by omega) hle
    have hwidth : op.width = 2 ^ (op.code - 76) := if_pos ⟨by omega, hle⟩
    rw [hwidth] at hcounted ⊢
    have hcode : op.code = 76 ∨ op.code = 77 ∨ op.code = 78 := by omega
    rcases hcode with hcode | hcode | hcode <;> rw [hcode] at hcounted ⊢ <;> split_ifs <;> omega

/-- What is rebuilt of an opcode is no longer than it was. -/
theorem length_emit_le (hop : op.WellFormed) : (emit lib op).length ≤ op.encode.length := by
  rw [emit]
  by_cases hdata : op.data ≠ []
  · have hwidth := width_minimal_le hop hdata
    have hsame : (Op.minimal op.data).data = op.data := rfl
    rw [if_pos hdata, lib.push_eq _ hdata hop.length_lt, Op.encode, Op.encode, List.length_cons,
      List.length_cons, List.length_append, List.length_append, LittleEndian.length_encode,
      LittleEndian.length_encode, hsame]
    omega
  · rw [if_neg hdata, Op.encode, List.length_cons, List.length_cons, List.length_nil]
    omega

/-- What is rebuilt is no longer than the script. -/
theorem length_fetchAndClear_le (lib : Btclib) (script : Bytes) :
    (fetchAndClear lib script).1.length ≤ script.length := by
  have hemit : ∀ ops : List Op, (∀ op ∈ ops, op.WellFormed) →
      (ops.flatMap (emit lib)).length ≤ (encodeOps ops).length := by
    intro ops
    induction ops with
    | nil => exact fun _ => le_rfl
    | cons op ops ih =>
      intro hops
      obtain ⟨hop, hops⟩ := List.forall_mem_cons.mp hops
      rw [encodeOps, List.flatMap_cons, List.flatMap_cons, List.length_append, List.length_append]
      exact Nat.add_le_add (length_emit_le hop) (ih hops)
  obtain ⟨ops, tail, rfl, hops, htail⟩ := exists_ops script
  by_cases hnone : ∀ op ∈ ops, ¬ op.Matches
  · rw [fetchAndClear_none lib hops htail hnone]
  · obtain ⟨pre, m, post, rfl, hpre, hm⟩ := exists_first hnone
    have hheader : (lib.push signetHeader).length ≤ m.encode.length := by
      have hfive : (Op.minimal signetHeader).encode.length = 5 := by decide
      have hlt : 4 < m.data.length := hm.1
      rw [lib.push_eq _ (by decide) (by decide), hfive, Op.encode, List.length_cons,
        List.length_append, LittleEndian.length_encode]
      omega
    rw [fetchAndClear_section lib hops htail hpre hm]
    have h1 := hemit pre fun op hop => hops op (List.mem_append_left _ hop)
    have h2 := hemit post fun op hop =>
      hops op (List.mem_append_right _ (List.mem_cons_of_mem _ hop))
    simp only [encodeOps, List.flatMap_append, List.flatMap_cons, List.length_append] at h1 h2 ⊢
    omega

end BtclibNode.Signet
