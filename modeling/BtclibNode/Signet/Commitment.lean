/-
# What a signet signature commits to

`_witness_commitment_output_index`, `_parse_solution` and `_signet_transactions` of `signet.py`.
-/
import Mathlib
import BtclibNode.Signet.Script

namespace BtclibNode.Signet

open RawBlock

/-- `SIGNET_CHALLENGE`. -/
def signetChallenge : Bytes :=
  [0x51, 0x21, 0x03, 0xad, 0x5e, 0x0e, 0xda, 0xd1, 0x8c, 0xb1, 0xf0, 0xfc, 0x0d, 0x28, 0xa3, 0xd4,
    0xf1, 0xf3, 0xe4, 0x45, 0x64, 0x03, 0x37, 0x48, 0x9a, 0xbb, 0x10, 0x40, 0x4f, 0x2d, 0x1e,
    0x08, 0x6b, 0xe4, 0x30, 0x21, 0x03, 0x59, 0xef, 0x50, 0x21, 0x96, 0x4f, 0xe2, 0x2d, 0x6f,
    0x8e, 0x05, 0xb2, 0x46, 0x3c, 0x95, 0x40, 0xce, 0x96, 0x88, 0x3f, 0xe3, 0xb2, 0x78, 0x76,
    0x0f, 0x04, 0x8f, 0x51, 0x89, 0xf2, 0xe6, 0xc4, 0x52, 0xae]

/-- `_COMMITMENT_PREFIX`. -/
def commitmentPrefix : Bytes := [0x6a, 0x24, 0xaa, 0x21, 0xa9, 0xed]

/-- `_COMMITMENT_LENGTH`. -/
def commitmentLength : ℕ := commitmentPrefix.length + 32

/-- What is read of a header. -/
structure Header where
  version : ℤ
  previousBlockHash : Bytes
  time : ℕ
  length_previousBlockHash : previousBlockHash.length = 32

/-- A block that has a coinbase. -/
structure Block where
  header : Header
  coinbase : RawTx
  others : List RawTx

/-- Whether an output is one of a witness commitment. -/
def commits (script : Bytes) : Bool :=
  decide (commitmentLength ≤ script.length) && commitmentPrefix.isPrefixOf script

/-- `_witness_commitment_output_index`. -/
def witnessCommitmentOutputIndex (outputs : List RawOutput) : Option ℕ :=
  outputs.zipIdx.foldl (fun index (out, i) => if commits out.script then some i else index) none

/-- A transaction with another script in an output. -/
def setScript (tx : RawTx) (i : ℕ) (script : Bytes) : RawTx :=
  { tx with outputs := tx.outputs.modify i fun out => { out with script := script } }

/-- The items of a witness stack. -/
def parseStack (lib : Btclib) : ℕ → Bytes → Option (List Bytes × Bytes)
  | 0, stream => some ([], stream)
  | count + 1, stream => do
    let (item, stream) ← lib.parseVarBytes stream
    let (stack, stream) ← parseStack lib count stream
    some (item :: stack, stream)

/-- `_parse_solution`. -/
def parseSolution (lib : Btclib) (solution : Bytes) : Option (Bytes × List Bytes) := do
  let (scriptSig, stream) ← lib.parseVarBytes solution
  let (count, stream) ← lib.parseVarInt stream
  let (stack, stream) ← parseStack lib count stream
  if stream = [] then some (scriptSig, stack) else none

/-- Four octets of zero. -/
def zero4 : Bytes := List.replicate 4 0

theorem length_zero4 : zero4.length = 4 := rfl

theorem length_zero8 : (List.replicate 8 (0 : UInt8)).length = 8 := rfl

theorem length_noWitness (x : RawInput) : [([] : List Bytes)].length = [x].length := rfl

/-- The Merkle root of the block with the stripped script in its coinbase. -/
def signetMerkleRoot (lib : Btclib) (block : Block) (i : ℕ) (stripped : Bytes) : Bytes :=
  lib.merkleRoot (lib.hash256 (lib.serializeTx (setScript block.coinbase i stripped)) ::
    block.others.map fun tx => lib.hash256 (lib.serializeTx tx))

/-- `block_commitment`. -/
def blockCommitment (header : Header) (root : Bytes) : Bytes :=
  LittleEndian.encode 4 (header.version % 2 ^ 32).toNat ++
    (header.previousBlockHash.reverse ++ (root ++ LittleEndian.encode 4 header.time))

/-- `to_spend`. -/
def toSpend (lib : Btclib) (commitment : Bytes) : RawTx where
  version := zero4
  inputs := [⟨List.replicate 32 0 ++ List.replicate 4 0xff, 0 :: lib.push commitment, zero4,
    rfl, length_zero4⟩]
  outputs := [⟨List.replicate 8 0, signetChallenge, length_zero8⟩]
  witnesses := [[]]
  lockTime := zero4
  length_version := length_zero4
  length_witnesses := length_noWitness _
  length_lockTime := length_zero4

/-- `to_sign`, with the octets of the outpoint as they are on the wire. -/
def toSign (lib : Btclib) (spent : RawTx) (scriptSig : Bytes) (witness : List Bytes) : RawTx where
  version := zero4
  inputs := [⟨lib.hash256 (lib.serializeTx spent) ++ zero4, scriptSig, zero4,
    by rw [List.length_append, lib.length_hash256]; rfl, length_zero4⟩]
  outputs := [⟨List.replicate 8 0, [0x6a], length_zero8⟩]
  witnesses := [witness]
  lockTime := zero4
  length_version := length_zero4
  length_witnesses := rfl
  length_lockTime := length_zero4

/-- The transaction that is spent, for the script of the commitment output. -/
def spentFor (lib : Btclib) (block : Block) (i : ℕ) (script : Bytes) : RawTx :=
  toSpend lib (blockCommitment block.header
    (signetMerkleRoot lib block i (fetchAndClear lib script).1))

/-- The script and the witness of a solution; without one they are empty. -/
def solutionParts (lib : Btclib) : Option Bytes → Option (Bytes × List Bytes)
  | some solution => parseSolution lib solution
  | none => some ([], [])

/-- `_signet_transactions`. -/
def signetTransactions (lib : Btclib) (block : Block) (i : ℕ) : Option (RawTx × RawTx) := do
  let out ← block.coinbase.outputs[i]?
  let (scriptSig, witness) ← solutionParts lib (fetchAndClear lib out.script).2
  let spent := spentFor lib block i out.script
  some (toSign lib spent scriptSig witness, spent)

/-! ## The commitment output -/

variable {lib : Btclib} {block : Block} {i j : ℕ} {script script' : Bytes}
  {outputs : List RawOutput} {out : RawOutput}

theorem index_append (outputs : List RawOutput) (out : RawOutput) :
    witnessCommitmentOutputIndex (outputs ++ [out]) =
      if commits out.script then some outputs.length
      else witnessCommitmentOutputIndex outputs := by
  rw [witnessCommitmentOutputIndex, List.zipIdx_append, List.foldl_append, Nat.zero_add]
  rfl

/-- **The commitment output** is the last one that commits. -/
theorem index_eq_some_iff : witnessCommitmentOutputIndex outputs = some i ↔
    (∃ out, outputs[i]? = some out ∧ commits out.script = true) ∧
      ∀ j out, i < j → outputs[j]? = some out → commits out.script = false := by
  induction outputs using List.reverseRecOn with
  | nil =>
    constructor
    · intro h
      cases h
    · rintro ⟨⟨out, hout, -⟩, -⟩
      cases hout
  | append_singleton outputs last ih =>
    rw [index_append]
    have hlast : (outputs ++ [last])[outputs.length]? = some last := List.getElem?_concat_length
    have hbefore : ∀ {k : ℕ} {out : RawOutput}, outputs[k]? = some out →
        (outputs ++ [last])[k]? = some out := by
      intro k out hk
      rw [List.getElem?_append_left (List.getElem?_eq_some_iff.mp hk).1, hk]
    have hcases : ∀ {k : ℕ} {out : RawOutput}, (outputs ++ [last])[k]? = some out →
        outputs[k]? = some out ∨ k = outputs.length ∧ out = last := by
      intro k out hk
      rcases Nat.lt_or_ge k outputs.length with hlt | hge
      · rw [List.getElem?_append_left hlt] at hk
        exact Or.inl hk
      · have hlt := (List.getElem?_eq_some_iff.mp hk).1
        rw [List.length_append, List.length_singleton] at hlt
        obtain rfl : k = outputs.length := by omega
        rw [hlast] at hk
        exact Or.inr ⟨rfl, (Option.some.inj hk).symm⟩
    cases hcommits : commits last.script with
    | true =>
      rw [if_pos rfl, Option.some.injEq]
      constructor
      · rintro rfl
        refine ⟨⟨last, hlast, hcommits⟩, fun j out hj hout => ?_⟩
        have hlt := (List.getElem?_eq_some_iff.mp hout).1
        rw [List.length_append, List.length_singleton] at hlt
        omega
      · rintro ⟨⟨out, hout, -⟩, hlater⟩
        rcases hcases hout with hbefore' | ⟨rfl, -⟩
        · have hlt := (List.getElem?_eq_some_iff.mp hbefore').1
          rw [hlater outputs.length last hlt hlast] at hcommits
          cases hcommits
        · rfl
    | false =>
      rw [if_neg Bool.false_ne_true, ih]
      constructor
      · rintro ⟨⟨out, hout, hc⟩, hlater⟩
        refine ⟨⟨out, hbefore hout, hc⟩, fun j out' hj hout' => ?_⟩
        rcases hcases hout' with h | ⟨-, rfl⟩
        · exact hlater j out' hj h
        · exact hcommits
      · rintro ⟨⟨out, hout, hc⟩, hlater⟩
        refine ⟨?_, fun j out' hj hout' => hlater j out' hj (hbefore hout')⟩
        rcases hcases hout with h | ⟨-, rfl⟩
        · exact ⟨out, h, hc⟩
        · rw [hcommits] at hc
          cases hc

theorem setScript_outputs (tx : RawTx) (i : ℕ) (script : Bytes) : (setScript tx i script).outputs =
    tx.outputs.modify i fun out => { out with script := script } := rfl

/-- A script of the commitment output in its place leaves the index. -/
theorem index_setScript {tx : RawTx} (hi : witnessCommitmentOutputIndex tx.outputs = some i)
    (hscript : commits script = true) :
    witnessCommitmentOutputIndex (setScript tx i script).outputs = some i := by
  obtain ⟨⟨out, hout, -⟩, hlater⟩ := index_eq_some_iff.mp hi
  refine index_eq_some_iff.mpr ⟨⟨{ out with script := script }, ?_, hscript⟩, ?_⟩
  · rw [setScript_outputs, List.getElem?_modify_eq, hout]
    rfl
  · intro j out' hj hout'
    rw [setScript_outputs, List.getElem?_modify_ne _ _ (Nat.ne_of_lt hj)] at hout'
    exact hlater j out' hj hout'

/-- The first octet of an opcode is its code. -/
theorem code_of_prefix {op : Op} {x : UInt8} {xs r : Bytes} (hop : op.WellFormed)
    (h : x :: xs <+: op.encode ++ r) : op.code = x.toNat := by
  rw [Op.encode, List.cons_append] at h
  rw [(List.cons_prefix_cons.mp h).1, UInt8.toNat_ofNat']
  exact (Nat.mod_eq_of_lt hop.code_lt).symm

/-- A commitment script is OP_RETURN, the push of the commitment, and more opcodes; none of
these two is the section. -/
theorem commitment_ops {pre post : List Op} {m : Op} {tail : Bytes}
    (hcommits : commits (encodeOps (pre ++ m :: post) ++ tail) = true)
    (hops : ∀ op ∈ pre ++ m :: post, op.WellFormed) (hm : signetHeader <+: m.data) :
    ∃ (op : Op) (rest : List Op), op.code = 36 ∧ op.data.length = 36 ∧
      [0xaa, 0x21, 0xa9, 0xed] <+: op.data ∧ pre = ⟨0x6a, []⟩ :: op :: rest := by
  rw [commits, Bool.and_eq_true, List.isPrefixOf_iff_prefix] at hcommits
  have hstart := hcommits.2
  obtain ⟨a, l, hl⟩ : ∃ a l, pre ++ m :: post = a :: l := by
    cases pre with
    | nil => exact ⟨m, post, rfl⟩
    | cons a pre => exact ⟨a, pre ++ m :: post, rfl⟩
  rw [hl] at hops hstart
  obtain ⟨ha, hrest⟩ := List.forall_mem_cons.mp hops
  rw [encodeOps, List.flatMap_cons, List.append_assoc, commitmentPrefix] at hstart
  have hcode : a.code = 106 := code_of_prefix ha hstart
  have hdata : a.data = [] := ha.other (by omega)
  obtain ⟨acode, adata⟩ := a
  dsimp only at hcode hdata
  subst hcode hdata
  -- the section pushes something, and OP_RETURN does not
  have hnil : ¬ signetHeader <+: ([] : Bytes) := by decide
  obtain ⟨b, l, rfl⟩ : ∃ b l', l = b :: l' := by
    cases l with
    | cons b l => exact ⟨b, l, rfl⟩
    | nil =>
      cases pre with
      | nil =>
        obtain ⟨rfl, -⟩ := List.cons.inj hl
        exact absurd hm hnil
      | cons a pre =>
        have hnone := (List.cons.inj hl).2
        simp at hnone
  obtain ⟨hb, -⟩ := List.forall_mem_cons.mp hrest
  have hreturn : (Op.mk 106 []).encode = [0x6a] := by decide
  rw [hreturn, List.singleton_append, List.flatMap_cons, List.append_assoc] at hstart
  have hpush := (List.cons_prefix_cons.mp hstart).2
  have hcode : b.code = 36 := code_of_prefix hb hpush
  have hlen : b.data.length = 36 := by
    rw [hb.direct (by omega) (by omega), hcode]
  have hwidth : b.width = 0 := by
    rw [Op.width, if_neg]
    omega
  rw [Op.encode, hwidth, List.cons_append, LittleEndian.encode, List.nil_append] at hpush
  have hbdata : [0xaa, 0x21, 0xa9, 0xed] <+: b.data :=
    List.prefix_of_prefix_length_le (List.cons_prefix_cons.mp hpush).2
      (List.prefix_append b.data _) (by rw [hlen]; decide)
  have hbm : ¬ signetHeader <+: b.data := by
    intro hheader
    obtain ⟨s, hs⟩ := hheader
    obtain ⟨s', hs'⟩ := hbdata
    rw [← hs'] at hs
    exact absurd (List.cons.inj hs).1 (by decide)
  refine ⟨b, ?_⟩
  cases pre with
  | nil =>
    obtain ⟨rfl, -⟩ := List.cons.inj hl
    exact absurd hm hnil
  | cons a pre =>
    obtain ⟨rfl, hl'⟩ := List.cons.inj hl
    cases pre with
    | nil =>
      obtain ⟨rfl, -⟩ := List.cons.inj hl'
      exact absurd hm hbm
    | cons b' pre =>
      obtain ⟨rfl, -⟩ := List.cons.inj hl'
      exact ⟨pre, hcode, hlen, hbdata, rfl⟩

/-- A script that starts as a commitment does commits. -/
theorem commits_of_start {op : Op} {rest : Bytes} (hcode : op.code = 36)
    (hlen : op.data.length = 36) (hdata : [0xaa, 0x21, 0xa9, 0xed] <+: op.data) :
    commits (0x6a :: (op.encode ++ rest)) = true := by
  have hwidth : op.width = 0 := by
    rw [Op.width, if_neg]
    omega
  have hencode : op.encode = 0x24 :: op.data := by
    rw [Op.encode, hwidth, hcode]
    rfl
  obtain ⟨s, hs⟩ := hdata
  rw [commits, Bool.and_eq_true, List.isPrefixOf_iff_prefix]
  constructor
  · refine decide_eq_true ?_
    rw [hencode, List.length_cons, List.cons_append, List.length_cons, List.length_append, hlen]
    change 38 ≤ _
    omega
  · refine ⟨s ++ rest, ?_⟩
    rw [hencode, ← hs]
    rfl

/-- The stripped script of a commitment commits. -/
theorem commits_stripped (lib : Btclib) (hcommits : commits script = true) :
    commits (fetchAndClear lib script).1 = true := by
  obtain ⟨ops, tail, rfl, hops, htail⟩ := exists_ops script
  by_cases hnone : ∀ op ∈ ops, ¬ op.Matches
  · rw [fetchAndClear_none lib hops htail hnone]
    exact hcommits
  · obtain ⟨pre, m, post, rfl, hpre, hm⟩ := exists_first hnone
    obtain ⟨op, rest, hcode, hlen, hdata, rfl⟩ := commitment_ops hcommits hops hm.2
    have hop : op.WellFormed := hops op (by simp)
    have hreturn : emit lib ⟨0x6a, []⟩ = [0x6a] := if_neg fun h => h rfl
    have hpush : emit lib op = op.encode := by
      refine emit_minimal hop ⟨fun hnil => ?_, fun _ => ?_⟩
      · rw [hnil] at hlen
        cases hlen
      · obtain ⟨code, data⟩ := op
        dsimp only at hcode hlen
        rw [Op.minimal, hcode, hlen]
        rfl
    rw [fetchAndClear_section lib hops htail hpre hm, List.flatMap_cons, List.flatMap_cons, hreturn,
      hpush, List.append_assoc, List.append_assoc]
    exact commits_of_start hcode hlen hdata

/-! ## Replacing the solution -/

/-- The commitment output of a block and its script. -/
def Block.commitment (block : Block) : Option (ℕ × Bytes) := do
  let i ← witnessCommitmentOutputIndex block.coinbase.outputs
  let out ← block.coinbase.outputs[i]?
  some (i, out.script)

/-- A block with another script in its commitment output. -/
def Block.withScript (block : Block) (i : ℕ) (script : Bytes) : Block :=
  { block with coinbase := setScript block.coinbase i script }

/-- Two blocks for which one transaction is spent. -/
structure SameSigned (lib : Btclib) (block block' : Block) : Prop where
  stripped : block.commitment.map (fun c => (c.1, (fetchAndClear lib c.2).1)) =
    block'.commitment.map fun c => (c.1, (fetchAndClear lib c.2).1)
  spent : ∀ c c', block.commitment = some c → block'.commitment = some c' →
    ∀ sign spend sign' spend', signetTransactions lib block c.1 = some (sign, spend) →
      signetTransactions lib block' c'.1 = some (sign', spend') →
      spend = spend' ∧ sign.inputs.map RawInput.outpoint = sign'.inputs.map RawInput.outpoint

theorem commitment_eq_some {c : ℕ × Bytes} (h : block.commitment = some c) :
    witnessCommitmentOutputIndex block.coinbase.outputs = some c.1 ∧
      ∃ out, block.coinbase.outputs[c.1]? = some out ∧ out.script = c.2 ∧
        commits c.2 = true := by
  obtain ⟨i, hi, h⟩ := Option.bind_eq_some_iff.mp h
  obtain ⟨out, hout, h⟩ := Option.bind_eq_some_iff.mp h
  obtain rfl := Option.some.inj h
  obtain ⟨⟨out', hout', hcommits⟩, -⟩ := index_eq_some_iff.mp hi
  rw [hout] at hout'
  obtain rfl := Option.some.inj hout'
  exact ⟨hi, out, hout, rfl, hcommits⟩

/-- What the transactions are made of. -/
theorem signetTransactions_eq_some {c : ℕ × Bytes} {sign spend : RawTx}
    (hc : block.commitment = some c)
    (h : signetTransactions lib block c.1 = some (sign, spend)) :
    spend = spentFor lib block c.1 c.2 ∧
      sign.inputs.map RawInput.outpoint = [lib.hash256 (lib.serializeTx spend) ++ zero4] := by
  obtain ⟨-, out, hout, hscript, -⟩ := commitment_eq_some hc
  obtain ⟨out', hout', h⟩ := Option.bind_eq_some_iff.mp h
  rw [hout] at hout'
  obtain rfl := Option.some.inj hout'
  obtain ⟨parsed, -, h⟩ := Option.bind_eq_some_iff.mp h
  obtain ⟨rfl, rfl⟩ := Prod.mk.inj (Option.some.inj h)
  rw [hscript]
  exact ⟨rfl, rfl⟩

theorem withScript_commitment {c : ℕ × Bytes} (hc : block.commitment = some c)
    (hscript : commits script = true) :
    (block.withScript c.1 script).commitment = some (c.1, script) := by
  obtain ⟨hi, out, hout, -, -⟩ := commitment_eq_some hc
  have hget : (setScript block.coinbase c.1 script).outputs[c.1]? =
      some { out with script := script } := by
    rw [setScript_outputs, List.getElem?_modify_eq, hout]
    rfl
  rw [Block.commitment, Block.withScript]
  dsimp only
  rw [index_setScript hi hscript, Option.bind_eq_bind, Option.bind_some, hget]
  rfl

theorem setScript_setScript (tx : RawTx) (i : ℕ) (script script' : Bytes) :
    setScript (setScript tx i script) i script' = setScript tx i script' := by
  have houtputs : (tx.outputs.modify i fun out => { out with script := script }).modify i
      (fun out => { out with script := script' }) =
      tx.outputs.modify i fun out => { out with script := script' } :=
    List.modify_modify_eq ..
  rw [setScript, setScript, setScript]
  simp only [houtputs]

/-- **Scripts that strip alike sign alike.** -/
theorem sameSigned {c : ℕ × Bytes} (hc : block.commitment = some c)
    (hscript : commits script = true)
    (hstripped : (fetchAndClear lib c.2).1 = (fetchAndClear lib script).1) :
    SameSigned lib block (block.withScript c.1 script) := by
  have hc' := withScript_commitment hc hscript
  refine ⟨?_, fun d d' hd hd' sign spend sign' spend' h h' => ?_⟩
  · rw [hc, hc', Option.map_some, Option.map_some, hstripped]
  · obtain rfl := Option.some.inj (hc.symm.trans hd)
    obtain rfl := Option.some.inj (hc'.symm.trans hd')
    obtain ⟨rfl, hsign⟩ := signetTransactions_eq_some hc h
    obtain ⟨rfl, hsign'⟩ := signetTransactions_eq_some hc' h'
    have hspent : spentFor lib block c.1 c.2 =
        spentFor lib (block.withScript c.1 script) c.1 script := by
      rw [spentFor, spentFor, ← hstripped, signetMerkleRoot, signetMerkleRoot, Block.withScript]
      dsimp only
      rw [setScript_setScript]
    rw [hsign, hsign', hspent]
    exact ⟨rfl, rfl⟩

end BtclibNode.Signet
