/-
# A signet signature commits to the block and not to its solution

What is signed holds the block but for the solution, up to a collision of the hash; and btclib's
part with definitions that do as documented.
-/
import Mathlib
import BtclibNode.Signet.Commitment

namespace BtclibNode.Signet

open RawBlock

variable {lib : Btclib} {block : Block} {i : ℕ} {script : Bytes}

/-! ## Transactions on the wire -/

/-- What `var_int` can count. -/
structure Writable (tx : RawTx) : Prop where
  inputs : tx.inputs.length < 2 ^ 64
  inputScripts : ∀ x ∈ tx.inputs, x.script.length < 2 ^ 64
  outputs : tx.outputs.length < 2 ^ 64
  outputScripts : ∀ x ∈ tx.outputs, x.script.length < 2 ^ 64

theorem counted_append_inj {s s' r r' : Bytes} (hs : s.length < 2 ^ 64) (hs' : s'.length < 2 ^ 64)
    (h : counted s ++ r = counted s' ++ r') : s = s' ∧ r = r' := by
  rw [counted, counted, List.append_assoc, List.append_assoc] at h
  obtain ⟨hlen, hrest⟩ := CompactSize.encode_append_inj hs hs' h
  exact List.append_inj hrest hlen

theorem input_append_inj {x y : RawInput} {r r' : Bytes} (hx : x.script.length < 2 ^ 64)
    (hy : y.script.length < 2 ^ 64) (h : x.serialize ++ r = y.serialize ++ r') :
    x = y ∧ r = r' := by
  rw [RawInput.serialize, RawInput.serialize, List.append_assoc, List.append_assoc,
    List.append_assoc, List.append_assoc] at h
  obtain ⟨houtpoint, hrest⟩ := List.append_inj h (x.length_outpoint.trans y.length_outpoint.symm)
  obtain ⟨hscript, htail⟩ := counted_append_inj hx hy hrest
  obtain ⟨hsequence, heq⟩ :=
    List.append_inj htail (x.length_sequence.trans y.length_sequence.symm)
  obtain ⟨xo, xs, xq, _, _⟩ := x
  obtain ⟨yo, ys, yq, _, _⟩ := y
  dsimp only at houtpoint hscript hsequence
  subst houtpoint hscript hsequence
  exact ⟨rfl, heq⟩

theorem output_append_inj {x y : RawOutput} {r r' : Bytes} (hx : x.script.length < 2 ^ 64)
    (hy : y.script.length < 2 ^ 64) (h : x.serialize ++ r = y.serialize ++ r') :
    x = y ∧ r = r' := by
  rw [RawOutput.serialize, RawOutput.serialize, List.append_assoc, List.append_assoc] at h
  obtain ⟨hvalue, hrest⟩ := List.append_inj h (x.length_value.trans y.length_value.symm)
  obtain ⟨hscript, heq⟩ := counted_append_inj hx hy hrest
  obtain ⟨xv, xs, _⟩ := x
  obtain ⟨yv, ys, _⟩ := y
  dsimp only at hvalue hscript
  subst hvalue hscript
  exact ⟨rfl, heq⟩

theorem flatMap_append_inj {β : Type} {f : β → Bytes} {xs ys : List β} {r r' : Bytes}
    (hlen : xs.length = ys.length)
    (hf : ∀ x ∈ xs, ∀ y ∈ ys, ∀ s s', f x ++ s = f y ++ s' → x = y ∧ s = s')
    (h : xs.flatMap f ++ r = ys.flatMap f ++ r') : xs = ys ∧ r = r' := by
  induction xs generalizing ys with
  | nil =>
    rw [List.length_eq_zero_iff.mp hlen.symm] at h ⊢
    exact ⟨rfl, h⟩
  | cons x xs ih =>
    cases ys with
    | nil => cases hlen
    | cons y ys =>
      rw [List.flatMap_cons, List.flatMap_cons, List.append_assoc, List.append_assoc] at h
      obtain ⟨rfl, hrest⟩ := hf x List.mem_cons_self y List.mem_cons_self _ _ h
      obtain ⟨rfl, heq⟩ := ih (Nat.succ.inj hlen) (fun x' hx' y' hy' =>
        hf x' (List.mem_cons_of_mem _ hx') y' (List.mem_cons_of_mem _ hy')) hrest
      exact ⟨rfl, heq⟩

/-- **The wire format without witnesses** holds all else. -/
theorem stripped_inj {tx tx' : RawTx} (hw : Writable tx) (hw' : Writable tx')
    (h : tx.stripped = tx'.stripped) : tx.version = tx'.version ∧ tx.inputs = tx'.inputs ∧
      tx.outputs = tx'.outputs ∧ tx.lockTime = tx'.lockTime := by
  simp only [RawTx.stripped, RawTx.body, serializeBody, List.append_assoc] at h
  obtain ⟨hversion, h⟩ := List.append_inj h (tx.length_version.trans tx'.length_version.symm)
  obtain ⟨hinputs, h⟩ := CompactSize.encode_append_inj hw.inputs hw'.inputs h
  obtain ⟨hin, h⟩ := flatMap_append_inj hinputs (fun x hx y hy s s' =>
    input_append_inj (hw.inputScripts x hx) (hw'.inputScripts y hy)) h
  obtain ⟨houtputs, h⟩ := CompactSize.encode_append_inj hw.outputs hw'.outputs h
  obtain ⟨hout, h⟩ := flatMap_append_inj houtputs (fun x hx y hy s s' =>
    output_append_inj (hw.outputScripts x hx) (hw'.outputScripts y hy)) h
  exact ⟨hversion, hin, hout, h⟩

/-! ## What is signed -/

theorem length_merkleRoot {leaves : List Bytes} (hne : leaves ≠ [])
    (hleaves : ∀ x ∈ leaves, x.length = 32) : (lib.merkleRoot leaves).length = 32 := by
  rw [lib.merkleRoot_eq leaves hne]
  exact Merkle.length_root lib.length_hash256 hne hleaves

/-- The leaves are hashes. -/
theorem length_leaves {leaf : Bytes} {txs : List RawTx} :
    ∀ x ∈ lib.hash256 leaf :: txs.map fun tx => lib.hash256 (lib.serializeTx tx),
      x.length = 32 := by
  refine List.forall_mem_cons.mpr ⟨lib.length_hash256 _, fun x hx => ?_⟩
  obtain ⟨tx, -, rfl⟩ := List.mem_map.mp hx
  exact lib.length_hash256 _

theorem length_blockCommitment {header : Header} {root : Bytes} (hroot : root.length = 32) :
    (blockCommitment header root).length = 72 := by
  simp only [blockCommitment, List.length_append, LittleEndian.length_encode, List.length_reverse,
    header.length_previousBlockHash, hroot]

/-- Transactions with the hashes of others have their serializations, or the hash has a
collision. -/
theorem serializations_eq {txs txs' : List RawTx}
    (h : (txs.map fun tx => lib.hash256 (lib.serializeTx tx)) =
      txs'.map fun tx => lib.hash256 (lib.serializeTx tx)) :
    txs.map lib.serializeTx = txs'.map lib.serializeTx ∨ Merkle.Collision lib.hash256 := by
  induction txs generalizing txs' with
  | nil =>
    rw [List.map_eq_nil_iff.mp h.symm]
    exact Or.inl rfl
  | cons tx txs ih =>
    cases txs' with
    | nil => cases h
    | cons tx' txs' =>
      obtain ⟨hfirst, hrest⟩ := List.cons.inj h
      rcases Merkle.eq_or_collision hfirst with heq | hcollision
      · rcases ih hrest with heqs | hcollision
        · exact Or.inl (by rw [List.map_cons, List.map_cons, heq, heqs])
        · exact Or.inr hcollision
      · exact Or.inr hcollision

/-- A spent transaction is of one commitment. -/
theorem commitment_of_spent {b b' : Bytes} (hb : b.length = 72) (hb' : b'.length = 72)
    (h : lib.serializeTx (toSpend lib b) = lib.serializeTx (toSpend lib b')) : b = b' := by
  have hpush : ∀ {x : Bytes}, x.length = 72 → lib.push x = (Op.minimal x).encode := fun hx =>
    lib.push_eq _ (List.ne_nil_of_length_pos (by omega)) (by omega)
  have hwritable : ∀ {x : Bytes}, x.length = 72 → Writable (toSpend lib x) := by
    intro x hx
    have hone : 1 < 2 ^ 64 := Nat.one_lt_two_pow (by decide)
    refine ⟨hone, ?_, hone, ?_⟩
    · refine List.forall_mem_singleton.mpr ?_
      rw [List.length_cons, hpush hx, Op.encode, List.length_cons, List.length_append,
        LittleEndian.length_encode, width_minimal, if_pos (by omega)]
      change 0 + x.length + 1 + 1 < 2 ^ 64
      omega
    · exact List.forall_mem_singleton.mpr (by decide)
  rw [lib.serializeTx_eq, lib.serializeTx_eq] at h
  obtain ⟨-, hinputs, -, -⟩ := stripped_inj (hwritable hb) (hwritable hb') h
  have hscript := congrArg RawInput.script (List.cons.inj hinputs).1
  have hpushes := (List.cons.inj hscript).2
  rw [hpush hb, hpush hb', ← List.append_nil (Op.encode _),
    ← List.append_nil (Op.encode (Op.minimal b'))] at hpushes
  exact (encode_minimal_inj (hb.trans hb'.symm) hpushes).1

/-- A commitment is of one root. -/
theorem blockCommitment_inj {header header' : Header} {root root' : Bytes}
    (hroot : root.length = root'.length)
    (h : blockCommitment header root = blockCommitment header' root') :
    header.previousBlockHash = header'.previousBlockHash ∧ root = root' := by
  rw [blockCommitment, blockCommitment] at h
  have hprevious := (List.append_inj h (by
    rw [LittleEndian.length_encode, LittleEndian.length_encode])).2
  obtain ⟨hreverse, hrest⟩ := List.append_inj hprevious (by
    rw [List.length_reverse, List.length_reverse, header.length_previousBlockHash,
      header'.length_previousBlockHash])
  exact ⟨List.reverse_injective hreverse, (List.append_inj hrest hroot).1⟩

/-- What two blocks have in common where one outpoint is signed for both. -/
structure Committed (lib : Btclib) (block block' : Block) (c c' : ℕ × Bytes) : Prop where
  previousBlockHash : block.header.previousBlockHash = block'.header.previousBlockHash
  version : block.coinbase.version = block'.coinbase.version
  inputs : block.coinbase.inputs = block'.coinbase.inputs
  lockTime : block.coinbase.lockTime = block'.coinbase.lockTime
  index : c.1 = c'.1
  outputs : ∀ j, j ≠ c.1 → block.coinbase.outputs[j]? = block'.coinbase.outputs[j]?
  value : block.coinbase.outputs[c.1]?.map RawOutput.value =
    block'.coinbase.outputs[c.1]?.map RawOutput.value
  stripped : (fetchAndClear lib c.2).1 = (fetchAndClear lib c'.2).1
  others : block.others.map lib.serializeTx = block'.others.map lib.serializeTx

theorem writable_setScript {tx : RawTx} (hw : Writable tx) (hscript : script.length < 2 ^ 64) :
    Writable (setScript tx i script) := by
  refine ⟨hw.inputs, hw.inputScripts, ?_, fun x hx => ?_⟩
  · rw [setScript_outputs, List.length_modify]
    exact hw.outputs
  · rw [setScript_outputs] at hx
    obtain ⟨j, hj⟩ := List.getElem?_of_mem hx
    rw [List.getElem?_modify] at hj
    obtain ⟨out, hout, rfl⟩ := Option.map_eq_some_iff.mp hj
    split_ifs
    · exact hscript
    · exact hw.outputScripts out (List.mem_of_getElem? hout)

/-- **What is signed commits to the block**, up to a collision of the hash. -/
theorem committed {block' : Block} {c c' : ℕ × Bytes} (hc : block.commitment = some c)
    (hc' : block'.commitment = some c') (hw : Writable block.coinbase)
    (hw' : Writable block'.coinbase) (hothers : block.others.length = block'.others.length)
    (hspent : lib.hash256 (lib.serializeTx (spentFor lib block c.1 c.2)) =
      lib.hash256 (lib.serializeTx (spentFor lib block' c'.1 c'.2))) :
    Committed lib block block' c c' ∨ Merkle.Collision lib.hash256 := by
  have hroot : ∀ (b : Block) (i : ℕ) (s : Bytes), (signetMerkleRoot lib b i s).length = 32 :=
    fun b i s => length_merkleRoot (List.cons_ne_nil _ _) length_leaves
  rcases Merkle.eq_or_collision hspent with hser | hcollision
  swap
  · exact Or.inr hcollision
  have hcommitment := commitment_of_spent (length_blockCommitment (hroot ..))
    (length_blockCommitment (hroot ..)) hser
  obtain ⟨hprevious, hroots⟩ := blockCommitment_inj ((hroot ..).trans (hroot ..).symm) hcommitment
  rw [signetMerkleRoot, signetMerkleRoot, lib.merkleRoot_eq _ (List.cons_ne_nil _ _),
    lib.merkleRoot_eq _ (List.cons_ne_nil _ _)] at hroots
  have hlen : (lib.hash256 (lib.serializeTx
      (setScript block.coinbase c.1 (fetchAndClear lib c.2).1)) ::
        block.others.map fun tx => lib.hash256 (lib.serializeTx tx)).length =
      (lib.hash256 (lib.serializeTx
        (setScript block'.coinbase c'.1 (fetchAndClear lib c'.2).1)) ::
        block'.others.map fun tx => lib.hash256 (lib.serializeTx tx)).length := by
    rw [List.length_cons, List.length_cons, List.length_map, List.length_map, hothers]
  rcases Merkle.eq_of_root_eq lib.length_hash256 hlen length_leaves length_leaves hroots with
    hleaves | hcollision
  swap
  · exact Or.inr hcollision
  obtain ⟨hfirst, hrest⟩ := List.cons.inj hleaves
  rcases serializations_eq hrest with hsers | hcollision
  swap
  · exact Or.inr hcollision
  rcases Merkle.eq_or_collision hfirst with hcoinbase | hcollision
  swap
  · exact Or.inr hcollision
  obtain ⟨hi, out, hout, hscript, hcommits⟩ := commitment_eq_some hc
  obtain ⟨hi', out', hout', hscript', hcommits'⟩ := commitment_eq_some hc'
  have hsmall : ∀ {b : Block} {d : ℕ × Bytes} {o : RawOutput}, Writable b.coinbase →
      b.coinbase.outputs[d.1]? = some o → o.script = d.2 →
      (fetchAndClear lib d.2).1.length < 2 ^ 64 := by
    intro b d o hwb hget hs
    refine (length_fetchAndClear_le lib d.2).trans_lt ?_
    rw [← hs]
    exact hwb.outputScripts o (List.mem_of_getElem? hget)
  rw [lib.serializeTx_eq, lib.serializeTx_eq] at hcoinbase
  obtain ⟨hversion, hinputs, houtputs, hlock⟩ :=
    stripped_inj (writable_setScript hw (hsmall hw hout hscript))
      (writable_setScript hw' (hsmall hw' hout' hscript')) hcoinbase
  have hindex : c.1 = c'.1 := by
    have h := index_setScript hi (commits_stripped lib hcommits)
    have h' := index_setScript hi' (commits_stripped lib hcommits')
    rw [houtputs, h'] at h
    exact (Option.some.inj h).symm
  rw [setScript_outputs, setScript_outputs] at houtputs
  have hget := congrArg (fun l => l[c.1]?) houtputs
  rw [List.getElem?_modify_eq, hindex, List.getElem?_modify_eq, ← hindex, hout, hindex,
    hout'] at hget
  have hsame : (⟨out.value, (fetchAndClear lib c.2).1, out.length_value⟩ : RawOutput) =
      ⟨out'.value, (fetchAndClear lib c'.2).1, out'.length_value⟩ := Option.some.inj hget
  refine Or.inl ⟨hprevious, hversion, hinputs, hlock, hindex, fun j hj => ?_, ?_, ?_, hsers⟩
  · have hgetj := congrArg (fun l => l[j]?) houtputs
    rw [List.getElem?_modify_ne _ _ (Ne.symm hj),
      List.getElem?_modify_ne _ _ (hindex ▸ Ne.symm hj)] at hgetj
    exact hgetj
  · rw [hout, hindex, hout', Option.map_some, Option.map_some]
    have hvalue := congrArg RawOutput.value hsame
    exact congrArg some hvalue
  · exact congrArg RawOutput.script hsame

/-- A minimal push of its data can stand in a script. -/
theorem wellFormed_minimal {data : Bytes} (hne : data ≠ []) (hlt : data.length < 2 ^ 32) :
    (Op.minimal data).WellFormed := by
  have hpos : 0 < data.length := List.length_pos_iff.mpr hne
  have hcases : data.length < 76 ∧ (Op.minimal data).code = data.length ∨
      76 ≤ data.length ∧ 76 ≤ (Op.minimal data).code ∧ (Op.minimal data).code ≤ 78 := by
    rw [Op.minimal]
    dsimp only
    split_ifs <;> omega
  have hdata : (Op.minimal data).data = data := rfl
  refine ⟨by omega, fun hother => absurd hother (by omega), fun h h' => ?_, fun h h' => ?_⟩
  · rw [hdata]
    omega
  · rw [width_minimal, hdata]
    split_ifs <;> omega

/-- The bare header, pushed. -/
def bareHeader : Op := Op.minimal signetHeader

theorem bareHeader_not_matches : ¬ bareHeader.Matches := fun h => absurd h.1 (Nat.lt_irrefl _)

theorem bareHeader_wellFormed : bareHeader.WellFormed :=
  wellFormed_minimal (by decide) (by decide)

theorem encodeOps_append (ops ops' : List Op) :
    encodeOps (ops ++ ops') = encodeOps ops ++ encodeOps ops' := List.flatMap_append

theorem unreadable_nil : Unreadable [] := by
  rintro op - h
  rw [Op.encode] at h
  exact absurd (List.prefix_nil.mp h) (List.cons_ne_nil _ _)

theorem flatMap_emit {ops : List Op} (hops : ∀ op ∈ ops, op.WellFormed)
    (hmin : ∀ op ∈ ops, op.Minimal) : ops.flatMap (emit lib) = encodeOps ops := by
  induction ops with
  | nil => rfl
  | cons op ops ih =>
    obtain ⟨hop, hops⟩ := List.forall_mem_cons.mp hops
    obtain ⟨hm, hmin⟩ := List.forall_mem_cons.mp hmin
    rw [List.flatMap_cons, emit_minimal hop hm, ih hops hmin, encodeOps, encodeOps,
      List.flatMap_cons]

/-- The start of a commitment script stays where the section is replaced. -/
theorem commits_replace {pre post : List Op} {m : Op} {tail : Bytes} (m' : Op)
    (hcommits : commits (encodeOps (pre ++ m :: post) ++ tail) = true)
    (hops : ∀ op ∈ pre ++ m :: post, op.WellFormed) (hm : signetHeader <+: m.data) :
    commits (encodeOps (pre ++ m' :: post) ++ tail) = true := by
  obtain ⟨op, rest, hcode, hlen, hdata, rfl⟩ := commitment_ops hcommits hops hm
  have hreturn : (Op.mk 106 []).encode = [0x6a] := by decide
  have hscript : encodeOps (⟨106, []⟩ :: op :: rest ++ m' :: post) ++ tail =
      0x6a :: (op.encode ++ (encodeOps (rest ++ m' :: post) ++ tail)) := by
    rw [encodeOps, List.cons_append, List.cons_append, List.flatMap_cons, List.flatMap_cons,
      hreturn, List.append_assoc, List.append_assoc]
    rfl
  rw [hscript]
  exact commits_of_start hcode hlen hdata

/-- The opcode a script starts with, and the rest. -/
def readOp : Bytes → Option (Op × Bytes)
  | [] => none
  | first :: rest =>
    let code := first.toNat
    if code = 0 ∨ 78 < code then some (⟨code, []⟩, rest)
    else
      let width := if 75 < code then 2 ^ (code - 76) else 0
      let length := if 75 < code then LittleEndian.decode (rest.take width) else code
      if width + length ≤ rest.length then
        some (⟨code, (rest.drop width).take length⟩, (rest.drop width).drop length)
      else none

theorem readOp_encode {op : Op} (hop : op.WellFormed) (rest : Bytes) :
    readOp (op.encode ++ rest) = some (op, rest) := by
  have hcode : (UInt8.ofNat op.code).toNat = op.code := by
    rw [UInt8.toNat_ofNat']
    exact Nat.mod_eq_of_lt hop.code_lt
  rw [Op.encode, List.cons_append, readOp]
  dsimp only
  rw [hcode]
  by_cases hother : op.code = 0 ∨ 78 < op.code
  · have hdata := hop.other hother
    have hwidth : op.width = 0 := by
      rw [Op.width, if_neg]
      omega
    rw [if_pos hother, hwidth, hdata]
    obtain ⟨code, data⟩ := op
    dsimp only at hdata
    rw [hdata]
    rfl
  · rw [if_neg hother]
    have hwidth : (if 75 < op.code then 2 ^ (op.code - 76) else 0) = op.width := by
      rw [Op.width]
      refine if_congr ?_ rfl rfl
      omega
    have hlength : (if 75 < op.code then LittleEndian.decode
        ((LittleEndian.encode op.width op.data.length ++ op.data ++ rest).take op.width)
        else op.code) = op.data.length := by
      split_ifs with hwide
      · have htake : (LittleEndian.encode op.width op.data.length ++ op.data ++ rest).take
            op.width = LittleEndian.encode op.width op.data.length := by
          rw [List.append_assoc]
          exact List.take_left' (LittleEndian.length_encode ..)
        rw [htake]
        exact LittleEndian.decode_encode (hop.counted hwide (by omega))
      · exact (hop.direct (by omega) (by omega)).symm
    have hdrop : (LittleEndian.encode op.width op.data.length ++ op.data ++ rest).drop op.width =
        op.data ++ rest := by
      rw [List.append_assoc]
      exact List.drop_left' (LittleEndian.length_encode ..)
    rw [hwidth, hlength, hdrop, if_pos, List.take_left, List.drop_left]
    rw [List.length_append, List.length_append, LittleEndian.length_encode]
    omega

theorem readOp_sound {script rest : Bytes} {op : Op} (h : readOp script = some (op, rest)) :
    op.WellFormed ∧ op.encode <+: script := by
  obtain _ | ⟨first, tail⟩ := script
  · cases h
  have hlt := first.toNat_lt
  have hfirst : UInt8.ofNat first.toNat = first := UInt8.ofNat_toNat
  rw [readOp] at h
  dsimp only at h
  by_cases hother : first.toNat = 0 ∨ 78 < first.toNat
  · rw [if_pos hother] at h
    obtain ⟨rfl, rfl⟩ := Prod.mk.inj (Option.some.inj h)
    have hwidth : (Op.mk first.toNat []).width = 0 := by
      rw [Op.width, if_neg]
      dsimp only
      omega
    refine ⟨⟨hlt, fun _ => rfl, fun h1 h2 => absurd hother (by dsimp only at h1 h2; omega),
      fun h1 h2 => absurd hother (by dsimp only at h1 h2; omega)⟩, ?_⟩
    rw [Op.encode, hwidth, hfirst]
    exact List.cons_prefix_cons.mpr ⟨rfl, List.nil_prefix⟩
  · rw [if_neg hother] at h
    generalize hw : (if 75 < first.toNat then 2 ^ (first.toNat - 76) else 0) = width at h
    generalize hl : (if 75 < first.toNat then LittleEndian.decode (tail.take width)
      else first.toNat) = length at h
    split_ifs at h with hfits
    obtain ⟨rfl, rfl⟩ := Prod.mk.inj (Option.some.inj h)
    have hlen : ((tail.drop width).take length).length = length := by
      rw [List.length_take, List.length_drop]
      omega
    have hwidth : (Op.mk first.toNat ((tail.drop width).take length)).width = width := by
      rw [Op.width, ← hw]
      refine if_congr ?_ rfl rfl
      dsimp only
      omega
    have hcount : LittleEndian.encode width length = tail.take width := by
      by_cases hwide : 75 < first.toNat
      · rw [if_pos hwide] at hl
        have hback := LittleEndian.encode_decode (tail.take width)
        rw [hl, List.length_take, Nat.min_eq_left (by omega)] at hback
        exact hback
      · rw [if_neg hwide] at hw
        subst hw
        rfl
    refine ⟨⟨hlt, fun h1 => absurd h1 hother, fun h1 h2 => ?_, fun h1 h2 => ?_⟩, ?_⟩
    · dsimp only at h1 h2 ⊢
      rw [hlen, ← hl, if_neg (by omega)]
    · dsimp only at h1 h2 ⊢
      rw [hlen, hwidth, ← hl, if_pos h1]
      exact LittleEndian.decode_take_lt tail width
    · rw [Op.encode, hwidth, hfirst]
      dsimp only
      rw [hlen, hcount]
      refine List.cons_prefix_cons.mpr ⟨rfl, tail.drop (width + length), ?_⟩
      rw [← List.drop_drop, List.append_assoc, List.take_append_drop, List.take_append_drop]

/-- The opcodes of a script from `start`. -/
def readSpans : ℕ → ℕ → Bytes → List (ℕ × ℕ × ℕ)
  | 0, _, _ => []
  | fuel + 1, start, script =>
    match readOp script with
    | none => []
    | some (op, rest) =>
      (op.code, start, start + op.encode.length) ::
        readSpans fuel (start + op.encode.length) rest

theorem readSpans_eq {ops : List Op} {tail : Bytes} (hops : ∀ op ∈ ops, op.WellFormed)
    (htail : Unreadable tail) {fuel : ℕ} (hfuel : ops.length ≤ fuel) (start : ℕ) :
    readSpans fuel start (encodeOps ops ++ tail) = spans start ops := by
  induction ops generalizing fuel start with
  | nil =>
    cases fuel with
    | zero => rfl
    | succ fuel =>
      have hnone : readOp tail = none := by
        cases h : readOp tail with
        | none => rfl
        | some x => exact absurd (readOp_sound h).2 (htail x.1 (readOp_sound h).1)
      rw [readSpans]
      change (match readOp tail with | none => [] | some (op, rest) => _) = _
      rw [hnone]
      rfl
  | cons op ops ih =>
    obtain ⟨hop, hops⟩ := List.forall_mem_cons.mp hops
    obtain ⟨fuel, rfl⟩ : ∃ n, fuel = n + 1 := Nat.exists_eq_succ_of_ne_zero (by
      rw [List.length_cons] at hfuel
      omega)
    rw [encodeOps, List.flatMap_cons, List.append_assoc, readSpans, readOp_encode hop, spans]
    exact congrArg _ (ih hops (Nat.le_of_succ_le_succ hfuel) _)

theorem length_le_encodeOps (ops : List Op) : ops.length ≤ (encodeOps ops).length := by
  induction ops with
  | nil => exact le_rfl
  | cons op ops ih =>
    rw [encodeOps, List.flatMap_cons, List.length_cons, List.length_append, Op.encode,
      List.length_cons]
    rw [encodeOps] at ih
    omega

theorem length_sampleHash (x : Bytes) : ((x ++ List.replicate 32 0).take 32).length = 32 := by
  rw [List.length_take, List.length_append, List.length_replicate]
  omega

/-- btclib with the first octets of a string for its hash. -/
def sampleLib : Btclib where
  opCodeSpans := fun script => readSpans script.length 0 script
  push := fun data => (Op.minimal data).encode
  hash256 := fun x => (x ++ List.replicate 32 0).take 32
  serializeTx := RawTx.stripped
  merkleRoot := Merkle.root fun x => (x ++ List.replicate 32 0).take 32
  parseVarBytes := fun stream => (CompactSize.read? stream 0).bind fun (n, i) =>
    if i + n ≤ stream.length then some ((stream.drop i).take n, stream.drop (i + n)) else none
  parseVarInt := fun stream => (CompactSize.read? stream 0).map fun (n, i) => (n, stream.drop i)
  opCodeSpans_eq := fun ops tail hops htail => readSpans_eq hops htail (by
    rw [List.length_append]
    exact (length_le_encodeOps ops).trans (Nat.le_add_right _ _)) 0
  push_eq := fun _ _ _ => rfl
  length_hash256 := length_sampleHash
  serializeTx_eq := fun _ => rfl
  merkleRoot_eq := fun _ _ => rfl

/-- OP_RETURN and the push of a commitment. -/
def sampleStart : List Op :=
  [⟨0x6a, []⟩, Op.minimal ([0xaa, 0x21, 0xa9, 0xed] ++ List.replicate 32 0)]

/-- The push of the header and one octet. -/
def sampleSection (solution : UInt8) : Op := Op.minimal (signetHeader ++ [solution])

/-- A block with a coinbase of one output. -/
def sampleBlock (script : Bytes) : Block where
  header := ⟨0x20000000, List.replicate 32 0, 1600000000, rfl⟩
  coinbase :=
    { version := zero4
      inputs := [⟨List.replicate 36 0, [], zero4, rfl, length_zero4⟩]
      outputs := [⟨List.replicate 8 0, script, length_zero8⟩]
      witnesses := [[]]
      lockTime := zero4
      length_version := length_zero4
      length_witnesses := length_noWitness _
      length_lockTime := length_zero4 }
  others := []

theorem sample_wellFormed {ops : List Op}
    (hops : ∀ op ∈ ops, op = bareHeader ∨ ∃ solution, op = sampleSection solution) :
    ∀ op ∈ sampleStart ++ ops, op.WellFormed := by
  refine List.forall_mem_append.mpr ⟨List.forall_mem_cons.mpr ⟨?_,
    List.forall_mem_singleton.mpr (wellFormed_minimal (by decide) (by decide))⟩, fun op hop => ?_⟩
  · exact ⟨by decide, fun _ => rfl, by decide, by decide⟩
  · rcases hops op hop with rfl | ⟨solution, rfl⟩
    · exact bareHeader_wellFormed
    · refine wellFormed_minimal (List.cons_ne_nil _ _) ?_
      change 5 < 2 ^ 32
      decide

end BtclibNode.Signet
