/-
# What the walk over a block accepts

Each part of the walk reads one record of the grammar (`count_eq_ok_iff`,
`skip_eq_ok_iff`, `reads_transaction`), so that a walk that ends with the octets has read a
block, and what it keeps on the way is the block without its witnesses.
-/
import Mathlib
import BtclibNode.P2p.RawBlock

namespace BtclibNode.RawBlock

open Octets

variable {lim : BlockLimits} {raw : Bytes} {i j n limit before behind : ℕ}

theorem bind_eq_ok_iff {ε α β : Type} {x : Except ε α} {f : α → Except ε β} {b : β} :
    (x >>= f) = .ok b ↔ ∃ a, x = .ok a ∧ f a = .ok b := by
  cases x with
  | error e => simp [bind, Except.bind]
  | ok a => simp [bind, Except.bind]

theorem ok_bind {ε α β : Type} {a : α} {f : α → Except ε β} : (Except.ok a >>= f) = f a := rfl

/-! ## Counts -/

/-- A count is what the CompactSize at its position says, within its limit. -/
theorem count_eq_ok_iff_read (hlim : 0xFC ≤ limit) :
    count raw i limit = .ok (n, j) ↔ CompactSize.read? raw i = some (n, j) ∧ n ≤ limit := by
  unfold count octetAt CompactSize.read?
  cases hi : raw[i]? with
  | none => simp [bind, Except.bind]
  | some first =>
    simp only [bind, Except.bind, Option.bind_some]
    by_cases hsmall : first.toNat < oneOctetLimit
    · have hnone : CompactSize.wide first = none := CompactSize.wide_eq_none_iff.mpr hsmall
      have hle : first.toNat ≤ limit := by
        unfold oneOctetLimit at hsmall
        omega
      rw [if_pos hsmall, hnone]
      simp only [Except.ok.injEq, Option.some.injEq, Prod.mk.injEq]
      constructor
      · rintro ⟨rfl, rfl⟩
        exact ⟨⟨rfl, rfl⟩, hle⟩
      · rintro ⟨h, -⟩
        exact h
    · obtain ⟨⟨size, least⟩, hwide⟩ := Option.ne_none_iff_exists'.mp
        (mt CompactSize.wide_eq_none_iff.mp hsmall)
      rw [if_neg hsmall, hwide]
      simp only [wide, octetAt, hi, hwide, bind, Except.bind]
      generalize LittleEndian.decode (slice raw (i + 1) (i + 1 + size)) = value
      -- the three refusals of `_wide`: cut short, not canonical, above the limit
      by_cases hend : raw.length < i + 1 + size
      · rw [if_pos hend, if_neg (by omega)]
        simp
      · rw [if_neg hend]
        by_cases hleast : value < least
        · rw [if_pos hleast, if_neg (by omega)]
          simp
        · have hread : i + 1 + size ≤ raw.length ∧ least ≤ value := by omega
          rw [if_neg hleast, if_pos hread]
          by_cases hbig : limit < value
          · rw [if_pos hbig]
            simp only [Option.some.injEq, Prod.mk.injEq, reduceCtorEq, false_iff, not_and]
            rintro ⟨rfl, -⟩
            omega
          · rw [if_neg hbig]
            simp only [Except.ok.injEq, Option.some.injEq, Prod.mk.injEq]
            constructor
            · rintro ⟨rfl, rfl⟩
              exact ⟨⟨rfl, rfl⟩, by omega⟩
            · rintro ⟨h, -⟩
              exact h

theorem count_eq_ok_iff (hlim : 0xFC ≤ limit) (hlt : limit < 2 ^ 64) :
    count raw i limit = .ok (n, j) ↔
      n ≤ limit ∧ At raw i (CompactSize.encode n) ∧ j = i + (CompactSize.encode n).length := by
  rw [count_eq_ok_iff_read hlim, CompactSize.read?_eq_some_iff]
  constructor
  · rintro ⟨⟨-, hat, hj⟩, hle⟩
    exact ⟨hle, hat, hj⟩
  · rintro ⟨hle, hat, hj⟩
    exact ⟨⟨by omega, hat, hj⟩, hle⟩

/-! ## What is as long as a count says -/

/-- What `skip` reads: some octets, a counted string and some octets. -/
theorem skip_eq_ok_iff (hlim : 0xFC ≤ limit) (hlt : limit < 2 ^ 64) :
    skip limit before behind raw i = .ok j ∧ j ≤ raw.length ↔
      ∃ a s b : Bytes, a.length = before ∧ s.length ≤ limit ∧ b.length = behind ∧
        At raw i (a ++ counted s ++ b) ∧ j = i + (a ++ counted s ++ b).length := by
  unfold skip
  constructor
  · rintro ⟨h, hend⟩
    cases hcount : count raw (i + before) limit with
    | error e =>
      rw [hcount] at h
      cases h
    | ok r =>
      obtain ⟨n, k⟩ := r
      rw [hcount] at h
      cases h
      obtain ⟨hn, hat, rfl⟩ := (count_eq_ok_iff hlim hlt).mp hcount
      generalize hk : i + before + (CompactSize.encode n).length = k at hend
      have ha : (slice raw i (i + before)).length = before := length_slice_add (by omega)
      have hs : (slice raw k (k + n)).length = n := length_slice_add (by omega)
      have hb : (slice raw (k + n) (k + n + behind)).length = behind := length_slice_add hend
      refine ⟨slice raw i (i + before), slice raw k (k + n), slice raw (k + n) (k + n + behind),
        ha, by omega, hb, ?_, ?_⟩
      · unfold counted
        rw [at_append, at_append, at_append, List.length_append, List.length_append, ha, hs,
          ← Nat.add_assoc, ← Nat.add_assoc, hk]
        exact ⟨⟨at_slice (by omega) (by omega), hat, at_slice (by omega) (by omega)⟩,
          at_slice (by omega) (by omega)⟩
      · unfold counted
        rw [List.length_append, List.length_append, List.length_append, ha, hs, hb]
        omega
  · rintro ⟨a, s, b, rfl, hs, rfl, hat, rfl⟩
    have hend := hat.le_length
    unfold counted at hat
    rw [at_append, at_append, at_append] at hat
    have hcount := (count_eq_ok_iff hlim hlt).mpr ⟨hs, hat.1.2.1, rfl⟩
    refine ⟨?_, hend⟩
    rw [hcount]
    simp only [bind, Except.bind, Except.ok.injEq, counted, List.length_append]
    omega

/-- The walk never goes back. -/
theorem skip_advances (hlim : 0xFC ≤ limit) (hlt : limit < 2 ^ 64)
    (h : skip limit before behind raw i = .ok j) : i ≤ j := by
  unfold skip at h
  cases hcount : count raw (i + before) limit with
  | error e =>
    rw [hcount] at h
    cases h
  | ok r =>
    obtain ⟨n, k⟩ := r
    rw [hcount] at h
    cases h
    obtain ⟨-, -, rfl⟩ := (count_eq_ok_iff hlim hlt).mp hcount
    omega

theorem reads_input (lim : BlockLimits) (raw : Bytes) :
    Reads raw (skip lim.maxSize outpointSize sequenceSize raw) id RawInput.serialize
      (fun i x => i + x.serialize.length) fun x => x.script.length ≤ lim.maxSize where
  advances _ _ h := skip_advances lim.octet_le_size lim.size_lt h
  pos_next _ _ := rfl
  reads i j := by
    rw [id, id, skip_eq_ok_iff lim.octet_le_size lim.size_lt]
    constructor
    · rintro ⟨a, s, b, ha, hs, hb, hat, rfl⟩
      exact ⟨⟨a, s, b, ha, hb⟩, hs, hat, rfl⟩
    · rintro ⟨⟨a, s, b, ha, hb⟩, hs, hat, rfl⟩
      exact ⟨a, s, b, ha, hs, hb, hat, rfl⟩

theorem reads_output (lim : BlockLimits) (raw : Bytes) :
    Reads raw (skip lim.maxSize valueSize 0 raw) id RawOutput.serialize
      (fun i x => i + x.serialize.length) fun x => x.script.length ≤ lim.maxSize where
  advances _ _ h := skip_advances lim.octet_le_size lim.size_lt h
  pos_next _ _ := rfl
  reads i j := by
    rw [id, id, skip_eq_ok_iff lim.octet_le_size lim.size_lt]
    constructor
    · rintro ⟨a, s, b, ha, hs, hb, hat, rfl⟩
      rw [List.eq_nil_of_length_eq_zero hb, List.append_nil] at hat ⊢
      exact ⟨⟨a, s, ha⟩, hs, hat, rfl⟩
    · rintro ⟨⟨a, s, ha⟩, hs, hat, rfl⟩
      refine ⟨a, s, [], ha, hs, rfl, ?_, ?_⟩
      · rw [List.append_nil]
        exact hat
      · rw [List.append_nil]
        rfl

theorem reads_item (lim : BlockLimits) (raw : Bytes) :
    Reads raw (skip lim.maxSize 0 0 raw) id counted
      (fun i x => i + (counted x).length) fun x => x.length ≤ lim.maxSize where
  advances _ _ h := skip_advances lim.octet_le_size lim.size_lt h
  pos_next _ _ := rfl
  reads i j := by
    rw [id, id, skip_eq_ok_iff lim.octet_le_size lim.size_lt]
    constructor
    · rintro ⟨a, s, b, ha, hs, hb, hat, rfl⟩
      rw [List.eq_nil_of_length_eq_zero ha, List.eq_nil_of_length_eq_zero hb, List.nil_append,
        List.append_nil] at hat ⊢
      exact ⟨s, hs, hat, rfl⟩
    · rintro ⟨s, hs, hat, rfl⟩
      refine ⟨[], s, [], rfl, hs, rfl, ?_, ?_⟩
      · rw [List.nil_append, List.append_nil]
        exact hat
      · rw [List.nil_append, List.append_nil]

/-! ## Counted sequences -/

/-- A count and that many turns read the encoding of a number of records, and the records. -/
theorem counted_walk_iff {β : Type} {step : ℕ → Except WalkError ℕ} {record : β → Bytes}
    {valid : β → Prop}
    (h : Reads raw step id record (fun i x => i + (record x).length) valid)
    (hlim : 0xFC ≤ limit) (hlt : limit < 2 ^ 64) :
    (∃ k, count raw i limit = .ok (n, k) ∧ walk step n k = .ok j ∧ j ≤ raw.length) ↔
      ∃ xs : List β, xs.length = n ∧ n ≤ limit ∧ (∀ x ∈ xs, valid x) ∧
        At raw i (CompactSize.encode n ++ xs.flatMap record) ∧
        j = i + (CompactSize.encode n ++ xs.flatMap record).length := by
  constructor
  · rintro ⟨k, hcount, hwalk, hend⟩
    obtain ⟨hle, hat, rfl⟩ := (count_eq_ok_iff hlim hlt).mp hcount
    obtain ⟨xs, hlen, hxs, hrecords, rfl⟩ := (h.walk_iff hat.le_length).mp ⟨hwalk, hend⟩
    refine ⟨xs, hlen, hle, hxs, at_append.mpr ⟨hat, hrecords⟩, ?_⟩
    rw [← id_eq (xs.foldl _ _), h.pos_foldl, List.length_append, id]
    omega
  · rintro ⟨xs, hlen, hle, hxs, hat, rfl⟩
    have hend := hat.le_length
    rw [at_append] at hat
    refine ⟨_, (count_eq_ok_iff hlim hlt).mpr ⟨hle, hat.1, rfl⟩, ?_⟩
    refine (h.walk_iff hat.1.le_length).mpr ⟨xs, hlen, hxs, hat.2, ?_⟩
    have hfold := h.pos_foldl xs (i + (CompactSize.encode n).length)
    rw [id, id] at hfold
    rw [hfold, List.length_append]
    omega

theorem walk_advances_of_count {β : Type} {step : ℕ → Except WalkError ℕ} {record : β → Bytes}
    {valid : β → Prop} {k : ℕ}
    (h : Reads raw step id record (fun i x => i + (record x).length) valid)
    (hlim : 0xFC ≤ limit) (hlt : limit < 2 ^ 64)
    (hcount : count raw i limit = .ok (n, k)) (hwalk : walk step n k = .ok j) : i ≤ j := by
  obtain ⟨-, -, rfl⟩ := (count_eq_ok_iff hlim hlt).mp hcount
  have hadvances := h.walk_advances hwalk
  rw [id, id] at hadvances
  omega

/-- What a turn over a witness makes of its variables. -/
def nextWitness (w : ℕ × Bool) (items : List Bytes) : ℕ × Bool :=
  (w.1 + (serializeWitness items).length, w.2 || decide (0 < items.length))

theorem skipWitness_eq_ok_iff {w w' : ℕ × Bool} :
    skipWitness lim raw w = .ok w' ↔
      ∃ n k, count raw w.1 lim.maxWitnessStackItems = .ok (n, k) ∧
        skipItems lim raw k n = .ok w'.1 ∧ w'.2 = (w.2 || decide (0 < n)) := by
  unfold skipWitness
  simp only [bind_eq_ok_iff, Prod.exists, Except.ok.injEq]
  constructor
  · rintro ⟨n, k, hcount, j, hitems, rfl⟩
    exact ⟨n, k, hcount, hitems, rfl⟩
  · rintro ⟨n, k, hcount, hitems, hc⟩
    exact ⟨n, k, hcount, _, hitems, by rw [← hc]⟩

theorem reads_witness (lim : BlockLimits) (raw : Bytes) :
    Reads raw (skipWitness lim raw) Prod.fst serializeWitness nextWitness fun items =>
      items.length ≤ lim.maxWitnessStackItems ∧ ∀ item ∈ items, item.length ≤ lim.maxSize where
  advances w w' h := by
    obtain ⟨n, k, hcount, hitems, -⟩ := skipWitness_eq_ok_iff.mp h
    exact walk_advances_of_count (reads_item lim raw) lim.octet_le_items lim.items_lt hcount
      hitems
  pos_next _ _ := rfl
  reads w w' := by
    rw [skipWitness_eq_ok_iff]
    constructor
    · rintro ⟨⟨n, k, hcount, hitems, hc⟩, hend⟩
      obtain ⟨xs, rfl, hle, hxs, hat, hj⟩ := (counted_walk_iff (reads_item lim raw)
        lim.octet_le_items lim.items_lt).mp ⟨k, hcount, hitems, hend⟩
      exact ⟨xs, ⟨hle, hxs⟩, hat, Prod.ext hj hc⟩
    · rintro ⟨xs, ⟨hle, hxs⟩, hat, rfl⟩
      obtain ⟨k, hcount, hitems, hend⟩ := (counted_walk_iff (n := xs.length)
        (reads_item lim raw) lim.octet_le_items lim.items_lt).mpr ⟨xs, rfl, hle, hxs, hat, rfl⟩
      exact ⟨⟨xs.length, k, hcount, hitems, rfl⟩, hend⟩

theorem foldl_nextWitness (ws : List (List Bytes)) (w : ℕ × Bool) :
    (ws.foldl nextWitness w).2 = (w.2 || ws.any fun items => decide (0 < items.length)) := by
  induction ws generalizing w with
  | nil => simp
  | cons items ws ih => rw [List.foldl_cons, ih, List.any_cons, nextWitness, Bool.or_assoc]

/-! ## Inputs and outputs -/

/-- The inputs and the outputs, as the loop of `_scan` walks over them in either form. -/
def scanBody (lim : BlockLimits) (raw : Bytes) (i : ℕ) : Except WalkError (ℕ × ℕ) := do
  let (inputs, i) ← count raw i lim.maxSize
  let i ← skipInputs lim raw i inputs
  let (outputs, i) ← count raw i lim.maxSize
  let i ← skipOutputs lim raw i outputs
  .ok (inputs, i)

theorem scanBody_eq_ok_iff :
    scanBody lim raw i = .ok (n, j) ↔
      ∃ k l m r, count raw i lim.maxSize = .ok (n, k) ∧ skipInputs lim raw k n = .ok l ∧
        count raw l lim.maxSize = .ok (m, r) ∧ skipOutputs lim raw r m = .ok j := by
  unfold scanBody
  simp only [bind_eq_ok_iff, Prod.exists, Except.ok.injEq, Prod.mk.injEq]
  constructor
  · rintro ⟨n, k, hn, l, hl, m, r, hm, j, hj, rfl, rfl⟩
    exact ⟨k, l, m, r, hn, hl, hm, hj⟩
  · rintro ⟨k, l, m, r, hn, hl, hm, hj⟩
    exact ⟨n, k, hn, l, hl, m, r, hm, j, hj, rfl, rfl⟩

theorem scanBody_iff :
    scanBody lim raw i = .ok (n, j) ∧ j ≤ raw.length ↔
      ∃ inputs outputs, inputs.length = n ∧ BoundedBody lim inputs outputs ∧
        At raw i (serializeBody inputs outputs) ∧
        j = i + (serializeBody inputs outputs).length := by
  rw [scanBody_eq_ok_iff]
  unfold serializeBody
  constructor
  · rintro ⟨⟨k, l, m, r, hn, hl, hm, hj⟩, hend⟩
    have hle := walk_advances_of_count (reads_output lim raw) lim.octet_le_size lim.size_lt hm hj
    obtain ⟨ins, rfl, hins, hscripts, hat, rfl⟩ := (counted_walk_iff (reads_input lim raw)
      lim.octet_le_size lim.size_lt).mp ⟨k, hn, hl, hle.trans hend⟩
    obtain ⟨outs, rfl, houts, hscripts', hat', rfl⟩ := (counted_walk_iff (reads_output lim raw)
      lim.octet_le_size lim.size_lt).mp ⟨r, hm, hj, hend⟩
    refine ⟨ins, outs, rfl, ⟨hins, hscripts, houts, hscripts'⟩, ?_, ?_⟩
    · rw [← List.append_assoc]
      exact at_append.mpr ⟨hat, hat'⟩
    · simp only [List.length_append]
      omega
  · rintro ⟨ins, outs, rfl, hbound, hat, rfl⟩
    rw [← List.append_assoc, at_append] at hat
    obtain ⟨k, hn, hl, -⟩ := (counted_walk_iff (n := ins.length) (reads_input lim raw)
      lim.octet_le_size lim.size_lt).mpr ⟨ins, rfl, hbound.inputs, hbound.scripts, hat.1, rfl⟩
    obtain ⟨r, hm, hj, hend⟩ := (counted_walk_iff (n := outs.length) (reads_output lim raw)
      lim.octet_le_size lim.size_lt).mpr
        ⟨outs, rfl, hbound.outputs, hbound.outputScripts, hat.2, rfl⟩
    rw [← List.append_assoc, List.length_append, ← Nat.add_assoc]
    exact ⟨⟨k, _, _, r, hn, hl, hm, hj⟩, hend⟩

theorem scanBody_advances (h : scanBody lim raw i = .ok (n, j)) : i ≤ j := by
  obtain ⟨k, l, m, r, hn, hl, hm, hj⟩ := scanBody_eq_ok_iff.mp h
  have hinputs := walk_advances_of_count (reads_input lim raw) lim.octet_le_size lim.size_lt hn hl
  have houtputs := walk_advances_of_count (reads_output lim raw) lim.octet_le_size lim.size_lt
    hm hj
  omega

/-! ## Marker and flag -/

theorem at_of_slice {s : Bytes} (h : slice raw i (i + s.length) = s) (hs : s ≠ []) :
    At raw i s := by
  have hlen := congrArg List.length h
  unfold slice at h hlen
  rw [Nat.add_sub_cancel_left] at h hlen
  rw [List.length_take, List.length_drop] at hlen
  have hpos := List.length_pos_iff.mpr hs
  refine ⟨by omega, ?_⟩
  rw [← h]
  exact List.take_prefix _ _

/-- The two octets that may be a marker and a flag. -/
theorem isSegwit_of_at {a b : UInt8} (h : At raw i [a, b]) :
    isSegwit raw i =
      if a = 0 ∧ 2 ≤ b.toNat then .error (.btclibValueError "unknown transaction optional data")
      else .ok (decide (a = 0 ∧ b = 1)) := by
  have hslice : slice raw i (i + markerSize) = [a, b] := slice_of_at h
  unfold isSegwit
  rw [hslice]
  refine if_congr ⟨fun h => ?_, fun h => ?_⟩ rfl (congrArg Except.ok (decide_eq_decide.mpr ?_))
  · exact ⟨Option.some.inj h.2.1, of_decide_eq_true h.2.2⟩
  · exact ⟨rfl, congrArg some h.1, decide_eq_true h.2⟩
  · simp [segwitMarker]

theorem isSegwit_eq_true_iff : isSegwit raw i = .ok true ↔ At raw i segwitMarker := by
  constructor
  · unfold isSegwit
    intro h
    dsimp only at h
    split_ifs at h with hunknown
    have hmarker := of_decide_eq_true (Except.ok.inj h)
    exact at_of_slice hmarker (List.cons_ne_nil _ _)
  · intro h
    rw [isSegwit_of_at h]
    rfl

theorem isSegwit_of_ne_zero {a : UInt8} {s : Bytes} (h : At raw i (a :: s)) (ha : a ≠ 0)
    (hs : s ≠ []) : isSegwit raw i = .ok false := by
  obtain ⟨b, u, rfl⟩ := List.exists_cons_of_ne_nil hs
  rw [isSegwit_of_at ((at_append (s := [a, b])).mp h).1, if_neg fun h => ha h.1]
  simp [ha]

theorem isSegwit_of_zero {s : Bytes} (h : At raw i (0 :: (CompactSize.encode n ++ s))) :
    isSegwit raw i = .ok false ↔ n = 0 := by
  obtain ⟨b, u, hb⟩ := List.exists_cons_of_ne_nil (CompactSize.encode_ne_nil n)
  rw [hb] at h
  rw [isSegwit_of_at ((at_append (s := [0, b])).mp h).1]
  constructor
  · intro h
    by_cases hunknown : (0 : UInt8) = 0 ∧ 2 ≤ b.toNat
    · rw [if_pos hunknown] at h
      cases h
    · rw [if_neg hunknown] at h
      have hflag := of_decide_eq_false (Except.ok.inj h)
      -- the first octet of the count is below two and not one
      refine CompactSize.eq_zero_of_encode hb ?_
      have hone : b.toNat ≠ 1 := fun h => hflag ⟨rfl, UInt8.toNat_inj.mp h⟩
      have hlt : ¬2 ≤ b.toNat := fun h => hunknown ⟨rfl, h⟩
      exact UInt8.toNat_inj.mp (by rw [UInt8.toNat_zero]; omega)
  · rintro rfl
    cases hb
    rfl

/-- Inputs and outputs do not begin with a marker or an unknown flag, unless there are
outputs and no input. -/
theorem isSegwit_of_body {ins : List RawInput} {outs : List RawOutput}
    (h : At raw i (serializeBody ins outs)) :
    isSegwit raw i = .ok false ↔ (ins = [] → outs = []) := by
  unfold serializeBody at h
  by_cases hins : ins = []
  · subst hins
    have hzero : CompactSize.encode ([] : List RawInput).length = [0] := rfl
    rw [hzero, List.flatMap_nil, List.nil_append, List.singleton_append] at h
    rw [isSegwit_of_zero h, List.length_eq_zero_iff]
    simp
  · obtain ⟨a, s, ha⟩ := List.exists_cons_of_ne_nil (CompactSize.encode_ne_nil ins.length)
    rw [ha, List.cons_append] at h
    have hne : a ≠ 0 := fun h0 =>
      hins (List.length_eq_zero_iff.mp (CompactSize.eq_zero_of_encode ha h0))
    have hmore : s ++ (ins.flatMap RawInput.serialize ++
        (CompactSize.encode outs.length ++ outs.flatMap RawOutput.serialize)) ≠ [] := by
      simp [CompactSize.encode_ne_nil]
    rw [isSegwit_of_ne_zero h hne hmore]
    simp [hins]

/-! ## Transactions -/

theorem scanTransaction_legacy {strip : Bool} {w w' : Scan}
    (h : isSegwit raw (w.i + uint32Size) = .ok false) :
    scanTransaction lim strip raw w = .ok w' ↔
      ∃ n j, scanBody lim raw (w.i + uint32Size) = .ok (n, j) ∧
        w' = { w with i := j + uint32Size } := by
  simp only [scanBody_eq_ok_iff]
  unfold scanTransaction
  simp only [h, ok_bind, Bool.false_eq_true, if_false]
  simp only [bind_eq_ok_iff, Prod.exists, Except.ok.injEq]
  constructor
  · rintro ⟨n, k, hn, l, hl, m, r, hm, j, hj, rfl⟩
    exact ⟨n, j, ⟨k, l, m, r, hn, hl, hm, hj⟩, rfl⟩
  · rintro ⟨n, j, ⟨k, l, m, r, hn, hl, hm, hj⟩, rfl⟩
    exact ⟨n, k, hn, l, hl, m, r, hm, j, hj, rfl⟩

theorem scanTransaction_segwit {strip : Bool} {w w' : Scan}
    (h : isSegwit raw (w.i + uint32Size) = .ok true) :
    scanTransaction lim strip raw w = .ok w' ↔
      ∃ n j k, scanBody lim raw (w.i + uint32Size + markerSize) = .ok (n, j) ∧
        skipWitnesses lim raw j n = .ok (k, true) ∧
        w' = if strip then ⟨k + uint32Size, k, w.parts ++
            [slice raw w.run (w.i + uint32Size), slice raw (w.i + uint32Size + markerSize) j]⟩
          else { w with i := k + uint32Size } := by
  simp only [scanBody_eq_ok_iff]
  unfold scanTransaction
  simp only [h, ok_bind, if_true]
  simp only [bind_eq_ok_iff, Prod.exists]
  constructor
  · rintro ⟨n, k, hn, l, hl, m, r, hm, j, hj, e, c, hwit, hw⟩
    cases c with
    | false => cases hw
    | true =>
      refine ⟨n, j, e, ⟨k, l, m, r, hn, hl, hm, hj⟩, hwit, Except.ok.inj (hw.symm.trans ?_)⟩
      cases strip <;> rfl
  · rintro ⟨n, j, e, ⟨k, l, m, r, hn, hl, hm, hj⟩, hwit, rfl⟩
    refine ⟨n, k, hn, l, hl, m, r, hm, j, hj, e, true, hwit, ?_⟩
    cases strip <;> rfl

theorem skipWitnesses_iff {c : Bool} (hi : i ≤ raw.length) :
    skipWitnesses lim raw i n = .ok (j, c) ∧ j ≤ raw.length ↔
      ∃ ws : List (List Bytes), ws.length = n ∧
        (∀ items ∈ ws, items.length ≤ lim.maxWitnessStackItems ∧
          ∀ item ∈ items, item.length ≤ lim.maxSize) ∧
        At raw i (ws.flatMap serializeWitness) ∧
        j = i + (ws.flatMap serializeWitness).length ∧
        c = ws.any fun items => decide (0 < items.length) := by
  unfold skipWitnesses
  refine ((reads_witness lim raw).walk_iff hi).trans ?_
  refine exists_congr fun ws => and_congr_right fun _ => and_congr_right fun _ =>
    and_congr_right fun _ => ?_
  have hfst := (reads_witness lim raw).pos_foldl ws (i, false)
  have hsnd := foldl_nextWitness ws (i, false)
  rw [Prod.ext_iff, hfst, hsnd, Bool.false_or]

theorem RawTx.serialize_of_segwit {tx : RawTx} (h : tx.segwit = true) :
    tx.serialize = tx.version ++ (segwitMarker ++ (tx.body ++
      (tx.witnesses.flatMap serializeWitness ++ tx.lockTime))) := if_pos h

theorem RawTx.serialize_of_legacy {tx : RawTx} (h : tx.segwit = false) :
    tx.serialize = tx.version ++ (tx.body ++ tx.lockTime) := by
  unfold RawTx.serialize
  rw [h]
  rfl

/-- What a turn over a transaction makes of the variables. -/
def nextTransaction (strip : Bool) (raw : Bytes) (w : Scan) (tx : RawTx) : Scan :=
  if tx.segwit && strip then
    ⟨w.i + tx.serialize.length, w.i + tx.serialize.length - uint32Size,
      w.parts ++ [slice raw w.run (w.i + uint32Size), tx.body]⟩
  else { w with i := w.i + tx.serialize.length }

theorem nextTransaction_i (strip : Bool) (raw : Bytes) (w : Scan) (tx : RawTx) :
    (nextTransaction strip raw w tx).i = w.i + tx.serialize.length := by
  unfold nextTransaction
  cases (tx.segwit && strip) <;> rfl

/-- A turn in the legacy form. -/
theorem reads_legacy {strip : Bool} {w w' : Scan}
    (h : isSegwit raw (w.i + uint32Size) = .ok false) :
    scanTransaction lim strip raw w = .ok w' ∧ w'.i ≤ raw.length ↔
      ∃ tx : RawTx, (tx.Readable lim ∧ tx.segwit = false) ∧ At raw w.i tx.serialize ∧
        w' = { w with i := w.i + tx.serialize.length } := by
  rw [scanTransaction_legacy h]
  constructor
  · rintro ⟨⟨n, j, hbody, rfl⟩, hend⟩
    dsimp only [uint32Size] at hend h hbody ⊢
    obtain ⟨ins, outs, rfl, hbound, hat, rfl⟩ := scanBody_iff.mp ⟨hbody, by omega⟩
    generalize hj : w.i + 4 + (serializeBody ins outs).length = j at hend
    have hbegin := hat.le_length
    have hversion : (slice raw w.i (w.i + 4)).length = 4 := length_slice_add (by omega)
    have hlock : (slice raw j (j + 4)).length = 4 := length_slice_add hend
    -- a transaction without witnesses has an empty one for each input
    have hlegacy : (RawTx.mk (slice raw w.i (w.i + 4)) ins outs
        (List.replicate ins.length []) (slice raw j (j + 4)) hversion
        List.length_replicate hlock).segwit = false := by
      simp [RawTx.segwit]
    refine ⟨_, ⟨⟨⟨hbound, ?_⟩, (isSegwit_of_body hat).mp h⟩, hlegacy⟩, ?_, ?_⟩
    · intro items hitems
      rw [List.eq_of_mem_replicate hitems]
      exact ⟨Nat.zero_le _, by simp⟩
    · rw [RawTx.serialize_of_legacy hlegacy]
      refine at_append.mpr ⟨at_slice (by omega) (by omega), ?_⟩
      rw [hversion, at_append, RawTx.body, hj]
      exact ⟨hat, at_slice (by omega) hend⟩
    · rw [RawTx.serialize_of_legacy hlegacy, List.length_append, List.length_append, hversion,
        hlock, RawTx.body]
      dsimp only
      congr 1
      omega
  · rintro ⟨tx, ⟨hread, hlegacy⟩, hat, rfl⟩
    have hend := hat.le_length
    refine ⟨?_, hend⟩
    rw [RawTx.serialize_of_legacy hlegacy, at_append, tx.length_version, at_append] at hat
    obtain ⟨hbody, -⟩ := scanBody_iff.mpr
      ⟨tx.inputs, tx.outputs, rfl, hread.body, hat.2.1, rfl⟩
    refine ⟨_, _, hbody, ?_⟩
    rw [RawTx.serialize_of_legacy hlegacy, List.length_append, List.length_append,
      tx.length_version, tx.length_lockTime, RawTx.body]
    congr 1
    dsimp only [uint32Size]
    omega

/-- A turn over a marker and a flag. -/
theorem reads_segwit {strip : Bool} {w w' : Scan}
    (h : isSegwit raw (w.i + uint32Size) = .ok true) :
    scanTransaction lim strip raw w = .ok w' ∧ w'.i ≤ raw.length ↔
      ∃ tx : RawTx, (tx.Readable lim ∧ tx.segwit = true) ∧ At raw w.i tx.serialize ∧
        w' = nextTransaction strip raw w tx := by
  rw [scanTransaction_segwit h]
  constructor
  · rintro ⟨⟨n, j, k, hbody, hwit, hw⟩, hend⟩
    have hki : w'.i = k + 4 := by
      rw [hw]
      cases strip <;> rfl
    rw [hki] at hend
    dsimp only [uint32Size, markerSize] at h hbody hw
    have hle : j ≤ k := (reads_witness lim raw).walk_advances hwit
    obtain ⟨ins, outs, rfl, hbound, hat, rfl⟩ := scanBody_iff.mp ⟨hbody, by omega⟩
    have hbegin := hat.le_length
    obtain ⟨ws, hws, hbounds, hats, rfl, hcarried⟩ := (skipWitnesses_iff hbegin).mp
      ⟨hwit, by omega⟩
    generalize hk : w.i + 4 + 2 + (serializeBody ins outs).length +
      (ws.flatMap serializeWitness).length = k at *
    have hversion : (slice raw w.i (w.i + 4)).length = 4 := length_slice_add (by omega)
    have hlock : (slice raw k (k + 4)).length = 4 := length_slice_add hend
    let tx : RawTx := ⟨slice raw w.i (w.i + 4), ins, outs, ws, slice raw k (k + 4), hversion, hws,
      hlock⟩
    have hsegwit : tx.segwit = true := hcarried.symm
    have hlength : w.i + tx.serialize.length = k + 4 := by
      rw [RawTx.serialize_of_segwit hsegwit]
      simp only [List.length_append]
      rw [tx.length_version, tx.length_lockTime]
      change w.i + (4 + (2 + ((serializeBody ins outs).length +
        ((ws.flatMap serializeWitness).length + 4)))) = k + 4
      omega
    refine ⟨tx, ⟨⟨⟨hbound, hbounds⟩, ?_⟩, hsegwit⟩, ?_, ?_⟩
    · -- a witness with an item has an input
      rintro (hins : ins = [])
      rw [hins, List.length_nil, List.length_eq_zero_iff] at hws
      rw [hws] at hcarried
      cases hcarried
    · rw [RawTx.serialize_of_segwit hsegwit, at_append, at_append, at_append, at_append]
      refine ⟨at_slice (by omega) (by omega), ?_⟩
      rw [tx.length_version]
      refine ⟨isSegwit_eq_true_iff.mp h, hat, hats, ?_⟩
      change At raw (w.i + 4 + 2 + (serializeBody ins outs).length +
        (ws.flatMap serializeWitness).length) (slice raw k (k + 4))
      rw [hk]
      exact at_slice (by omega) hend
    · unfold nextTransaction
      rw [hw, hsegwit, Bool.true_and, hlength, slice_of_at hat]
      cases strip <;> rfl
  · rintro ⟨tx, ⟨hread, hsegwit⟩, hat, rfl⟩
    have hend := hat.le_length
    rw [nextTransaction_i]
    refine ⟨?_, hend⟩
    have hlength : w.i + tx.serialize.length = w.i + 4 + 2 + tx.body.length +
        (tx.witnesses.flatMap serializeWitness).length + 4 := by
      rw [RawTx.serialize_of_segwit hsegwit]
      simp only [List.length_append]
      rw [tx.length_version, tx.length_lockTime]
      change _ + (4 + (2 + _)) = _
      omega
    rw [RawTx.serialize_of_segwit hsegwit, at_append, at_append, at_append, at_append,
      tx.length_version] at hat
    obtain ⟨-, -, hbody, hats, -⟩ := hat
    obtain ⟨hscan, hj⟩ := scanBody_iff.mpr ⟨tx.inputs, tx.outputs, rfl, hread.body, hbody, rfl⟩
    obtain ⟨hwit, -⟩ := (skipWitnesses_iff hj).mpr
      ⟨tx.witnesses, tx.length_witnesses, hread.witnesses, hats, rfl, hsegwit.symm⟩
    refine ⟨_, _, _, hscan, hwit, ?_⟩
    unfold nextTransaction
    have hslice : slice raw (w.i + uint32Size + markerSize) (w.i + 4 + segwitMarker.length +
        (serializeBody tx.inputs tx.outputs).length) = tx.body := slice_of_at hbody
    rw [hsegwit, Bool.true_and, hlength, hslice]
    rfl

/-- A turn of the loop reads one transaction. -/
theorem reads_transaction (lim : BlockLimits) (strip : Bool) (raw : Bytes) :
    Reads raw (scanTransaction lim strip raw) Scan.i RawTx.serialize
      (nextTransaction strip raw) (RawTx.Readable lim) where
  advances w w' h := by
    obtain ⟨segwit, hsegwit, -⟩ := bind_eq_ok_iff.mp h
    cases segwit with
    | false =>
      obtain ⟨n, j, hbody, rfl⟩ := (scanTransaction_legacy hsegwit).mp h
      have hle := scanBody_advances hbody
      dsimp only [uint32Size] at hle ⊢
      omega
    | true =>
      obtain ⟨n, j, k, hbody, hwit, rfl⟩ := (scanTransaction_segwit hsegwit).mp h
      have hle := scanBody_advances hbody
      have hle' : j ≤ k := (reads_witness lim raw).walk_advances hwit
      dsimp only [uint32Size, markerSize] at hle ⊢
      cases strip with
      | false => rw [if_neg Bool.false_ne_true]; dsimp only; omega
      | true => rw [if_pos rfl]; dsimp only; omega
  pos_next w tx := nextTransaction_i strip raw w tx
  reads w w' := by
    constructor
    · rintro ⟨h, hend⟩
      obtain ⟨segwit, hsegwit, -⟩ := bind_eq_ok_iff.mp h
      cases segwit with
      | false =>
        obtain ⟨tx, ⟨hread, hlegacy⟩, hat, rfl⟩ := (reads_legacy hsegwit).mp ⟨h, hend⟩
        refine ⟨tx, hread, hat, ?_⟩
        unfold nextTransaction
        rw [hlegacy]
        rfl
      | true =>
        obtain ⟨tx, ⟨hread, -⟩, hat, rfl⟩ := (reads_segwit hsegwit).mp ⟨h, hend⟩
        exact ⟨tx, hread, hat, rfl⟩
    · rintro ⟨tx, hread, hat, rfl⟩
      cases hform : tx.segwit with
      | false =>
        have hat' := hat
        rw [RawTx.serialize_of_legacy hform, at_append, at_append, tx.length_version] at hat'
        have hsegwit := (isSegwit_of_body hat'.2.1).mpr hread.outputs_of_no_input
        refine (reads_legacy hsegwit).mpr ⟨tx, ⟨hread, hform⟩, hat, ?_⟩
        unfold nextTransaction
        rw [hform]
        rfl
      | true =>
        have hat' := hat
        rw [RawTx.serialize_of_segwit hform, at_append, at_append, tx.length_version] at hat'
        have hsegwit := isSegwit_eq_true_iff.mpr hat'.2.1
        exact (reads_segwit hsegwit).mpr ⟨tx, ⟨hread, hform⟩, hat, rfl⟩

/-! ## What the walk keeps -/

/-- The block stripped so far: the parts, and the run up to the walk's position. -/
def kept (raw : Bytes) (w : Scan) : Bytes := w.parts.flatten ++ slice raw w.run w.i

theorem kept_next {w : Scan} {tx : RawTx} (hrun : w.run ≤ w.i) (h : At raw w.i tx.serialize) :
    (nextTransaction true raw w tx).run ≤ (nextTransaction true raw w tx).i ∧
      kept raw (nextTransaction true raw w tx) = kept raw w ++ tx.stripped := by
  unfold kept nextTransaction RawTx.stripped
  rw [Bool.and_true]
  cases hform : tx.segwit with
  | false =>
    rw [if_neg Bool.false_ne_true]
    refine ⟨by dsimp only; omega, ?_⟩
    dsimp only
    rw [← slice_append hrun (Nat.le_add_right _ _), slice_of_at h,
      RawTx.serialize_of_legacy hform]
    simp only [List.append_assoc]
  | true =>
    rw [if_pos rfl]
    have hlength : w.i + tx.serialize.length = w.i + 4 + 2 + tx.body.length +
        (tx.witnesses.flatMap serializeWitness).length + 4 := by
      rw [RawTx.serialize_of_segwit hform]
      simp only [List.length_append]
      rw [tx.length_version, tx.length_lockTime]
      change _ + (4 + (2 + _)) = _
      omega
    rw [RawTx.serialize_of_segwit hform, at_append, at_append, at_append, at_append,
      tx.length_version] at h
    obtain ⟨hversion, -, -, -, hlock⟩ := h
    have hversion' := slice_of_at hversion
    have hlock' := slice_of_at hlock
    rw [tx.length_version] at hversion'
    rw [tx.length_lockTime] at hlock'
    refine ⟨Nat.sub_le _ _, ?_⟩
    dsimp only [uint32Size]
    rw [hlength, Nat.add_sub_cancel]
    change _ ++ slice raw (w.i + 4 + segwitMarker.length + tx.body.length +
      (tx.witnesses.flatMap serializeWitness).length) (w.i + 4 + segwitMarker.length +
      tx.body.length + (tx.witnesses.flatMap serializeWitness).length + 4) = _
    rw [hlock', ← slice_append hrun (Nat.le_add_right _ _), hversion']
    simp only [List.flatten_append, List.flatten_cons, List.flatten_nil, List.append_nil,
      List.append_assoc]

theorem kept_foldl {txs : List RawTx} {w : Scan} (hrun : w.run ≤ w.i)
    (h : At raw w.i (txs.flatMap RawTx.serialize)) :
    kept raw (txs.foldl (nextTransaction true raw) w) =
      kept raw w ++ txs.flatMap RawTx.stripped := by
  induction txs generalizing w with
  | nil =>
    rw [List.foldl_nil, List.flatMap_nil, List.append_nil]
  | cons tx txs ih =>
    rw [List.flatMap_cons, at_append] at h
    obtain ⟨hle, hkept⟩ := kept_next hrun h.1
    rw [← nextTransaction_i true raw w tx] at h
    rw [List.foldl_cons, List.flatMap_cons, ih hle h.2, hkept, List.append_assoc]

/-! ## Blocks -/

/-- The variables of the loop before the first transaction. -/
def Scan.start (transactions : ℕ) : Scan :=
  ⟨headerSize + (CompactSize.encode transactions).length, 0, []⟩

theorem scanBlock_iff (strip : Bool) {w : Scan} (hsize : headerSize ≤ raw.length) :
    scanBlock lim strip raw = .ok w ∧ w.i = raw.length ↔
      ∃ block : SerializedBlock lim, (∀ tx ∈ block.transactions, tx.Readable lim) ∧
        raw = block.serialize ∧
        w = block.transactions.foldl (nextTransaction strip raw)
          (Scan.start block.transactions.length) := by
  unfold scanBlock
  rw [bind_eq_ok_iff, Prod.exists]
  constructor
  · rintro ⟨⟨n, k, hcount, hwalk⟩, hend⟩
    obtain ⟨hle, hat, rfl⟩ :=
      (count_eq_ok_iff lim.octet_le_transactions lim.transactions_lt).mp hcount
    obtain ⟨txs, rfl, hread, hats, rfl⟩ :=
      ((reads_transaction lim strip raw).walk_iff hat.le_length).mp ⟨hwalk, hend.le⟩
    have hheader : (slice raw 0 headerSize).length = headerSize :=
      length_slice (Nat.zero_le _) hsize
    have hwhole : At raw 0 (slice raw 0 headerSize ++ (CompactSize.encode txs.length ++
        txs.flatMap RawTx.serialize)) := by
      rw [at_append, hheader, Nat.zero_add, at_append]
      exact ⟨at_slice (Nat.zero_le _) hsize, hat, hats⟩
    refine ⟨⟨slice raw 0 headerSize, txs, hheader, hle⟩, hread, ?_, rfl⟩
    refine hwhole.eq_all ?_
    rw [← hend, (reads_transaction lim strip raw).pos_foldl]
    simp only [List.length_append, hheader]
    omega
  · rintro ⟨block, hread, heq, rfl⟩
    have hat := at_self raw
    nth_rewrite 2 [heq] at hat
    unfold SerializedBlock.serialize at hat
    rw [at_append, block.length_header, Nat.zero_add, at_append] at hat
    obtain ⟨-, hcount, hats⟩ := hat
    obtain ⟨hwalk, -⟩ := ((reads_transaction lim strip raw).walk_iff
      (w := Scan.start block.transactions.length) hcount.le_length).mpr
        ⟨block.transactions, rfl, hread, hats, rfl⟩
    refine ⟨⟨_, _, (count_eq_ok_iff lim.octet_le_transactions lim.transactions_lt).mpr
      ⟨block.length_transactions, hcount, rfl⟩, hwalk⟩, ?_⟩
    have hlength := congrArg List.length heq
    rw [(reads_transaction lim strip raw).pos_foldl, hlength]
    unfold SerializedBlock.serialize Scan.start
    simp only [List.length_append, block.length_header, headerSize]
    omega

theorem SerializedBlock.le_length (block : SerializedBlock lim) :
    headerSize ≤ block.serialize.length := by
  unfold SerializedBlock.serialize headerSize
  rw [List.length_append, block.length_header]
  omega

theorem scan_eq_ok_iff {strip : Bool} {out : Bytes} :
    scan lim strip raw = .ok out ↔
      headerSize ≤ raw.length ∧ ∃ w, (scanBlock lim strip raw = .ok w ∧ w.i = raw.length) ∧
        out = if strip then (w.parts ++ [raw.drop w.run]).flatten else raw := by
  unfold scan
  dsimp only
  by_cases hsize : raw.length < headerSize
  · rw [if_pos hsize]
    simp only [reduceCtorEq, false_iff, not_and]
    omega
  · rw [if_neg hsize]
    cases hscan : scanBlock lim strip raw with
    | error e => cases e <;> simp
    | ok w =>
      by_cases hend : w.i = raw.length
      · cases strip <;> simp [hend, eq_comm, Nat.not_lt.mp hsize]
      · simp [hend]

/-- The parts and the last run are the block without its witnesses. -/
theorem flatten_parts {block : SerializedBlock lim} {w : Scan} (heq : raw = block.serialize)
    (hw : w = block.transactions.foldl (nextTransaction true raw)
      (Scan.start block.transactions.length)) (hend : w.i = raw.length) :
    (w.parts ++ [raw.drop w.run]).flatten = block.stripped := by
  have hat := at_self raw
  nth_rewrite 2 [heq] at hat
  unfold SerializedBlock.serialize at hat
  rw [← List.append_assoc, at_append] at hat
  obtain ⟨hbegin, hats⟩ := hat
  have hstart : kept raw (Scan.start block.transactions.length) =
      block.header ++ CompactSize.encode block.transactions.length := by
    have hslice := slice_of_at hbegin
    rw [Nat.zero_add, List.length_append, block.length_header] at hslice
    exact hslice
  rw [Nat.zero_add, List.length_append, block.length_header] at hats
  have hkept := kept_foldl (w := Scan.start block.transactions.length) (Nat.zero_le _) hats
  rw [← hw, hstart, kept, hend, slice_to_end] at hkept
  rw [List.flatten_append, List.flatten_cons, List.flatten_nil, List.append_nil, hkept]
  exact List.append_assoc _ _ _

theorem scan_eq_ok_iff_block {strip : Bool} {out : Bytes} :
    scan lim strip raw = .ok out ↔
      ∃ block : SerializedBlock lim, (∀ tx ∈ block.transactions, tx.Readable lim) ∧
        raw = block.serialize ∧ out = if strip then block.stripped else raw := by
  rw [scan_eq_ok_iff]
  constructor
  · rintro ⟨hsize, w, hscan, hout⟩
    obtain ⟨block, hread, heq, hw⟩ := (scanBlock_iff strip hsize).mp hscan
    refine ⟨block, hread, heq, ?_⟩
    cases strip with
    | false => exact hout
    | true =>
      rw [if_pos rfl, flatten_parts heq hw hscan.2] at hout
      exact hout
  · rintro ⟨block, hread, heq, hout⟩
    have hsize := block.le_length
    rw [← heq] at hsize
    have hscan := (scanBlock_iff strip hsize).mpr ⟨block, hread, heq, rfl⟩
    refine ⟨hsize, _, hscan, ?_⟩
    cases strip with
    | false => exact hout
    | true =>
      rw [if_pos rfl, flatten_parts heq rfl hscan.2]
      exact hout

/-! ## What the walk raises -/

/-- The walk does not look a first octet up that its table lacks. -/
def NoKeyError {α : Type} (x : Except WalkError α) : Prop := x ≠ .error .keyError

theorem noKeyError_ok {α : Type} (a : α) : NoKeyError (.ok a) := fun h => by cases h

theorem noKeyError_refusal {α : Type} (message : String) :
    NoKeyError (.error (.btclibValueError message) : Except WalkError α) := fun h => by cases h

theorem NoKeyError.bind {α β : Type} {x : Except WalkError α} {f : α → Except WalkError β}
    (hx : NoKeyError x) (hf : ∀ a, NoKeyError (f a)) : NoKeyError (x >>= f) := by
  cases x with
  | error e => exact fun h => hx (congrArg Except.error (Except.error.inj h))
  | ok a => exact hf a

theorem noKeyError_walk {σ : Type} {step : σ → Except WalkError σ}
    (h : ∀ w, NoKeyError (step w)) (n : ℕ) (w : σ) : NoKeyError (walk step n w) := by
  induction n generalizing w with
  | zero => exact noKeyError_ok w
  | succ n ih => exact (h w).bind ih

theorem noKeyError_count (raw : Bytes) (i limit : ℕ) : NoKeyError (count raw i limit) := by
  unfold count wide octetAt
  cases raw[i]? with
  | none => exact fun h => by cases h
  | some first =>
    simp only [ok_bind]
    split
    · exact noKeyError_ok _
    · next hwide =>
      -- the table has what is not a single octet
      obtain ⟨⟨size, least⟩, hsome⟩ := Option.ne_none_iff_exists'.mp
        (mt CompactSize.wide_eq_none_iff.mp hwide)
      rw [hsome]
      dsimp only
      split
      · exact noKeyError_refusal _
      · split
        · exact noKeyError_refusal _
        · split
          · exact noKeyError_refusal _
          · exact noKeyError_ok _

theorem noKeyError_skip (limit before behind : ℕ) (raw : Bytes) (i : ℕ) :
    NoKeyError (skip limit before behind raw i) :=
  (noKeyError_count raw _ limit).bind fun _ => noKeyError_ok _

theorem noKeyError_skipWitness (lim : BlockLimits) (raw : Bytes) (w : ℕ × Bool) :
    NoKeyError (skipWitness lim raw w) :=
  (noKeyError_count raw _ _).bind fun _ =>
    (noKeyError_walk (noKeyError_skip _ _ _ raw) _ _).bind fun _ => noKeyError_ok _

theorem noKeyError_isSegwit (raw : Bytes) (i : ℕ) : NoKeyError (isSegwit raw i) := by
  unfold isSegwit
  dsimp only
  split
  · exact noKeyError_refusal _
  · exact noKeyError_ok _

theorem noKeyError_scanTransaction (lim : BlockLimits) (strip : Bool) (raw : Bytes) (w : Scan) :
    NoKeyError (scanTransaction lim strip raw w) := by
  have hskip := noKeyError_skip lim.maxSize
  unfold scanTransaction
  refine (noKeyError_isSegwit raw _).bind fun segwit => ?_
  refine (noKeyError_count raw _ _).bind fun inputs => ?_
  refine (noKeyError_walk (hskip _ _ raw) _ _).bind fun i => ?_
  refine (noKeyError_count raw _ _).bind fun outputs => ?_
  refine (noKeyError_walk (hskip _ _ raw) _ _).bind fun j => ?_
  cases segwit with
  | false => exact noKeyError_ok _
  | true =>
    refine (noKeyError_walk (noKeyError_skipWitness lim raw) _ _).bind
      fun (k, carried) => ?_
    cases carried with
    | false => exact noKeyError_refusal _
    | true =>
      cases strip with
      | false => exact noKeyError_ok _
      | true => exact noKeyError_ok _

/-- Whatever the octets, the walk raises `BTClibValueError` and nothing else. -/
theorem exists_message_of_scan {strip : Bool} {e : WalkError}
    (h : scan lim strip raw = .error e) : ∃ message, e = .btclibValueError message := by
  unfold scan at h
  dsimp only at h
  split at h
  · exact ⟨_, (Except.error.inj h).symm⟩
  · have hkey : NoKeyError (scanBlock lim strip raw) :=
      (noKeyError_count raw _ _).bind fun _ =>
        noKeyError_walk (noKeyError_scanTransaction lim strip raw) _ _
    cases hscan : scanBlock lim strip raw with
    | error e' =>
      rw [hscan] at h hkey
      cases e' with
      | indexError => exact ⟨_, (Except.error.inj h).symm⟩
      | keyError => exact absurd rfl hkey
      | btclibValueError message => exact ⟨message, (Except.error.inj h).symm⟩
    | ok w =>
      rw [hscan] at h
      dsimp only at h
      split at h
      · exact ⟨_, (Except.error.inj h).symm⟩
      · split at h <;> cases h

/-- **The walk accepts the blocks, and strips their witnesses.** -/
theorem walk_accepts_blocks (lim : BlockLimits) (raw : Bytes) :
    (assertWellFormed lim raw = .ok () ↔
      ∃ block : SerializedBlock lim, (∀ tx ∈ block.transactions, tx.Readable lim) ∧
        raw = block.serialize) ∧
    (∀ e, assertWellFormed lim raw = .error e → ∃ message, e = .btclibValueError message) ∧
    ∀ block : SerializedBlock lim, (∀ tx ∈ block.transactions, tx.Readable lim) →
      raw = block.serialize → stripWitnesses lim raw = .ok block.stripped := by
  refine ⟨?_, ?_, ?_⟩
  · unfold assertWellFormed
    constructor
    · intro h
      cases hscan : scan lim false raw with
      | error e =>
        rw [hscan] at h
        cases h
      | ok out =>
        obtain ⟨block, hread, heq, -⟩ := scan_eq_ok_iff_block.mp hscan
        exact ⟨block, hread, heq⟩
    · rintro ⟨block, hread, heq⟩
      rw [scan_eq_ok_iff_block.mpr ⟨block, hread, heq, rfl⟩]
      rfl
  · intro e h
    unfold assertWellFormed at h
    cases hscan : scan lim false raw with
    | error e' =>
      rw [hscan] at h
      cases h
      exact exists_message_of_scan hscan
    | ok out =>
      rw [hscan] at h
      cases h
  · intro block hread heq
    exact scan_eq_ok_iff_block.mpr ⟨block, hread, heq, rfl⟩

/-- Limits of the size of the network's. -/
def sampleLimits : BlockLimits where
  maxBlockWeight := 4000000
  minSerializableTransactionWeight := 40
  maxWitnessStackItems := 4000000
  maxSize := 0x02000000
  octet_le_transactions := by decide
  octet_le_items := by decide
  octet_le_size := by decide
  transactions_lt := by decide
  items_lt := by decide
  size_lt := by decide

/-- A block of a transaction that has an output and no input. -/
def outputOnly : SerializedBlock sampleLimits where
  header := List.replicate 80 0
  transactions := [⟨[1, 0, 0, 0], [], [⟨List.replicate 8 0, [], rfl⟩], [], [0, 0, 0, 0], rfl, rfl,
    rfl⟩]
  length_header := rfl
  length_transactions := by decide

/-- Its counts, of no input and of one output, stand where a marker and a flag do. -/
theorem outputOnly_refused :
    ¬(assertWellFormed sampleLimits outputOnly.serialize = .ok () ↔
      ∃ block : SerializedBlock sampleLimits,
        (∀ tx ∈ block.transactions, tx.Bounded sampleLimits) ∧
        outputOnly.serialize = block.serialize) := by
  have hrefused : assertWellFormed sampleLimits outputOnly.serialize =
      .error (.btclibValueError "superfluous witness record") := by
    rfl
  rw [hrefused]
  intro h
  refine absurd (h.mpr ⟨outputOnly, ?_, rfl⟩) (by simp)
  intro tx htx
  cases List.mem_singleton.mp htx
  refine ⟨⟨by decide, by simp, by decide, ?_⟩, by simp⟩
  simp [sampleLimits]

end BtclibNode.RawBlock
