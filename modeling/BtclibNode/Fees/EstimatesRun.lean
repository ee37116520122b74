/-
# The file over restarts

Calls and accepted files keep a state that `write` can write; what it writes reads back into a
fresh estimator, which writes the same until it sees another block.
-/
import BtclibNode.Fees.EstimatesRoundTrip
import BtclibNode.Fees.EstimatesFile
import BtclibNode.Lib.CompactSize

namespace BtclibNode.FeeEstimator

open Tabulate

variable {A : Arithmetic} {V : VarInt} {e e' : FeeEstimator} {b : Buckets} {s s' : TxConfirmStats}

/-! ## Writable states -/

/-- What a reader accepts of an estimator. -/
structure Writable (e : FeeEstimator) : Prop where
  bounds : 1 < e.buckets.bounds.length ∧ e.buckets.bounds.length ≤ 1000
  fee : Storable e.buckets e.feeStats
  short : Storable e.buckets e.shortStats
  long : Storable e.buckets e.longStats
  historical : e.historicalFirst ≤ e.historicalBest ∧ e.historicalBest ≤ e.bestSeenHeight
  height : e.bestSeenHeight < 2 ^ 32

theorem Storable.of_shape (hs : ∀ L, Shape b L s → Shape b L s') (h : Storable b s) :
    Storable b s' := by
  obtain ⟨L, hL, hbound⟩ := h.confirms
  exact ⟨⟨L, hs L hL, hbound⟩, h.bounds⟩

theorem writable_fresh (A : Arithmetic) : Writable (fresh A) := by
  have hlen : (defaultBuckets A).bounds.length = A.turns + 1 := by
    change (((List.range A.turns).map _) ++ [infFeerate]).length = _
    rw [List.length_append, List.length_map, List.length_range]
    rfl
  have hpos := A.turns_pos
  have hlt := A.turns_lt
  have hstats : ∀ (periods scale : ℕ) (decay : Double),
      0 < scale * periods ∧ scale * periods ≤ 6 * 24 * 7 → IsDecay decay →
      Storable (defaultBuckets A) (TxConfirmStats.new (defaultBuckets A) periods decay scale) :=
    fun periods scale decay hbound hdecay =>
      ⟨⟨scale * periods, shape_new hdecay, hbound⟩, by omega⟩
  refine ⟨?_, ?_, ?_, ?_, ⟨le_rfl, le_rfl⟩, (by decide : 0 < 2 ^ 32)⟩
  · change 1 < (defaultBuckets A).bounds.length ∧ (defaultBuckets A).bounds.length ≤ 1000
    omega
  · exact hstats _ _ _ (by decide) ⟨by decide, by decide⟩
  · exact hstats _ _ _ (by decide) ⟨by decide, by decide⟩
  · exact hstats _ _ _ (by decide) ⟨by decide, by decide⟩

/-! ## Writing and reading -/

theorem historicalBlockSpan_nonneg (h : Writable e) : 0 ≤ e.historicalBlockSpan := by
  have hle := h.historical.1
  rw [historicalBlockSpan]
  split_ifs <;> omega

/-- The range written is one the reader accepts. -/
theorem writtenRange_le (h : Writable e) :
    e.writtenRange.1 ≤ e.writtenRange.2 ∧ e.writtenRange.2 ≤ e.bestSeenHeight := by
  have hspan := historicalBlockSpan_nonneg h
  rw [writtenRange]
  by_cases hnew : e.historicalBlockSpan / 2 < e.blockSpan
  · rw [if_pos hnew]
    rw [blockSpan] at hnew
    split_ifs at hnew
    · omega
    · exact ⟨by dsimp only; omega, le_rfl⟩
  · rw [if_neg hnew]
    exact h.historical

/-- What reading the file of `e` makes of `f`. -/
def loaded (A : Arithmetic) (e f : FeeEstimator) : FeeEstimator :=
  let buckets := Buckets.new A e.buckets.bounds
  { f with
    buckets := buckets
    feeStats := restored buckets e.feeStats
    shortStats := restored buckets e.shortStats
    longStats := restored buckets e.longStats
    bestSeenHeight := e.bestSeenHeight
    historicalFirst := e.writtenRange.1
    historicalBest := e.writtenRange.2 }

/-- **What `write` writes reads back.** -/
theorem read_write (h : Writable e) : ∃ data, e.write V = some data ∧
    ∀ f, read A V f data = .ok (true, loaded A e f) := by
  obtain ⟨hrange, hbest⟩ := writtenRange_le h
  have hheight := h.height
  obtain ⟨feeData, hfee, hfeeRead⟩ := stats_append (V := V) h.fee
  obtain ⟨shortData, hshort, hshortRead⟩ := stats_append (V := V) h.short
  obtain ⟨longData, hlong, hlongRead⟩ := stats_append (V := V) h.long
  have hbounds : e.buckets.bounds.length < 2 ^ 64 := by
    have hle := h.bounds.2
    omega
  have hfirstLt : e.writtenRange.1 < 2 ^ 32 := by omega
  have hbestLt : e.writtenRange.2 < 2 ^ 32 := by omega
  refine ⟨LittleEndian.encode 4 fileVersion ++ (LittleEndian.encode 4 e.bestSeenHeight ++
    (LittleEndian.encode 4 e.writtenRange.1 ++ (LittleEndian.encode 4 e.writtenRange.2 ++
      (doublesOctets V e.buckets.bounds ++ (feeData ++ (shortData ++ longData)))))), ?_,
    fun f => ?_⟩
  · rw [write]
    dsimp only
    rw [packU32, if_pos hheight, packU32, if_pos hfirstLt, packU32, if_pos hbestLt, hfee, hshort,
      hlong]
    rfl
  · have hversion : ¬ ((fileVersion : ℤ) < (fileVersion : ℤ)) := lt_irrefl _
    have hordered : ¬ (e.writtenRange.2 < e.writtenRange.1 ∨
        e.bestSeenHeight < e.writtenRange.2) := by omega
    have hend : longData = longData ++ [] := (List.append_nil _).symm
    rw [hend, read]
    have hfile : readFile A V f (LittleEndian.encode 4 fileVersion ++
        (LittleEndian.encode 4 e.bestSeenHeight ++ (LittleEndian.encode 4 e.writtenRange.1 ++
          (LittleEndian.encode 4 e.writtenRange.2 ++ (doublesOctets V e.buckets.bounds ++
            (feeData ++ (shortData ++ (longData ++ [])))))))) = .ok (loaded A e f) := by
      simp only [readFile, i32_version, ok_bind, check_pos hversion, u32_encode hheight,
        u32_encode hfirstLt, u32_encode hbestLt, check_pos hordered, doubles_append hbounds,
        check_pos h.bounds, hfeeRead (Buckets.new A e.buckets.bounds) rfl,
        hshortRead (Buckets.new A e.buckets.bounds) rfl,
        hlongRead (Buckets.new A e.buckets.bounds) rfl]
      rfl
    rw [hfile]

/-! ## Calls and files -/

theorem bind_eq_ok {α β : Type} {x : Except Exn α} {f : α → Except Exn β} {y : β} :
    (x >>= f) = .ok y ↔ ∃ a, x = .ok a ∧ f a = .ok y := by
  cases x with
  | ok a => simp [ok_bind]
  | error error => exact ⟨nofun, nofun⟩

theorem of_check {ok : Bool} {message : String} {u : Unit} (h : check ok message = .ok u) :
    ok = true := by
  rw [check] at h
  split_ifs at h with hok
  exact hok

theorem lt_of_u32 {stream rest : Bytes} {n : ℕ} (h : Reader.u32 stream = .ok (n, rest)) :
    n < 2 ^ 32 := by
  obtain ⟨⟨octets, left⟩, hread, h⟩ := bind_eq_ok.mp h
  cases h
  rw [Reader.read] at hread
  split_ifs at hread with hlen
  cases hread
  rw [not_not] at hlen
  calc _ < 256 ^ (stream.take 4).length := LittleEndian.decode_lt _
    _ = 2 ^ 32 := by rw [hlen]; decide

/-- What the checks of the reader leave of a horizon. -/
theorem storable_of_read {stream rest : Bytes} (hb : b.bounds.length ≤ 1000)
    (h : TxConfirmStats.read V b stream = .ok (s, rest)) : Storable b s := by
  obtain ⟨⟨decay, stream⟩, -, h⟩ := bind_eq_ok.mp h
  obtain ⟨_, hdecay, h⟩ := bind_eq_ok.mp h
  obtain ⟨⟨scale, stream⟩, -, h⟩ := bind_eq_ok.mp h
  obtain ⟨-, -, h⟩ := bind_eq_ok.mp h
  obtain ⟨⟨feerateAvg, stream⟩, -, h⟩ := bind_eq_ok.mp h
  obtain ⟨_, hfee, h⟩ := bind_eq_ok.mp h
  obtain ⟨⟨txCtAvg, stream⟩, -, h⟩ := bind_eq_ok.mp h
  obtain ⟨_, htx, h⟩ := bind_eq_ok.mp h
  obtain ⟨⟨confAvg, stream⟩, -, h⟩ := bind_eq_ok.mp h
  obtain ⟨_, hconfirms, h⟩ := bind_eq_ok.mp h
  obtain ⟨_, hconf, h⟩ := bind_eq_ok.mp h
  obtain ⟨⟨failAvg, stream⟩, -, h⟩ := bind_eq_ok.mp h
  obtain ⟨_, hlen, h⟩ := bind_eq_ok.mp h
  obtain ⟨_, hfail, h⟩ := bind_eq_ok.mp h
  cases h
  have hrows : ∀ {rows : List (List Double)},
      (rows.all fun row => row.length = b.bounds.length) = true → Rows b.bounds.length rows :=
    fun hall row hrow => of_decide_eq_true (List.all_eq_true.mp hall row hrow)
  have hdecay : 0 < decay.bits ∧ decay.bits < Double.one.bits :=
    of_decide_eq_true (of_check hdecay)
  exact ⟨⟨scale * confAvg.length, ⟨rfl, hdecay, rfl,
    hrows (of_check hconf), hrows (of_check hfail), of_decide_eq_true (of_check hlen),
    of_decide_eq_true (of_check htx), of_decide_eq_true (of_check hfee)⟩,
    of_decide_eq_true (of_check hconfirms)⟩, hb⟩

/-- An accepted file leaves a state that can be written. -/
theorem writable_of_readFile {data : Bytes} (h : readFile A V e data = .ok e') : Writable e' := by
  obtain ⟨⟨version, stream⟩, -, h⟩ := bind_eq_ok.mp h
  obtain ⟨-, -, h⟩ := bind_eq_ok.mp h
  obtain ⟨-, -, h⟩ := bind_eq_ok.mp h
  obtain ⟨⟨bestSeen, stream⟩, hbestSeen, h⟩ := bind_eq_ok.mp h
  obtain ⟨⟨first, stream⟩, -, h⟩ := bind_eq_ok.mp h
  obtain ⟨⟨best, stream⟩, -, h⟩ := bind_eq_ok.mp h
  obtain ⟨_, hrange, h⟩ := bind_eq_ok.mp h
  obtain ⟨⟨bounds, stream⟩, -, h⟩ := bind_eq_ok.mp h
  obtain ⟨_, hbounds, h⟩ := bind_eq_ok.mp h
  obtain ⟨⟨feeStats, stream⟩, hfee, h⟩ := bind_eq_ok.mp h
  obtain ⟨⟨shortStats, stream⟩, hshort, h⟩ := bind_eq_ok.mp h
  obtain ⟨⟨longStats, stream⟩, hlong, h⟩ := bind_eq_ok.mp h
  cases h
  have hbounds : 1 < bounds.length ∧ bounds.length ≤ 1000 := of_decide_eq_true (of_check hbounds)
  have hrange : ¬ (best < first ∨ bestSeen < best) := of_decide_eq_true (of_check hrange)
  exact ⟨hbounds, storable_of_read hbounds.2 hfee, storable_of_read hbounds.2 hshort,
    storable_of_read hbounds.2 hlong, by dsimp only; omega, lt_of_u32 hbestSeen⟩

/-- A change of every horizon that keeps the shapes. -/
theorem Writable.forAllStats (h : Writable e) {f : TxConfirmStats → Option TxConfirmStats}
    (hf : ∀ L s s', f s = some s' → Shape e.buckets L s → Shape e.buckets L s')
    (he : e.forAllStats f = some e') : Writable e' ∧ e'.bestSeenHeight = e.bestSeenHeight := by
  obtain ⟨fee, hfee, he⟩ := Option.bind_eq_some_iff.mp he
  obtain ⟨short, hshort, he⟩ := Option.bind_eq_some_iff.mp he
  obtain ⟨long, hlong, he⟩ := Option.bind_eq_some_iff.mp he
  cases he
  exact ⟨⟨h.bounds, h.fee.of_shape fun L => hf L _ _ hfee,
    h.short.of_shape fun L => hf L _ _ hshort, h.long.of_shape fun L => hf L _ _ hlong,
    h.historical, h.height⟩, rfl⟩

theorem Writable.processTransaction (h : Writable e) {tx : AcceptedTx}
    (he : e.processTransaction A tx = some e') : Writable e' := by
  rw [FeeEstimator.processTransaction] at he
  split_ifs at he
  · cases he
    exact h
  · cases he
    exact h
  · cases he
    exact ⟨h.bounds, h.fee, h.short, h.long, h.historical, h.height⟩
  · obtain ⟨⟨fee, i⟩, hfee, he⟩ := Option.bind_eq_some_iff.mp he
    obtain ⟨⟨short, j⟩, hshort, he⟩ := Option.bind_eq_some_iff.mp he
    obtain ⟨⟨long, k⟩, hlong, he⟩ := Option.bind_eq_some_iff.mp he
    cases he
    exact ⟨h.bounds, h.fee.of_shape fun L hs => hs.newTx hfee,
      h.short.of_shape fun L hs => hs.newTx hshort, h.long.of_shape fun L hs => hs.newTx hlong,
      h.historical, h.height⟩

theorem Writable.removeTx (h : Writable e) {txid : Bytes} {inBlock found : Bool}
    (he : e.removeTx A txid inBlock = some (e', found)) : Writable e' := by
  rw [FeeEstimator.removeTx] at he
  split at he
  · cases he
    exact h
  · obtain ⟨e₁, hall, he⟩ := Option.bind_eq_some_iff.mp he
    cases he
    have herased : Writable { e with
        mempoolTxs := e.mempoolTxs.eraseP fun p => p.1 = txid } :=
      ⟨h.bounds, h.fee, h.short, h.long, h.historical, h.height⟩
    exact (herased.forAllStats (fun L s s' hs' hs => hs.removeTx hs') hall).1

theorem Writable.processBlockTxs (h : Writable e) {height counted : ℕ} {txs : List RemovedTx}
    (he : processBlockTxs A height e txs = some (e', counted)) : Writable e' := by
  induction txs generalizing e counted with
  | nil =>
    cases he
    exact h
  | cons tx txs ih =>
    obtain ⟨⟨e₁, counts⟩, htx, he⟩ := Option.bind_eq_some_iff.mp he
    obtain ⟨⟨e₂, rest⟩, htxs, he⟩ := Option.bind_eq_some_iff.mp he
    cases he
    refine ih ?_ htxs
    obtain ⟨⟨e₃, found⟩, hremove, htx⟩ := Option.bind_eq_some_iff.mp htx
    have h₃ := h.removeTx hremove
    dsimp only at htx
    split_ifs at htx
    · cases htx
      exact h₃
    · obtain ⟨e₄, hall, htx⟩ := Option.bind_eq_some_iff.mp htx
      cases htx
      exact (h₃.forAllStats (fun L s s' hs' hs => hs.record hs') hall).1
    · cases htx
      exact h₃

theorem Writable.processBlock (h : Writable e) {removed : List RemovedTx} {height : ℕ}
    (hheight : height < 2 ^ 32) (he : e.processBlock A removed height = some e') :
    Writable e' := by
  rw [FeeEstimator.processBlock] at he
  split_ifs at he with hlow
  · cases he
    exact h
  · obtain ⟨e₁, hclear, he⟩ := Option.bind_eq_some_iff.mp he
    obtain ⟨e₂, hdecay, he⟩ := Option.bind_eq_some_iff.mp he
    obtain ⟨⟨e₃, counted⟩, htxs, he⟩ := Option.bind_eq_some_iff.mp he
    cases he
    have hbest := h.historical
    have hseen : Writable { e with bestSeenHeight := height } :=
      ⟨h.bounds, h.fee, h.short, h.long, ⟨hbest.1, by dsimp only; omega⟩, hheight⟩
    obtain ⟨h₁, -⟩ := hseen.forAllStats (fun L s s' hs' hs => hs.clearCurrent hs') hclear
    obtain ⟨h₂, -⟩ := h₁.forAllStats (fun L s s' hs' hs => by
      cases hs'
      exact hs.updateMovingAverages) hdecay
    have h₃ := h₂.processBlockTxs htxs
    exact ⟨h₃.bounds, h₃.fee, h₃.short, h₃.long, h₃.historical, h₃.height⟩

/-- A call, or a file read. -/
inductive Event where
  | made (call : Call)
  | loaded (data : Bytes)

def Event.step (A : Arithmetic) (V : VarInt) (e : FeeEstimator) : Event → Option FeeEstimator
  | .made call => FeeEstimator.step A e call
  | .loaded data =>
    match FeeEstimator.read A V e data with
    | .ok (_, e) => some e
    | .error _ => none

/-- The height of a block, which the file has 32 bits for. -/
def Event.Fits : Event → Prop
  | .made (.processBlock _ height) => height < 2 ^ 32
  | _ => True

theorem Writable.step (h : Writable e) {event : Event} (hfits : event.Fits)
    (he : event.step A V e = some e') : Writable e' := by
  cases event with
  | made call =>
    cases call with
    | processTransaction tx => exact h.processTransaction he
    | removeTx txid inBlock =>
      obtain ⟨⟨e₁, found⟩, hremove, rfl⟩ := Option.map_eq_some_iff.mp he
      exact h.removeTx hremove
    | processBlock removed height => exact h.processBlock hfits he
  | loaded data =>
    rw [Event.step, FeeEstimator.read] at he
    cases hfile : readFile A V e data with
    | ok e₁ =>
      rw [hfile] at he
      cases he
      exact writable_of_readFile hfile
    | error error =>
      rw [hfile] at he
      cases error with
      | valueError message =>
        cases he
        exact h
      | other message => cases he

/-! ## Until the next block -/

/-- A horizon with the same averages. -/
structure SameAverages (s s' : TxConfirmStats) : Prop where
  decay : s'.decay = s.decay
  scale : s'.scale = s.scale
  confAvg : s'.confAvg = s.confAvg
  failAvg : s'.failAvg = s.failAvg
  txCtAvg : s'.txCtAvg = s.txCtAvg
  feerateAvg : s'.feerateAvg = s.feerateAvg

theorem SameAverages.refl (s : TxConfirmStats) : SameAverages s s := ⟨rfl, rfl, rfl, rfl, rfl, rfl⟩

theorem SameAverages.trans {t : TxConfirmStats} (h : SameAverages s s') (h' : SameAverages s' t) :
    SameAverages s t :=
  ⟨h'.decay.trans h.decay, h'.scale.trans h.scale, h'.confAvg.trans h.confAvg,
    h'.failAvg.trans h.failAvg, h'.txCtAvg.trans h.txCtAvg, h'.feerateAvg.trans h.feerateAvg⟩

theorem SameAverages.write (h : SameAverages s s') : s'.write V = s.write V := by
  rw [TxConfirmStats.write, TxConfirmStats.write, h.decay, h.scale, h.confAvg, h.failAvg,
    h.txCtAvg, h.feerateAvg]

theorem sameAverages_newTx {height bucket : ℕ} {x : Double}
    (h : s.newTx A height x = some (s', bucket)) : SameAverages s s' := by
  obtain ⟨i, -, h⟩ := Option.bind_eq_some_iff.mp h
  obtain ⟨row, -, h⟩ := Option.bind_eq_some_iff.mp h
  obtain ⟨row', -, h⟩ := Option.bind_eq_some_iff.mp h
  obtain ⟨unconfTxs, -, h⟩ := Option.bind_eq_some_iff.mp h
  cases h
  exact ⟨rfl, rfl, rfl, rfl, rfl, rfl⟩

theorem sameAverages_uncount {entry ago bucket : ℕ} (h : s.uncount entry ago bucket = some s') :
    SameAverages s s' := by
  rw [TxConfirmStats.uncount] at h
  split_ifs at h
  · obtain ⟨old, -, h⟩ := Option.bind_eq_some_iff.mp h
    cases h
    exact ⟨rfl, rfl, rfl, rfl, rfl, rfl⟩
  · obtain ⟨row, -, h⟩ := Option.bind_eq_some_iff.mp h
    obtain ⟨row', -, h⟩ := Option.bind_eq_some_iff.mp h
    obtain ⟨unconfTxs, -, h⟩ := Option.bind_eq_some_iff.mp h
    cases h
    exact ⟨rfl, rfl, rfl, rfl, rfl, rfl⟩

/-- A transaction that entered at the best height leaves no failure behind. -/
theorem sameAverages_removeTx {best bucket : ℕ} {inBlock : Bool} (hscale : 0 < s.scale)
    (h : s.removeTx A best best bucket inBlock = some s') : SameAverages s s' := by
  have hago : (if best = 0 then (0 : ℤ) else (best : ℤ) - best) = 0 := by
    split_ifs <;> omega
  rw [TxConfirmStats.removeTx, hago] at h
  obtain ⟨s₁, huncount, h⟩ := Option.bind_eq_some_iff.mp h
  have hsame := sameAverages_uncount huncount
  have hskip : ¬ (¬ inBlock = true ∧ s₁.scale ≤ 0) := by
    rw [hsame.scale]
    omega
  dsimp only [Int.toNat_zero] at h
  rw [if_neg hskip] at h
  cases h
  exact hsame

/-- An estimator that the file does not tell apart. -/
structure SameFile (e e' : FeeEstimator) : Prop where
  buckets : e'.buckets = e.buckets
  bestSeenHeight : e'.bestSeenHeight = e.bestSeenHeight
  firstRecordedHeight : e'.firstRecordedHeight = e.firstRecordedHeight
  historicalFirst : e'.historicalFirst = e.historicalFirst
  historicalBest : e'.historicalBest = e.historicalBest
  fee : SameAverages e.feeStats e'.feeStats
  short : SameAverages e.shortStats e'.shortStats
  long : SameAverages e.longStats e'.longStats

theorem SameFile.write (h : SameFile e e') : e'.write V = e.write V := by
  have hrange : e'.writtenRange = e.writtenRange := by
    rw [writtenRange, writtenRange, historicalBlockSpan, historicalBlockSpan, blockSpan, blockSpan,
      h.bestSeenHeight, h.firstRecordedHeight, h.historicalFirst, h.historicalBest]
  rw [FeeEstimator.write, FeeEstimator.write, hrange, h.bestSeenHeight, h.buckets, h.fee.write,
    h.short.write, h.long.write]

theorem SameFile.trans {e₁ e₂ e₃ : FeeEstimator} (h : SameFile e₁ e₂) (h' : SameFile e₂ e₃) :
    SameFile e₁ e₃ :=
  ⟨h'.buckets.trans h.buckets, h'.bestSeenHeight.trans h.bestSeenHeight,
    h'.firstRecordedHeight.trans h.firstRecordedHeight, h'.historicalFirst.trans h.historicalFirst,
    h'.historicalBest.trans h.historicalBest, h.fee.trans h'.fee, h.short.trans h'.short,
    h.long.trans h'.long⟩

/-- No block above a height. -/
def NoBlock (best : ℕ) : Call → Prop
  | .processBlock _ height => height ≤ best
  | _ => True

/-- What is tracked entered at the best height, and the scales are positive. -/
structure Quiet (e : FeeEstimator) : Prop where
  entries : ∀ p ∈ e.mempoolTxs, p.2.1 = e.bestSeenHeight
  scales : 0 < e.feeStats.scale ∧ 0 < e.shortStats.scale ∧ 0 < e.longStats.scale

/-- **Without a new block a call changes nothing that is written.** -/
theorem Quiet.step (h : Quiet e) {call : Call} (hcall : NoBlock e.bestSeenHeight call)
    (he : step A e call = some e') : SameFile e e' ∧ Quiet e' := by
  have hrefl : SameFile e e := ⟨rfl, rfl, rfl, rfl, rfl, .refl _, .refl _, .refl _⟩
  cases call with
  | processTransaction tx =>
    rw [FeeEstimator.step, FeeEstimator.processTransaction] at he
    split_ifs at he with hknown hheight hskip
    · cases he
      exact ⟨hrefl, h⟩
    · cases he
      exact ⟨hrefl, h⟩
    · cases he
      exact ⟨⟨rfl, rfl, rfl, rfl, rfl, .refl _, .refl _, .refl _⟩, h.entries, h.scales⟩
    · rw [not_not] at hheight
      obtain ⟨⟨fee, i⟩, hfee, he⟩ := Option.bind_eq_some_iff.mp he
      obtain ⟨⟨short, j⟩, hshort, he⟩ := Option.bind_eq_some_iff.mp he
      obtain ⟨⟨long, k⟩, hlong, he⟩ := Option.bind_eq_some_iff.mp he
      cases he
      have hsameFee := sameAverages_newTx hfee
      have hsameShort := sameAverages_newTx hshort
      have hsameLong := sameAverages_newTx hlong
      refine ⟨⟨rfl, rfl, rfl, rfl, rfl, hsameFee, hsameShort, hsameLong⟩, fun p hp => ?_, ?_⟩
      · rcases List.mem_append.mp hp with hp | hp
        · exact h.entries p hp
        · rw [List.mem_singleton.mp hp]
          exact hheight
      · change 0 < fee.scale ∧ 0 < short.scale ∧ 0 < long.scale
        rw [hsameFee.scale, hsameShort.scale, hsameLong.scale]
        exact h.scales
  | removeTx txid inBlock =>
    obtain ⟨⟨e₁, found⟩, hremove, rfl⟩ := Option.map_eq_some_iff.mp he
    rw [FeeEstimator.removeTx] at hremove
    split at hremove
    · cases hremove
      exact ⟨hrefl, h⟩
    · rename_i known height bucket hfind
      have hentry : height = e.bestSeenHeight := h.entries _ (List.mem_of_find?_eq_some hfind)
      obtain ⟨e₂, hall, hremove⟩ := Option.bind_eq_some_iff.mp hremove
      cases hremove
      rw [hentry] at hall
      obtain ⟨fee, hfee, hall⟩ := Option.bind_eq_some_iff.mp hall
      obtain ⟨short, hshort, hall⟩ := Option.bind_eq_some_iff.mp hall
      obtain ⟨long, hlong, hall⟩ := Option.bind_eq_some_iff.mp hall
      cases hall
      have hsameFee := sameAverages_removeTx h.scales.1 hfee
      have hsameShort := sameAverages_removeTx h.scales.2.1 hshort
      have hsameLong := sameAverages_removeTx h.scales.2.2 hlong
      refine ⟨⟨rfl, rfl, rfl, rfl, rfl, hsameFee, hsameShort, hsameLong⟩, fun p hp => ?_, ?_⟩
      · exact h.entries p (List.mem_of_mem_eraseP hp)
      · change 0 < fee.scale ∧ 0 < short.scale ∧ 0 < long.scale
        rw [hsameFee.scale, hsameShort.scale, hsameLong.scale]
        exact h.scales
  | processBlock removed height =>
    have hle : height ≤ e.bestSeenHeight := hcall
    rw [FeeEstimator.step, FeeEstimator.processBlock, if_pos hle] at he
    cases he
    exact ⟨hrefl, h⟩

theorem Quiet.exec (h : Quiet e) {calls : List Call}
    (hcalls : ∀ call ∈ calls, NoBlock e.bestSeenHeight call)
    (he : Run.exec (FeeEstimator.step A) e calls = some e') : SameFile e e' := by
  induction calls generalizing e with
  | nil =>
    cases he
    exact ⟨rfl, rfl, rfl, rfl, rfl, .refl _, .refl _, .refl _⟩
  | cons call calls ih =>
    obtain ⟨hcall, hcalls⟩ := List.forall_mem_cons.mp hcalls
    obtain ⟨e₁, hstep, he⟩ := Run.exec_cons.mp he
    obtain ⟨hsame, h₁⟩ := h.step hcall hstep
    refine hsame.trans (ih h₁ ?_ he)
    rw [hsame.bestSeenHeight]
    exact hcalls

/-- A file read back is written again as it was. -/
theorem write_loaded (h : Writable e) {data : Bytes} (hdata : e.write V = some data) :
    (loaded A e (fresh A)).write V = some data := by
  have hspan : 0 ≤ (loaded A e (fresh A)).historicalBlockSpan := by
    have hrange := writtenRange_le h
    rw [historicalBlockSpan]
    split_ifs
    · exact le_rfl
    · exact le_rfl
    · exact Int.sub_nonneg_of_le (Int.ofNat_le.mpr hrange.1)
  have hzero : (loaded A e (fresh A)).blockSpan = 0 := by
    rw [blockSpan]
    exact if_pos rfl
  have hrange : (loaded A e (fresh A)).writtenRange = e.writtenRange := by
    have hold : ¬ (loaded A e (fresh A)).historicalBlockSpan / 2 < 0 := by omega
    rw [writtenRange, hzero, if_neg hold]
    rfl
  rw [← hdata, FeeEstimator.write, hrange]
  rfl

theorem quiet_loaded (h : Writable e) : Quiet (loaded A e (fresh A)) :=
  ⟨nofun, h.fee.scale_le.1, h.short.scale_le.1, h.long.scale_le.1⟩

/-- The averages, the heights and the bounds that a file keeps. -/
structure Restored (e e' : FeeEstimator) : Prop where
  bounds : e'.buckets.bounds = e.buckets.bounds
  bestSeenHeight : e'.bestSeenHeight = e.bestSeenHeight
  historical : (e'.historicalFirst, e'.historicalBest) = e.writtenRange
  fee : SameAverages e.feeStats e'.feeStats
  short : SameAverages e.shortStats e'.shortStats
  long : SameAverages e.longStats e'.longStats

theorem restored_loaded (e : FeeEstimator) (f : FeeEstimator) : Restored e (loaded A e f) :=
  ⟨rfl, rfl, rfl, ⟨rfl, rfl, rfl, rfl, rfl, rfl⟩, ⟨rfl, rfl, rfl, rfl, rfl, rfl⟩,
    ⟨rfl, rfl, rfl, rfl, rfl, rfl⟩⟩

/-- The CompactSizes of the wire. -/
def compactSize : VarInt where
  parse stream :=
    match CompactSize.read? stream 0 with
    | some (n, rest) => .ok (n, stream.drop rest)
    | none => .error (.valueError "invalid var_int")
  serialize := CompactSize.encode
  parse_serialize n hn rest := by
    have hat : Octets.At (CompactSize.encode n ++ rest) 0 (CompactSize.encode n) :=
      (Octets.at_append.mp (Octets.at_self _)).1
    have hread : CompactSize.read? (CompactSize.encode n ++ rest) 0 =
        some (n, (CompactSize.encode n).length) :=
      CompactSize.read?_eq_some_iff.mpr ⟨hn, hat, (Nat.zero_add _).symm⟩
    rw [hread]
    exact congrArg (fun stream => Except.ok (n, stream)) List.drop_left

theorem bestSeenHeight_forAllStats {f : TxConfirmStats → Option TxConfirmStats}
    (h : e.forAllStats f = some e') : e'.bestSeenHeight = e.bestSeenHeight := by
  obtain ⟨fee, -, h⟩ := Option.bind_eq_some_iff.mp h
  obtain ⟨short, -, h⟩ := Option.bind_eq_some_iff.mp h
  obtain ⟨long, -, h⟩ := Option.bind_eq_some_iff.mp h
  cases h
  rfl

/-- The first block of a fresh estimator is seen. -/
theorem exists_firstBlock (A : Arithmetic) {height : ℕ} (hpos : 0 < height) :
    ∃ e, (fresh A).processBlock A [] height = some e ∧ e.bestSeenHeight = height := by
  have hempty : (fresh A).mempoolTxs ≠ [] → height ≤ (fresh A).bestSeenHeight + 1 :=
    fun hne => absurd rfl hne
  obtain ⟨e, hblock, -⟩ := (tracks_fresh A).processBlock [] hempty
  refine ⟨e, hblock, ?_⟩
  have hnew : ¬ height ≤ (fresh A).bestSeenHeight := Nat.not_le.mpr hpos
  rw [processBlock, if_neg hnew] at hblock
  obtain ⟨e₁, hclear, hblock⟩ := Option.bind_eq_some_iff.mp hblock
  obtain ⟨e₂, hdecay, hblock⟩ := Option.bind_eq_some_iff.mp hblock
  obtain ⟨⟨e₃, counted⟩, htxs, hblock⟩ := Option.bind_eq_some_iff.mp hblock
  cases htxs
  cases hblock
  exact (bestSeenHeight_forAllStats hdecay).trans (bestSeenHeight_forAllStats hclear)

end BtclibNode.FeeEstimator
