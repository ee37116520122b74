/-
# Runs of the UTXO index

Any interleaving of `add_block`, `apply_rev_block` of the newest block not yet
undone, `finalize`, `trial_mark` and `rollback` over one store, beside the same
calls on a plain map, for which `finalize` is nothing.  The two stay in step,
and so does the commitment where the chain has none of the blocks it exempts.
-/
import BtclibNode.Lib.Run
import BtclibNode.Chainstate.UtxoRefinement

namespace BtclibNode

open StateExcept Logged

variable {S : Type}

/-! ## The two machines -/

/-- A call.  `addBlock` is made with `check_bip30` on: the two blocks it is off
for repeat the coinbases of the two `bip30UnspendableOriginals`.  `rollback i`
goes to the `i`-th newest mark. -/
inductive UtxoCall where
  | addBlock (block : CheckedBlock) (height : ℕ)
  | applyRevBlock
  | finalize
  | trialMark
  | rollback (i : ℕ)

namespace UtxoCall

/-- Whether a call does anything to what is visible. -/
def notFinalize : UtxoCall → Bool
  | .finalize => false
  | _ => true

/-- A block the commitment exempts is connected by no call. -/
def Counted : UtxoCall → Prop
  | .addBlock block _ => ∀ height, isBip30Unspendable height block.header.hash = false
  | _ => True

end UtxoCall

/-- The store, the index over it, the patches of the blocks connected and not
yet undone, newest first, and each mark with the patches of its moment.  A
`finalize` ends the life of the marks before it. -/
structure UtxoRun (S : Type) where
  db : CoinTable
  storedStats : S
  index : UtxoIndex S
  connected : List RevBlock
  marks : List (ℕ × List RevBlock)

namespace UtxoRun

variable (C : CoinStats S)

/-- An index just loaded. -/
def start (db : CoinTable) (coinStats : S) : UtxoRun S :=
  ⟨db, coinStats, UtxoIndex.init coinStats, [], []⟩

/-- A call that returns. -/
def step (r : UtxoRun S) : UtxoCall → Option (UtxoRun S)
  | .addBlock block height =>
    match UtxoIndex.addBlock C r.db.read block.toBlock height true r.index with
    | .ok (_, rev) index => some { r with index, connected := rev :: r.connected }
    | .error _ _ => none
  | .applyRevBlock =>
    match r.connected with
    | [] => none
    | rev :: rest =>
      match UtxoIndex.applyRevBlock C r.db.read rev r.index with
      | .ok _ index => some { r with index, connected := rest }
      | .error _ _ => none
  | .finalize =>
    some { r with
      db := UtxoIndex.flushed r.db r.index
      storedStats := r.index.data.coinStats
      index := r.index.finalize
      marks := [] }
  | .trialMark => some { r with marks := (UtxoIndex.trialMark r.index, r.connected) :: r.marks }
  | .rollback i =>
    match r.marks[i]? with
    | none => none
    | some (mark, connected) =>
      some { r with index := r.index.rollback C mark, connected, marks := r.marks.drop i }

end UtxoRun

/-- The plain map with its value before each block connected and not yet undone. -/
structure PlainRun where
  map : UtxoSet
  history : List UtxoSet
  marks : List (UtxoSet × List UtxoSet)

namespace PlainRun

variable (C : CoinStats S)

def start (m : UtxoSet) : PlainRun := ⟨m, [], []⟩

def step (p : PlainRun) : UtxoCall → Option PlainRun
  | .addBlock block height =>
    some { p with map := p.map.connect C height block.toBlock, history := p.map :: p.history }
  | .applyRevBlock =>
    match p.history with
    | [] => none
    | m :: rest => some { p with map := m, history := rest }
  | .finalize => some p
  | .trialMark => some { p with marks := (p.map, p.history) :: p.marks }
  | .rollback i =>
    match p.marks[i]? with
    | none => none
    | some (map, history) => some { map, history, marks := p.marks.drop i }

end PlainRun

/-! ## The commitment of a block undone -/

/-- What undoing a block does to the commitment. -/
theorem RevBlock.Undoes.commitment_eq {C : CoinStats S} {rev : RevBlock}
    {created : List (OutPoint × Coin)} {m₀ m : UtxoSet} (h : rev.Undoes created m₀ m) :
    C.commitment m₀ = C.removeAll created (C.insertAll rev.toAdd (C.commitment m)) := by
  rw [← h.restores, h.toRemove_eq, C.commitment_spend h.created_nodup fun _ => h.getElem?_create,
    C.commitment_create h.toAdd_nodup h.toAdd_absent]

/-! ## The invariant -/

/-- The patches of the connected blocks take the map back through its history. -/
inductive Undoable (db : CoinTable) (counted : Prop) :
    List RevBlock → List UtxoSet → UtxoSet → Prop
  | nil (m : UtxoSet) : Undoable db counted [] [] m
  | cons {rev : RevBlock} {created : List (OutPoint × Coin)} {m₀ m : UtxoSet}
      {revs : List RevBlock} {history : List UtxoSet} (undoes : rev.Undoes created m₀ m)
      (readable : ∀ row ∈ rev.toAdd, db[row.1]? ≠ some .unreadable)
      (isCounted : counted → ∀ height, isBip30Unspendable height rev.hash = false)
      (rest : Undoable db counted revs history m₀) :
      Undoable db counted (rev :: revs) (m₀ :: history) m

/-- The index `s` over `db` stands for `m`, and commits to it on a chain that is
`counted` whole. -/
structure Tracks (C : CoinStats S) (db : CoinTable) (counted : Prop) (s : UtxoIndex S)
    (m : UtxoSet) (connected : List RevBlock) (history : List UtxoSet) : Prop where
  agrees : UtxoIndex.Agrees db s.data m
  undoable : Undoable db counted connected history m
  commits : counted → s.data.coinStats = C.commitment m

/-- Each mark was read in a state that the present one extends. -/
inductive TracksMarks (C : CoinStats S) (db : CoinTable) (counted : Prop) :
    UtxoIndex S → List (ℕ × List RevBlock) → List (UtxoSet × List UtxoSet) → Prop
  | nil (s : UtxoIndex S) (plainMarks : List (UtxoSet × List UtxoSet)) :
      TracksMarks C db counted s [] plainMarks
  | cons {s₀ s : UtxoIndex S} {m : UtxoSet} {connected : List RevBlock} {history : List UtxoSet}
      {marks : List (ℕ × List RevBlock)} {plainMarks : List (UtxoSet × List UtxoSet)}
      (tracks : Tracks C db counted s₀ m connected history)
      (extends_ : Extends (UtxoIndex.undo C) s₀ s)
      (rest : TracksMarks C db counted s₀ marks plainMarks) :
      TracksMarks C db counted s ((UtxoIndex.trialMark s₀, connected) :: marks) ((m, history) :: plainMarks)

/-- The run `r` of the index and the run `p` of the plain map are in step. -/
structure InStep (C : CoinStats S) (counted : Prop) (r : UtxoRun S) (p : PlainRun) : Prop where
  tracks : Tracks C r.db counted r.index p.map r.connected p.history
  tracksMarks : TracksMarks C r.db counted r.index r.marks p.marks
  stored : counted → r.storedStats = C.commitment r.db.coins

section InStep

variable {C : CoinStats S} {db : CoinTable} {counted : Prop} {s t : UtxoIndex S}
  {m : UtxoSet} {connected : List RevBlock} {history : List UtxoSet}
  {marks : List (ℕ × List RevBlock)} {plainMarks : List (UtxoSet × List UtxoSet)}
  {r r' : UtxoRun S} {p : PlainRun} {call : UtxoCall}

theorem TracksMarks.extend (h : TracksMarks C db counted s marks plainMarks)
    (hst : Extends (UtxoIndex.undo C) s t) : TracksMarks C db counted t marks plainMarks := by
  cases h with
  | nil => exact .nil t plainMarks
  | cons tracks hs rest => exact .cons tracks (hs.trans hst) rest

/-- The state a mark was read in, and the marks before it. -/
theorem TracksMarks.getElem? (h : TracksMarks C db counted s marks plainMarks) {i mark : ℕ}
    (hi : marks[i]? = some (mark, connected)) :
    ∃ s₀ m history, mark = UtxoIndex.trialMark s₀ ∧ plainMarks[i]? = some (m, history) ∧
      Extends (UtxoIndex.undo C) s₀ s ∧ Tracks C db counted s₀ m connected history ∧
      TracksMarks C db counted s₀ (marks.drop i) (plainMarks.drop i) := by
  induction h generalizing i with
  | nil => cases hi
  | @cons s₀ s m connected' history marks plainMarks tracks hs rest ih =>
    cases i with
    | zero =>
      rw [List.getElem?_cons_zero, Option.some.injEq, Prod.mk.injEq] at hi
      obtain ⟨rfl, rfl⟩ := hi
      exact ⟨s₀, m, history, rfl, rfl, hs, tracks, .cons tracks (Extends.refl _ s₀) rest⟩
    | succ i =>
      obtain ⟨s₁, m₁, history₁, hmark, hplain, hext, htracks, hrest⟩ := ih hi
      exact ⟨s₁, m₁, history₁, hmark, hplain, hext.trans hs, htracks, hrest⟩

theorem Undoable.flushed (h : Undoable db counted connected history m) :
    Undoable (UtxoIndex.flushed db s) counted connected history m := by
  induction h with
  | nil m => exact .nil m
  | cons undoes readable isCounted rest ih =>
    exact .cons undoes (fun row hrow => UtxoIndex.readable_flushed (readable row hrow))
      isCounted ih

/-! ## One step -/

theorem InStep.addBlock (h : InStep C counted r p) {block : CheckedBlock} {height : ℕ}
    (hcounted : counted → (UtxoCall.addBlock block height).Counted)
    (hstep : r.step C (.addBlock block height) = some r') :
    ∃ p', p.step C (.addBlock block height) = some p' ∧ InStep C counted r' p' := by
  refine ⟨_, rfl, ?_⟩
  have hspec := h.tracks.agrees.addBlock (C := C) r.db.faithful_read block height
  have hext := UtxoIndex.extends_addBlock (C := C) r.db.read block.toBlock height true r.index
  unfold UtxoRun.step at hstep
  cases hadd : UtxoIndex.addBlock C r.db.read block.toBlock height true r.index with
  | error e t => simp [hadd] at hstep
  | ok result t =>
    obtain ⟨complete, rev⟩ := result
    simp only [hadd, Option.some.injEq] at hstep
    subst hstep
    obtain ⟨hagrees, hhash, hundoes, hreadable, hstats⟩ := hspec.of_ok hadd
    have hexempt : counted → ∀ height, isBip30Unspendable height rev.hash = false := by
      intro hc height'
      rw [hhash]
      exact hcounted hc height'
    refine ⟨⟨hagrees, .cons hundoes hreadable hexempt h.tracks.undoable, ?_⟩,
      h.tracksMarks.extend (hext.of_ok hadd), h.stored⟩
    intro hc
    have hrows : UtxoIndex.hashedRows C block height = block.createdRows C height := by
      rw [UtxoIndex.hashedRows, block.createdRows_eq, hcounted hc height]
      rfl
    show t.data.coinStats = _
    rw [hstats, hrows, h.tracks.commits hc, hundoes.commitment_eq, C.insertAll_removeAll,
      C.removeAll_insertAll]

/-- The patch of the newest block applies, and takes the map back. -/
theorem InStep.exists_applyRevBlock (h : InStep C counted r p) (hne : r.connected ≠ []) :
    ∃ r' p', r.step C .applyRevBlock = some r' ∧ p.step C .applyRevBlock = some p' ∧
      InStep C counted r' p' := by
  obtain ⟨db, storedStats, index, connected, marks⟩ := r
  obtain ⟨map, history, plainMarks⟩ := p
  cases h.tracks.undoable with
  | nil => exact absurd rfl hne
  | @cons rev created m₀ m revs history undoes readable isCounted rest =>
    have hspec := h.tracks.agrees.applyRevBlock (C := C) db.faithful_read undoes readable
    obtain ⟨a, t, hok, hagrees, hstats⟩ :=
      (hspec.mono (fun _ _ ht => ht) fun _ _ hf => (db.not_readFails hf).elim).exists_ok
    have hext := (UtxoIndex.extends_applyRevBlock (C := C) db.read rev index).of_ok hok
    refine ⟨⟨db, storedStats, t, revs, marks⟩, ⟨m₀, history, plainMarks⟩, ?_, rfl, ?_⟩
    · unfold UtxoRun.step
      simp only [hok]
    · refine ⟨⟨hagrees, rest, ?_⟩, h.tracksMarks.extend hext, h.stored⟩
      intro hc
      have hall : ∀ rows : List (OutPoint × Coin),
          rows.filter (fun row => UtxoIndex.isHashed rev.hash row.2) = rows := by
        intro rows
        rw [List.filter_eq_self]
        intro row _
        unfold UtxoIndex.isHashed
        rw [isCounted hc, Bool.and_false, Bool.not_false]
      show t.data.coinStats = _
      rw [hstats, hall, hall, undoes.commitment_eq]
      exact congrArg (fun st => C.removeAll created (C.insertAll rev.toAdd st))
        (h.tracks.commits hc)

theorem InStep.finalize (h : InStep C counted r p) (hstep : r.step C .finalize = some r') :
    ∃ p', p.step C .finalize = some p' ∧ InStep C counted r' p' := by
  refine ⟨p, rfl, ?_⟩
  unfold UtxoRun.step at hstep
  rw [Option.some.injEq] at hstep
  subst hstep
  have hagrees := h.tracks.agrees.finalize
  have hcoins : (UtxoIndex.flushed r.db r.index).coins = p.map := by
    apply Std.ExtTreeMap.ext_getElem?
    intro o
    have hinit := UtxoIndex.agrees_init (UtxoIndex.flushed r.db r.index) r.index.data.coinStats o
    rw [← hinit.getCoin_eq [], ← (hagrees o).getCoin_eq []]
    rfl
  refine ⟨⟨hagrees, h.tracks.undoable.flushed, h.tracks.commits⟩, .nil _ _, ?_⟩
  intro hc
  show r.index.data.coinStats = C.commitment (UtxoIndex.flushed r.db r.index).coins
  rw [hcoins]
  exact h.tracks.commits hc

theorem InStep.trialMark (h : InStep C counted r p) (hstep : r.step C .trialMark = some r') :
    ∃ p', p.step C .trialMark = some p' ∧ InStep C counted r' p' := by
  refine ⟨_, rfl, ?_⟩
  unfold UtxoRun.step at hstep
  rw [Option.some.injEq] at hstep
  subst hstep
  exact ⟨h.tracks, .cons h.tracks (Extends.refl _ _) h.tracksMarks, h.stored⟩

theorem InStep.rollback (h : InStep C counted r p) {i : ℕ}
    (hstep : r.step C (.rollback i) = some r') :
    ∃ p', p.step C (.rollback i) = some p' ∧ InStep C counted r' p' := by
  unfold UtxoRun.step at hstep
  cases hi : r.marks[i]? with
  | none => simp [hi] at hstep
  | some entry =>
    obtain ⟨mark, connected⟩ := entry
    simp only [hi, Option.some.injEq] at hstep
    obtain ⟨s₀, m, history, rfl, hplain, hext, htracks, hmarks⟩ := h.tracksMarks.getElem? hi
    refine ⟨⟨m, history, p.marks.drop i⟩, by unfold PlainRun.step; simp only [hplain], ?_⟩
    rw [UtxoIndex.rollback_of_extends hext] at hstep
    subst hstep
    exact ⟨htracks, hmarks, h.stored⟩

/-- **One call keeps the two machines in step.** -/
theorem InStep.step (h : InStep C counted r p) (hcounted : counted → call.Counted)
    (hstep : r.step C call = some r') :
    ∃ p', p.step C call = some p' ∧ InStep C counted r' p' := by
  cases call with
  | addBlock block height => exact h.addBlock hcounted hstep
  | applyRevBlock =>
    have hne : r.connected ≠ [] := by
      intro hnil
      simp [UtxoRun.step, hnil] at hstep
    obtain ⟨r'', p', hr, hp, hin⟩ := h.exists_applyRevBlock hne
    rw [hr, Option.some.injEq] at hstep
    exact ⟨p', hp, hstep ▸ hin⟩
  | finalize => exact h.finalize hstep
  | trialMark => exact h.trialMark hstep
  | rollback i => exact h.rollback hstep

/-! ## Runs -/

theorem InStep.start (counted : Prop) (db : CoinTable) (coinStats : S)
    (hstored : counted → coinStats = C.commitment db.coins) :
    InStep C counted (UtxoRun.start db coinStats) (PlainRun.start db.coins) :=
  ⟨⟨UtxoIndex.agrees_init db coinStats, .nil _, hstored⟩, .nil _ _, hstored⟩

/-- **Every run of the index is in step with the plain run of the same calls.** -/
theorem InStep.exec (counted : Prop) {coinStats : S} {calls : List UtxoCall}
    (hstored : counted → coinStats = C.commitment db.coins)
    (hcounted : counted → ∀ call ∈ calls, call.Counted)
    (hrun : Run.exec (UtxoRun.step C) (UtxoRun.start db coinStats) calls = some r) :
    ∃ p, Run.exec (PlainRun.step C) (PlainRun.start db.coins) calls = some p ∧
      InStep C counted r p :=
  Run.exec_simulation (R := InStep C counted)
    (fun _ _ _ _ hmem hin hstep => hin.step (fun hc => hcounted hc _ hmem) hstep)
    (InStep.start counted db coinStats hstored) hrun

/-- The plain run is the run of the calls other than `finalize`. -/
theorem PlainRun.exec_notFinalize (p : PlainRun) (calls : List UtxoCall) :
    Run.exec (PlainRun.step C) p (calls.filter UtxoCall.notFinalize)
      = Run.exec (PlainRun.step C) p calls := by
  refine Run.exec_filter (fun p call hcall => ?_) p calls
  cases call with
  | finalize => rfl
  | _ => cases hcall

end InStep

/-! ## The index and the plain map -/

/-- **`UtxoIndex` refines a plain map.**  After any run, `get_coin` answers what
the plain run of the same calls holds, `removed_utxos` and `updated_utxo_set`
are disjoint, the newest block can be undone, and any other run with the same
calls but for `finalize` shows the same coins. -/
theorem getCoin_eq_plain_map {C : CoinStats S} {db : CoinTable} {coinStats : S}
    {calls : List UtxoCall} {r : UtxoRun S}
    (hrun : Run.exec (UtxoRun.step C) (UtxoRun.start db coinStats) calls = some r) :
    (∃ p, Run.exec (PlainRun.step C) (PlainRun.start db.coins) calls = some p ∧
      ∀ o, UtxoIndex.getCoin r.db r.index o = p.map[o]?) ∧
    (∀ o ∈ r.index.data.removedUtxos, o ∉ r.index.data.updatedUtxoSet) ∧
    (r.connected ≠ [] → (r.step C .applyRevBlock).isSome) ∧
    ∀ calls' r', calls'.filter UtxoCall.notFinalize = calls.filter UtxoCall.notFinalize →
      Run.exec (UtxoRun.step C) (UtxoRun.start db coinStats) calls' = some r' →
      ∀ o, UtxoIndex.getCoin r'.db r'.index o = UtxoIndex.getCoin r.db r.index o := by
  obtain ⟨p, hp, hin⟩ := InStep.exec False False.elim False.elim hrun
  have hget := hin.tracks.agrees.getCoin_eq
  refine ⟨⟨p, hp, hget⟩, fun _ => hin.tracks.agrees.disjoint, fun hne => ?_, ?_⟩
  · obtain ⟨r', p', hr, -, -⟩ := hin.exists_applyRevBlock hne
    rw [hr, Option.isSome_some]
  · intro calls' r' hcalls hrun' o
    obtain ⟨p', hp', hin'⟩ := InStep.exec False False.elim False.elim hrun'
    rw [← PlainRun.exec_notFinalize, hcalls, PlainRun.exec_notFinalize, hp,
      Option.some.injEq] at hp'
    rw [hget, hin'.tracks.agrees.getCoin_eq, hp']

/-- A block that pays its coinbase out, and one that spends that coin. -/
def fundingBlock : CheckedBlock where
  header := ⟨11, 10, 1, 0, 0⟩
  transactions := [⟨100, [OutPoint.null], [⟨50, [0x51]⟩]⟩]
  coinbase := ⟨100, [OutPoint.null], [⟨50, [0x51]⟩]⟩
  spends := []
  transactions_eq := rfl
  coinbase_isCoinbase := by decide
  spends_not_coinbase := by decide
  spends_vin := by decide
  id_commits := by decide

@[inherit_doc fundingBlock]
def spendingBlock : CheckedBlock where
  header := ⟨12, 11, 1, 0, 0⟩
  transactions := [⟨200, [OutPoint.null], [⟨50, [0x52]⟩]⟩, ⟨201, [⟨100, 0⟩], [⟨49, [0x53]⟩]⟩]
  coinbase := ⟨200, [OutPoint.null], [⟨50, [0x52]⟩]⟩
  spends := [⟨201, [⟨100, 0⟩], [⟨49, [0x53]⟩]⟩]
  transactions_eq := rfl
  coinbase_isCoinbase := by decide
  spends_not_coinbase := by decide
  spends_vin := by decide
  id_commits := by decide

/-- A coin stored, spent, restored over its record and spent again. -/
def restoringCalls : List UtxoCall :=
  [.addBlock fundingBlock 1, .finalize, .addBlock spendingBlock 2, .applyRevBlock, .trialMark,
    .addBlock spendingBlock 2, .rollback 0, .addBlock spendingBlock 2, .finalize]

theorem getCoin_eq_plain_map_restoring :
    ∃ r p, Run.exec (UtxoRun.step CoinStats.counters) (UtxoRun.start ∅ (0, 0)) restoringCalls
        = some r ∧
      Run.exec (PlainRun.step CoinStats.counters) (PlainRun.start ∅) restoringCalls = some p ∧
      ∀ o, UtxoIndex.getCoin r.db r.index o = p.map[o]? := by
  obtain ⟨r, hr⟩ := Option.isSome_iff_exists.mp (show (Run.exec (UtxoRun.step CoinStats.counters)
    (UtxoRun.start ∅ (0, 0)) restoringCalls).isSome = true by decide +kernel)
  obtain ⟨⟨p, hp, hget⟩, -⟩ := getCoin_eq_plain_map hr
  exact ⟨r, p, hr, hp, hget⟩

/-- **`coin_stats` is the commitment of the visible set**, and the stats stored
are the commitment of the coins stored with them, on a chain without the two
blocks the commitment exempts. -/
theorem coinStats_eq_commitment {C : CoinStats S} {db : CoinTable} {calls : List UtxoCall}
    {r : UtxoRun S} (hcounted : ∀ call ∈ calls, call.Counted)
    (hrun : Run.exec (UtxoRun.step C) (UtxoRun.start db (C.commitment db.coins)) calls = some r) :
    (∀ m : UtxoSet, (∀ o, m[o]? = UtxoIndex.getCoin r.db r.index o) →
      r.index.data.coinStats = C.commitment m) ∧
    (∃ m : UtxoSet, ∀ o, m[o]? = UtxoIndex.getCoin r.db r.index o) ∧
    r.storedStats = C.commitment r.db.coins := by
  obtain ⟨p, -, hin⟩ := InStep.exec True (fun _ => rfl) (fun _ => hcounted) hrun
  have hget := hin.tracks.agrees.getCoin_eq
  refine ⟨fun m hm => ?_, ⟨p.map, fun o => (hget o).symm⟩, hin.stored trivial⟩
  have hmap : m = p.map := Std.ExtTreeMap.ext_getElem? fun o => (hm o).trans (hget o)
  rw [hmap]
  exact hin.tracks.commits trivial

theorem coinStats_eq_commitment_restoring :
    ∃ r, Run.exec (UtxoRun.step CoinStats.counters) (UtxoRun.start ∅ (0, 0)) restoringCalls
        = some r ∧
      r.storedStats = CoinStats.counters.commitment r.db.coins := by
  obtain ⟨r, hr⟩ := Option.isSome_iff_exists.mp (show (Run.exec (UtxoRun.step CoinStats.counters)
    (UtxoRun.start ∅ (0, 0)) restoringCalls).isSome = true by decide +kernel)
  have hcounted : ∀ call ∈ restoringCalls, call.Counted := by
    have hfunding : ∀ height, isBip30Unspendable height fundingBlock.header.hash = false := by
      intro height
      simp [isBip30Unspendable, bip30UnspendableOriginals, fundingBlock]
    have hspending : ∀ height, isBip30Unspendable height spendingBlock.header.hash = false := by
      intro height
      simp [isBip30Unspendable, bip30UnspendableOriginals, spendingBlock]
    simp [restoringCalls, UtxoCall.Counted, hfunding, hspending]
  exact ⟨r, hr, (coinStats_eq_commitment hcounted hr).2.2⟩

end BtclibNode
