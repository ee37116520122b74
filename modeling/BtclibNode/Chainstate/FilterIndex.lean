/-
# `FilterIndex`, the staged block filters

`chainstate/filter_index.py`.  Filters built by a trial wait in `pending` for
the next flush, and the trial's own are named in a log so that it can be rolled
back.  btclib's `BasicBlockFilter` is outside this repository and is a
parameter.
-/
import BtclibNode.Lib.StateExcept
import BtclibNode.Lib.UndoLog
import BtclibNode.Lib.FiniteMap
import BtclibNode.Chainstate.Block

namespace BtclibNode

open StateExcept Logged

/-- The `cfilter-` and `cfheader-` records: the filter of a block and its header. -/
abbrev FilterTable := Std.ExtTreeMap Hash (List UInt8 × Hash)

/-- What the methods here raise: what the store's `get` raises,
`ChainstateInconsistencyError`, and what btclib raises, a `BTClibValueError` or
anything else. -/
inductive FilterError where
  | storage
  | noParentHeader
  | btclibValue (reason : String)
  | other
  deriving DecidableEq, Repr

/-- btclib's `prevout_scripts_from_utxos`, `BasicBlockFilter.from_block` with
`serialize`, and `BasicBlockFilter.header`, for the chain of one genesis. -/
structure BlockFilters where
  genesisHash : Hash
  prevoutScripts : Block → List (OutPoint × TxOut) → Except FilterError (List Script)
  fromBlock : Block → List Script → Except FilterError (List UInt8)
  header : List UInt8 → Hash → Hash

/-- `FilterIndex`; `trial` is `pending` with `_trial_log`. -/
structure FilterIndex where
  db : FilterTable
  bestBlock : Option Hash
  trial : Logged FilterTable Hash
  synced : Bool

/-- A method of `FilterIndex`. -/
abbrev FilterM := EStateM FilterError FilterIndex

namespace FilterIndex

/-- `NO_PREVIOUS_FILTER_HEADER`. -/
def noPreviousFilterHeader : Hash := 0

/-- What `rollback` does with one entry of the log. -/
def undo (h : Hash) (pending : FilterTable) : FilterTable := pending.erase h

/-- `trial_mark`. -/
def trialMark (s : FilterIndex) : ℕ := s.trial.mark

/-- `rollback`. -/
def rollback (mark : ℕ) (s : FilterIndex) : FilterIndex :=
  { s with trial := Logged.rollback undo mark s.trial }

/-- `get_filter` with `get_header`; `fails` names the keys the store cannot read. -/
def lookup (fails : Hash → Bool) (h : Hash) : FilterM (Option (List UInt8 × Hash)) := do
  let s ← get
  match s.trial.data[h]? with
  | some entry => return some entry
  | none => if fails h then throw .storage else return s.db[h]?

/-- An `Except` of btclib's. -/
def lift {α : Type} (x : Except FilterError α) : FilterM α :=
  match x with
  | .ok a => return a
  | .error e => throw e

/-- The header `add_block` builds on. -/
def previousHeader (filters : BlockFilters) (fails : Hash → Bool) (block : Block) :
    FilterM Hash := do
  if block.header.hash = filters.genesisHash then
    return noPreviousFilterHeader
  else
    match ← lookup fails block.header.previousBlockHash with
    | none => throw .noParentHeader
    | some entry => return entry.2

/-- The last two statements of `add_block`, for a block that is not in `pending`. -/
def stageFilter (h : Hash) (entry : List UInt8 × Hash) : FilterM Unit :=
  modify fun s => { s with trial := ⟨s.trial.data.insert h entry, h :: s.trial.log⟩ }

/-- `add_block`. -/
def addBlock (filters : BlockFilters) (fails : Hash → Bool) (block : Block)
    (prevoutScripts : List Script) : FilterM Unit := do
  match ← lookup fails block.header.hash with
  | some _ => return ()
  | none => do
    let previous ← previousHeader filters fails block
    let filter ← lift (filters.fromBlock block prevoutScripts)
    stageFilter block.header.hash (filter, filters.header filter previous)

/-- `add_connected_block`. -/
def addConnectedBlock (filters : BlockFilters) (fails : Hash → Bool) (block : Block)
    (revBlock : RevBlock) : FilterM Unit := do
  let utxos := revBlock.toAdd.map fun row => (row.1, row.2.txOut)
  let scripts ← lift (filters.prevoutScripts block utxos)
  addBlock filters fails block scripts

/-- `finalize`. -/
def finalize (bestBlock : Option Hash) (s : FilterIndex) : FilterIndex :=
  { s with
    db := s.trial.data.foldl (fun db h entry => db.insert h entry) s.db
    bestBlock := bestBlock.or s.bestBlock
    trial := ⟨∅, []⟩ }

/-- `advance`. -/
def advance (tip : Hash) (s : FilterIndex) : FilterIndex :=
  finalize (if s.synced then some tip else none) s

/-! ## Rollback -/

/-- `t` is `s` with filters staged and logged. -/
structure Staged (s t : FilterIndex) : Prop where
  trial : Extends undo s.trial t.trial
  others : t = { s with trial := t.trial }

theorem Staged.refl (s : FilterIndex) : Staged s s := ⟨Extends.refl undo s.trial, rfl⟩

theorem Staged.trans {s t u : FilterIndex} (hst : Staged s t) (htu : Staged t u) :
    Staged s u := by
  refine ⟨hst.trial.trans htu.trial, ?_⟩
  rw [htu.others, hst.others]

/-- **A trial rolled back leaves the filters as the mark found them.** -/
theorem Staged.rollback_eq {s t : FilterIndex} (h : Staged s t) :
    rollback s.trialMark t = s := by
  have htrial : Logged.rollback undo s.trial.mark t.trial = s.trial := h.trial.rollback_eq
  unfold rollback trialMark
  rw [htrial, h.others]

section Methods

variable {α β : Type} {x : FilterM α} {f : α → FilterM β}

theorem staged_pure (a : α) : Moves Staged (pure a : FilterM α) := moves_pure Staged.refl a

theorem staged_throw (e : FilterError) : Moves Staged (throw e : FilterM α) :=
  moves_throw Staged.refl e

theorem staged_bind (hx : Moves Staged x) (hf : ∀ a, Moves Staged (f a)) :
    Moves Staged (x >>= f) :=
  Moves.bind (R := Staged) (fun _ _ _ => Staged.trans) hx hf

theorem staged_lift (x : Except FilterError α) : Moves Staged (lift x) := by
  cases x with
  | ok a => exact staged_pure a
  | error e => exact staged_throw e

/-- A look-up stages nothing, and answers `none` only for a key out of `pending`. -/
theorem sat_lookup (fails : Hash → Bool) (h : Hash) (s : FilterIndex) :
    Sat (lookup fails h) s (fun r t => t = s ∧ (r = none → s.trial.data[h]? = none))
      fun _ t => t = s := by
  unfold lookup
  rw [sat_bind, sat_get]
  cases hp : s.trial.data[h]? with
  | some entry => exact ⟨rfl, fun h0 => by cases h0⟩
  | none =>
    dsimp only
    split
    · exact rfl
    · exact ⟨rfl, fun _ => rfl⟩

/-- Reading the parent's header and building the filter stage nothing. -/
theorem sat_previousHeader (filters : BlockFilters) (fails : Hash → Bool) (block : Block)
    (s : FilterIndex) :
    Sat (previousHeader filters fails block) s (fun _ t => t = s) fun _ t => t = s := by
  unfold previousHeader
  split
  · exact rfl
  · rw [sat_bind]
    refine (sat_lookup _ _ s).mono ?_ fun _ _ ht => ht
    rintro r t ⟨rfl, -⟩
    cases r with
    | none => exact rfl
    | some entry => exact rfl

theorem staged_addBlock (filters : BlockFilters) (fails : Hash → Bool) (block : Block)
    (scripts : List Script) : Moves Staged (addBlock filters fails block scripts) := by
  intro s
  unfold addBlock
  rw [sat_bind]
  refine (sat_lookup _ _ s).mono ?_ fun _ _ ht => ht ▸ Staged.refl s
  rintro r t ⟨rfl, hnone⟩
  cases r with
  | some entry => exact Staged.refl t
  | none =>
    rw [sat_bind]
    refine (sat_previousHeader _ _ _ t).mono ?_ fun _ _ hu => hu ▸ Staged.refl t
    rintro previous u rfl
    cases filters.fromBlock block scripts with
    | error e => exact Staged.refl u
    | ok filter =>
      -- the key was not staged, so erasing it gives `pending` back
      refine ⟨Extends.push ?_, rfl⟩
      exact FiniteMap.erase_insert _ (hnone rfl)

/-- **`add_connected_block` is logged**, returning or raising. -/
theorem staged_addConnectedBlock (filters : BlockFilters) (fails : Hash → Bool) (block : Block)
    (revBlock : RevBlock) :
    Moves Staged (addConnectedBlock filters fails block revBlock) :=
  staged_bind (staged_lift _) fun scripts => staged_addBlock filters fails block scripts

end Methods

end FilterIndex

end BtclibNode
