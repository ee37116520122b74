/-
# A trial undone

`try_connect_block` of `main.py`: a block is connected over the staged UTXO set and the staging
is undone, whether a rule refuses the block or not.
-/
import BtclibNode.Chainstate.UtxoRollback
import BtclibNode.Node.Steps

namespace BtclibNode

open StateExcept

namespace UtxoIndex

variable {S : Type} (C : CoinStats S)

/-- A call made in a trial, over what the store answers meanwhile. -/
inductive TrialCall where
  | addBlock (read : CoinRead) (block : Block) (height : ℕ) (check : Bool)
  | applyRevBlock (read : CoinRead) (rev : RevBlock)

def TrialCall.run : TrialCall → UtxoM S Unit
  | .addBlock read block height check => do
    let _ ← UtxoIndex.addBlock C read block height check
  | .applyRevBlock read rev => UtxoIndex.applyRevBlock C read rev

/-- Calls one after another; one that raises is the last. -/
def runCalls : List TrialCall → UtxoM S Unit
  | [] => return ()
  | call :: calls => do
    call.run C
    runCalls calls

variable {C}

theorem mutates_call (call : TrialCall) : Moves (Mutates C) (call.run C) := by
  cases call with
  | addBlock read block height check =>
    exact mutates_bind (mutates_addBlock read block height check) fun _ => mutates_pure ()
  | applyRevBlock read rev => exact mutates_applyRevBlock read rev

/-- **A trial is a sequence of logged mutations**, also where its last call raises. -/
theorem mutates_runCalls (calls : List TrialCall) : Moves (Mutates C) (runCalls C calls) := by
  induction calls with
  | nil => exact mutates_pure ()
  | cons call calls ih => exact mutates_bind (mutates_call call) fun _ => ih

/-- A trial stopped after any of its mutations is rolled back to where it began. -/
theorem rollback_take {s t : UtxoIndex S} {ms : List Mutation}
    (h : Run.exec (mutate C) s ms = some t) (k : ℕ) :
    ∃ r, Run.exec (mutate C) s (ms.take k) = some r ∧ rollback C s.trialMark r = s := by
  rw [← List.take_append_drop k ms, Run.exec_append] at h
  obtain ⟨r, hr, -⟩ := h
  exact ⟨r, hr, rollback_of_extends (extends_exec hr)⟩

end UtxoIndex

namespace Node

variable {S : Type} (cfg : NodeConfig S) (env : Env)

/-- The `try` of `try_connect_block`. -/
def connectOnly (block : Block) (index : ℕ) : NodeM S Unit := do
  let (transactions, _) ← onUtxo env block.header.hash fun read =>
    UtxoIndex.addBlock cfg.stats read block index (checkBip30 cfg index block.header.hash)
  check (env.rules.validateBlock block transactions index)

/-- `try_connect_block`, whose `finally` rolls the staging back. -/
def tryConnectBlock (block : Block) (index : ℕ) : NodeM S Unit := fun n =>
  let rolledBack (t : Node S) : Node S :=
    { t with utxoIndex := t.utxoIndex.rollback cfg.stats n.utxoIndex.trialMark }
  match connectOnly cfg env block index n with
  | .ok a t => .ok a (rolledBack t)
  | .error e t => .error e (rolledBack t)

/-- What connecting the block changes is the staging, which it logs. -/
theorem connectOnly_extends (cfg : NodeConfig S) (env : Env) (n : Node S) (block : Block)
    (index : ℕ) :
    Sat (connectOnly cfg env block index) n
      (fun _ t => Logged.Extends (UtxoIndex.undo cfg.stats) n.utxoIndex t.utxoIndex ∧
        t = { n with utxoIndex := t.utxoIndex })
      fun _ t => Logged.Extends (UtxoIndex.undo cfg.stats) n.utxoIndex t.utxoIndex ∧
        t = { n with utxoIndex := t.utxoIndex } := by
  unfold connectOnly
  rw [sat_bind]
  apply onUtxo_sat
  refine (UtxoIndex.extends_addBlock _ block index _ n.utxoIndex).mono ?_ ?_
  · rintro ⟨transactions, rev⟩ utxoIndex hext
    exact check_sat (fun _ _ => ⟨hext, rfl⟩) fun _ _ => ⟨hext, rfl⟩
  · exact fun _ _ hext => ⟨hext, rfl⟩

/-- **`try_connect_block` changes nothing**, whether it raises or not. -/
theorem finalState_tryConnectBlock (cfg : NodeConfig S) (env : Env) (n : Node S) (block : Block)
    (index : ℕ) : finalState (tryConnectBlock cfg env block index) n = n := by
  have hback : ∀ t : Node S, Logged.Extends (UtxoIndex.undo cfg.stats) n.utxoIndex t.utxoIndex ∧
      t = { n with utxoIndex := t.utxoIndex } →
        { t with utxoIndex := t.utxoIndex.rollback cfg.stats n.utxoIndex.trialMark } = n := by
    rintro t ⟨hext, ht⟩
    rw [UtxoIndex.rollback_of_extends hext, ht]
  have hconnect := connectOnly_extends cfg env n block index
  unfold finalState tryConnectBlock
  cases hrun : connectOnly cfg env block index n with
  | ok a t => exact hback t (hconnect.of_ok hrun)
  | error e t => exact hback t (hconnect.of_error hrun)

/-- **`rollback` undoes a trial exactly.** After the calls of a trial, the last of which may have
raised, it gives the staging and the log of the mark; so it does where the logged mutations that
the calls are made of are stopped after any of them.  `try_connect_block` changes nothing. -/
theorem rollback_trial (cfg : NodeConfig S) :
    (∀ (s : UtxoIndex S) (calls : List UtxoIndex.TrialCall),
      UtxoIndex.rollback cfg.stats s.trialMark
        (finalState (UtxoIndex.runCalls cfg.stats calls) s) = s ∧
      ∃ ms, Run.exec (UtxoIndex.mutate cfg.stats) s ms =
          some (finalState (UtxoIndex.runCalls cfg.stats calls) s) ∧
        ∀ k, ∃ r, Run.exec (UtxoIndex.mutate cfg.stats) s (ms.take k) = some r ∧
          UtxoIndex.rollback cfg.stats s.trialMark r = s) ∧
    ∀ env (n : Node S) block index, finalState (tryConnectBlock cfg env block index) n = n := by
  refine ⟨?_, finalState_tryConnectBlock cfg⟩
  intro s calls
  obtain ⟨ms, hms⟩ := (UtxoIndex.mutates_runCalls (C := cfg.stats) calls s).finalState
  exact ⟨UtxoIndex.rollback_of_extends (UtxoIndex.extends_exec hms), ms, hms,
    UtxoIndex.rollback_take hms⟩

end Node

end BtclibNode
