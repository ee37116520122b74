/-
# Rollback of the staged UTXO set

Every method of `UtxoIndex` is a sequence of logged mutations, also where it
raises half-way, and each is logged by an entry that undoes it: so `rollback` to
a mark restores the staging the mark was read in, whatever ran since.
-/
import BtclibNode.Lib.Run
import BtclibNode.Chainstate.UtxoIndex

namespace BtclibNode.UtxoIndex

open StateExcept Logged

variable {S : Type} {C : CoinStats S}

/-! ## The logged mutations undo -/

theorem mem_setMember (s : Std.ExtTreeSet OutPoint) (o p : OutPoint) (present : Bool) :
    p ∈ setMember s o present ↔ if o = p then present = true else p ∈ s := by
  by_cases hp : o = p
  · cases present with
    | true => simp [setMember, hp]
    | false => simp [setMember, hp]
  · cases present with
    | true => simp [setMember, hp]
    | false => simp [setMember, hp]

theorem setMember_setMember (s : Std.ExtTreeSet OutPoint) (o : OutPoint) (present : Bool) :
    setMember (setMember s o present) o (decide (o ∈ s)) = s := by
  apply FiniteMap.set_ext
  intro p
  rw [mem_setMember, mem_setMember]
  by_cases hp : o = p
  · rw [if_pos hp, decide_eq_true_eq, hp]
  · rw [if_neg hp, if_neg hp]

/-- A mutation that is logged. -/
inductive Mutation where
  | put (o : OutPoint) (coin : Coin)
  | pop (o : OutPoint)
  | setRemoved (o : OutPoint) (present : Bool)
  | logAndSetStored (o : OutPoint) (present : Bool)
  | hashInsert (o : OutPoint) (coin : Coin)
  | hashRemove (o : OutPoint) (coin : Coin)
  deriving DecidableEq, Repr

/-- The index after a logged mutation; a key that is popped holds a coin. -/
def mutate (C : CoinStats S) (s : UtxoIndex S) : Mutation → Option (UtxoIndex S)
  | .put o coin => some (finalState (put o coin) s)
  | .pop o => s.data.updatedUtxoSet[o]?.map fun coin => finalState (pop o coin) s
  | .setRemoved o present => some (finalState (setRemoved o present) s)
  | .logAndSetStored o present => some (finalState (logAndSetStored o present) s)
  | .hashInsert o coin => some (finalState (hashInsert C o coin) s)
  | .hashRemove o coin => some (finalState (hashRemove C o coin) s)

/-- `t` is `s` after logged mutations, one after another. -/
def Mutates (C : CoinStats S) (s t : UtxoIndex S) : Prop :=
  ∃ ms, Run.exec (mutate C) s ms = some t

/-- **A mutation is logged by an entry that undoes it.** -/
theorem extends_mutate {s t : UtxoIndex S} {m : Mutation} (h : mutate C s m = some t) :
    Extends (undo C) s t := by
  cases m with
  | put o coin =>
    obtain rfl := Option.some.inj h
    apply Extends.push
    cases hprior : s.data.updatedUtxoSet[o]? with
    | none => simp only [undo, FiniteMap.erase_insert coin hprior]
    | some prior => simp only [undo, FiniteMap.insert_insert coin hprior]
  | pop o =>
    obtain ⟨coin, hcoin, rfl⟩ := Option.map_eq_some_iff.mp h
    apply Extends.push
    simp only [undo, FiniteMap.insert_erase hcoin]
  | setRemoved o present =>
    obtain rfl := Option.some.inj h
    apply Extends.push
    simp only [undo, setMember_setMember]
  | logAndSetStored o present =>
    obtain rfl := Option.some.inj h
    apply Extends.push
    simp only [undo, setMember_setMember]
  | hashInsert o coin =>
    obtain rfl := Option.some.inj h
    apply Extends.push
    simp only [undo, C.remove_insert]
  | hashRemove o coin =>
    obtain rfl := Option.some.inj h
    apply Extends.push
    simp only [undo, C.insert_remove]

theorem extends_exec {s t : UtxoIndex S} {ms : List Mutation}
    (h : Run.exec (mutate C) s ms = some t) : Extends (undo C) s t :=
  Run.exec_invariant (fun _ _ _ hr hstep => hr.trans (extends_mutate hstep))
    (Extends.refl (undo C) s) h

theorem Mutates.refl (C : CoinStats S) (s : UtxoIndex S) : Mutates C s s := ⟨[], rfl⟩

theorem Mutates.trans {s t r : UtxoIndex S} (hst : Mutates C s t) (htr : Mutates C t r) :
    Mutates C s r := by
  obtain ⟨ms, hms⟩ := hst
  obtain ⟨ms', hms'⟩ := htr
  exact ⟨ms ++ ms', Run.exec_append.mpr ⟨t, hms, hms'⟩⟩

theorem Mutates.once {s t : UtxoIndex S} {m : Mutation} (h : mutate C s m = some t) :
    Mutates C s t := ⟨[m], Run.exec_cons.mpr ⟨t, h, rfl⟩⟩

theorem mutates_put (o : OutPoint) (c : Coin) : Moves (Mutates C) (put (S := S) o c) :=
  fun _ => Mutates.once (m := .put o c) rfl

/-- A `pop` is of the coin the key held. -/
theorem mutates_pop {s : UtxoIndex S} {o : OutPoint} {c : Coin}
    (h : s.data.updatedUtxoSet[o]? = some c) :
    Sat (pop o c) s (fun _ t => Mutates C s t) fun _ t => Mutates C s t := by
  apply Mutates.once (m := .pop o)
  unfold mutate
  dsimp only
  rw [h]
  rfl

theorem mutates_setRemoved (o : OutPoint) (present : Bool) :
    Moves (Mutates C) (setRemoved (S := S) o present) :=
  fun _ => Mutates.once (m := .setRemoved o present) rfl

theorem mutates_logAndSetStored (o : OutPoint) (present : Bool) :
    Moves (Mutates C) (logAndSetStored (S := S) o present) :=
  fun _ => Mutates.once (m := .logAndSetStored o present) rfl

theorem mutates_hashInsert (o : OutPoint) (c : Coin) : Moves (Mutates C) (hashInsert C o c) :=
  fun _ => Mutates.once (m := .hashInsert o c) rfl

theorem mutates_hashRemove (o : OutPoint) (c : Coin) : Moves (Mutates C) (hashRemove C o c) :=
  fun _ => Mutates.once (m := .hashRemove o c) rfl

/-! ## The methods -/

section Methods

variable {α β : Type}

theorem mutates_pure (a : α) : Moves (Mutates C) (pure a : UtxoM S α) :=
  moves_pure (Mutates.refl C) a

theorem mutates_throw (e : UtxoError) : Moves (Mutates C) (throw e : UtxoM S α) :=
  moves_throw (Mutates.refl C) e

theorem mutates_get : Moves (Mutates C) (get : UtxoM S (UtxoIndex S)) :=
  moves_get (Mutates.refl C)

theorem mutates_bind {x : UtxoM S α} {f : α → UtxoM S β} (hx : Moves (Mutates C) x)
    (hf : ∀ a, Moves (Mutates C) (f a)) : Moves (Mutates C) (x >>= f) :=
  Moves.bind (fun _ _ _ => Mutates.trans) hx hf

theorem mutates_unmarkRemoved (o : OutPoint) :
    Moves (Mutates C) (unmarkRemoved (S := S) o) := by
  unfold unmarkRemoved
  refine mutates_bind mutates_get fun s => ?_
  split
  · exact mutates_bind (mutates_logAndSetStored o true) fun _ => mutates_setRemoved o false
  · exact mutates_setRemoved o false

theorem mutates_spendStaged {s : UtxoIndex S} {o : OutPoint} {c : Coin}
    (h : s.data.updatedUtxoSet[o]? = some c) :
    Sat (spendStaged o c) s (fun _ t => Mutates C s t) fun _ t => Mutates C s t := by
  unfold spendStaged
  rw [sat_bind]
  refine (mutates_pop h).mono (fun _ t hst => ?_) fun _ _ hst => hst
  refine (mutates_bind mutates_get (fun u => ?_) t).mono
    (fun _ _ htu => hst.trans htu) fun _ _ htu => hst.trans htu
  split
  · exact mutates_bind (mutates_logAndSetStored o false) fun _ => mutates_setRemoved o true
  · exact mutates_pure _

theorem mutates_dbGet (read : CoinRead) (o : OutPoint) :
    Moves (Mutates C) (dbGet (S := S) read o) := by
  unfold dbGet
  split
  · exact mutates_pure _
  · exact mutates_throw _

theorem mutates_checkBip30 (read : CoinRead) (os : List OutPoint) :
    Moves (Mutates C) (checkBip30 (S := S) read os) := by
  induction os with
  | nil => exact mutates_pure _
  | cons o os ih =>
    unfold checkBip30
    refine mutates_bind ?_ fun violation => ?_
    · unfold bip30Violation
      refine mutates_bind mutates_get fun s => ?_
      split
      · exact mutates_pure _
      · split
        · exact mutates_pure _
        · exact mutates_bind (mutates_dbGet read o) fun _ => mutates_pure _
    · split
      · exact mutates_bind (mutates_throw _) fun _ => ih
      · exact ih

theorem mutates_storedPrevout (read : CoinRead) (o : OutPoint) :
    Moves (Mutates C) (storedPrevout (S := S) read o) := by
  unfold storedPrevout
  refine mutates_bind (mutates_dbGet read o) fun record => ?_
  split <;> exact mutates_pure _

theorem mutates_spendInput (read : CoinRead) (o : OutPoint) :
    Moves (Mutates C) (spendInput C read o) := by
  intro s
  unfold spendInput
  rw [sat_bind, sat_get]
  by_cases hr : o ∈ s.data.removedUtxos
  · rw [if_pos hr]
    exact mutates_throw .alreadySpent s
  · rw [if_neg hr]
    cases hu : s.data.updatedUtxoSet[o]? with
    | some coin =>
      rw [sat_bind]
      refine (mutates_spendStaged hu).mono (fun _ t hst => ?_) fun _ _ hst => hst
      exact (mutates_bind (mutates_hashRemove o coin) (fun _ => mutates_pure coin) t).mono
        (fun _ _ htu => hst.trans htu) fun _ _ htu => hst.trans htu
    | none =>
      refine mutates_bind (mutates_storedPrevout read o) (fun resolved => ?_) s
      cases resolved with
      | none => exact mutates_throw _
      | some coin =>
        exact mutates_bind (mutates_setRemoved o true) fun _ =>
          mutates_bind (mutates_hashRemove o coin) fun _ => mutates_pure coin

theorem mutates_spendInputs (read : CoinRead) (os : List OutPoint) :
    Moves (Mutates C) (spendInputs C read os) := by
  induction os with
  | nil => exact mutates_pure _
  | cons o os ih =>
    exact mutates_bind (mutates_spendInput read o) fun _ =>
      mutates_bind ih fun _ => mutates_pure _

theorem mutates_stageCreation (o : OutPoint) (c : Coin) (hashIt : Bool) :
    Moves (Mutates C) (stageCreation C o c hashIt) := by
  unfold stageCreation
  split
  · exact mutates_pure _
  · refine mutates_bind (mutates_unmarkRemoved o) fun _ => mutates_bind (mutates_put o c) fun _ => ?_
    split
    · exact mutates_bind (mutates_hashInsert o c) fun _ => mutates_pure _
    · exact mutates_pure _

theorem mutates_createOutputs (txid : Hash) (height : ℕ) (isCoinbase hashIt : Bool) (i : ℕ)
    (vout : List TxOut) :
    Moves (Mutates C) (createOutputs C txid height isCoinbase hashIt i vout) := by
  induction vout generalizing i with
  | nil => exact mutates_pure _
  | cons txOut rest ih =>
    exact mutates_bind (mutates_stageCreation _ _ _) fun _ =>
      mutates_bind (ih (i + 1)) fun _ => mutates_pure _

theorem mutates_connectTxs (read : CoinRead) (height : ℕ) (txs : List Tx) :
    Moves (Mutates C) (connectTxs C read height txs) := by
  induction txs with
  | nil => exact mutates_pure _
  | cons tx rest ih =>
    exact mutates_bind (mutates_spendInputs read tx.vin) fun _ =>
      mutates_bind (mutates_createOutputs _ _ _ _ _ _) fun _ =>
        mutates_bind ih fun _ => mutates_pure _

theorem mutates_stageBlock (read : CoinRead) (block : Block) (height : ℕ) :
    Moves (Mutates C) (stageBlock C read block height) := by
  unfold stageBlock
  split
  · exact mutates_throw _
  · exact mutates_bind (mutates_createOutputs _ _ _ _ _ _) fun _ =>
      mutates_bind (mutates_connectTxs _ _ _) fun _ => mutates_pure _

/-- **`add_block` is logged**, returning or raising. -/
theorem mutates_addBlock (read : CoinRead) (block : Block) (height : ℕ) (check : Bool) :
    Moves (Mutates C) (addBlock C read block height check) := by
  unfold addBlock
  split
  · exact mutates_bind (mutates_checkBip30 _ _) fun _ => mutates_stageBlock _ _ _
  · exact mutates_stageBlock _ _ _

theorem mutates_restorePrevouts (blockHash : Hash) (rows : List (OutPoint × Coin)) :
    Moves (Mutates C) (restorePrevouts C blockHash rows) := by
  induction rows with
  | nil => exact mutates_pure _
  | cons row rest ih =>
    unfold restorePrevouts
    refine mutates_bind (mutates_unmarkRemoved _) fun _ => mutates_bind (mutates_put _ _) fun _ => ?_
    split
    · exact mutates_bind (mutates_hashInsert _ _) fun _ => ih
    · exact ih

theorem mutates_removeCreated (read : CoinRead) (o : OutPoint) :
    Moves (Mutates C) (removeCreated (S := S) read o) := by
  intro s
  unfold removeCreated
  rw [sat_bind, sat_get]
  by_cases hr : o ∈ s.data.removedUtxos
  · rw [if_pos hr]
    exact mutates_throw .outputAlreadyRemoved s
  · rw [if_neg hr]
    cases hu : s.data.updatedUtxoSet[o]? with
    | some coin =>
      rw [sat_bind]
      exact (mutates_spendStaged hu).mono (fun _ _ hst => hst) fun _ _ hst => hst
    | none =>
      refine mutates_bind (mutates_dbGet read o) (fun record => ?_) s
      split
      · exact mutates_throw _
      · exact mutates_throw _
      · exact mutates_bind (mutates_setRemoved o true) fun _ => mutates_pure _

theorem mutates_removeCreations (read : CoinRead) (blockHash : Hash) (os : List OutPoint) :
    Moves (Mutates C) (removeCreations C read blockHash os) := by
  induction os with
  | nil => exact mutates_pure _
  | cons o rest ih =>
    unfold removeCreations
    refine mutates_bind (mutates_removeCreated read o) fun coin => ?_
    split
    · exact mutates_bind (mutates_hashRemove _ _) fun _ => ih
    · exact ih

/-- **`apply_rev_block` is logged**, returning or raising. -/
theorem mutates_applyRevBlock (read : CoinRead) (rev : RevBlock) :
    Moves (Mutates C) (applyRevBlock C read rev) :=
  mutates_bind (mutates_restorePrevouts _ _) fun _ => mutates_removeCreations _ _ _

theorem extends_addBlock (read : CoinRead) (block : Block) (height : ℕ) (check : Bool) :
    Moves (Extends (undo C)) (addBlock C read block height check) :=
  (mutates_addBlock read block height check).mono fun _ _ ⟨_, hms⟩ => extends_exec hms

theorem extends_applyRevBlock (read : CoinRead) (rev : RevBlock) :
    Moves (Extends (undo C)) (applyRevBlock C read rev) :=
  (mutates_applyRevBlock read rev).mono fun _ _ ⟨_, hms⟩ => extends_exec hms

end Methods

/-- **A trial rolled back leaves the staging as the mark found it.** -/
theorem rollback_of_extends {s t : UtxoIndex S} (h : Extends (undo C) s t) :
    rollback C s.trialMark t = s := h.rollback_eq

end BtclibNode.UtxoIndex
