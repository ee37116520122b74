/-
# What the removals take

`remove_tx`, `remove_dependents` and `remove_with_descendants`, and what a connected block leaves:
no transaction it holds, none that conflicts with one, and no delta of either.
-/
import BtclibNode.Mempool.Calls

namespace BtclibNode

namespace Mempool

open StateExcept

variable {γ : Type} {g : ClusterGraph γ} {s t u : Mempool γ} {w x p c : Txid} {tx : MempoolTx}
  {ws ws' : List Txid}

/-! ## One transaction -/

/-- **`remove_tx`** of a held txid is its entry going, and of another nothing. -/
theorem removeTx_gone (hg : g.Lawful) (h : Coherent g s) (tx : MempoolTx) :
    ∃ t, removeTx g tx s = .ok () t ∧ Gone g s t s.txidIndex[tx.id]?.toList := by
  cases hindex : s.txidIndex[tx.id]? with
  | none =>
    refine ⟨s, Sat.eq_ok ?_, .refl h⟩
    rw [removeTx, sat_bind, sat_get, hindex]
    exact ⟨rfl, rfl⟩
  | some w =>
    obtain ⟨held, hw, -⟩ := h.held_of_index hindex
    obtain ⟨hpop, hgone⟩ := pop_gone hg h hw true
    refine ⟨_, Sat.eq_ok ?_, hgone⟩
    rw [removeTx, sat_bind, sat_get, hindex]
    show Sat (pop g w true >>= _) _ _ _
    rw [sat_bind_of_ok hpop]
    exact ⟨rfl, rfl⟩

/-- **`remove_dependents`** takes what spends `tx` and what is built on that, and no other. -/
theorem removeDependents_gone (hg : g.Lawful) (h : Coherent g s) (tx : MempoolTx) :
    ∃ t ws, removeDependents g tx s = .ok () t ∧ Gone g s t ws ∧
      ∀ x, x ∈ ws ↔ ∃ c, c ∈ s.spenders tx.id ∧ Descends s c x := by
  obtain ⟨v, hclose, hv⟩ := dependents_eq h.toIndexed tx.id
  obtain ⟨t, hpop, hgone⟩ := popAll_members hg h v fun x hx => by
    obtain ⟨c, hc, hdesc⟩ := (hv x).mp hx
    obtain ⟨held, hw, -⟩ := (h.spentBy tx.id c).mp (mem_spenders.mp hc)
    exact hdesc.mem ((FiniteMap.mem_iff_exists _ _).mpr ⟨held, hw⟩)
  refine ⟨t, v.toList, Sat.eq_ok ?_, hgone, fun x => Std.ExtTreeSet.mem_toList.trans (hv x)⟩
  rw [removeDependents, sat_bind, sat_get, hclose, sat_bind_of_ok (walked_some _ s),
    sat_of_ok hpop]
  exact ⟨rfl, rfl⟩

/-- **`remove_with_descendants`** of a held transaction takes it and what is built on it, and of
another nothing. -/
theorem removeWithDescendants_gone (hg : g.Lawful) (h : Coherent g s) (w : Txid) :
    ∃ t ws, removeWithDescendants g w s = .ok () t ∧ Gone g s t ws ∧
      ∀ x, x ∈ ws ↔ w ∈ s.transactions ∧ Descends s w x := by
  by_cases hin : w ∈ s.transactions
  · obtain ⟨tx, hw⟩ := (FiniteMap.mem_iff_exists _ _).mp hin
    obtain ⟨v, hrun, hv⟩ := descendants_eq h.toIndexed hw
    obtain ⟨t, hpop, hgone⟩ := popAll_members hg h v fun x hx => ((hv x).mp hx).mem hin
    refine ⟨t, v.toList, Sat.eq_ok ?_, hgone, fun x => ?_⟩
    · rw [removeWithDescendants, sat_bind, sat_get, if_pos hin, sat_bind_of_ok hrun,
        sat_of_ok hpop]
      exact ⟨rfl, rfl⟩
    · rw [Std.ExtTreeSet.mem_toList, hv]
      exact (and_iff_right hin).symm
  · refine ⟨s, [], Sat.eq_ok ?_, .refl h, by simp [hin]⟩
    rw [removeWithDescendants, sat_bind, sat_get, if_neg hin]
    exact ⟨rfl, rfl⟩

/-! ## A block -/

theorem Coherent.withDeltas (h : Coherent g s) (m : Std.ExtTreeMap Txid ℤ) :
    Coherent g { s with deltas := m } where
  toIndexed := { h.toIndexed with }
  sound := h.sound
  graph := h.graph

/-- Entries going do not read the deltas. -/
theorem Gone.withDeltas (h : Gone g s t ws) (m : Std.ExtTreeMap Txid ℤ) :
    Gone g { s with deltas := m } { t with deltas := m } ws :=
  { h with coherent := h.coherent.withDeltas m, deltas := rfl }

/-- A txid that is held was. -/
theorem Gone.index (h : Gone g s t ws) (hc : Coherent g s) {i : Txid} (hi : i ∈ t.txidIndex) :
    i ∈ s.txidIndex := by
  obtain ⟨w, hindex⟩ := (FiniteMap.mem_iff_exists _ _).mp hi
  obtain ⟨tx, hw, hid⟩ := h.coherent.held_of_index hindex
  exact (FiniteMap.mem_iff_exists _ _).mpr ⟨w, hid ▸ hc.index_of_held (h.held hw).2⟩

/-- An outpoint that is spent was. -/
theorem Gone.spender (h : Gone g s t ws) (hc : Coherent g s) {o : PrevOut}
    (ho : o ∈ t.outpointSpender) : o ∈ s.outpointSpender := by
  obtain ⟨w, hw⟩ := (FiniteMap.mem_iff_exists _ _).mp ho
  obtain ⟨tx, hw, hmem⟩ := (h.coherent.outpointSpender o w).mp hw
  exact (FiniteMap.mem_iff_exists _ _).mpr
    ⟨w, (hc.outpointSpender o w).mpr ⟨tx, (h.held hw).2, hmem⟩⟩

/-- What a block of `txs` leaves of `s`: neither its transactions nor what spends one of the
outpoints they spend, and of what goes all that is built on it unless the block holds it.  A
delta is dropped, or is what it was, and is for what stays. -/
structure Connected (g : ClusterGraph γ) (s t : Mempool γ) (txs : List MempoolTx)
    (ws : List Txid) : Prop where
  gone : Gone g { s with deltas := t.deltas } t ws
  held : ∀ w ∈ ws, w ∈ s.transactions
  mined : ∀ tx ∈ txs, tx.id ∉ t.txidIndex
  unspent : ∀ tx ∈ txs, ∀ o ∈ tx.vin, o ∉ t.outpointSpender
  closed : ∀ p ∈ ws, ∀ c, Child s p c →
    c ∈ ws ∨ ∃ tx : MempoolTx, s.transactions[p]? = some tx ∧ tx.id ∈ txs.map MempoolTx.id
  forgets : ∀ (i : Txid) (d : ℤ), t.deltas[i]? = some d → s.deltas[i]? = some d
  cleared : ∀ tx ∈ txs, tx.id ∉ t.deltas
  kept : ∀ i ∈ t.txidIndex, t.deltas[i]? = s.deltas[i]?

theorem Connected.nil (h : Coherent g s) : Connected g s s [] [] where
  gone := .refl h
  held := by simp
  mined := by simp
  unspent := by simp
  closed p hp := by cases hp
  forgets _ _ hd := hd
  cleared := by simp
  kept _ _ := rfl

/-- A block goes by its transactions. -/
theorem Connected.trans {txs txs' : List MempoolTx}
    (h : Connected g s t txs ws) (h' : Connected g t u txs' ws') :
    Connected g s u (txs ++ txs') (ws ++ ws') where
  gone := (h.gone.withDeltas u.deltas).trans h'.gone
  held w hw := by
    rcases List.mem_append.mp hw with hw | hw
    · exact h.held w hw
    · exact (h.gone.mem_iff.mp (h'.held w hw)).2
  mined tx htx := by
    rcases List.mem_append.mp htx with htx | htx
    · exact fun hin => h.mined tx htx (h'.gone.index (h.gone.coherent.withDeltas _) hin)
    · exact h'.mined tx htx
  unspent tx htx o ho := by
    rcases List.mem_append.mp htx with htx | htx
    · exact fun hin => h.unspent tx htx o ho (h'.gone.spender (h.gone.coherent.withDeltas _) hin)
    · exact h'.unspent tx htx o ho
  closed p hp c hchild := by
    simp only [List.map_append, List.mem_append]
    rcases List.mem_append.mp hp with hp | hp
    · rcases h.closed p hp c hchild with hcw | ⟨tx, htx, hid⟩
      · exact .inl (.inl hcw)
      · exact .inr ⟨tx, htx, .inl hid⟩
    · by_cases hcw : c ∈ ws
      · exact .inl (.inl hcw)
      · have hpw := h.gone.mem_iff.mp (h'.held p hp)
        rcases h'.closed p hp c (h.gone.child_iff.mpr ⟨hpw.1, hcw, hchild⟩) with hcw | ⟨tx, htx, hid⟩
        · exact .inl (.inr hcw)
        · exact .inr ⟨tx, (h.gone.held htx).2, .inr hid⟩
  forgets i d hd := h.forgets i d (h'.forgets i d hd)
  cleared tx htx := by
    rcases List.mem_append.mp htx with htx | htx
    · intro hin
      obtain ⟨d, hd⟩ := (FiniteMap.mem_iff_exists _ _).mp hin
      exact h.cleared tx htx ((FiniteMap.mem_iff_exists _ _).mpr ⟨d, h'.forgets _ d hd⟩)
    · exact h'.cleared tx htx
  kept i hi := (h'.kept i hi).trans (h.kept i (h'.gone.index (h.gone.coherent.withDeltas _) hi))

/-- A transaction of the block that goes first, alone. -/
theorem Connected.after_pop {txs : List MempoolTx} (h : Connected g t u txs ws)
    (hgone : Gone g s t [w]) (hw : s.transactions[w]? = some tx)
    (hid : tx.id ∈ txs.map MempoolTx.id) : Connected g s u txs ([w] ++ ws) where
  gone := (hgone.withDeltas u.deltas).trans h.gone
  held x hx := by
    rcases List.mem_append.mp hx with hx | hx
    · rw [List.mem_singleton.mp hx]
      exact (FiniteMap.mem_iff_exists _ _).mpr ⟨tx, hw⟩
    · exact (hgone.mem_iff.mp (h.held x hx)).2
  mined := h.mined
  unspent := h.unspent
  closed p hp c hchild := by
    by_cases hpw : p = w
    · exact .inr ⟨tx, hpw ▸ hw, hid⟩
    · have hp : p ∈ ws := (List.mem_append.mp hp).resolve_left (by simpa using hpw)
      by_cases hcw : c = w
      · exact .inl (List.mem_append_left _ (List.mem_singleton.mpr hcw))
      · have hchild' : Child t p c :=
          hgone.child_iff.mpr ⟨by simpa using hpw, by simpa using hcw, hchild⟩
        rcases h.closed p hp c hchild' with hc | ⟨held, hheld, hheldid⟩
        · exact .inl (List.mem_append_right _ hc)
        · exact .inr ⟨held, (hgone.held hheld).2, hheldid⟩
  forgets i d hd := by
    rw [← hgone.deltas]
    exact h.forgets i d hd
  cleared := h.cleared
  kept i hi := by
    rw [← hgone.deltas]
    exact h.kept i hi

/-- The deltas of held transactions dropped. -/
theorem clearConflicts_eq (h : Indexed s) (hheld : ∀ w ∈ ws, w ∈ s.transactions) :
    ∃ m : Std.ExtTreeMap Txid ℤ, clearConflicts ws s = .ok () { s with deltas := m } ∧
      (∀ (i : Txid) (d : ℤ), m[i]? = some d → s.deltas[i]? = some d) ∧
      ∀ i : Txid, (∀ w ∈ ws, s.txids[w]? ≠ some i) → m[i]? = s.deltas[i]? := by
  induction ws generalizing s with
  | nil => exact ⟨s.deltas, rfl, fun _ _ hd => hd, fun _ _ => rfl⟩
  | cons w ws ih =>
    obtain ⟨tx, hw⟩ := (FiniteMap.mem_iff_exists _ _).mp (hheld w List.mem_cons_self)
    obtain ⟨m, hrun, hforgets, hkept⟩ := @ih (s.clearPrioritisation tx.id) { h with }
      fun x hx => hheld x (List.mem_cons_of_mem _ hx)
    refine ⟨m, Sat.eq_ok ?_, fun i d hd => ?_, fun i hi => ?_⟩
    · rw [clearConflicts, sat_bind, sat_get, hw, sat_bind_of_ok (walked_some _ s), sat_bind,
        sat_modify, sat_of_ok hrun]
      exact ⟨rfl, rfl⟩
    · have hd := hforgets i d hd
      change (s.deltas.erase tx.id)[i]? = some d at hd
      rw [FiniteMap.getElem?_erase] at hd
      split at hd
      · cases hd
      · exact hd
    · rw [hkept i fun x hx => hi x (List.mem_cons_of_mem _ hx)]
      show (s.deltas.erase tx.id)[i]? = _
      rw [FiniteMap.getElem?_erase, if_neg]
      rintro rfl
      exact hi w List.mem_cons_self (h.txid_of_held hw)

/-- **`remove_conflicts`**, once `tx` is out, takes what spends an outpoint it spends and what is
built on that. -/
theorem removeConflicts_connected (hg : g.Lawful) (h : Coherent g s)
    (hout : tx.id ∉ s.txidIndex) :
    ∃ t ws, removeConflicts g tx s = .ok () t ∧
      Connected g s (t.clearPrioritisation tx.id) [tx] ws ∧
      ∀ x, x ∈ ws ↔ ∃ w, w ∈ s.directConflicts tx ∧ Descends s w x := by
  have hheld : ∀ w ∈ (s.directConflicts tx).toList, w ∈ s.transactions := fun w hw =>
    h.directConflicts_held (Std.ExtTreeSet.mem_toList.mp hw)
  obtain ⟨m, hclear, hforgets, hkept⟩ := clearConflicts_eq h.toIndexed hheld
  let s₁ : Mempool γ := { s with deltas := m }
  have hc₁ : Coherent g s₁ := h.withDeltas m
  obtain ⟨v, hreplaced, hv⟩ := replaced_eq hc₁.toIndexed tx
  obtain ⟨s₂, hpop, hgone⟩ := popAll_members hg hc₁ v fun x hx => by
    obtain ⟨w, hw, hdesc⟩ := (hv x).mp hx
    exact hdesc.mem (hc₁.directConflicts_held hw)
  have hws : ∀ x, x ∈ v.toList ↔ ∃ w, w ∈ s.directConflicts tx ∧ Descends s w x := fun x =>
    Std.ExtTreeSet.mem_toList.trans (hv x)
  have hgone' : Gone g { s with deltas := s₂.deltas.erase tx.id }
      (s₂.clearPrioritisation tx.id) v.toList := hgone.withDeltas _
  have hdeltas : (s₂.clearPrioritisation tx.id).deltas = m.erase tx.id := by
    show s₂.deltas.erase tx.id = _
    rw [hgone.deltas]
  refine ⟨s₂, v.toList, Sat.eq_ok ?_, ?_, hws⟩
  · rw [removeConflicts, sat_bind, sat_get, sat_bind_of_ok hclear, sat_bind_of_ok hreplaced,
      sat_of_ok hpop]
    exact ⟨rfl, rfl⟩
  · exact {
      gone := hgone'
      held := fun w hw => by
        obtain ⟨x, hx, hdesc⟩ := (hws w).mp hw
        exact hdesc.mem (h.directConflicts_held hx)
      mined := fun tx' htx' hin => by
        rw [List.mem_singleton.mp htx'] at hin
        exact hout (hgone.index hc₁ hin)
      unspent := fun tx' htx' o ho hin => by
        rw [List.mem_singleton.mp htx'] at ho
        obtain ⟨w, hw⟩ := (FiniteMap.mem_iff_exists _ _).mp hin
        obtain ⟨held, hheld, hmem⟩ := (hgone.coherent.outpointSpender o w).mp hw
        obtain ⟨hnot, hheld⟩ := hgone.held hheld
        have hconflict : w ∈ s.directConflicts tx :=
          mem_directConflicts.mpr ⟨o, ho, (h.outpointSpender o w).mpr ⟨held, hheld, hmem⟩⟩
        exact hnot ((hws w).mpr ⟨w, hconflict, .refl⟩)
      closed := fun p hp c hchild => .inl (closed_of_built hws p hp c hchild)
      forgets := fun i d hd => by
        rw [hdeltas, FiniteMap.getElem?_erase] at hd
        split at hd
        · cases hd
        · exact hforgets i d hd
      cleared := fun tx' htx' => by
        rw [List.mem_singleton.mp htx', hdeltas]
        exact notMem_erase _ _
      kept := fun i hi => by
        have hne : tx.id ≠ i := fun heq => hout (hgone.index hc₁ (heq ▸ hi))
        rw [hdeltas, FiniteMap.getElem?_erase, if_neg hne]
        refine hkept i fun w hw htxid => ?_
        -- the entry of `i` stays, and a conflict does not
        obtain ⟨x, hx⟩ := (FiniteMap.mem_iff_exists _ _).mp hi
        obtain ⟨held, hheld, hid⟩ := hgone.coherent.held_of_index hx
        obtain ⟨hnot, hheld⟩ := hgone.held hheld
        have hindex : s.txidIndex[i]? = some x := hid ▸ h.index_of_held hheld
        rw [(h.txidIndex i w).mpr htxid, Option.some.injEq] at hindex
        exact hnot ((hws x).mpr ⟨w, Std.ExtTreeSet.mem_toList.mp hw, hindex ▸ .refl⟩) }

/-- **What `remove_for_block` does of one transaction**: its entry goes, then what conflicts with
it. -/
theorem removeMined_connected (hg : g.Lawful) (h : Coherent g s) (tx : MempoolTx) :
    ∃ removed t ws, removeMined g tx s = .ok removed t ∧ Connected g s t [tx] ws := by
  cases hindex : s.txidIndex[tx.id]? with
  | none =>
    have hout : tx.id ∉ s.txidIndex := (FiniteMap.notMem_iff _ _).mpr hindex
    obtain ⟨t, ws, hrun, hconn, -⟩ := removeConflicts_connected hg h hout
    refine ⟨none, _, ws, Sat.eq_ok ?_, hconn⟩
    rw [removeMined, sat_bind, sat_get, hindex]
    show Sat (removeConflicts g tx >>= _) _ _ _
    rw [sat_bind_of_ok hrun, sat_bind, sat_modify]
    exact ⟨rfl, rfl⟩
  | some w =>
    obtain ⟨held, hw, hid⟩ := h.held_of_index hindex
    have hin : w ∈ s.transactions := (FiniteMap.mem_iff_exists _ _).mpr ⟨held, hw⟩
    obtain ⟨fee, hfee⟩ := (FiniteMap.mem_iff_exists _ _).mp ((h.fees w).mpr hin)
    obtain ⟨vsize, hvsize⟩ := (FiniteMap.mem_iff_exists _ _).mp ((h.vsizes w).mpr hin)
    obtain ⟨height, hheight⟩ := (FiniteMap.mem_iff_exists _ _).mp ((h.heights w).mpr hin)
    obtain ⟨hpop, hgone⟩ := pop_gone hg h hw false
    have hout : tx.id ∉ (s.popped g w held false).txidIndex := by
      rintro hmem
      obtain ⟨x, hx⟩ := (FiniteMap.mem_iff_exists _ _).mp hmem
      obtain ⟨held', hx, hid'⟩ := hgone.coherent.held_of_index hx
      obtain ⟨hnot, hx⟩ := hgone.held hx
      exact hnot (List.mem_singleton.mpr (h.id_unique hx hw (hid'.trans hid.symm)))
    obtain ⟨t, ws, hrun, hconn, -⟩ := removeConflicts_connected hg hgone.coherent hout
    refine ⟨some ⟨tx.id, fee, vsize, height, held.weight⟩, t.clearPrioritisation tx.id, [w] ++ ws,
      Sat.eq_ok ?_, hconn.after_pop hgone hw (by simp [hid])⟩
    rw [removeMined, sat_bind, sat_get, hindex]
    dsimp only
    rw [hfee, sat_bind_of_ok (walked_some _ s), hvsize, sat_bind_of_ok (walked_some _ s), hheight,
      sat_bind_of_ok (walked_some _ s), hw, sat_bind_of_ok (walked_some _ s),
      sat_bind_of_ok hpop, sat_bind, sat_pure]
    show Sat (removeConflicts g tx >>= _) _ _ _
    rw [sat_bind_of_ok hrun, sat_bind, sat_modify]
    exact ⟨rfl, rfl⟩

theorem removeAllMined_connected (hg : g.Lawful) (h : Coherent g s) (txs : List MempoolTx) :
    ∃ removed t ws, removeAllMined g txs s = .ok removed t ∧ Connected g s t txs ws := by
  induction txs generalizing s with
  | nil => exact ⟨[], s, [], rfl, .nil h⟩
  | cons tx txs ih =>
    obtain ⟨first, s₁, ws₁, hrun₁, hconn₁⟩ := removeMined_connected hg h tx
    obtain ⟨rest, t, ws₂, hrun₂, hconn₂⟩ := ih hconn₁.gone.coherent
    refine ⟨first.toList ++ rest, t, ws₁ ++ ws₂, Sat.eq_ok ?_, hconn₁.trans hconn₂⟩
    rw [removeAllMined, sat_bind_of_ok hrun₁, sat_bind_of_ok hrun₂]
    exact ⟨rfl, rfl⟩

/-- **`remove_for_block` does not raise** and leaves what the block allows, also where it returns
early. -/
theorem removeForBlock_connected (hg : g.Lawful) (h : Coherent g s) (txs : List MempoolTx) :
    ∃ removed t ws, removeForBlock g txs s = .ok removed t ∧ Connected g s t txs ws := by
  by_cases hearly : s.size = 0 ∧ s.deltas.isEmpty
  · have hnone : ∀ w : Txid, s.transactions[w]? = none := by
      intro w
      have hsize : s.transactions.size = 0 := by exact_mod_cast h.size.symm.trans hearly.1
      have hnil := (Std.ExtTreeMap.eq_empty_iff_size_eq_zero (t := s.transactions)).mpr hsize
      rw [hnil]
      simp
    refine ⟨[], s, [], Sat.eq_ok ?_, ?_⟩
    · rw [removeForBlock, sat_bind, sat_get, if_pos hearly]
      exact ⟨rfl, rfl⟩
    · have hindex : ∀ i : Txid, i ∉ s.txidIndex := by
        intro i hi
        obtain ⟨w, hw⟩ := (FiniteMap.mem_iff_exists _ _).mp hi
        obtain ⟨tx, hw, -⟩ := h.held_of_index hw
        rw [hnone w] at hw
        cases hw
      have hspender : ∀ o : PrevOut, o ∉ s.outpointSpender := by
        intro o ho
        obtain ⟨w, hw⟩ := (FiniteMap.mem_iff_exists _ _).mp ho
        obtain ⟨tx, hw, -⟩ := (h.outpointSpender o w).mp hw
        rw [hnone w] at hw
        cases hw
      exact { Connected.nil h with
        mined := fun tx _ => hindex tx.id
        unspent := fun _ _ o _ => hspender o
        closed := fun p hp => by cases hp
        cleared := fun tx _ hin => by
          have hempty := Std.ExtTreeMap.isEmpty_iff.mp hearly.2
          rw [hempty] at hin
          simp at hin }
  · obtain ⟨removed, s₁, ws, hrun, hconn⟩ := removeAllMined_connected hg h txs
    have hwork := doWork_gone hg hconn.gone.coherent postChangeCost
    refine ⟨removed, { s₁ with graph := g.doWork postChangeCost s₁.graph }, ws ++ [],
      Sat.eq_ok ?_, ?_⟩
    · rw [removeForBlock, sat_bind, sat_get, if_neg hearly, sat_bind_of_ok hrun, sat_bind,
        sat_modify]
      exact ⟨rfl, rfl⟩
    · exact {
        gone := hconn.gone.trans hwork
        held := by simpa using hconn.held
        mined := hconn.mined
        unspent := hconn.unspent
        closed := by simpa using hconn.closed
        forgets := hconn.forgets
        cleared := hconn.cleared
        kept := hconn.kept }

end Mempool

end BtclibNode
