/-
# What each method does

From a coherent mempool no method raises, and what it leaves is told by what went, what entered
and what was prioritised.  What goes together is closed under the spends of held transactions.
-/
import BtclibNode.Mempool.Events

namespace BtclibNode

namespace Mempool

open StateExcept

variable {γ : Type} {g : ClusterGraph γ} {s t u : Mempool γ} {w x p c : Txid} {tx : MempoolTx}
  {ws ws' : List Txid}

/-! ## What goes together -/

/-- With each of its members `ws` has what spends it. -/
def Closed (s : Mempool γ) (ws : List Txid) : Prop := ∀ p ∈ ws, ∀ c, Child s p c → c ∈ ws

theorem closed_of_built {P : Txid → Prop} (hws : ∀ x, x ∈ ws ↔ ∃ w, P w ∧ Descends s w x) :
    Closed s ws := by
  intro p hp c hc
  obtain ⟨w, hw, hdesc⟩ := (hws p).mp hp
  exact (hws c).mpr ⟨w, hw, hdesc.tail hc⟩

theorem Closed.descends (h : Closed s ws) (hp : p ∈ ws) (hdesc : Descends s p x) : x ∈ ws := by
  induction hdesc with
  | refl => exact hp
  | tail _ hstep ih => exact h _ ih _ hstep

/-- Closed sets that go one after the other are closed together. -/
theorem Closed.append (h : Closed s ws) (hgone : Gone g s t ws) (h' : Closed t ws')
    (hheld : ∀ w ∈ ws', w ∈ t.transactions) : Closed s (ws ++ ws') := by
  intro p hp c hc
  rw [List.mem_append] at hp ⊢
  rcases hp with hp | hp
  · exact .inl (h p hp c hc)
  · by_cases hcw : c ∈ ws
    · exact .inl hcw
    · have hpw : p ∉ ws := (hgone.mem_iff.mp (hheld p hp)).1
      exact .inr (h' p hp c (hgone.child_iff.mpr ⟨hpw, hcw, hc⟩))

theorem unionDescendants_eq (h : Indexed s) (hheld : ∀ w ∈ ws, w ∈ s.transactions) :
    ∃ v, unionDescendants ws s = .ok v s ∧ ∀ x, x ∈ v ↔ ∃ w ∈ ws, Descends s w x := by
  induction ws with
  | nil => exact ⟨∅, rfl, by simp⟩
  | cons w ws ih =>
    obtain ⟨tx, hw⟩ := (FiniteMap.mem_iff_exists _ _).mp (hheld w List.mem_cons_self)
    obtain ⟨v₁, hrun₁, hv₁⟩ := descendants_eq h hw
    obtain ⟨v₂, hrun₂, hv₂⟩ := ih fun x hx => hheld x (List.mem_cons_of_mem _ hx)
    refine ⟨v₁.foldl (fun u w => u.insert w) v₂, Sat.eq_ok ?_, fun x => ?_⟩
    · rw [unionDescendants, sat_bind_of_ok hrun₁, sat_bind_of_ok hrun₂]
      exact ⟨rfl, rfl⟩
    · rw [FiniteMap.mem_foldl_insert, hv₁, hv₂]
      simp

/-- `direct_conflicts` are the held spenders of what `tx` spends. -/
theorem mem_directConflicts : w ∈ s.directConflicts tx ↔
    ∃ o ∈ tx.vin, s.outpointSpender[o]? = some w := by
  unfold directConflicts
  rw [Std.ExtTreeSet.mem_ofList, List.contains_iff_mem, List.mem_filterMap]

theorem Indexed.directConflicts_held (h : Indexed s) (hw : w ∈ s.directConflicts tx) :
    w ∈ s.transactions := by
  obtain ⟨o, -, hspender⟩ := mem_directConflicts.mp hw
  obtain ⟨tx', hw', -⟩ := (h.outpointSpender o w).mp hspender
  exact (FiniteMap.mem_iff_exists _ _).mpr ⟨tx', hw'⟩

/-- `_replaced`: the conflicts and what is built on them. -/
theorem replaced_eq (h : Indexed s) (tx : MempoolTx) :
    ∃ v, replaced tx s = .ok v s ∧
      ∀ x, x ∈ v ↔ ∃ w, w ∈ s.directConflicts tx ∧ Descends s w x := by
  have hheld : ∀ w ∈ (s.directConflicts tx).toList, w ∈ s.transactions := fun w hw =>
    h.directConflicts_held (Std.ExtTreeSet.mem_toList.mp hw)
  obtain ⟨v, hrun, hv⟩ := unionDescendants_eq h hheld
  refine ⟨v, Sat.eq_ok ?_, fun x => ?_⟩
  · rw [replaced, sat_bind, sat_get, sat_of_ok hrun]
    exact ⟨rfl, rfl⟩
  · rw [hv]
    simp only [Std.ExtTreeSet.mem_toList]

theorem sortReplaced_eq (h : Indexed s) (hheld : ∀ w ∈ ws, w ∈ s.transactions) :
    ∃ keyed, sortReplaced ws s = .ok keyed s ∧ keyed.map Prod.fst = ws := by
  induction ws with
  | nil => exact ⟨[], rfl, rfl⟩
  | cons w ws ih =>
    obtain ⟨tx, hw⟩ := (FiniteMap.mem_iff_exists _ _).mp (hheld w List.mem_cons_self)
    obtain ⟨keyed, hrun, hmap⟩ := ih fun x hx => hheld x (List.mem_cons_of_mem _ hx)
    refine ⟨(w, tx.id.internal) :: keyed, Sat.eq_ok ?_, by rw [List.map_cons, hmap]⟩
    rw [sortReplaced, sat_bind, sat_get, h.txid_of_held hw, sat_bind_of_ok (walked_some _ s),
      sat_bind_of_ok hrun]
    exact ⟨rfl, rfl⟩

/-- **`_remove_replaced` of held transactions is those entries going.** -/
theorem removeReplaced_gone (hg : g.Lawful) (h : Coherent g s) (hnodup : ws.Nodup)
    (hheld : ∀ w ∈ ws, w ∈ s.transactions) :
    ∃ t, removeReplaced g ws s = .ok () t ∧ Gone g s t ws := by
  obtain ⟨keyed, hrun, hmap⟩ := sortReplaced_eq h.toIndexed hheld
  have hperm : ((sortOctets Prod.snd keyed).map Prod.fst).Perm ws := by
    rw [← hmap]
    exact (List.mergeSort_perm keyed _).map _
  obtain ⟨t, hpop, hgone⟩ := popAll_gone hg h (hperm.nodup_iff.mpr hnodup) fun w hw =>
    hheld w (hperm.mem_iff.mp hw)
  refine ⟨t, Sat.eq_ok ?_, hgone.congr fun x => hperm.mem_iff⟩
  rw [removeReplaced, sat_bind_of_ok hrun, sat_of_ok hpop]
  exact ⟨rfl, rfl⟩

/-- What a walk found goes, each once. -/
theorem popAll_members (hg : g.Lawful) (h : Coherent g s) (v : Std.ExtTreeSet Txid)
    (hheld : ∀ w ∈ v, w ∈ s.transactions) :
    ∃ t, popAll g v.toList s = .ok () t ∧ Gone g s t v.toList :=
  popAll_gone hg h (FiniteMap.nodup_members v) fun w hw =>
    hheld w (Std.ExtTreeSet.mem_toList.mp hw)

/-! ## Expiry -/

/-- `w` is held since before `cutoff`. -/
def OlderThan (s : Mempool γ) (cutoff : ℤ) (w : Txid) : Prop :=
  ∃ time : ℚ, s.entryTimes[w]? = some time ∧ time < (cutoff : ℚ)

theorem mem_expired {cutoff : ℤ} : w ∈ s.expired cutoff ↔ OlderThan s cutoff w := by
  unfold expired OlderThan
  rw [List.mem_map]
  constructor
  · rintro ⟨⟨w, time⟩, hrow, rfl⟩
    rw [List.mem_filter, FiniteMap.mem_toList] at hrow
    exact ⟨time, hrow.1, by simpa using hrow.2⟩
  · rintro ⟨time, hw, hlt⟩
    refine ⟨(w, time), ?_, rfl⟩
    rw [List.mem_filter, FiniteMap.mem_toList]
    exact ⟨hw, by simpa using hlt⟩

theorem foldl_min_le (rows : List (Txid × ℚ)) (time : WithTop ℚ) :
    rows.foldl (fun t row => min t (row.2 : WithTop ℚ)) time ≤ time ∧
      ∀ row ∈ rows, rows.foldl (fun t row => min t (row.2 : WithTop ℚ)) time ≤ row.2 := by
  induction rows generalizing time with
  | nil => simp
  | cons row rows ih =>
    obtain ⟨hle, hall⟩ := ih (min time (row.2 : WithTop ℚ))
    rw [List.foldl_cons]
    refine ⟨hle.trans (min_le_left _ _), fun row' hrow => ?_⟩
    rcases List.mem_cons.mp hrow with rfl | hrow
    · exact hle.trans (min_le_right _ _)
    · exact hall row' hrow

/-- No entry is older than the oldest. -/
theorem oldest_le {time : ℚ} (hw : s.entryTimes[w]? = some time) :
    s.oldest ≤ (time : WithTop ℚ) :=
  (foldl_min_le s.entryTimes.toList ⊤).2 (w, time) ((FiniteMap.mem_toList _ _ _).mpr hw)

theorem OlderThan.held (h : Indexed s) {cutoff : ℤ} (hw : OlderThan s cutoff w) :
    w ∈ s.transactions := by
  obtain ⟨time, hw, -⟩ := hw
  exact (h.entryTimes w).mp ((FiniteMap.mem_iff_exists _ _).mpr ⟨time, hw⟩)

/-- **`expire` takes the entries older than the cutoff with what is built on them, and no
other**, also where it returns early, and says how many. -/
theorem expire_gone (hg : g.Lawful) (h : Coherent g s) (now : ℚ) :
    ∃ t ws, expire g now s = .ok ws.length t ∧ Gone g s t ws ∧ ws.Nodup ∧
      (∀ x, x ∈ ws ↔ ∃ w, OlderThan s (truncateTime now - s.expiry) w ∧ Descends s w x) := by
  let cutoff := truncateTime now - s.expiry
  by_cases hearly : ((cutoff : ℚ) : WithTop ℚ) ≤ s.oldestEntryTime
  · -- no entry is older than the lower bound
    have hnone : ∀ w, ¬ OlderThan s cutoff w := by
      rintro w ⟨time, hw, hlt⟩
      have hle := hearly.trans (h.oldest w time hw)
      exact absurd (WithTop.coe_le_coe.mp hle) (not_le.mpr hlt)
    refine ⟨s, [], Sat.eq_ok ?_, .refl h, List.nodup_nil, fun x => ?_⟩
    · rw [expire, sat_bind, sat_get]
      show Sat (if ((cutoff : ℚ) : WithTop ℚ) ≤ s.oldestEntryTime then _ else _) _ _ _
      rw [if_pos hearly]
      exact ⟨rfl, rfl⟩
    · constructor
      · rintro ⟨⟩
      · rintro ⟨w, hw, -⟩
        exact absurd hw (hnone w)
  · have hheld : ∀ w ∈ s.expired cutoff, w ∈ s.transactions := fun w hw =>
      (mem_expired.mp hw).held h.toIndexed
    obtain ⟨stage, hrun, hstage⟩ := unionDescendants_eq h.toIndexed hheld
    have hmem : ∀ x, x ∈ stage.toList ↔ ∃ w, OlderThan s cutoff w ∧ Descends s w x := by
      intro x
      rw [Std.ExtTreeSet.mem_toList, hstage]
      exact exists_congr fun w => and_congr_left fun _ => mem_expired
    obtain ⟨t, hpop, hgone⟩ := popAll_members hg h stage fun x hx => by
      obtain ⟨w, hw, hdesc⟩ := (hmem x).mp (Std.ExtTreeSet.mem_toList.mpr hx)
      exact hdesc.mem (hw.held h.toIndexed)
    have hcoherent : Coherent g { t with oldestEntryTime := t.oldest } := {
      toIndexed := { hgone.coherent.toIndexed with oldest := fun _ _ hw => oldest_le hw }
      sound := hgone.coherent.sound
      graph := hgone.coherent.graph }
    refine ⟨{ t with oldestEntryTime := t.oldest }, stage.toList, Sat.eq_ok ?_,
      { hgone with coherent := hcoherent }, FiniteMap.nodup_members stage, hmem⟩
    rw [expire, sat_bind, sat_get]
    show Sat (if ((cutoff : ℚ) : WithTop ℚ) ≤ s.oldestEntryTime then _ else _) _ _ _
    rw [if_neg hearly, sat_bind_of_ok hrun, sat_bind_of_ok hpop, sat_bind, sat_modify,
      Std.ExtTreeSet.length_toList]
    exact ⟨rfl, rfl⟩

/-! ## Eviction -/

/-- What spends a held transaction is built on it in the graph. -/
def Linked (g : ClusterGraph γ) (s : Mempool γ) : Prop :=
  ∀ p c, Child s p c → g.depends s.graph p c

theorem Linked.gone (h : Linked g s) (hgone : Gone g s t ws) : Linked g t := by
  intro p c hc
  obtain ⟨hp, hcw, hc⟩ := hgone.child_iff.mp hc
  exact (hgone.depends p c).mpr ⟨hp, hcw, h p c hc⟩

/-- Coherence does not read the rolling minimum. -/
theorem Coherent.trackPackageRemoved (h : Coherent g s) (rate : ℤ) :
    Coherent g (s.trackPackageRemoved rate) := by
  unfold Mempool.trackPackageRemoved
  split
  · exact { toIndexed := { h.toIndexed with }, sound := h.sound, graph := h.graph }
  · exact h

theorem trackPackageRemoved_gone (h : Coherent g s) (rate : ℤ) :
    Gone g s (s.trackPackageRemoved rate) [] := by
  have hc := h.trackPackageRemoved rate
  unfold Mempool.trackPackageRemoved at hc ⊢
  split at hc <;> rename_i hlt
  · rw [if_pos hlt]
    exact .quiet hc rfl rfl rfl rfl rfl (.refl s) fun _ _ => Iff.rfl
  · rw [if_neg hlt]
    exact .refl h

/-- Another graph that holds the same. -/
theorem Coherent.unchanged (h : Coherent g s) {gr : γ} (hu : g.Unchanged s.graph gr) :
    Gone g s { s with graph := gr } [] :=
  .quiet (h.withGraph hu.sound hu.feerate) rfl rfl rfl rfl rfl (.refl s) hu.depends

/-- A held transaction weighs something, and so does a chunk. -/
theorem Coherent.chunk_size (hg : g.Lawful) (h : Coherent g s) {refs : List Txid}
    {feerate : FeeFrac} (hchunk : (g.worstChunk s.graph).1 = some (refs, feerate)) :
    Int.fdiv (feerate.size + 3) 4 ≠ 0 := by
  obtain ⟨hne, -, hheld, hsize, -⟩ := hg.worstChunk_some s.graph refs feerate h.sound hchunk
  have hpos : ∀ w ∈ refs, 0 < (g.feerate? s.graph w).elim 0 FeeFrac.size := by
    intro w hw
    obtain ⟨fr, hfr⟩ := Option.isSome_iff_exists.mp (hheld w hw)
    obtain ⟨fee, weight, -, hweight, rfl⟩ := (h.graph w fr).mp hfr
    rw [hfr]
    exact Int.natCast_pos.mpr (h.weights_pos w weight hweight)
  have hsum : 0 < feerate.size := by
    rw [hsize]
    refine List.sum_pos _ ?_ (by simpa using hne)
    intro n hn
    obtain ⟨w, hw, rfl⟩ := List.mem_map.mp hn
    exact hpos w hw
  rw [Int.fdiv_eq_ediv_of_nonneg _ (by norm_num)]
  omega

/-- A turn of the loop below the limit. -/
theorem evictLoop_below {fuel : ℕ} (hbelow : ¬ s.bytesizeLimit < s.bytesize) :
    evictLoop g (fuel + 1) s = .ok () s := by
  refine Sat.eq_ok ?_
  rw [evictLoop, sat_bind, sat_get]
  show Sat (if s.bytesizeLimit < s.bytesize then _ else _) _ _ _
  rw [if_neg hbelow]
  exact ⟨rfl, rfl⟩

/-- A turn of the loop above the limit, of a graph with no chunk. -/
theorem evictLoop_empty {fuel : ℕ} (hfull : s.bytesizeLimit < s.bytesize)
    (hchunk : (g.worstChunk s.graph).1 = none) :
    evictLoop g (fuel + 1) s = .ok () { s with graph := (g.worstChunk s.graph).2 } := by
  refine Sat.eq_ok ?_
  rw [evictLoop, sat_bind, sat_get]
  show Sat (if s.bytesizeLimit < s.bytesize then _ else _) _ _ _
  rw [if_pos hfull]
  dsimp only
  rw [sat_bind, sat_set, hchunk]
  exact ⟨rfl, rfl⟩

/-- A turn of the loop above the limit, up to the chunk that goes. -/
theorem sat_evictLoop_chunk {fuel : ℕ} {Q : Unit → Mempool γ → Prop}
    {E : MempoolError → Mempool γ → Prop} (hfull : s.bytesizeLimit < s.bytesize)
    {refs : List Txid} {feerate : FeeFrac}
    (hchunk : (g.worstChunk s.graph).1 = some (refs, feerate))
    (hvsize : Int.fdiv (feerate.size + 3) 4 ≠ 0) :
    Sat (evictLoop g (fuel + 1)) s Q E ↔
      Sat (popAll g refs.reverse >>= fun _ => evictLoop g fuel)
        (Mempool.trackPackageRemoved { s with graph := (g.worstChunk s.graph).2 }
          (Int.fdiv (feerate.fee * 1000) (Int.fdiv (feerate.size + 3) 4) +
            s.incrementalRelayFeerate)) Q E := by
  rw [evictLoop, sat_bind, sat_get]
  show Sat (if s.bytesizeLimit < s.bytesize then _ else _) _ _ _ ↔ _
  rw [if_pos hfull]
  dsimp only
  rw [sat_bind, sat_set, hchunk]
  dsimp only
  rw [if_neg hvsize, sat_bind, sat_modify]

/-- **The loop of `_evict_to_limit` ends below the limit**, each turn taking the end of a
cluster. -/
theorem evictLoop_gone (hg : g.Lawful) {fuel : ℕ} (h : Coherent g s)
    (hfuel : s.transactions.size < fuel) :
    ∃ t ws, evictLoop g fuel s = .ok () t ∧ Gone g s t ws ∧ (∀ w ∈ ws, w ∈ s.transactions) ∧
      (Linked g s → Closed s ws) ∧ (0 ≤ s.bytesizeLimit → t.bytesize ≤ s.bytesizeLimit) := by
  induction fuel generalizing s with
  | zero => omega
  | succ fuel ih =>
    by_cases hfull : s.bytesizeLimit < s.bytesize
    swap
    · refine ⟨s, [], evictLoop_below hfull, .refl h, by simp, fun _ p hp => ?_, fun _ => by omega⟩
      cases hp
    have hread := h.unchanged (hg.worstChunk s.graph h.sound)
    cases hchunk : (g.worstChunk s.graph).1 with
    | none =>
      have hnone := hg.worstChunk_none s.graph h.sound hchunk
      refine ⟨_, [], evictLoop_empty hfull hchunk, hread, by simp, fun _ p hp => ?_, ?_⟩
      · cases hp
      · -- nothing is held, so nothing counts
        intro hlimit
        have hempty : s.vsizes = ∅ := by
          refine Std.ExtTreeMap.ext_getElem? fun w => ?_
          have hw : w ∉ s.vsizes := by
            rw [h.vsizes w, ← h.mem_graph_iff, hnone w]
            simp
          rw [(FiniteMap.notMem_iff _ _).mp hw]
          simp
        show s.bytesize ≤ s.bytesizeLimit
        rw [h.bytesize, hempty, total_empty]
        exact hlimit
    | some chunk =>
      obtain ⟨refs, feerate⟩ := chunk
      obtain ⟨hne, hnodup, hheld, -, hclosed⟩ :=
        hg.worstChunk_some s.graph refs feerate h.sound hchunk
      let rate := Int.fdiv (feerate.fee * 1000) (Int.fdiv (feerate.size + 3) 4) +
        s.incrementalRelayFeerate
      have hrate := hread.trans (trackPackageRemoved_gone hread.coherent rate)
      have hin : ∀ w ∈ refs.reverse, w ∈ s.transactions := fun w hw =>
        h.mem_graph_iff.mp (hheld w (List.mem_reverse.mp hw))
      obtain ⟨s₁, hpop, hgone₁⟩ := popAll_gone hg hrate.coherent
        (List.nodup_reverse.mpr hnodup) fun w hw => hrate.mem_iff.mpr ⟨by simp, hin w hw⟩
      have hgone := hrate.trans hgone₁
      -- the chunk has a transaction, so fewer are held
      have hless : s₁.transactions.size < fuel := by
        obtain ⟨w, hw⟩ := List.exists_mem_of_ne_nil refs hne
        have hw := List.mem_reverse.mpr hw
        have hlt := hgone.size_lt (List.mem_append_right _ hw) (hin w hw)
        omega
      obtain ⟨t, ws, hrun, hgone', hheld', hclosed', hlimit⟩ := ih hgone.coherent hless
      refine ⟨t, refs.reverse ++ ws, Sat.eq_ok ?_, hgone.trans hgone', ?_, ?_, ?_⟩
      · rw [sat_evictLoop_chunk hfull hchunk (h.chunk_size hg hchunk), sat_bind_of_ok hpop,
          sat_of_ok hrun]
        exact ⟨rfl, rfl⟩
      · intro w hw
        rcases List.mem_append.mp hw with hw | hw
        · exact hin w hw
        · exact (hgone.mem_iff.mp (hheld' w hw)).2
      · intro hlinked
        have hchunk_closed : Closed s refs.reverse := by
          intro p hp c hc
          exact List.mem_reverse.mpr (hclosed p (List.mem_reverse.mp hp) c (hlinked p c hc))
        exact hchunk_closed.append hgone (hclosed' (hlinked.gone hgone)) hheld'
      · intro hpos
        rw [hgone.limits.1] at hlimit
        exact hlimit hpos

/-- **`_evict_to_limit` ends below the limit**, with what it expires and what it evicts. -/
theorem evictToLimit_gone (hg : g.Lawful) (h : Coherent g s) (now : ℚ) :
    ∃ t ws, evictToLimit g now s = .ok () t ∧ Gone g s t ws ∧ (∀ w ∈ ws, w ∈ s.transactions) ∧
      (Linked g s → Closed s ws) ∧ (0 ≤ s.bytesizeLimit → t.bytesize ≤ s.bytesizeLimit) ∧
      ∀ x, OlderThan s (truncateTime now - s.expiry) x → x ∈ ws := by
  obtain ⟨s₁, ws₁, hexpire, hgone₁, -, hws₁⟩ := expire_gone hg h now
  obtain ⟨t, ws₂, hloop, hgone₂, hheld₂, hclosed₂, hlimit⟩ :=
    evictLoop_gone hg hgone₁.coherent (Nat.lt_succ_self s₁.transactions.size)
  refine ⟨t, ws₁ ++ ws₂, Sat.eq_ok ?_, hgone₁.trans hgone₂, ?_, ?_, ?_, ?_⟩
  · rw [evictToLimit, sat_bind_of_ok hexpire, sat_bind, sat_get, sat_of_ok hloop]
    exact ⟨rfl, rfl⟩
  · intro w hw
    rcases List.mem_append.mp hw with hw | hw
    · obtain ⟨x, hx, hdesc⟩ := (hws₁ w).mp hw
      exact hdesc.mem (hx.held h.toIndexed)
    · exact (hgone₁.mem_iff.mp (hheld₂ w hw)).2
  · intro hlinked
    exact (closed_of_built hws₁).append hgone₁ (hclosed₂ (hlinked.gone hgone₁)) hheld₂
  · intro hpos
    rw [hgone₁.limits.1] at hlimit
    exact hlimit hpos
  · intro x hx
    exact List.mem_append_left _ ((hws₁ x).mpr ⟨x, hx, .refl⟩)

/-! ## Adding -/

/-- What a txid and a wtxid, being hashes, promise of a transaction: no outpoint is spent twice,
its own outputs are not spent, and a wtxid that is held is the wtxid of this txid. -/
structure Formed (s : Mempool γ) (tx : MempoolTx) : Prop where
  nodup : tx.vin.Nodup
  other : tx.id ∉ tx.vin.map PrevOut.txId
  hash : tx.hash ∈ s.transactions → tx.id ∈ s.txidIndex

theorem Formed.gone (h : Formed s tx) (hc : Coherent g s) (hgone : Gone g s t ws)
    (hid : tx.id ∉ s.txidIndex) : tx.id ∉ t.txidIndex ∧ Formed t tx := by
  have hid' : tx.id ∉ t.txidIndex := by
    intro hin
    obtain ⟨w, hw⟩ := (FiniteMap.mem_iff_exists _ _).mp hin
    obtain ⟨tx', hw', heq⟩ := hgone.coherent.held_of_index hw
    have hindex := hc.index_of_held (hgone.held hw').2
    exact hid ((FiniteMap.mem_iff_exists _ _).mpr ⟨w, heq ▸ hindex⟩)
  exact ⟨hid', h.nodup, h.other, fun hin => absurd (h.hash (hgone.mem_iff.mp hin).2) hid⟩

theorem Formed.enters (h : Formed s tx) (hid : tx.id ∉ s.txidIndex)
    (hunspent : ∀ o ∈ tx.vin, o ∉ s.outpointSpender) : Enters s tx :=
  ⟨hid, fun hin => hid (h.hash hin), h.nodup, h.other, hunspent⟩

/-- The time of a held entry set. -/
theorem Entered.setEntryTime {fee : ℤ} (h : Entered g s t tx fee) (time : ℚ) :
    Entered g s (t.setEntryTime tx.hash time) tx fee := by
  have hmem : tx.hash ∈ t.transactions := by
    rw [h.transactions]
    exact Std.ExtTreeMap.mem_insert_self
  have hindexed : Indexed (t.setEntryTime tx.hash time) := {
    h.coherent.toIndexed with
    entryTimes := fun x => ?_
    oldest := fun x time' hx => ?_ }
  · exact { h with coherent := {
      toIndexed := hindexed
      sound := h.coherent.sound
      graph := h.coherent.graph } }
  · show x ∈ t.entryTimes.insert tx.hash time ↔ x ∈ t.transactions
    rw [Std.ExtTreeMap.mem_insert, Std.LawfulEqCmp.compare_eq_iff_eq, h.coherent.entryTimes x]
    constructor
    · rintro (rfl | hx)
      · exact hmem
      · exact hx
    · exact .inr
  · change (t.entryTimes.insert tx.hash time)[x]? = some time' at hx
    show min t.oldestEntryTime (time : WithTop ℚ) ≤ time'
    rw [FiniteMap.getElem?_insert] at hx
    split at hx
    · rw [Option.some.injEq] at hx
      rw [hx]
      exact min_le_right _ _
    · exact (min_le_left _ _).trans (h.coherent.oldest x time' hx)

theorem doWork_gone (hg : g.Lawful) (h : Coherent g s) (cost : ℕ) :
    Gone g s { s with graph := g.doWork cost s.graph } [] :=
  h.unchanged (hg.doWork s.graph cost h.sound)

/-- How `add_tx` ends: of a txid that is held it does nothing; a conflict that `replaced` leaves
is refused once the others are gone; else the transaction enters, and a trim may follow. -/
inductive Adds (g : ClusterGraph γ) (s t : Mempool γ) (tx : MempoolTx) (fee : ℤ)
    (replaced : List Txid) (trim : Bool) (cutoff : ℤ) : Bool → Prop
  | held (hid : tx.id ∈ s.txidIndex) (hsame : t = s) : Adds g s t tx fee replaced trim cutoff false
  | conflict (hid : tx.id ∉ s.txidIndex) (hgone : Gone g s t replaced)
      (hspent : ∃ o ∈ tx.vin, o ∈ t.outpointSpender) : Adds g s t tx fee replaced trim cutoff false
  | entered {s₁ s₂ : Mempool γ} {ws : List Txid} (hid : tx.id ∉ s.txidIndex)
      (hgone : Gone g s s₁ replaced) (henters : Enters s₁ tx) (hentered : Entered g s₁ s₂ tx fee)
      (hrest : Gone g s₂ t ws) (hws : ∀ w ∈ ws, w ∈ s₂.transactions)
      (hkeep : trim = false → ws = [])
      (hclosed : Linked g s₂ → Closed s₂ ws)
      (hlimit : trim = true → 0 ≤ s.bytesizeLimit → t.bytesize ≤ s.bytesizeLimit)
      (hexpired : trim = true → ∀ w, OlderThan s₂ cutoff w → w ∈ ws) :
      Adds g s t tx fee replaced trim cutoff (decide (tx.hash ∈ t.transactions))

section AddTx

variable {now : ℚ} {fee : ℤ} {vsize weight : Option ℕ} {replaced : List Txid} {height : ℕ}
  {trim : Bool} {entryTime : Option ℚ} {bypassLimits : Bool}

/-- What `add_tx` does once `tx` is in. -/
private def settle (g : ClusterGraph γ) (now : ℚ) (tx : MempoolTx) (trim : Bool) :
    MempoolM γ Bool := do
  modify fun s => { s with graph := g.doWork postChangeCost s.graph }
  if trim then evictToLimit g now
  return decide (tx.hash ∈ (← get).transactions)

private theorem settle_adds (hg : g.Lawful) (hid : tx.id ∉ s.txidIndex) {s₁ : Mempool γ}
    (hgone : Gone g s s₁ replaced) (henters : Enters s₁ tx) (hu : Entered g s₁ u tx fee) :
    ∃ kept t, settle g now tx trim u = .ok kept t ∧
      Adds g s t tx fee replaced trim (truncateTime now - s.expiry) kept := by
  have hwork := doWork_gone hg hu.coherent postChangeCost
  have hlimits := hgone.limits.trans (hu.limits.trans hwork.limits)
  cases trim with
  | false =>
    refine ⟨_, _, Sat.eq_ok ?_, .entered hid hgone henters hu hwork (by simp) (fun _ => rfl)
      (fun _ p hp => by cases hp) (by simp) (by simp)⟩
    rw [settle, sat_bind, sat_modify]
    exact ⟨rfl, rfl⟩
  | true =>
    obtain ⟨t, ws, hrun, hgone', hheld', hclosed, hlimit, hexpired⟩ :=
      evictToLimit_gone hg hwork.coherent now
    refine ⟨_, t, Sat.eq_ok ?_, .entered hid hgone henters hu (hwork.trans hgone')
      (fun w hw => (hwork.mem_iff.mp (hheld' w hw)).2) (by simp) (fun hlinked => ?_)
      (fun _ hpos => ?_) fun _ w hw => ?_⟩
    · rw [settle, sat_bind, sat_modify]
      show Sat (evictToLimit g now >>= _) _ _ _
      rw [sat_bind_of_ok hrun, sat_bind, sat_get]
      exact ⟨rfl, rfl⟩
    · have hnone : Closed u [] := fun p hp => by cases hp
      exact hnone.append hwork (hclosed (hlinked.gone hwork)) hheld'
    · rw [← hlimits.1]
      exact hlimit (hlimits.1 ▸ hpos)
    · rw [← hlimits.2.1] at hw
      exact hexpired w hw

/-- **`add_tx` does not raise**, and ends in one of its ways. -/
theorem addTx_adds (hg : g.Lawful) (h : Coherent g s) (hformed : Formed s tx)
    (hnodup : replaced.Nodup) (hheld : ∀ w ∈ replaced, w ∈ s.transactions)
    (hpos : 0 < weight.getD (weightOf tx vsize)) :
    ∃ kept t, addTx g now tx fee vsize weight replaced height trim entryTime bypassLimits s =
        .ok kept t ∧ Adds g s t tx fee replaced trim (truncateTime now - s.expiry) kept := by
  by_cases hid : tx.id ∈ s.txidIndex
  · refine ⟨false, s, Sat.eq_ok ?_, .held hid rfl⟩
    rw [addTx, sat_bind, sat_get, if_pos hid]
    exact ⟨rfl, rfl⟩
  obtain ⟨s₁, hreplaced, hgone⟩ := removeReplaced_gone hg h hnodup hheld
  obtain ⟨hid₁, hformed₁⟩ := hformed.gone h hgone hid
  by_cases hspent : tx.vin.any fun vin => decide (vin ∈ s₁.outpointSpender)
  · obtain ⟨o, ho, hin⟩ := List.any_eq_true.mp hspent
    refine ⟨false, s₁, Sat.eq_ok ?_, .conflict hid hgone ⟨o, ho, of_decide_eq_true hin⟩⟩
    rw [addTx, sat_bind, sat_get, if_neg hid]
    dsimp only
    rw [sat_bind_of_ok hreplaced, sat_bind, sat_get, if_pos hspent]
    exact ⟨rfl, rfl⟩
  have henters : Enters s₁ tx := hformed₁.enters hid₁ fun o ho hin =>
    hspent (List.any_eq_true.mpr ⟨o, ho, decide_eq_true hin⟩)
  obtain ⟨s₂, hinsert, hentered⟩ := @insert_entered _ _ _ _ now fee vsize weight height
    bypassLimits hg hgone.coherent henters hpos
  cases entryTime with
  | none =>
    obtain ⟨kept, t, hrun, hadds⟩ := settle_adds hg hid hgone henters hentered
    refine ⟨kept, t, Sat.eq_ok ?_, hadds⟩
    rw [addTx, sat_bind, sat_get, if_neg hid]
    dsimp only
    rw [sat_bind_of_ok hreplaced, sat_bind, sat_get, if_neg hspent, sat_bind_of_ok hinsert]
    show Sat (settle g now tx trim) _ _ _
    rw [sat_of_ok hrun]
    exact ⟨rfl, rfl⟩
  | some time =>
    obtain ⟨kept, t, hrun, hadds⟩ :=
      settle_adds hg hid hgone henters (hentered.setEntryTime time)
    refine ⟨kept, t, Sat.eq_ok ?_, hadds⟩
    rw [addTx, sat_bind, sat_get, if_neg hid]
    dsimp only
    rw [sat_bind_of_ok hreplaced, sat_bind, sat_get, if_neg hspent, sat_bind_of_ok hinsert,
      sat_bind, sat_modify]
    show Sat (settle g now tx trim) _ _ _
    rw [sat_of_ok hrun]
    exact ⟨rfl, rfl⟩

end AddTx

/-! ## Adding a package -/

/-- What `pre_verify_subpackage` promises of the members of a package once `replaced` is gone:
each may enter, and no two are one transaction or spend one outpoint. -/
structure Joins (s : Mempool γ) (replaced : List Txid) (members : List Member) : Prop where
  id : ∀ m ∈ members, m.tx.id ∉ s.txidIndex
  formed : ∀ m ∈ members, Formed s m.tx
  conflicts : ∀ m ∈ members, ∀ o ∈ m.tx.vin, ∀ w : Txid, s.outpointSpender[o]? = some w →
    w ∈ replaced
  apart : members.Pairwise fun m m' =>
    m.tx.id ≠ m'.tx.id ∧ m.tx.hash ≠ m'.tx.hash ∧ ∀ o ∈ m.tx.vin, o ∉ m'.tx.vin
  weight : ∀ m ∈ members, 0 < m.weight.getD (weightOf m.tx (some m.vsize))

/-- What a transaction that may enter finds changed once another is in. -/
theorem Enters.entered {tx' : MempoolTx} {fee : ℤ} (h : Enters s tx') (hc : Coherent g s)
    (ht : Entered g s t tx fee) (hid : tx.id ≠ tx'.id) (hhash : tx.hash ≠ tx'.hash)
    (hins : ∀ o ∈ tx.vin, o ∉ tx'.vin) : Enters t tx' := by
  have hheld : ∀ (x : Txid) (held : MempoolTx), t.transactions[x]? = some held →
      held = tx ∨ s.transactions[x]? = some held := by
    intro x held hx
    rw [ht.transactions, FiniteMap.getElem?_insert] at hx
    split at hx
    · exact .inl (Option.some.inj hx).symm
    · exact .inr hx
  refine ⟨fun hin => ?_, fun hin => ?_, h.nodup, h.other, fun o ho hin => ?_⟩
  · obtain ⟨w, hw⟩ := (FiniteMap.mem_iff_exists _ _).mp hin
    obtain ⟨held, hw, hsame⟩ := ht.coherent.held_of_index hw
    rcases hheld w held hw with rfl | hw
    · exact hid hsame
    · exact h.id ((FiniteMap.mem_iff_exists _ _).mpr ⟨w, hsame ▸ hc.index_of_held hw⟩)
  · rw [ht.transactions, Std.ExtTreeMap.mem_insert, Std.LawfulEqCmp.compare_eq_iff_eq] at hin
    exact hin.elim hhash h.hash
  · obtain ⟨w, hw⟩ := (FiniteMap.mem_iff_exists _ _).mp hin
    obtain ⟨held, hw, hmem⟩ := (ht.coherent.outpointSpender o w).mp hw
    rcases hheld w held hw with rfl | hw
    · exact hins o hmem ho
    · exact h.unspent o ho ((FiniteMap.mem_iff_exists _ _).mpr
        ⟨w, (hc.outpointSpender o w).mpr ⟨held, hw, hmem⟩⟩)

/-- **The loop of `add_package` is its members entering, one after the other.** -/
theorem insertMembers_path (hg : g.Lawful) {members : List Member} (h : Coherent g s)
    (henters : ∀ m ∈ members, Enters s m.tx)
    (hapart : members.Pairwise fun m m' =>
      m.tx.id ≠ m'.tx.id ∧ m.tx.hash ≠ m'.tx.hash ∧ ∀ o ∈ m.tx.vin, o ∉ m'.tx.vin)
    (hpos : ∀ m ∈ members, 0 < m.weight.getD (weightOf m.tx (some m.vsize))) (now : ℚ)
    (height : ℕ) :
    ∃ t, insertMembers g now height members s = .ok () t ∧ Coherent g t ∧ SameLimits s t ∧
      Path g s (members.map fun m => .entered m.tx m.fee) t := by
  induction members generalizing s with
  | nil => exact ⟨s, rfl, h, .refl s, .nil s⟩
  | cons m members ih =>
    rw [List.pairwise_cons] at hapart
    have hfirst := henters m List.mem_cons_self
    obtain ⟨s₁, hinsert, hentered⟩ := @insert_entered _ _ _ _ now m.fee (some m.vsize) m.weight
      height false hg h hfirst (hpos m List.mem_cons_self)
    obtain ⟨t, hrun, hc, hlimits, hpath⟩ := ih hentered.coherent (fun m' hm' => by
      obtain ⟨hid, hhash, hins⟩ := hapart.1 m' hm'
      exact (henters m' (List.mem_cons_of_mem _ hm')).entered h hentered hid hhash hins)
      hapart.2 fun m' hm' => hpos m' (List.mem_cons_of_mem _ hm')
    refine ⟨t, Sat.eq_ok ?_, hc, hentered.limits.trans hlimits, .cons ⟨hfirst, hentered⟩ hpath⟩
    rw [insertMembers, sat_bind_of_ok hinsert, sat_of_ok hrun]
    exact ⟨rfl, rfl⟩

/-- Once what they conflict with is gone, the members may enter. -/
theorem Joins.enters {replaced : List Txid} {members : List Member} (h : Joins s replaced members)
    (hc : Coherent g s) (hgone : Gone g s t replaced) : ∀ m ∈ members, Enters t m.tx := by
  intro m hm
  obtain ⟨hid, hformed⟩ := (h.formed m hm).gone hc hgone (h.id m hm)
  refine hformed.enters hid fun o ho hin => ?_
  obtain ⟨w, hw⟩ := (FiniteMap.mem_iff_exists _ _).mp hin
  obtain ⟨held, hw, hmem⟩ := (hgone.coherent.outpointSpender o w).mp hw
  obtain ⟨hnot, hw⟩ := hgone.held hw
  exact hnot (h.conflicts m hm o ho w ((hc.outpointSpender o w).mpr ⟨held, hw, hmem⟩))

/-- **`add_package` does not raise**: what it replaces goes, the members enter, and a trim
follows. -/
theorem addPackage_path (hg : g.Lawful) {replaced : List Txid} {members : List Member}
    (h : Coherent g s) (hjoins : Joins s replaced members) (hnodup : replaced.Nodup)
    (hheld : ∀ w ∈ replaced, w ∈ s.transactions) (now : ℚ) (height : ℕ) :
    ∃ s₁ s₂ ws t, addPackage g now members height replaced s =
        .ok (members.map fun m => decide (m.tx.hash ∈ t.transactions)) t ∧
      Gone g s s₁ replaced ∧ Path g s₁ (members.map fun m => .entered m.tx m.fee) s₂ ∧
      Coherent g s₂ ∧ Gone g s₂ t ws ∧ (∀ w ∈ ws, w ∈ s₂.transactions) ∧
      (Linked g s₂ → Closed s₂ ws) ∧ (0 ≤ s.bytesizeLimit → t.bytesize ≤ s.bytesizeLimit) ∧
      ∀ w, OlderThan s₂ (truncateTime now - s.expiry) w → w ∈ ws := by
  obtain ⟨s₁, hreplaced, hgone⟩ := removeReplaced_gone hg h hnodup hheld
  obtain ⟨s₂, hinsert, hc, hlimits, hpath⟩ := insertMembers_path hg hgone.coherent
    (hjoins.enters h hgone) hjoins.apart hjoins.weight now height
  have hwork := doWork_gone hg hc postChangeCost
  have hlimits := hgone.limits.trans (hlimits.trans hwork.limits)
  obtain ⟨t, ws, hrun, hgone', hheld', hclosed, hlimit, hexpired⟩ :=
    evictToLimit_gone hg hwork.coherent now
  refine ⟨s₁, s₂, [] ++ ws, t, Sat.eq_ok ?_, hgone, hpath, hc, hwork.trans hgone',
    fun w hw => (hwork.mem_iff.mp (hheld' w hw)).2, fun hlinked => ?_, fun hpos => ?_,
    fun w hw => ?_⟩
  · rw [addPackage, sat_bind_of_ok hreplaced, sat_bind_of_ok hinsert, sat_bind, sat_modify,
      sat_bind_of_ok hrun, sat_bind, sat_get]
    exact ⟨rfl, rfl⟩
  · have hnone : Closed s₂ [] := fun p hp => by cases hp
    exact hnone.append hwork (hclosed (hlinked.gone hwork)) hheld'
  · rw [← hlimits.1]
    exact hlimit (hlimits.1 ▸ hpos)
  · rw [← hlimits.2.1] at hw
    exact hexpired w hw

end Mempool

end BtclibNode
