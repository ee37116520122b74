/-
# The loop of `activate_best_chain`

`activate_best_chain` calls `update_chain` until the tip stands still.  A call that moves the tip
moves it to a header that outranks it, and work and arrival numbers stand while it does, so the
headers that outrank the tip become fewer with every turn.
-/
import BtclibNode.Chainstate.ArrivalRun
import BtclibNode.Node.AllOrNothing

namespace BtclibNode

/-! ## The order of the headers -/

namespace BlockIndex

variable {s t : BlockIndex} {a b c : Hash}

theorem seqLt_trans {a b c : Option ℤ} (hab : seqLt a b = true) (hbc : seqLt b c = true) :
    seqLt a c = true := by
  cases a with
  | none => cases hab
  | some a =>
    cases b with
    | none => cases hbc
    | some b =>
      cases c with
      | none => rfl
      | some c =>
        have hab := of_decide_eq_true hab
        have hbc := of_decide_eq_true hbc
        exact decide_eq_true (hab.trans hbc)

/-- `_outranks` is an order. -/
theorem beats_trans (hab : s.beats a b = true) (hbc : s.beats b c = true) :
    s.beats a c = true := by
  have hle := weight_le_of_beats hab
  have hle' := weight_le_of_beats hbc
  unfold beats at hab hbc ⊢
  by_cases hac : s.weight a = s.weight c
  · have hsame : s.weight a = s.weight b := by omega
    rw [if_neg (not_not_intro hsame)] at hab
    rw [if_neg (not_not_intro (hsame.symm.trans hac))] at hbc
    rw [if_neg (not_not_intro hac)]
    exact seqLt_trans hab hbc
  · rw [if_pos hac, decide_eq_true_eq]
    omega

/-- The headers that outrank `tip`. -/
def ahead (s : BlockIndex) (tip : Hash) : ℕ := s.chainwork.keys.countP fun h => s.beats h tip

theorem beats_congr (hwork : t.chainwork = s.chainwork) (hids : t.sequenceId = s.sequenceId)
    (a b : Hash) : t.beats a b = s.beats a b := by
  unfold beats weight
  rw [hwork, hids]

theorem ahead_congr (hwork : t.chainwork = s.chainwork) (hids : t.sequenceId = s.sequenceId)
    (a : Hash) : t.ahead a = s.ahead a := by
  unfold ahead
  rw [hwork]
  simp only [beats_congr hwork hids]

/-- Fewer headers outrank one that outranks the tip. -/
theorem ahead_lt (ha : a ∈ s.chainwork) (hab : s.beats a b = true) : s.ahead a < s.ahead b := by
  have hmem : a ∈ s.chainwork.keys := Std.ExtTreeMap.mem_keys.mpr ha
  obtain ⟨before, after, hsplit⟩ := List.append_of_mem hmem
  have hle : ∀ l : List Hash,
      l.countP (fun h => s.beats h a) ≤ l.countP fun h => s.beats h b :=
    fun l => List.countP_mono_left fun h _ hha => beats_trans hha hab
  unfold ahead
  rw [hsplit, List.countP_append, List.countP_append, List.countP_cons, List.countP_cons, hab,
    beats_irrefl]
  have hbefore := hle before
  have hafter := hle after
  simp only [if_true, Bool.false_eq_true, if_false]
  omega

end BlockIndex

namespace Node

open StateExcept BlockIndex HeightTree

variable {S : Type} {cfg : NodeConfig S} {env : Env} {n t : Node S}

/-! ## The loop -/

/-- `activate_best_chain`, of at most `fuel` turns, `envs` being what the world decides during
each: whether it has returned. -/
def activateBestChain (cfg : NodeConfig S) : ℕ → (ℕ → Env) → NodeM S Bool
  | 0, _ => return false
  | fuel + 1, envs => do
    let tip ← askIndex fun s => s.activeChain.getLast?
    updateChain cfg (envs 0)
    let newTip ← askIndex fun s => s.activeChain.getLast?
    if newTip = tip then return true
    else activateBestChain cfg fuel fun i => envs (i + 1)

/-! ## One turn -/

/-- The work and the arrival number of every header stand while a commit is pruned. -/
theorem pruneInvariant_ranked (cfg : NodeConfig S) (l : List Hash) (s : BlockIndex) :
    PruneInvariant cfg fun n => n.indexStore.Agrees cfg.chain ∧ n.blockIndex.activeChain = l ∧
      n.blockIndex.chainwork = s.chainwork ∧ n.blockIndex.sequenceId = s.sequenceId := by
  have hactive := pruneInvariant_active cfg l
  refine ⟨fun n hn => hn.1, fun n tip hn htip => ?_, fun n h u hn hh hu => ?_, fun n _ hn _ => hn⟩
  · obtain ⟨hagrees, hl⟩ := hactive.flushed n tip ⟨hn.1, hn.2.1⟩ htip
    exact ⟨hagrees, hl, hn.2.2⟩
  · obtain ⟨hagrees, hl⟩ := hactive.cleared n h u ⟨hn.1, hn.2.1⟩ hh hu
    have hcons : Consistent cfg.chain n.blockIndex := hn.1.consistent
    obtain ⟨info, hinfo, -⟩ := hcons.info_of_active hh
    have hkept : u.chainwork = n.blockIndex.chainwork ∧
        u.sequenceId = n.blockIndex.sequenceId := by
      unfold BlockIndex.setDownloaded at hu
      rw [hinfo, Option.bind_eq_bind, Option.bind_some, Bool.false_and, if_neg (by simp)] at hu
      obtain rfl := Option.some.inj hu
      have hst := hcons.headerTree.updateBlockInfo_eq (keepsHeader_withDownloaded false) hinfo
      exact ⟨hst.rewrites.chainwork, by rw [hst.others]⟩
    refine ⟨hagrees, hl, ?_, ?_⟩
    · exact hkept.1.trans hn.2.2.1
    · exact hkept.2.trans hn.2.2.2

/-- The fork of a trial ends in a header that outranks the tip. -/
theorem trialOf_beats (hn : Sound cfg n) {r : Trial S} (htrial : trialOf cfg env n = some r) :
    ∃ tip h, n.blockIndex.activeChain.getLast? = some tip ∧ r.toAdd.getLast? = some h ∧
      h ∈ n.blockIndex.chainwork ∧ n.blockIndex.beats h tip = true := by
  obtain ⟨tip, fork, htip, hready, hagrees, hfork, -⟩ := readyFork_eq hn.agrees
  unfold trialOf at htrial
  rw [hready] at htrial
  cases fork with
  | none => cases htrial
  | some fork =>
    obtain ⟨toAdd, toRemove⟩ := fork
    obtain ⟨h, hlast, hbeats⟩ := (hfork toAdd toRemove rfl).beats
    obtain ⟨kept, hkept⟩ := (hfork toAdd toRemove rfl).fork
    obtain ⟨h', hlast', hpath⟩ := hkept.path
    obtain rfl := Option.some.inj (hlast'.symm.trans hlast)
    have hs : Consistent cfg.chain (n.evicted tip).blockIndex := hagrees.consistent
    obtain ⟨info, hinfo, -⟩ := hs.headerTree.info_of_mem hpath hpath.tip_mem
    have hwork : n.blockIndex.chainwork[h']? = some _ := hs.headerTree.work_eq hinfo
    refine ⟨tip, h', htip, ?_, (FiniteMap.mem_iff_exists _ _).mpr ⟨_, hwork⟩, ?_⟩
    · dsimp only at htrial
      split at htrial
      · split at htrial
        · cases htrial
          exact hlast
        · cases htrial
      · cases htrial
    · exact (@beats_congr n.blockIndex (n.evicted tip).blockIndex rfl rfl h' tip).symm.trans
        hbeats

/-- A trial leaves the index as the pass found it but for the queue. -/
theorem trialOf_blockIndex (hn : Sound cfg n) {r : Trial S} (htrial : trialOf cfg env n = some r)
    {b : Bool} {m : Node S} (hresult : r.result = .ok b m) :
    ∃ queue, m.blockIndex = (n.requeued queue).blockIndex := by
  obtain ⟨queue, kept, blocks, revs, -, -, -, -, heq⟩ := trialOf_eq hn htrial
  rw [heq] at hresult
  have hin := (inTrial_trial cfg env (r.toAdd.zip blocks) revs (n.requeued queue)).of_ok hresult
  exact ⟨queue, by rw [hin.others]⟩

/-- What a call of `update_chain` does to the tip: nothing, or it puts in its place a header that
outranks it, and the order of the headers stands. -/
inductive Advanced (n t : Node S) : Prop
  | still (h : t.blockIndex.activeChain.getLast? = n.blockIndex.activeChain.getLast?)
  | moved {tip newTip : Hash} (htip : n.blockIndex.activeChain.getLast? = some tip)
      (hnew : t.blockIndex.activeChain.getLast? = some newTip)
      (hknown : newTip ∈ n.blockIndex.chainwork)
      (hbeats : n.blockIndex.beats newTip tip = true)
      (hwork : t.blockIndex.chainwork = n.blockIndex.chainwork)
      (hids : t.blockIndex.sequenceId = n.blockIndex.sequenceId)

theorem Passed.advanced (hn : Sound cfg n) (hp : Passed cfg env n t) : Advanced n t := by
  cases hp with
  | idle => exact .still rfl
  | rolledBack => exact .still rfl
  | refused queue queue' htrial hresult hcontent hfailed hrefused =>
    refine .still (congrArg List.getLast? ?_)
    exact hrefused.active
  | commitRaised htrial hresult =>
    have hchain := (trialOf_spec hn htrial).chain _ _ hresult
    exact .still (congrArg List.getLast? hchain)
  | @committed queue trial m c t kept htrial hresult hwritable hactive hcommitted hpruned =>
    obtain ⟨tip, h, htip, hlast, hknown, hbeats⟩ := trialOf_beats hn htrial
    obtain ⟨queue', hstaged⟩ := trialOf_blockIndex hn htrial hresult
    obtain ⟨-, hchain, hwork, hids⟩ := hpruned _
      (pruneInvariant_ranked cfg (kept ++ trial.toAdd) n.blockIndex)
      ⟨hcommitted.agrees, hcommitted.active, by rw [hcommitted.moved.others, hstaged]; rfl,
        by rw [hcommitted.moved.others, hstaged]; rfl⟩
    refine .moved htip ?_ hknown hbeats hwork hids
    change t.blockIndex.activeChain.getLast? = some h
    rw [hchain, List.getLast?_append, hlast]
    rfl

/-- **One call of `update_chain`.** -/
theorem updateChain_advanced (hn : Sound cfg n) (env : Env) :
    Sat (updateChain cfg env) n (fun _ t => Sound cfg t ∧ Advanced n t)
      fun _ t => Sound cfg t ∧ Advanced n t :=
  (updateChain_sat hn).mono (fun _ _ ht => ⟨ht.2.sound hn ht.1, ht.2.advanced hn⟩)
    fun _ _ ht => ⟨ht.2.sound hn ht.1, ht.2.advanced hn⟩

/-! ## All turns -/

/-- The turns of the loop that a tip leaves. -/
theorem activateBestChain_sat (fuel : ℕ) (hn : Sound cfg n) (envs : ℕ → Env)
    (hfuel : ∀ tip, n.blockIndex.activeChain.getLast? = some tip → n.blockIndex.ahead tip < fuel) :
    Sat (activateBestChain cfg fuel envs) n (fun done t => done = true ∧ Sound cfg t)
      fun _ t => Sound cfg t := by
  induction fuel generalizing n envs with
  | zero =>
    obtain ⟨tip, -, htip, -⟩ := hn.agrees.consistent.exists_tip
    exact absurd (hfuel tip htip) (Nat.not_lt_zero _)
  | succ fuel ih =>
    unfold activateBestChain
    rw [sat_bind]
    refine askIndex_sat (fun tip htip => ?_) hn
    rw [sat_bind]
    refine (updateChain_advanced hn (envs 0)).mono ?_ fun _ _ ht => ht.1
    rintro _ t ⟨ht, hadvanced⟩
    rw [sat_bind]
    refine askIndex_sat (fun newTip hnew => ?_) ht
    split_ifs with hsame
    · exact ⟨rfl, ht⟩
    · refine ih ht _ fun tip' htip' => ?_
      obtain rfl := Option.some.inj (htip'.symm.trans hnew)
      cases hadvanced with
      | still h =>
        rw [hnew, htip] at h
        exact absurd (Option.some.inj h) hsame
      | @moved tip₀ newTip₀ htip₀ hnew₀ hknown hbeats hwork hids =>
        obtain rfl := Option.some.inj (htip₀.symm.trans htip)
        obtain rfl := Option.some.inj (hnew₀.symm.trans hnew)
        rw [ahead_congr hwork hids]
        have hlt := ahead_lt hknown hbeats
        have hle := hfuel _ htip
        omega

/-- **`activate_best_chain` returns**, or raises with a call inside it, after at most as many
turns as there are headers and one; and every call inside it leaves the tip or puts in its place a
header that outranks it. -/
theorem activateBestChain_returns (hn : Sound cfg n) :
    (∀ envs : ℕ → Env, Sat (activateBestChain cfg (n.blockIndex.chainwork.keys.length + 1) envs) n
      (fun done _ => done = true) fun _ _ => True) ∧
    ∀ (earlier : List Env) (env : Env) (m : Node S),
      m = earlier.foldl (fun m env => finalState (updateChain cfg env) m) n →
      Sat (updateChain cfg env) m (fun _ t => Advanced m t) fun _ t => Advanced m t := by
  refine ⟨fun envs => ?_, fun earlier env m hm => ?_⟩
  · have hfuel : ∀ tip, n.blockIndex.activeChain.getLast? = some tip →
        n.blockIndex.ahead tip < n.blockIndex.chainwork.keys.length + 1 := by
      intro tip _
      exact Nat.lt_succ_of_le List.countP_le_length
    exact (activateBestChain_sat _ hn envs hfuel).mono (fun _ _ ht => ht.1) fun _ _ _ => trivial
  · have hsound : ∀ (earlier : List Env) (n : Node S), Sound cfg n →
        Sound cfg (earlier.foldl (fun m env => finalState (updateChain cfg env) m) n) := by
      intro earlier
      induction earlier with
      | nil => exact fun n hn => hn
      | cons env earlier ih =>
        exact fun n hn => ih _ ((updateChain_advanced hn env).mono (fun _ _ ht => ht.1)
          fun _ _ ht => ht.1).finalState
    exact (updateChain_advanced (hm ▸ hsound earlier n hn) env).mono (fun _ _ ht => ht.2)
      fun _ _ ht => ht.2

/-- A new node with a block to connect. -/
theorem activateBestChain_returns_arrival : ∃ index n, initFromDb lightChain ∅ = some index ∧
    Run.exec (step lightConfig) (lightNode index) arrivalCalls = some n ∧
    (finalState (activateBestChain lightConfig 3 fun _ => lightEnv none) n).blockIndex.activeChain =
      [1, 2] ∧
    Sat (activateBestChain lightConfig (n.blockIndex.chainwork.keys.length + 1)
      fun _ => lightEnv none) n (fun done _ => done = true) fun _ _ => True := by
  obtain ⟨index, hload, -⟩ :=
    (storedTree_empty lightChain).exists_consistent (storedClosed_empty lightChain)
  have heval : ((initFromDb lightChain ∅).bind fun index =>
      (Run.exec (step lightConfig) (lightNode index) arrivalCalls).map fun n =>
        (finalState (activateBestChain lightConfig 3 fun _ => lightEnv none)
          n).blockIndex.activeChain) = some [1, 2] := by decide +kernel
  rw [hload, Option.bind_some, Option.map_eq_some_iff] at heval
  obtain ⟨n, hrun, heq⟩ := heval
  exact ⟨index, n, hload, hrun, heq,
    (activateBestChain_returns (sound_of_run (sound_lightNode hload) hrun)).1 _⟩

end Node

end BtclibNode
