/-
# The cache does not show

Whatever was asked before, and of whichever chains, a cached state is that of the period its
block ends on every path through that block.
-/
import BtclibNode.Versionbits.Bip9

namespace BtclibNode.Versionbits

variable {medianTimePast : MedianTimePast} {tree : HeaderTree} {r : Rules}
  {chain chain' : List Bytes} {periods : ℕ} {cache : Cache} {previous : Boundary}

/-! ## A period -/

theorem zip_tab_map {α β : Type} {l : List α} (hl : l.length = numBits) (f : ℕ → ℕ)
    (next : α → ℕ → β) :
    (l.zip (tab f)).map (fun (a, n) => next a n) = l.mapIdx fun i a => next a (f i) := by
  refine List.ext_getElem (by simp [length_tab, hl]) fun i hi hi' => ?_
  simp [tab]

theorem mapM_some {α β : Type} {f : α → Option β} {g : α → β} {l : List α}
    (h : ∀ x ∈ l, f x = some (g x)) : l.mapM f = some (l.map g) := by
  induction l with
  | nil => rfl
  | cons x l ih =>
    obtain ⟨hx, hl⟩ := List.forall_mem_cons.mp h
    rw [List.mapM_cons, hx, ih hl]
    rfl

theorem length_states {versions : ℕ → ℤ} {mtp : ℕ → Option ℕ} {b : Boundary}
    (h : states r versions mtp periods = some b) :
    b.warning.length = numBits ∧ b.deployments.length = r.deployments.length := by
  induction periods generalizing b with
  | zero =>
    cases h
    exact ⟨List.length_replicate, List.length_replicate⟩
  | succ periods ih =>
    rw [states] at h
    cases hprevious : states r versions mtp periods with
    | none =>
      rw [hprevious] at h
      cases h
    | some previous =>
      obtain ⟨hwarning, hdeployments⟩ := ih hprevious
      rw [hprevious] at h
      change (mtp _).bind _ = _ at h
      obtain ⟨time, -, hb⟩ := Option.bind_eq_some_iff.mp h
      cases hb
      exact ⟨by simp [hwarning], by simp [hdeployments]⟩

/-- The blocks of a period. -/
theorem heights_indexed (h : tree.IsPath chain) (hlen : (periods + 1) * r.period ≤ chain.length) :
    ∀ height ∈ List.range' (periods * r.period) r.period,
      ∃ hash header, chain[height]? = some hash ∧ tree.headers hash = some header := by
  intro height hheight
  have hlt : height < chain.length := by
    have hbound := (List.mem_range'_1.mp hheight).2
    rw [Nat.succ_mul] at hlen
    omega
  obtain ⟨header, hheader⟩ := h.indexed _ (List.getElem_mem hlt)
  exact ⟨_, header, List.getElem?_eq_getElem hlt, hheader⟩

/-- Where nothing is counted, no block is high enough to count for the warning and no
deployment has started. -/
theorem countPeriod_eq (previous : Boundary) (h : tree.IsPath chain)
    (hlen : (periods + 1) * r.period ≤ chain.length) :
    ∃ F, countPeriod tree.headers r (usedBits r previous) chain ((periods + 1) * r.period) =
        some (tab F, tab fun bit => (List.range' (periods * r.period) r.period).countP
          fun height => r.minHeight ≤ height ∧ (bit : ℤ) ∉ usedBits r previous ∧
            signals (versionsOf tree.headers chain height) bit) ∧
      ∀ p ∈ r.deployments.zip previous.deployments, p.2 = .started → F p.1.bit.toNat =
        (List.range' (periods * r.period) r.period).countP
          fun height => signals (versionsOf tree.headers chain height) p.1.bit.toNat := by
  have hstart : (periods + 1) * r.period - r.period = periods * r.period := by
    rw [Nat.succ_mul, Nat.add_sub_cancel]
  rw [countPeriod, hstart]
  by_cases hcount : r.minHeight ≤ (periods + 1) * r.period - 1 ∨ usedBits r previous ≠ []
  · refine ⟨fun bit => (List.range' (periods * r.period) r.period).countP fun height =>
      signals (versionsOf tree.headers chain height) bit, ?_, fun _ _ _ => rfl⟩
    rw [if_pos hcount, tab_zero, foldlM_countBlock_tab (heights_indexed h hlen)]
    simp only [Nat.zero_add]
  · obtain ⟨hlow, hunused⟩ := not_or.mp hcount
    refine ⟨fun _ => 0, ?_, fun p hp hstarted => ?_⟩
    · rw [if_neg hcount, tab_zero]
      congr 2
      refine tab_congr fun bit _ => (List.countP_eq_zero.mpr fun height hheight => ?_).symm
      have hbound := (List.mem_range'_1.mp hheight).2
      rw [Nat.succ_mul] at hlow
      rw [decide_eq_true_eq]
      omega
    · have hused : p.1.bit ∈ usedBits r previous :=
        List.mem_map.mpr ⟨p, List.mem_filter.mpr ⟨hp, decide_eq_true (Or.inl hstarted)⟩, rfl⟩
      rw [not_not.mp hunused] at hused
      cases hused

/-- **`_period_ending_at` computes the states of the next period**, counting or not. -/
theorem periodEndingAt_eq (h : tree.IsPath chain)
    (hlen : (periods + 1) * r.period ≤ chain.length) {key : Option Bytes}
    (hkey : keyAt chain (periods * r.period) = some key) (hcached : cache key = some previous)
    (hprevious : statesOf medianTimePast tree.headers r chain periods = some previous) :
    periodEndingAt medianTimePast tree.headers r cache chain ((periods + 1) * r.period) =
      statesOf medianTimePast tree.headers r chain (periods + 1) := by
  have hpos := r.period_pos
  have hstart : (periods + 1) * r.period - r.period = periods * r.period := by
    rw [Nat.succ_mul, Nat.add_sub_cancel]
  have hlast : (periods + 1) * r.period - 1 < chain.length := by
    rw [Nat.succ_mul] at hlen ⊢
    omega
  obtain ⟨hwarning, hdeployments⟩ := length_states hprevious
  obtain ⟨header, hheader⟩ := h.indexed _ (List.getElem_mem hlast)
  have hhash := List.getElem?_eq_getElem hlast
  have hmtp : mtpOf medianTimePast tree.headers chain ((periods + 1) * r.period - 1) =
      medianTimePast header ((periods + 1) * r.period - 1) fun header =>
        tree.headers header.previousBlockHash := by
    rw [mtpOf, hhash, Option.bind_some, hheader]
    rfl
  rw [statesOf] at hprevious
  rw [statesOf, states, hprevious, periodEndingAt, hstart, hkey]
  simp only [Option.bind_eq_bind, Option.bind_some, hcached, hhash, hheader, hmtp]
  cases medianTimePast header ((periods + 1) * r.period - 1) fun header =>
      tree.headers header.previousBlockHash with
  | none => rfl
  | some time =>
    obtain ⟨F, hF, hdeployed⟩ := countPeriod_eq previous h hlen
    have hzip : zipStrict r.deployments previous.deployments =
        some (r.deployments.zip previous.deployments) := if_pos hdeployments.symm
    have hzipTab : ∀ f, zipStrict previous.warning (tab f) = some (previous.warning.zip (tab f)) :=
      fun f => if_pos (by rw [hwarning, length_tab])
    have hadvanced : ∀ p ∈ r.deployments.zip previous.deployments,
        ((tab F)[p.1.bit.toNat]?.bind fun count =>
          some (advance p.2 count r.threshold time ((periods + 1) * r.period - 1) p.1)) =
        some (advance p.2 ((List.range' (periods * r.period) r.period).countP fun height =>
            signals (versionsOf tree.headers chain height) p.1.bit.toNat)
          r.threshold time ((periods + 1) * r.period - 1) p.1) := by
      intro p hp
      obtain ⟨hnonneg, hbit⟩ := r.bit_lt p.1 (List.of_mem_zip hp).1
      rw [getElem?_tab (by omega), Option.bind_some]
      by_cases hstarted : p.2 = .started
      · rw [hdeployed p hp hstarted]
      · rw [advance_of_ne_started hstarted]
    rw [usedBits] at hF
    simp only [Option.bind_some, hzip, hF, hzipTab]
    rw [mapM_some hadvanced, Option.bind_some]
    congr 2
    exact zip_tab_map hwarning _ fun state count =>
      advance state count r.threshold time ((periods + 1) * r.period - 1) warningDeployment

/-! ## The cache -/

/-- The states depend on what is below the end of their periods. -/
theorem states_congr {versions versions' : ℕ → ℤ} {mtp mtp' : ℕ → Option ℕ}
    (hversions : ∀ height < periods * r.period, versions height = versions' height)
    (hmtp : ∀ height < periods * r.period, mtp height = mtp' height) :
    states r versions mtp periods = states r versions' mtp' periods := by
  induction periods with
  | zero => rfl
  | succ periods ih =>
    have hpos := r.period_pos
    rw [Nat.succ_mul] at hversions hmtp
    have hbelow : ∀ height < periods * r.period, height < periods * r.period + r.period :=
      fun height hlt => hlt.trans (Nat.lt_add_of_pos_right hpos)
    have hcount : ∀ p : ℕ → ℤ → Bool,
        ((List.range' (periods * r.period) r.period).countP fun height =>
          p height (versions height)) =
        (List.range' (periods * r.period) r.period).countP fun height =>
          p height (versions' height) := by
      intro p
      refine List.countP_congr fun height hheight => ?_
      rw [hversions height (List.mem_range'_1.mp hheight).2]
    have hlast : mtp (periods * r.period + r.period - 1) =
        mtp' (periods * r.period + r.period - 1) := hmtp _ (by omega)
    rw [states, states, ih (fun _ h => hversions _ (hbelow _ h)) fun _ h => hmtp _ (hbelow _ h)]
    dsimp only
    rw [Nat.succ_mul, hlast]
    congr 1
    funext previous
    congr 1
    funext time
    congr 2
    · congr 1
      funext bit state
      congr 1
      exact hcount fun height version => decide (r.minHeight ≤ height ∧
        (bit : ℤ) ∉ usedBits r previous ∧ signals version bit)
    · congr 1
      funext p
      congr 1
      exact hcount fun _ version => signals version p.1.bit.toNat

theorem statesOf_congr (h : chain.take (periods * r.period) = chain'.take (periods * r.period)) :
    statesOf medianTimePast tree.headers r chain periods =
      statesOf medianTimePast tree.headers r chain' periods := by
  have hat : ∀ i < periods * r.period, chain[i]? = chain'[i]? := by
    intro i hi
    rw [← List.getElem?_take_of_lt hi, h, List.getElem?_take_of_lt hi]
  refine states_congr (fun height hlt => ?_) fun height hlt => ?_
  · rw [versionsOf, versionsOf, hat height hlt]
  · rw [mtpOf, mtpOf, hat height hlt]

/-- What is cached is right on every path. -/
structure CacheOk (medianTimePast : MedianTimePast) (tree : HeaderTree) (r : Rules)
    (cache : Cache) : Prop where
  start : cache none = some r.initial
  sound : ∀ hash b, cache (some hash) = some b → ∀ chain, tree.IsPath chain → ∀ periods,
    chain[(periods + 1) * r.period - 1]? = some hash →
    statesOf medianTimePast tree.headers r chain (periods + 1) = some b

theorem cacheOk_init :
    CacheOk medianTimePast tree r (Cache.set (fun _ => none) none r.initial) where
  start := if_pos rfl
  sound hash b h := by
    rw [Cache.set, if_neg (Option.some_ne_none hash)] at h
    cases h

/-- A boundary computed on one path is right on all of them. -/
theorem CacheOk.set (hcache : CacheOk medianTimePast tree r cache) (h : tree.IsPath chain)
    {hash : Bytes} {b : Boundary} (hhash : chain[(periods + 1) * r.period - 1]? = some hash)
    (hb : statesOf medianTimePast tree.headers r chain (periods + 1) = some b) :
    CacheOk medianTimePast tree r (cache.set (some hash) b) where
  start := by
    rw [Cache.set, if_neg (Option.some_ne_none hash).symm]
    exact hcache.start
  sound := by
    intro hash' b' hcached chain' h' periods' hhash'
    rw [Cache.set] at hcached
    split_ifs at hcached with heq
    · cases heq
      cases hcached
      have hpos := Nat.mul_pos (Nat.succ_pos periods) r.period_pos
      have hpos' := Nat.mul_pos (Nat.succ_pos periods') r.period_pos
      obtain ⟨hindex, htake⟩ := h'.unique h hhash' hhash
      have hperiods : (periods' + 1) * r.period = (periods + 1) * r.period := by
        rw [Nat.succ_eq_add_one] at hpos hpos'
        omega
      have hsame : periods' = periods :=
        Nat.succ_injective (Nat.eq_of_mul_eq_mul_right r.period_pos hperiods)
      subst hsame
      rw [Nat.sub_add_cancel hpos'] at htake
      rw [statesOf_congr htake, hb]
    · exact hcache.sound hash' b' hcached chain' h' periods' hhash'

/-! ## A call -/

theorem keyAt_of_pos {blocks : ℕ} (h : 0 < blocks) :
    keyAt chain blocks = chain[blocks - 1]?.map some := by
  cases blocks with
  | zero => exact absurd h (Nat.lt_irrefl 0)
  | succ blocks => rfl

theorem fill_concat {headers : Bytes → Option Header} (cache : Cache) (ends : List ℕ)
    (blocks : ℕ) :
    fill medianTimePast headers r chain cache (ends ++ [blocks]) =
      match fill medianTimePast headers r chain cache ends with
      | (cache, some _) => fill medianTimePast headers r chain cache [blocks]
      | (cache, none) => (cache, none) := by
  induction ends generalizing cache with
  | nil => rfl
  | cons first ends ih =>
    rw [List.cons_append, fill, fill]
    split
    · exact ih _
    · rfl

/-- The walk back and the filling: the boundary is there afterwards, unless a median time of
the chain could not be told. -/
theorem fill_missing (h : tree.IsPath chain) (hlen : periods * r.period ≤ chain.length)
    (hcache : CacheOk medianTimePast tree r cache) :
    ∃ ends cache' filled, missing r cache chain (periods * r.period) = some ends ∧
      fill medianTimePast tree.headers r chain cache ends.reverse = (cache', filled) ∧
      CacheOk medianTimePast tree r cache' ∧ ∃ key, keyAt chain (periods * r.period) = some key ∧
      ((∃ b, filled = some () ∧ cache' key = some b ∧
          statesOf medianTimePast tree.headers r chain periods = some b) ∨
        (filled = none ∧ statesOf medianTimePast tree.headers r chain periods = none)) := by
  induction periods with
  | zero =>
    refine ⟨[], cache, some (), ?_, rfl, hcache, none, ?_, Or.inl ⟨_, rfl, hcache.start, rfl⟩⟩
    · rw [missing, dif_pos (Nat.zero_mul _)]
    · rw [Nat.zero_mul]
      rfl
  | succ periods ih =>
    have hpos : 0 < (periods + 1) * r.period := Nat.mul_pos (Nat.succ_pos periods) r.period_pos
    have hlast : (periods + 1) * r.period - 1 < chain.length := by omega
    have hhash := List.getElem?_eq_getElem hlast
    have hkey : keyAt chain ((periods + 1) * r.period) =
        some (some chain[(periods + 1) * r.period - 1]) := by
      rw [keyAt_of_pos hpos, hhash, Option.map_some]
    rw [missing, dif_neg hpos.ne', hhash]
    cases hcached : cache (some chain[(periods + 1) * r.period - 1]) with
    | some b =>
      refine ⟨[], cache, some (), ?_, rfl, hcache, _, hkey, Or.inl ⟨b, rfl, hcached, ?_⟩⟩
      · change (if (cache _).isSome then _ else _) = _
        rw [hcached]
        rfl
      · exact hcache.sound _ b hcached chain h periods hhash
    | none =>
      have hstart : (periods + 1) * r.period - r.period = periods * r.period := by
        rw [Nat.succ_mul, Nat.add_sub_cancel]
      obtain ⟨ends, cache', filled, hmissing, hfill, hcache', key, hkey', hcase⟩ :=
        ih (by rw [Nat.succ_mul] at hlen; omega)
      have hends : missing r cache chain ((periods + 1) * r.period - r.period) = some ends := by
        rw [hstart, hmissing]
      have hwalk : (do
          if (cache (some chain[(periods + 1) * r.period - 1])).isSome then some []
          else do
            let rest ← missing r cache chain ((periods + 1) * r.period - r.period)
            some ((periods + 1) * r.period :: rest)) =
          some ((periods + 1) * r.period :: ends) := by
        rw [hcached, hends]
        rfl
      rcases hcase with ⟨b, rfl, hb, hstates⟩ | ⟨rfl, hstates⟩
      · have hperiod := periodEndingAt_eq h hlen hkey' hb hstates
        have hfilled : fill medianTimePast tree.headers r chain cache
            ((periods + 1) * r.period :: ends).reverse =
              fill medianTimePast tree.headers r chain cache' [(periods + 1) * r.period] := by
          rw [List.reverse_cons, fill_concat, hfill]
        rw [fill, hhash, hperiod] at hfilled
        cases hnext : statesOf medianTimePast tree.headers r chain (periods + 1) with
        | none =>
          rw [hnext] at hfilled
          exact ⟨_, cache', none, hwalk, hfilled, hcache', _, hkey, Or.inr ⟨rfl, rfl⟩⟩
        | some b' =>
          rw [hnext] at hfilled
          exact ⟨_, _, some (), hwalk, hfilled, hcache'.set h hhash hnext, _, hkey,
            Or.inl ⟨b', rfl, if_pos rfl, rfl⟩⟩
      · refine ⟨_, cache', none, hwalk, ?_, hcache', _, hkey, Or.inr ⟨rfl, ?_⟩⟩
        · rw [List.reverse_cons, fill_concat, hfill]
        · rw [statesOf] at hstates ⊢
          rw [states, hstates]
          rfl

/-- **`_boundary` answers the states of the chain it is given**, and leaves a cache that is
right. -/
theorem boundary_eq (h : tree.IsPath chain) (hcache : CacheOk medianTimePast tree r cache)
    (height : Option ℕ) (hheight : ∀ i, height = some i → i < chain.length) :
    ∃ cache', CacheOk medianTimePast tree r cache' ∧
      boundary medianTimePast tree.headers r cache chain height =
        (cache', statesOf medianTimePast tree.headers r chain
          (((height.map (· + 1)).getD chain.length) / r.period)) := by
  have hle : (height.map (· + 1)).getD chain.length ≤ chain.length := by
    cases height with
    | none => exact le_rfl
    | some i => exact hheight i rfl
  rw [boundary]
  generalize (height.map (· + 1)).getD chain.length = next at hle ⊢
  have hlast : next - next % r.period = next / r.period * r.period := by
    have hsplit := Nat.div_add_mod' next r.period
    omega
  have hlen : next / r.period * r.period ≤ chain.length := (Nat.div_mul_le_self _ _).trans hle
  obtain ⟨ends, cache', filled, hmissing, hfill, hcache', key, hkey, hcase⟩ :=
    fill_missing h hlen hcache
  refine ⟨cache', hcache', ?_⟩
  dsimp only
  rw [hlast, hmissing]
  dsimp only
  rw [hfill, hkey]
  rcases hcase with ⟨b, rfl, hb, hstates⟩ | ⟨rfl, hstates⟩
  · rw [hstates]
    exact Prod.ext rfl hb
  · rw [hstates]
    rfl

/-- A call answers by its chain, whatever is cached. -/
theorem Call.run_eq {u : UnknownActivations} {call : Call} (hcall : call.Valid tree)
    (hcache : CacheOk medianTimePast tree u.rules u.cache) :
    ∃ cache', CacheOk medianTimePast tree u.rules cache' ∧
      call.run medianTimePast tree.headers u =
        ({ u with cache := cache' }, call.answer medianTimePast tree.headers u.rules) := by
  cases call with
  | check activeChain height =>
    obtain ⟨cache', hcache', hboundary⟩ := boundary_eq hcall.1 hcache height hcall.2
    refine ⟨cache', hcache', ?_⟩
    rw [Call.run, hboundary]
    rfl
  | status activeChain =>
    have hpath : tree.IsPath activeChain := hcall
    obtain ⟨cache', hcache', hboundary⟩ := boundary_eq hpath hcache none nofun
    refine ⟨cache', hcache', ?_⟩
    rw [Call.run, hboundary]
    rfl

theorem run_cacheOk {u : UnknownActivations} {calls : List Call}
    (hcalls : ∀ call ∈ calls, call.Valid tree)
    (hcache : CacheOk medianTimePast tree u.rules u.cache) :
    (run medianTimePast tree.headers u calls).rules = u.rules ∧
      CacheOk medianTimePast tree u.rules (run medianTimePast tree.headers u calls).cache := by
  induction calls generalizing u with
  | nil => exact ⟨rfl, hcache⟩
  | cons call calls ih =>
    obtain ⟨hcall, hrest⟩ := List.forall_mem_cons.mp hcalls
    obtain ⟨cache', hcache', hrun⟩ := Call.run_eq hcall hcache
    rw [run, List.foldl_cons, hrun]
    exact ih hrest hcache'

/-- A genesis block alone. -/
def genesisTree : HeaderTree where
  headers hash := if hash = [1] then some ⟨[0], 0x20000004, 1296688602⟩ else none
  genesis := [1]
  root header h := by
    rw [if_pos rfl] at h
    cases h
    rfl

theorem genesisTree_isPath : genesisTree.IsPath [[1]] where
  first := rfl
  indexed hash h := by
    rw [List.mem_singleton.mp h]
    exact ⟨_, rfl⟩
  linked i hash header h := by cases h

end BtclibNode.Versionbits
