/-
# Which blocks are asked for

`find_next_blocks_to_download` and the walk back of `headers_direct_fetch` read
one path of the header tree above the active chain: what they choose are blocks
of it, each once, neither held nor on the active chain, and in flight from nobody.
-/
import BtclibNode.Download.InFlight

namespace BtclibNode

open BlockIndex HeightTree

variable {chain : Chain} {s : BlockIndex} {h : Hash} {l : List Hash}

/-- The entries of a path with an entry of the active chain are on the active
chain up to it. -/
theorem BlockIndex.Sound.getElem?_active (hs : Sound chain s) (hl : IsPath chain s l h) {i : ℕ}
    {x : Hash} (hi : l[i]? = some x) (hx : x ∈ s.activeChain) : s.activeChain[i]? = some x := by
  obtain ⟨info, hinfo, rfl⟩ := hs.headerTree.info_of_getElem? hl hi
  obtain ⟨info', hinfo', hactive⟩ := hs.info_of_active hx
  rw [hinfo, Option.some.injEq] at hinfo'
  rwa [← hinfo'] at hactive

namespace BlockAvailability

variable {P : Type} {a a' a'' : BlockAvailability P}

/-! ## What the peer has -/

/-- `a'` is what is kept beside the same requests, and of indexed blocks if `a` is. -/
structure Kept (s : BlockIndex) (a a' : BlockAvailability P) : Prop where
  partials : a'.partialBlocks = a.partialBlocks
  orders : a'.requestOrder = a.requestOrder
  known : a.Known s → a'.Known s

theorem Kept.refl (s : BlockIndex) (a : BlockAvailability P) : Kept s a a := ⟨rfl, rfl, fun h => h⟩

theorem Kept.trans (h : Kept s a a') (h' : Kept s a' a'') : Kept s a a'' :=
  ⟨h'.partials.trans h.partials, h'.orders.trans h.orders, fun hk => h'.known (h.known hk)⟩

theorem betterKnown_cases {best : Option Hash} {x : Hash}
    (heq : betterKnown s best h = some x) : x = h ∨ best = some x := by
  unfold betterKnown at heq
  cases best with
  | none => exact .inl (Option.some.inj heq).symm
  | some b =>
    simp only [Option.bind_eq_bind, Option.bind_eq_some_iff] at heq
    obtain ⟨_, -, _, -, heq⟩ := heq
    split at heq
    · exact .inl (Option.some.inj heq).symm
    · exact .inr heq

/-- `best_known` moved to the better of it and an indexed block. -/
theorem kept_betterKnown {x : Hash} (hinfo : (s.getBlockInfo h).isNone = false)
    (heq : betterKnown s a.bestKnown h = some x) (u : Option Hash) :
    Kept s a { a with bestKnown := some x, lastUnknown := u } := by
  refine ⟨rfl, rfl, fun hk y hy => ?_⟩
  rcases hy with hy | hy
  · obtain rfl := Option.some.inj hy
    rcases betterKnown_cases heq with rfl | hbest
    · exact Option.isSome_iff_exists.mp (by rwa [← Option.not_isNone, Bool.not_eq_true'])
    · exact hk x (.inl hbest)
  · exact hk y (.inr hy)

theorem kept_process (heq : process s a = some a') : Kept s a a' := by
  unfold process at heq
  split at heq
  · cases heq
    exact Kept.refl s a
  · split at heq
    · cases heq
      exact Kept.refl s a
    · next hnone =>
      simp only [Option.bind_eq_bind, Option.bind_eq_some_iff] at heq
      obtain ⟨x, hx, heq⟩ := heq
      cases heq
      exact kept_betterKnown (by rwa [Bool.not_eq_true] at hnone) hx none

theorem kept_update (heq : update s a h = some a') : Kept s a a' := by
  unfold update at heq
  simp only [Option.bind_eq_bind, Option.bind_eq_some_iff] at heq
  obtain ⟨b, hb, heq⟩ := heq
  refine (kept_process hb).trans ?_
  split at heq
  · cases heq
    exact ⟨rfl, rfl, fun hk => hk⟩
  · next hnone =>
    rw [Option.bind_eq_some_iff] at heq
    obtain ⟨x, hx, heq⟩ := heq
    cases heq
    exact kept_betterKnown (by rwa [Bool.not_eq_true] at hnone) hx b.lastUnknown

theorem exists_betterKnown (ht : HeaderTree chain s) {best : Option Hash} {info : BlockInfo}
    (hbest : ∀ b, best = some b → ∃ info, s.getBlockInfo b = some info)
    (hinfo : s.getBlockInfo h = some info) : ∃ x, betterKnown s best h = some x := by
  unfold betterKnown
  cases best with
  | none => exact ⟨h, rfl⟩
  | some b =>
    obtain ⟨binfo, hbinfo⟩ := hbest b rfl
    simp only [Option.bind_eq_bind, ht.work_eq hbinfo, ht.work_eq hinfo, Option.bind_some]
    split
    · exact ⟨h, rfl⟩
    · exact ⟨b, rfl⟩

/-- **`process_block_availability` returns.** -/
theorem exists_process (ht : HeaderTree chain s) (hk : a.Known s) :
    ∃ a', process s a = some a' := by
  unfold process
  split
  · exact ⟨a, rfl⟩
  · next h _ =>
    cases hinfo : s.getBlockInfo h with
    | none => exact ⟨a, if_pos rfl⟩
    | some info =>
      obtain ⟨x, hx⟩ := exists_betterKnown ht (fun b hb => hk b (.inl hb)) hinfo
      rw [if_neg (by simp), hx]
      exact ⟨_, rfl⟩

/-- **`peer_has_header` returns** for an indexed header. -/
theorem exists_peerHasHeader (ht : HeaderTree chain s) (hk : a.Known s) {info : BlockInfo}
    (hinfo : s.getBlockInfo h = some info) : ∃ b, a.peerHasHeader s h = some b := by
  have hknown : ∀ known : Option Hash, (∀ k, known = some k → ∃ info, s.getBlockInfo k = some info) →
      ∃ b, knownAncestor s known info.index h = some b := by
    intro known hx
    cases known with
    | none => exact ⟨false, rfl⟩
    | some k =>
      obtain ⟨kinfo, hkinfo⟩ := hx k rfl
      obtain ⟨l, hl, -⟩ := ht.exists_path hkinfo
      unfold knownAncestor
      simp only [ht.getAncestor_eq hl, Option.bind_eq_bind, Option.bind_some]
      exact ⟨_, rfl⟩
  obtain ⟨b, hb⟩ := hknown a.bestKnown fun k hx => hk k (.inl hx)
  obtain ⟨b', hb'⟩ := hknown a.bestHeaderSent fun k hx => hk k (.inr hx)
  unfold peerHasHeader
  simp only [hinfo, hb, Option.bind_eq_bind, Option.bind_some]
  cases b with
  | true => exact ⟨true, rfl⟩
  | false => exact ⟨b', hb'⟩

/-! ## Where the walk starts -/

/-- Past `last_common` no block of the peer's chain is on the active one. -/
structure StartsAt (chain : Chain) (s : BlockIndex) (l : List Hash) (i : ℕ) (lastCommon : Hash) :
    Prop where
  entry : l[i]? = some lastCommon
  off : ∀ j x, i < j → l[j]? = some x → x ∉ s.activeChain

theorem resetLastCommon_spec (hs : Sound chain s) {best fork x : Hash} {k : ℕ}
    {lastCommon : Option Hash} (hl : IsPath chain s l best) (hfork : l[k]? = some fork)
    (hoff : ∀ j x, k < j → l[j]? = some x → x ∉ s.activeChain)
    (heq : resetLastCommon s best fork lastCommon = some x) : ∃ i, StartsAt chain s l i x := by
  have ht := hs.headerTree
  unfold resetLastCommon at heq
  cases lastCommon with
  | none =>
    obtain rfl := Option.some.inj heq
    exact ⟨k, hfork, hoff⟩
  | some c =>
    simp only [Option.bind_eq_bind, Option.bind_eq_some_iff] at heq
    obtain ⟨cw, hcw, fw, hfw, heq⟩ := heq
    split at heq
    · obtain rfl := Option.some.inj heq
      exact ⟨k, hfork, hoff⟩
    · next hle =>
      rw [Option.bind_eq_some_iff] at heq
      obtain ⟨info, hinfo, heq⟩ := heq
      rw [ht.getAncestor_eq hl, Option.bind_some] at heq
      split at heq
      · next hentry =>
        obtain rfl := Option.some.inj heq
        refine ⟨info.index, hentry, fun j x hj hx => ?_⟩
        -- a lower `last_common` would have less work than the fork point
        by_cases hkj : k < j
        · exact hoff j x hkj hx
        · exfalso
          have hlt := (List.getElem?_eq_some_iff.mp hfork).1
          have hmem : c ∈ l.take (k + 1) := by
            refine List.mem_of_getElem? (i := info.index) ?_
            rw [List.getElem?_take, if_pos (by omega), hentry]
          have hne : c ≠ fork := by
            rintro rfl
            obtain ⟨finfo, hfinfo, hfindex⟩ := ht.info_of_getElem? hl hfork
            rw [hinfo, Option.some.injEq] at hfinfo
            rw [hfinfo] at hj
            omega
          obtain ⟨finfo, hfinfo, -⟩ := ht.info_of_getElem? hl hfork
          have hwork : s.weight _ < s.weight _ := Path.weight_lt (fun hx => ht.work_lt ⟨_, hx⟩)
            (hl.take hfork) hmem hne
          rw [ht.work_eq hinfo, Option.some.injEq] at hcw
          rw [ht.work_eq hfinfo, Option.some.injEq] at hfw
          omega
      · obtain rfl := Option.some.inj heq
        exact ⟨k, hfork, hoff⟩

theorem walkStart_spec {m : ℕ} (hfit : IndexFit chain s) (hk : a.Known s) {best : Option Hash}
    (heq : walkStart s a m = some (a', best)) :
    Kept s a a' ∧ ∀ b, best = some b → ∃ l i lastCommon, IsPath chain s l b ∧
      a'.lastCommon = some lastCommon ∧ StartsAt chain s l i lastCommon := by
  have hs := hfit.consistent.toSound
  unfold walkStart at heq
  cases hbest : a.bestKnown with
  | none =>
    rw [hbest] at heq
    cases heq
    exact ⟨Kept.refl s a, fun b hb => by cases hb⟩
  | some b =>
    rw [hbest] at heq
    simp only [Option.bind_eq_bind, Option.bind_eq_some_iff] at heq
    obtain ⟨tip, htip, work, -, tipWork, -, heq⟩ := heq
    split at heq
    · cases heq
      exact ⟨Kept.refl s a, fun b hb => by cases hb⟩
    · simp only [Option.bind_eq_some_iff] at heq
      obtain ⟨fork, hfork, lastCommon, hreset, heq⟩ := heq
      cases heq
      refine ⟨⟨rfl, rfl, fun hk y hy => hk y (hbest ▸ hy)⟩, fun b' hb' => ?_⟩
      split at hb'
      · cases hb'
      · obtain rfl := Option.some.inj hb'
        obtain ⟨binfo, hbinfo⟩ := hk b (.inl hbest)
        obtain ⟨l, hl, -⟩ := hs.headerTree.exists_path hbinfo
        obtain ⟨tip', hmain⟩ := hs.active
        obtain rfl : tip' = tip := by rw [hmain.getLast?, Option.some.injEq] at htip; exact htip
        obtain ⟨c, k, hc, hlk, -, hlast⟩ :=
          hs.headerTree.lastCommonAncestor_paths hfit.skips hl hmain
        rw [hfork, Option.some.injEq] at hc
        subst hc
        obtain ⟨i, hstart⟩ := resetLastCommon_spec hs hl hlk (fun j x hj hx hactive =>
          hlast j hj (List.getElem?_eq_some_iff.mp hx).1
            (hx.trans (hs.getElem?_active hl hx hactive).symm)) hreset
        exact ⟨l, i, lastCommon, hl, rfl, hstart⟩

/-! ## The walk -/

/-- A block the walk may choose. -/
def Choosable (s : BlockIndex) (args : WalkArgs) (b : Hash) : Prop :=
  (∃ info, s.getBlockInfo b = some info ∧ info.downloaded = false) ∧ args.inFlight[b]? = none

/-- What some turns of the walk add to the blocks: some of those they visit. -/
structure Chosen (s : BlockIndex) (args : WalkArgs) (visited : List Hash) (w w' : Walk) : Prop where
  added : ∃ zs, w'.blocks = w.blocks ++ zs ∧ zs.Sublist visited ∧ ∀ z ∈ zs, Choosable s args z
  length_le : w'.blocks.length ≤ args.count
  room : w'.ended = none → w'.blocks.length < args.count

variable {args : WalkArgs} {w w' w'' : Walk} {visited visited' : List Hash}

theorem Chosen.same (hroom : w.blocks.length < args.count) (hblocks : w'.blocks = w.blocks) :
    Chosen s args visited w w' := by
  refine ⟨⟨[], by rw [hblocks, List.append_nil], List.nil_sublist _, by simp⟩, ?_, fun _ => ?_⟩
  · rw [hblocks]
    exact Nat.le_of_lt hroom
  · rwa [hblocks]

theorem Chosen.append (h : Chosen s args visited w w') (h' : Chosen s args visited' w' w'') :
    Chosen s args (visited ++ visited') w w'' := by
  obtain ⟨zs, hzs, hsub, hgood⟩ := h.added
  obtain ⟨zs', hzs', hsub', hgood'⟩ := h'.added
  refine ⟨⟨zs ++ zs', ?_, hsub.append hsub', fun z hz => ?_⟩, h'.length_le, h'.room⟩
  · rw [hzs', hzs, List.append_assoc]
  · rcases List.mem_append.mp hz with hz | hz
    · exact hgood z hz
    · exact hgood' z hz

theorem Chosen.mono (h : Chosen s args visited w w') (hsub : visited.Sublist visited') :
    Chosen s args visited' w w' := by
  obtain ⟨zs, hzs, hzsub, hgood⟩ := h.added
  exact ⟨⟨zs, hzs, hzsub.trans hsub, hgood⟩, h.length_le, h.room⟩

theorem visit_spec (hroom : w.blocks.length < args.count) (heq : visit s args w h = some w') :
    Chosen s args [h] w w' := by
  unfold visit at heq
  rw [Option.bind_eq_bind, Option.bind_eq_some_iff] at heq
  obtain ⟨info, hinfo, heq⟩ := heq
  split at heq
  · cases heq
    exact Chosen.same hroom rfl
  · split at heq
    · cases heq
      exact Chosen.same hroom rfl
    · next hheld =>
      split at heq
      · cases heq
        exact Chosen.same hroom rfl
      · next hfree =>
        dsimp only at heq
        split at heq
        · cases heq
          exact Chosen.same hroom rfl
        · split at heq
          · cases heq
            exact Chosen.same hroom rfl
          · cases heq
            rw [Bool.not_eq_true] at hheld
            refine ⟨⟨[h], rfl, List.Sublist.refl _, ?_⟩, ?_, fun hended => ?_⟩
            · intro z hz
              rw [List.mem_singleton.mp hz]
              exact ⟨⟨info, hinfo, hheld⟩, hfree⟩
            · rw [List.length_append, List.length_singleton]
              omega
            · dsimp only at hended ⊢
              split at hended
              · cases hended
              · next hlen =>
                rw [List.length_append, List.length_singleton] at hlen ⊢
                omega

theorem visitAll_spec (hroom : w.blocks.length < args.count)
    (heq : visitAll s args visited w = some w') : Chosen s args visited w w' := by
  induction visited generalizing w with
  | nil =>
    cases heq
    exact Chosen.same hroom rfl
  | cons h visited ih =>
    rw [visitAll, Option.bind_eq_bind, Option.bind_eq_some_iff] at heq
    obtain ⟨w₁, hvisit, heq⟩ := heq
    have hturn := visit_spec hroom hvisit
    split at heq
    · cases heq
      exact hturn.mono (List.singleton_sublist.mpr List.mem_cons_self)
    · next hended =>
      rw [Option.isSome_iff_ne_none, not_not] at hended
      exact hturn.append (ih (hturn.room hended) heq)

/-- The rest of a chunk is the entries of the path below its first. -/
theorem chunkFrom_eq (ht : HeaderTree chain s) {best x : Hash} (hl : IsPath chain s l best)
    {size i : ℕ} (hx : l[i + size]? = some x) (chunk : List Hash) :
    chunkFrom s size x chunk = some ((l.drop i).take size ++ chunk) := by
  induction size generalizing x chunk with
  | zero => rw [chunkFrom, List.take_zero, List.nil_append]
  | succ size ih =>
    obtain ⟨p, hp, hnode⟩ := hl.parent_getElem? (i := i + size) hx
    obtain ⟨info, hinfo, -⟩ := ht.info_of_getElem? hl hx
    rw [nodes_eq hinfo, Option.some.injEq, Prod.mk.injEq] at hnode
    rw [chunkFrom, hinfo, Option.bind_eq_bind, Option.bind_some, hnode.1, ih hp (p :: chunk)]
    congr 1
    rw [List.take_add_one, List.getElem?_drop, hp, List.append_assoc]
    rfl

theorem visitChunks_spec (ht : HeaderTree chain s) {best : Hash} (hl : IsPath chain s l best)
    {stop fuel height : ℕ} (hroom : w.blocks.length < args.count)
    (heq : visitChunks s args best stop fuel height w = some w') :
    Chosen s args (l.drop (height + 1)) w w' := by
  induction fuel generalizing height w with
  | zero =>
    cases heq
    exact Chosen.same hroom rfl
  | succ fuel ih =>
    rw [visitChunks] at heq
    split at heq
    · cases heq
      exact Chosen.same hroom rfl
    · next hlt =>
      generalize hsize : min (stop - height) (max (args.count - w.blocks.length) fetchChunk) = size
        at heq
      have hpos : 0 < size := by
        have : 0 < fetchChunk := by decide
        omega
      dsimp only at heq
      rw [ht.getAncestor_eq hl, Option.bind_eq_bind, Option.bind_some, Option.bind_eq_bind,
        Option.bind_eq_some_iff] at heq
      obtain ⟨top, htop, heq⟩ := heq
      have hentry : l[height + 1 + (size - 1)]? = some top := by
        rw [← htop]
        congr 1
        omega
      rw [chunkFrom_eq ht hl hentry, Option.bind_eq_bind, Option.bind_some, Option.bind_eq_bind,
        Option.bind_eq_some_iff] at heq
      obtain ⟨w₁, hvisit, heq⟩ := heq
      have hchunk : (l.drop (height + 1)).take (size - 1) ++ [top] =
          (l.drop (height + 1)).take size := by
        conv_rhs => rw [show size = size - 1 + 1 by omega]
        rw [List.take_add_one, List.getElem?_drop, hentry]
        rfl
      rw [hchunk] at hvisit
      have hturn := visitAll_spec hroom hvisit
      split at heq
      · cases heq
        exact hturn.mono (List.take_sublist _ _)
      · next hended =>
        rw [Option.isSome_iff_ne_none, not_not] at hended
        have hrest := hturn.append (ih (hturn.room hended) heq)
        have hdrop : l.drop (height + size + 1) = (l.drop (height + 1)).drop size := by
          rw [List.drop_drop]
          congr 1
          omega
        rw [hdrop, List.take_append_drop] at hrest
        exact hrest

theorem visitSuccessors_spec (hs : Consistent chain s) {best : Hash} (hl : IsPath chain s l best)
    {start stop : ℕ} (hstop : stop < l.length) (hroom : w.blocks.length < args.count)
    (heq : visitSuccessors s args best start stop w = some w') :
    Chosen s args (l.drop (start + 1)) w w' := by
  unfold visitSuccessors at heq
  split at heq
  · next hpos =>
    -- `best_known` is on the header index, which has its path as a prefix
    obtain ⟨tip, hpath, -⟩ := hs.best
    obtain ⟨i, hi⟩ := (FiniteMap.mem_iff_exists _ _).mp hpos
    have hmem : best ∈ s.headerIndex := List.mem_of_getElem? ((hpath.pos best i).mp hi)
    obtain ⟨rest, hrest⟩ := hpath.path.prefix_of_mem hs.headerTree.tree hmem hl
    rw [← hrest, List.take_append_of_le_length (by omega)] at heq
    exact (visitAll_spec hroom heq).mono ((List.take_sublist _ _).drop _)
  · exact visitChunks_spec hs.headerTree hl hroom heq

/-! ## What is chosen -/

/-- Blocks that may be asked for, where `inFlight` is: each once, wanted, and
not in flight. -/
structure Askable (s : BlockIndex) (inFlight : Hash → Prop) (blocks : List Hash) : Prop where
  nodup : blocks.Nodup
  wanted : ∀ b ∈ blocks, Wanted s b
  free : ∀ b ∈ blocks, ¬inFlight b

theorem Askable.nil (s : BlockIndex) (inFlight : Hash → Prop) : Askable s inFlight [] :=
  ⟨List.nodup_nil, by simp, by simp⟩

/-- **`find_next_blocks_to_download` chooses blocks that may be asked for**, no
more than it was given room for. -/
theorem findNextBlocksToDownload_spec (hfit : IndexFit chain s) (hk : a.Known s)
    {count minimumChainWork segwitHeight peerId : ℕ} {inFlight : Std.ExtTreeMap Hash ℕ}
    {limited canServeWitnesses : Bool} {blocks : List Hash} {staller : Option ℕ}
    (heq : findNextBlocksToDownload s a count minimumChainWork segwitHeight inFlight peerId limited
      canServeWitnesses = some (a', blocks, staller)) :
    Kept s a a' ∧ blocks.length ≤ count ∧ Askable s (· ∈ inFlight) blocks := by
  have hs := hfit.consistent
  have ht := hs.headerTree
  unfold findNextBlocksToDownload at heq
  split at heq
  · cases heq
    exact ⟨Kept.refl s a, Nat.zero_le _, Askable.nil s _⟩
  · next hcount =>
    simp only [Option.bind_eq_bind, Option.bind_eq_some_iff] at heq
    obtain ⟨a₁, hprocess, ⟨a₂, best⟩, hstart, heq⟩ := heq
    have hkept₁ := kept_process hprocess
    obtain ⟨hkept₂, hwalk⟩ := walkStart_spec hfit (hkept₁.known hk) hstart
    cases best with
    | none =>
      cases heq
      exact ⟨hkept₁.trans hkept₂, Nat.zero_le _, Askable.nil s _⟩
    | some best =>
      simp only [Option.bind_eq_some_iff] at heq
      obtain ⟨lastCommon, hlast, info, hinfo, binfo, hbinfo, w, hvisit, heq⟩ := heq
      cases heq
      obtain ⟨l, i, lastCommon', hl, hlast', hstarts⟩ := hwalk best rfl
      rw [hlast, Option.some.injEq] at hlast'
      subst hlast'
      obtain ⟨info', hinfo', rfl⟩ := ht.info_of_getElem? hl hstarts.entry
      rw [hinfo, Option.some.injEq] at hinfo'
      subst hinfo'
      obtain ⟨binfo', hbinfo', hbindex⟩ := ht.info_of_getElem? hl hl.tip_getElem?
      rw [hbinfo, Option.some.injEq] at hbinfo'
      subst hbinfo'
      have hlen := hl.length_pos
      have hchosen := visitSuccessors_spec hs hl (by omega)
        (show ([] : List Hash).length < count by simpa using Nat.pos_of_ne_zero hcount) hvisit
      obtain ⟨zs, hzs, hsub, hgood⟩ := hchosen.added
      rw [List.nil_append] at hzs
      refine ⟨hkept₁.trans (hkept₂.trans ⟨rfl, rfl, fun hk => hk⟩), hchosen.length_le, ?_, ?_, ?_⟩
      · rw [hzs]
        exact hsub.nodup ((List.drop_sublist _ _).nodup (hl.nodup ht.tree))
      · intro b hb
        rw [hzs] at hb
        obtain ⟨⟨binfo, hb₁, hb₂⟩, -⟩ := hgood b hb
        refine ⟨?_, fun info' hinfo' => ?_⟩
        · obtain ⟨j, hj⟩ := List.mem_iff_getElem?.mp (hsub.subset hb)
          rw [List.getElem?_drop] at hj
          exact hstarts.off _ b (by omega) hj
        · rw [hb₁, Option.some.injEq] at hinfo'
          exact hinfo' ▸ hb₂
      · intro b hb
        rw [hzs] at hb
        rw [FiniteMap.notMem_iff]
        exact (hgood b hb).2

end BlockAvailability

/-! ## `headers_direct_fetch` -/

namespace DownloadNode

open BlockAvailability

theorem onTheActiveChain_spec (hs : Sound chain s) {x : Hash} {b : Bool}
    (heq : onTheActiveChain s x = some b) : b = true ↔ x ∈ s.activeChain := by
  unfold onTheActiveChain at heq
  rw [Option.bind_eq_bind, Option.bind_eq_some_iff] at heq
  obtain ⟨info, hinfo, heq⟩ := heq
  obtain rfl := Option.some.inj heq
  rw [beq_iff_eq]
  constructor
  · exact List.mem_of_getElem?
  · intro hx
    obtain ⟨info', hinfo', hactive⟩ := hs.info_of_active hx
    rw [hinfo, Option.some.injEq] at hinfo'
    rwa [← hinfo'] at hactive

/-- The walk back collects entries of the path above where it stands, off the
active chain. -/
theorem walkBack_spec (hs : Sound chain s) (hl : IsPath chain s l h) {segwitHeight fuel i : ℕ}
    {inFlight : List Hash} {witnesses : Bool} {walk stop : Hash} {toFetch found : List Hash}
    (hwalk : l[i]? = some walk) (hsub : toFetch.Sublist (l.drop (i + 1)))
    (hgood : ∀ b ∈ toFetch, Wanted s b ∧ b ∉ inFlight)
    (heq : walkBack s segwitHeight inFlight witnesses fuel walk toFetch = some (stop, found)) :
    Askable s (· ∈ inFlight) found := by
  have ht := hs.headerTree
  have hdone : ∀ {toFetch : List Hash} {i : ℕ}, toFetch.Sublist (l.drop (i + 1)) →
      (∀ b ∈ toFetch, Wanted s b ∧ b ∉ inFlight) → Askable s (· ∈ inFlight) toFetch :=
    fun hsub hgood => ⟨hsub.nodup ((List.drop_sublist _ _).nodup (hl.nodup ht.tree)),
      fun b hb => (hgood b hb).1, fun b hb => (hgood b hb).2⟩
  induction fuel generalizing i walk toFetch with
  | zero =>
    rw [walkBack, Option.bind_eq_bind, Option.bind_eq_some_iff] at heq
    obtain ⟨on, -, heq⟩ := heq
    split at heq
    · cases heq
      exact hdone hsub hgood
    · cases heq
  | succ fuel ih =>
    rw [walkBack, Option.bind_eq_bind, Option.bind_eq_some_iff] at heq
    obtain ⟨on, hon, heq⟩ := heq
    split at heq
    · cases heq
      exact hdone hsub hgood
    · next hgo =>
      rw [not_or] at hgo
      have hoff : walk ∉ s.activeChain := fun hx =>
        hgo.1 ((onTheActiveChain_spec hs hon).mpr hx)
      rw [Option.bind_eq_bind, Option.bind_eq_some_iff] at heq
      obtain ⟨info, hinfo, heq⟩ := heq
      -- genesis is on the active chain, so there is an entry below
      cases i with
      | zero =>
        rw [← List.head?_eq_getElem?, hl.head?, Option.some.injEq] at hwalk
        exact absurd hs.genesis_active (hwalk ▸ hoff)
      | succ i =>
        obtain ⟨p, hp, hnode⟩ := hl.parent_getElem? hwalk
        rw [nodes_eq hinfo, Option.some.injEq, Prod.mk.injEq] at hnode
        rw [hnode.1] at heq
        have hcons : l.drop (i + 1) = walk :: l.drop (i + 1 + 1) := by
          obtain ⟨hlt, hget⟩ := List.getElem?_eq_some_iff.mp hwalk
          rw [List.drop_eq_getElem_cons hlt, hget]
        refine ih hp ?_ ?_ heq
        · rw [hcons]
          split
          · exact hsub.cons_cons walk
          · exact hsub.cons walk
        · intro b hb
          split at hb
          · next hnew =>
            rcases List.mem_cons.mp hb with rfl | hb
            · refine ⟨⟨hoff, fun info' hinfo' => ?_⟩, hnew.2.1⟩
              rw [hinfo, Option.some.injEq] at hinfo'
              rw [← hinfo']
              simpa using hnew.1
            · exact hgood b hb
          · exact hgood b hb

/-- **`headers_direct_fetch` asks for blocks that may be asked for**, no more
than it has room for. -/
theorem toDirectFetch_spec {S P : Type} {rules : DownloadRules P S} {n : DownloadNode P S}
    {c : Connection P S} {now : ℚ} {lastHeader : Hash} {blocks : List Hash}
    (hs : Sound chain n.blockIndex)
    (heq : toDirectFetch rules n c lastHeader now = some blocks) :
    blocks.length ≤ maxBlocksInTransitPerPeer - c.downloadQueue.length ∧
      Askable n.blockIndex (· ∈ n.connections.flatMap Connection.downloadQueue) blocks := by
  have hnone : ([] : List Hash).length ≤ maxBlocksInTransitPerPeer - c.downloadQueue.length ∧
      Askable n.blockIndex (· ∈ n.connections.flatMap Connection.downloadQueue) [] :=
    ⟨Nat.zero_le _, Askable.nil _ _⟩
  unfold toDirectFetch at heq
  simp only [Option.bind_eq_bind, Option.bind_eq_some_iff] at heq
  obtain ⟨tip, -, tipInfo, -, heq⟩ := heq
  split at heq
  · cases heq
    exact hnone
  · rw [Option.bind_eq_some_iff] at heq
    obtain ⟨info, hinfo, heq⟩ := heq
    split at heq
    · cases heq
      exact hnone
    · simp only [Option.bind_eq_some_iff] at heq
      obtain ⟨_, -, _, -, heq⟩ := heq
      split at heq
      · cases heq
        exact hnone
      · simp only [Option.bind_eq_some_iff] at heq
        obtain ⟨⟨walk, toFetch⟩, hback, on, -, heq⟩ := heq
        obtain ⟨l, hl, hlen⟩ := hs.headerTree.exists_path hinfo
        have hask := walkBack_spec hs hl (i := l.length - 1) hl.tip_getElem?
          (List.nil_sublist _) (by simp) hback
        dsimp only at heq
        split at heq
        · cases heq
          have hsub := List.take_sublist (maxBlocksInTransitPerPeer - c.downloadQueue.length) toFetch
          exact ⟨List.length_take_le _ _, hsub.nodup hask.nodup,
            fun b hb => hask.wanted b (hsub.subset hb), fun b hb => hask.free b (hsub.subset hb)⟩
        · cases heq
          exact hnone

end DownloadNode

end BtclibNode
