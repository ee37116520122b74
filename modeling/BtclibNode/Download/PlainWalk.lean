/-
# The plain walk

`find_next_blocks_to_download` reads the ancestors of `best_known` above
`last_common`, up to the first past the window.  Over that list what it chooses,
whom it waits for and where `last_common` goes have plain definitions; the header
index and the chunks read backwards give the same list.
-/
import BtclibNode.Chainstate.Ancestors
import BtclibNode.Download.Choice

namespace BtclibNode.BlockAvailability

open BlockIndex HeightTree

variable {P : Type} {chain : Chain} {s : BlockIndex} {args : WalkArgs} {w w' : Walk}
  {a : BlockAvailability P} {h best lastCommon : Hash} {l above : List Hash}

/-! ## Plain definitions -/

section Plain

variable (s : BlockIndex) (args : WalkArgs)

/-- A block the walk goes past: valid, and with witnesses the peer can serve. -/
def isWalkable (h : Hash) : Bool :=
  (s.getBlockInfo h).any fun info => decide (info.status ≠ .invalid) &&
    (args.canServeWitnesses || decide (info.index < args.segwitHeight))

/-- A block this node holds. -/
def isHeld (h : Hash) : Bool := (s.getBlockInfo h).any BlockInfo.downloaded

/-- The peer a block not held is in flight from. -/
def holder (h : Hash) : Option ℕ := if isHeld s h then none else args.inFlight[h]?

/-- Neither held nor in flight. -/
def isFree (h : Hash) : Bool := !isHeld s h && args.inFlight[h]?.isNone

/-- Too deep for a limited peer. -/
def isTooDeep (h : Hash) : Bool :=
  args.limited && decide (minBlocksToKeep - 2 ≤ args.bestHeight - s.heightOf h)

/-- A block to ask for: free, in the window and not too deep. -/
def isWantedHere (h : Hash) : Bool :=
  isFree s args h && decide (s.heightOf h ≤ args.windowEnd) && !isTooDeep s args h

/-- The blocks to ask for among `above`, however many. -/
def plainWanted (above : List Hash) : List Hash :=
  (above.takeWhile (isWalkable s args)).filter (isWantedHere s args)

/-- The blocks to ask for, of those above `last_common`. -/
def plainBlocks (above : List Hash) : List Hash := (plainWanted s args above).take args.count

/-- Where `last_common` goes: as far as every block is held. -/
def plainLastCommon (above : List Hash) (lastCommon : Hash) : Hash :=
  (above.takeWhile fun h => isWalkable s args h && isHeld s h).getLastD lastCommon

/-- The peer of the first block in flight. -/
def firstHolder (above : List Hash) : Option ℕ :=
  (above.takeWhile (isWalkable s args)).findSome? (holder s args)

/-- The walk comes to a block past the window that is neither held nor in flight. -/
def reachesPast (above : List Hash) : Bool :=
  (above.takeWhile (isWalkable s args)).any fun h =>
    isFree s args h && decide (args.windowEnd < s.heightOf h)

/-- The peer that stalls. -/
def plainStaller (above : List Hash) : Option ℕ :=
  if plainBlocks s args above = [] ∧ reachesPast s args above = true ∧
      firstHolder s args above ≠ some args.peerId then firstHolder s args above
  else none

end Plain

/-! ## A turn -/

section Turn

variable {info : BlockInfo}

theorem isWalkable_iff (hinfo : s.getBlockInfo h = some info) : isWalkable s args h = true ↔
    ¬(info.status = .invalid ∨
      (!args.canServeWitnesses) = true ∧ args.segwitHeight ≤ info.index) := by
  rw [isWalkable, hinfo, Option.any_some]
  simp [not_or, imp_iff_not_or]

theorem isHeld_eq (hinfo : s.getBlockInfo h = some info) : isHeld s h = info.downloaded := by
  rw [isHeld, hinfo, Option.any_some]

theorem heightOf_eq (hinfo : s.getBlockInfo h = some info) : s.heightOf h = info.index := by
  rw [heightOf, hinfo]
  rfl

theorem isFree_iff : isFree s args h = true ↔ isHeld s h = false ∧ args.inFlight[h]? = none := by
  rw [isFree, Bool.and_eq_true, Bool.not_eq_true', Option.isNone_iff_eq_none]

theorem visit_stop (hinfo : s.getBlockInfo h = some info) (hwalk : isWalkable s args h = false) :
    visit s args w h = some { w with ended := some none } := by
  have hstop := mt (isWalkable_iff hinfo).mpr (by rw [hwalk]; exact Bool.false_ne_true)
  rw [not_not] at hstop
  rw [visit, hinfo]
  exact if_pos hstop

theorem visit_held (hinfo : s.getBlockInfo h = some info) (hwalk : isWalkable s args h = true)
    (hheld : isHeld s h = true) :
    visit s args w h = some { w with lastCommon := if w.allHeld then h else w.lastCommon } := by
  rw [isHeld_eq hinfo] at hheld
  rw [visit, hinfo]
  exact (if_neg ((isWalkable_iff hinfo).mp hwalk)).trans (if_pos hheld)

/-- A turn at a block that is not held. -/
theorem visit_missing (hinfo : s.getBlockInfo h = some info) (hwalk : isWalkable s args h = true)
    (hheld : isHeld s h = false) :
    visit s args w h = match args.inFlight[h]? with
      | some peer => some { w with allHeld := false, waitingFor := w.waitingFor.or (some peer) }
      | none =>
        if args.windowEnd < s.heightOf h then
          some { w with
            allHeld := false
            ended := some (if w.blocks = [] ∧ w.waitingFor ≠ some args.peerId then w.waitingFor
              else none) }
        else if isTooDeep s args h then some { w with allHeld := false }
        else some { w with
          allHeld := false
          blocks := w.blocks ++ [h]
          ended := if (w.blocks ++ [h]).length = args.count then some none else none } := by
  rw [isHeld_eq hinfo] at hheld
  have hdeep : isTooDeep s args h = true ↔
      args.limited = true ∧ minBlocksToKeep - 2 ≤ args.bestHeight - info.index := by
    rw [isTooDeep, Bool.and_eq_true, decide_eq_true_iff, heightOf_eq hinfo]
  rw [visit, hinfo]
  refine (if_neg ((isWalkable_iff hinfo).mp hwalk)).trans ((if_neg (by simp [hheld])).trans ?_)
  cases args.inFlight[h]? with
  | some peer => rfl
  | none =>
    simp only [hdeep, heightOf_eq hinfo]
    rfl

end Turn

/-! ## The loop -/

/-- Blocks in the order of their heights, one past the window at most. -/
structure Climbs (s : BlockIndex) (args : WalkArgs) (above : List Hash) : Prop where
  known : ∀ h ∈ above, ∃ info, s.getBlockInfo h = some info
  rising : above.Pairwise fun x y => s.heightOf x < s.heightOf y
  le : ∀ h ∈ above, s.heightOf h ≤ args.windowEnd + 1

theorem Climbs.tail (hc : Climbs s args (h :: above)) : Climbs s args above :=
  ⟨fun x hx => hc.known x (List.mem_cons_of_mem h hx), hc.rising.of_cons,
    fun x hx => hc.le x (List.mem_cons_of_mem h hx)⟩

/-- What the walk over `above` makes of `w`. -/
structure PlainOutcome (s : BlockIndex) (args : WalkArgs) (above : List Hash) (w w' : Walk) :
    Prop where
  blocks : w'.blocks = (w.blocks ++ plainWanted s args above).take args.count
  lastCommon : w'.lastCommon =
    if w.allHeld then plainLastCommon s args above w.lastCommon else w.lastCommon
  staller : w'.ended.getD none =
    if w'.blocks = [] ∧ reachesPast s args above = true ∧
        w.waitingFor.or (firstHolder s args above) ≠ some args.peerId then
      w.waitingFor.or (firstHolder s args above)
    else none

/-- A walk that ends at a block it does not go past. -/
theorem plainOutcome_of_not_walkable (hroom : w.blocks.length < args.count)
    (hwalk : isWalkable s args h = false) :
    PlainOutcome s args (h :: above) w { w with ended := some none } := by
  have htake : (h :: above).takeWhile (isWalkable s args) = [] := by
    rw [List.takeWhile_cons, hwalk]
    rfl
  refine ⟨?_, ?_, ?_⟩
  · rw [plainWanted, htake, List.filter_nil, List.append_nil, List.take_of_length_le (by omega)]
  · rw [plainLastCommon, List.takeWhile_cons, hwalk]
    split <;> rfl
  · rw [reachesPast, htake, if_neg (by simp)]
    rfl

/-- A turn that passes over a block. -/
theorem PlainOutcome.skip {w₁ : Walk} (ho : PlainOutcome s args above w₁ w')
    (hwalk : isWalkable s args h = true)
    (hwanted : isWantedHere s args h = false)
    (hpast : (isFree s args h && decide (args.windowEnd < s.heightOf h)) = false)
    (hblocks : w₁.blocks = w.blocks)
    (hwaiting : w₁.waitingFor = w.waitingFor.or (holder s args h))
    (hlast : (if w₁.allHeld then plainLastCommon s args above w₁.lastCommon else w₁.lastCommon) =
      if w.allHeld then plainLastCommon s args (h :: above) w.lastCommon else w.lastCommon) :
    PlainOutcome s args (h :: above) w w' := by
  have htake : (h :: above).takeWhile (isWalkable s args) =
      h :: above.takeWhile (isWalkable s args) := by
    rw [List.takeWhile_cons, hwalk]
    rfl
  have hpast' : reachesPast s args (h :: above) = reachesPast s args above := by
    rw [reachesPast, htake, List.any_cons, hpast, Bool.false_or, reachesPast]
  have hholder : w.waitingFor.or (firstHolder s args (h :: above)) =
      w₁.waitingFor.or (firstHolder s args above) := by
    rw [hwaiting, firstHolder, htake, List.findSome?_cons, Option.or_assoc, firstHolder]
    cases holder s args h <;> rfl
  refine ⟨?_, ?_, ?_⟩
  · rw [ho.blocks, hblocks, plainWanted, plainWanted, htake, List.filter_cons, hwanted]
    rfl
  · rw [ho.lastCommon, hlast]
  · rw [ho.staller, hpast', hholder]

theorem plainLastCommon_cons_of_not_held (hheld : isHeld s h = false) :
    plainLastCommon s args (h :: above) lastCommon = lastCommon := by
  rw [plainLastCommon, List.takeWhile_cons, hheld, Bool.and_false]
  rfl

/-- What the rest of the walk does after a turn. -/
theorem visitAll_cons {w₁ : Walk} (hvisit : visit s args w h = some w₁) :
    visitAll s args (h :: above) w =
      if w₁.ended.isSome then some w₁ else visitAll s args above w₁ := by
  rw [visitAll, hvisit]
  rfl

/-- A walk that ends at a block past the window. -/
theorem plainOutcome_of_past (hroom : w.blocks.length < args.count)
    (hwalk : isWalkable s args h = true) (hfree : isFree s args h = true)
    (hpast : args.windowEnd < s.heightOf h) :
    PlainOutcome s args [h] w { w with
      allHeld := false
      ended := some (if w.blocks = [] ∧ w.waitingFor ≠ some args.peerId then w.waitingFor
        else none) } := by
  obtain ⟨hheld, hflight⟩ := isFree_iff.mp hfree
  have htake : [h].takeWhile (isWalkable s args) = [h] := by
    rw [List.takeWhile_cons, hwalk]
    rfl
  refine ⟨?_, ?_, ?_⟩
  · have hout : isWantedHere s args h = false := by
      rw [isWantedHere, decide_eq_false (by omega), Bool.and_false, Bool.false_and]
    have hnone : plainWanted s args [h] = [] := by
      rw [plainWanted, htake, List.filter_cons, hout]
      rfl
    rw [hnone, List.append_nil, List.take_of_length_le (Nat.le_of_lt hroom)]
  · rw [plainLastCommon_cons_of_not_held hheld, ite_self]
  · have hreach : reachesPast s args [h] = true := by
      rw [reachesPast, htake, List.any_cons, hfree, decide_eq_true hpast]
      rfl
    have hnone : w.waitingFor.or (firstHolder s args [h]) = w.waitingFor := by
      rw [firstHolder, htake, List.findSome?_cons, holder, hheld, hflight]
      exact Option.or_none
    rw [hreach, hnone]
    dsimp only [Option.getD_some]
    simp only [true_and]

/-- A turn that chooses a block. -/
theorem PlainOutcome.choose (hroom : w.blocks.length < args.count)
    (hwalk : isWalkable s args h = true) (hwanted : isWantedHere s args h = true)
    (ho : w' = { w with
        allHeld := false
        blocks := w.blocks ++ [h]
        ended := some none } ∧ (w.blocks ++ [h]).length = args.count ∨
      PlainOutcome s args above { w with allHeld := false, blocks := w.blocks ++ [h] } w') :
    PlainOutcome s args (h :: above) w w' := by
  have hheld : isHeld s h = false := by
    rw [isWantedHere, Bool.and_eq_true, Bool.and_eq_true] at hwanted
    exact (isFree_iff.mp hwanted.1.1).1
  have htake : (h :: above).takeWhile (isWalkable s args) =
      h :: above.takeWhile (isWalkable s args) := by
    rw [List.takeWhile_cons, hwalk]
    rfl
  have hplain : w.blocks ++ plainWanted s args (h :: above) =
      (w.blocks ++ [h]) ++ plainWanted s args above := by
    rw [plainWanted, htake, List.filter_cons, if_pos hwanted, List.append_assoc]
    rfl
  have hblocks : w'.blocks = (w.blocks ++ plainWanted s args (h :: above)).take args.count := by
    rcases ho with ⟨rfl, hfull⟩ | ho
    · rw [hplain, ← hfull, List.take_left]
    · rw [hplain, ho.blocks]
  refine ⟨hblocks, ?_, ?_⟩
  · rw [plainLastCommon_cons_of_not_held hheld, ite_self]
    rcases ho with ⟨rfl, -⟩ | ho
    · rfl
    · rw [ho.lastCommon]
      rfl
  · -- once a block is chosen nobody stalls
    have hne : w'.blocks ≠ [] := by
      rw [hblocks, hplain, List.append_assoc]
      intro hnil
      have hlen := congrArg List.length hnil
      simp only [List.length_take, List.length_append, List.length_singleton,
        List.length_nil] at hlen
      omega
    rw [if_neg fun hx => hne hx.1]
    rcases ho with ⟨rfl, -⟩ | ho
    · rfl
    · rw [ho.staller, if_neg fun hx => hne hx.1]

/-- **The loop is the plain walk.** -/
theorem visitAll_plain (hc : Climbs s args above) (hended : w.ended = none)
    (hroom : w.blocks.length < args.count) :
    ∃ w', visitAll s args above w = some w' ∧ PlainOutcome s args above w w' := by
  induction above generalizing w with
  | nil =>
    refine ⟨w, rfl, ⟨?_, ?_, ?_⟩⟩
    · rw [plainWanted, List.takeWhile_nil, List.filter_nil, List.append_nil,
        List.take_of_length_le (by omega)]
    · exact (ite_self _).symm
    · rw [hended, if_neg (by simp [reachesPast])]
      rfl
  | cons h above ih =>
    obtain ⟨info, hinfo⟩ := hc.known h List.mem_cons_self
    cases hwalk : isWalkable s args h with
    | false =>
      rw [visitAll_cons (visit_stop hinfo hwalk)]
      exact ⟨_, rfl, plainOutcome_of_not_walkable hroom hwalk⟩
    | true =>
      -- a turn that leaves the walk on its way
      have hnext : ∀ {w₁ : Walk}, visit s args w h = some w₁ → w₁.ended = none →
          w₁.blocks.length < args.count →
          ∃ w', visitAll s args (h :: above) w = some w' ∧ PlainOutcome s args above w₁ w' := by
        intro w₁ hvisit hended₁ hroom₁
        obtain ⟨w', heq, ho⟩ := ih hc.tail hended₁ hroom₁
        refine ⟨w', ?_, ho⟩
        rw [visitAll_cons hvisit, hended₁]
        exact heq
      cases hheld : isHeld s h with
      | true =>
        obtain ⟨w', heq, ho⟩ := hnext (visit_held hinfo hwalk hheld) hended hroom
        refine ⟨w', heq, ho.skip hwalk ?_ ?_ rfl ?_ ?_⟩
        · rw [isWantedHere, isFree, hheld]
          rfl
        · rw [isFree, hheld]
          rfl
        · rw [holder, hheld, if_pos rfl, Option.or_none]
        · dsimp only
          rw [plainLastCommon, plainLastCommon, List.takeWhile_cons, hwalk, hheld]
          cases w.allHeld with
          | false => rfl
          | true => exact (List.getLastD_cons (a := w.lastCommon)).symm
      | false =>
        have hvisit := visit_missing (w := w) hinfo hwalk hheld
        have hlast : w.lastCommon = if w.allHeld
            then plainLastCommon s args (h :: above) w.lastCommon else w.lastCommon := by
          rw [plainLastCommon_cons_of_not_held hheld, ite_self]
        cases hflight : args.inFlight[h]? with
        | some peer =>
          rw [hflight] at hvisit
          have hbusy : isFree s args h = false := by
            rw [isFree, hflight]
            exact Bool.and_false _
          obtain ⟨w', heq, ho⟩ := hnext hvisit hended hroom
          refine ⟨w', heq, ho.skip hwalk ?_ ?_ rfl ?_ hlast⟩
          · rw [isWantedHere, hbusy]
            rfl
          · rw [hbusy]
            rfl
          · rw [holder, hheld, hflight]
            rfl
        | none =>
          rw [hflight] at hvisit
          dsimp only at hvisit
          have hfree := isFree_iff.mpr ⟨hheld, hflight⟩
          by_cases hpast : args.windowEnd < s.heightOf h
          · -- past the window's end there is nothing more to visit
            rw [if_pos hpast] at hvisit
            have hnil : above = [] := by
              refine List.eq_nil_iff_forall_not_mem.mpr fun y hy => ?_
              have hlt := List.rel_of_pairwise_cons hc.rising hy
              have hle := hc.le y (List.mem_cons_of_mem h hy)
              omega
            subst hnil
            rw [visitAll_cons hvisit]
            exact ⟨_, rfl, plainOutcome_of_past hroom hwalk hfree hpast⟩
          · rw [if_neg hpast] at hvisit
            cases hdeep : isTooDeep s args h with
            | true =>
              rw [if_pos hdeep] at hvisit
              obtain ⟨w', heq, ho⟩ := hnext hvisit hended hroom
              refine ⟨w', heq, ho.skip hwalk ?_ ?_ rfl ?_ hlast⟩
              · rw [isWantedHere, hdeep]
                exact Bool.and_false _
              · rw [decide_eq_false hpast, Bool.and_false]
              · rw [holder, hheld, hflight]
                exact Option.or_none.symm
            | false =>
              rw [hdeep, if_neg Bool.false_ne_true] at hvisit
              have hwanted : isWantedHere s args h = true := by
                rw [isWantedHere, hfree, hdeep, decide_eq_true (by omega)]
                rfl
              by_cases hfull : (w.blocks ++ [h]).length = args.count
              · rw [if_pos hfull] at hvisit
                rw [visitAll_cons hvisit]
                exact ⟨_, rfl, .choose hroom hwalk hwanted (.inl ⟨rfl, hfull⟩)⟩
              · rw [if_neg hfull, ← hended] at hvisit
                rw [List.length_append, List.length_singleton] at hfull
                obtain ⟨w', heq, ho⟩ := hnext hvisit hended (by simp; omega)
                exact ⟨w', heq, .choose hroom hwalk hwanted (.inr ho)⟩

/-! ## The blocks above `last_common` -/

theorem visitAll_append (hended : w.ended = none) (xs ys : List Hash) :
    visitAll s args (xs ++ ys) w = (visitAll s args xs w).bind fun w' =>
      if w'.ended.isSome then some w' else visitAll s args ys w' := by
  induction xs generalizing w with
  | nil =>
    show visitAll s args ys w = if w.ended.isSome then some w else visitAll s args ys w
    rw [hended]
    rfl
  | cons x xs ih =>
    rw [List.cons_append, visitAll, visitAll, Option.bind_eq_bind, Option.bind_assoc]
    congr 1
    funext w₁
    split
    · next hsome =>
      show some w₁ = if w₁.ended.isSome then some w₁ else visitAll s args ys w₁
      rw [if_pos hsome]
    · next hnone =>
      rw [Option.isSome_iff_ne_none, not_not] at hnone
      exact ih hnone

/-- The chunks read backwards are the path. -/
theorem visitChunks_eq (ht : HeaderTree chain s) (hl : IsPath chain s l best)
    {stop fuel height : ℕ} (hstop : stop < l.length) (hfuel : stop - height ≤ fuel)
    (hended : w.ended = none) : visitChunks s args best stop fuel height w =
      visitAll s args ((l.take (stop + 1)).drop (height + 1)) w := by
  induction fuel generalizing height w with
  | zero =>
    rw [List.drop_eq_nil_of_le (by rw [List.length_take]; omega)]
    rfl
  | succ fuel ih =>
    rw [visitChunks]
    split
    · rw [List.drop_eq_nil_of_le (by rw [List.length_take]; omega)]
      rfl
    · next hlt =>
      generalize hsize : min (stop - height) (max (args.count - w.blocks.length) fetchChunk) = size
      have hpos : 0 < size := by
        have : 0 < fetchChunk := by decide
        omega
      obtain ⟨top, htop⟩ : ∃ top, l[height + size]? = some top :=
        ⟨_, List.getElem?_eq_getElem (by omega)⟩
      have hentry : l[height + 1 + (size - 1)]? = some top := by
        rw [← htop]
        congr 1
        omega
      have hchunk : (l.drop (height + 1)).take (size - 1) ++ [top] =
          (l.drop (height + 1)).take size := by
        conv_rhs => rw [show size = size - 1 + 1 by omega]
        rw [List.take_add_one, List.getElem?_drop, hentry]
        rfl
      have hsplit : (l.take (stop + 1)).drop (height + 1) =
          (l.drop (height + 1)).take size ++ (l.take (stop + 1)).drop (height + size + 1) := by
        have hdrop : (l.take (stop + 1)).drop (height + size + 1) =
            ((l.take (stop + 1)).drop (height + 1)).drop size := by
          rw [List.drop_drop]
          congr 1
          omega
        have htake : (l.drop (height + 1)).take size =
            ((l.take (stop + 1)).drop (height + 1)).take size := by
          rw [List.drop_take, List.take_take]
          congr 1
          omega
        rw [hdrop, htake, List.take_append_drop]
      dsimp only
      rw [ht.getAncestor_eq hl, htop, hsplit, visitAll_append hended]
      dsimp only [Option.bind_eq_bind, Option.bind_some]
      rw [chunkFrom_eq ht hl hentry, hchunk, Option.bind_some]
      congr 1
      funext w₁
      split
      · rfl
      · next hnone =>
        rw [Option.isSome_iff_ne_none, not_not] at hnone
        exact ih (by omega) hnone

/-- The header index has the path of each of its headers as a prefix. -/
theorem take_headerIndex (hs : Consistent chain s) (hl : IsPath chain s l best)
    (hpos : best ∈ s.headerIndexPos) {stop : ℕ} (hstop : stop < l.length) :
    s.headerIndex.take (stop + 1) = l.take (stop + 1) := by
  obtain ⟨tip, hpath, -⟩ := hs.best
  obtain ⟨i, hi⟩ := (FiniteMap.mem_iff_exists _ _).mp hpos
  have hmem : best ∈ s.headerIndex := List.mem_of_getElem? ((hpath.pos best i).mp hi)
  obtain ⟨rest, hrest⟩ := hpath.path.prefix_of_mem hs.headerTree.tree hmem hl
  rw [← hrest, List.take_append_of_le_length (by omega)]

/-- The blocks of a path above a height, up to the first past the window. -/
def aboveOf (l : List Hash) (start : ℕ) : List Hash :=
  (l.drop (start + 1)).take (blockDownloadWindow + 1)

theorem aboveOf_eq (l : List Hash) (start : ℕ) :
    (l.take (min (l.length - 1) (start + blockDownloadWindow + 1) + 1)).drop (start + 1) =
      aboveOf l start := by
  rw [aboveOf, List.drop_take]
  by_cases hlong : start + blockDownloadWindow + 1 ≤ l.length - 1
  · congr 1
    omega
  · rw [List.take_of_length_le (by rw [List.length_drop]; omega),
      List.take_of_length_le (by rw [List.length_drop]; omega)]

theorem climbs_aboveOf (ht : HeaderTree chain s) (hl : IsPath chain s l best) {start : ℕ}
    (hwindow : args.windowEnd = start + blockDownloadWindow) :
    Climbs s args (aboveOf l start) := by
  have hheight : ∀ {i : ℕ} {x : Hash}, l[i]? = some x → s.heightOf x = i := by
    intro i x hi
    obtain ⟨info, hinfo, hindex⟩ := ht.info_of_getElem? hl hi
    rw [heightOf_eq hinfo, hindex]
  have hentry : ∀ {i : ℕ} {x : Hash}, (aboveOf l start)[i]? = some x →
      l[start + 1 + i]? = some x ∧ i < blockDownloadWindow + 1 := by
    intro i x hi
    rw [aboveOf, List.getElem?_take] at hi
    split at hi
    · next hlt => exact ⟨by rw [List.getElem?_drop] at hi; exact hi, hlt⟩
    · cases hi
  refine ⟨fun x hx => ?_, ?_, fun x hx => ?_⟩
  · obtain ⟨i, hi⟩ := List.mem_iff_getElem?.mp hx
    obtain ⟨info, hinfo, -⟩ := ht.info_of_getElem? hl (hentry hi).1
    exact ⟨info, hinfo⟩
  · rw [List.pairwise_iff_getElem]
    intro i j hi hj hij
    rw [hheight (hentry (List.getElem?_eq_getElem hi)).1,
      hheight (hentry (List.getElem?_eq_getElem hj)).1]
    omega
  · obtain ⟨i, hi⟩ := List.mem_iff_getElem?.mp hx
    obtain ⟨hl, hlt⟩ := hentry hi
    rw [hheight hl]
    omega

/-- The blocks up to where `last_common` goes are held. -/
theorem isHeld_of_le_plainLastCommon (hc : Climbs s args above) {x : Hash} (hx : x ∈ above)
    (hbelow : s.heightOf lastCommon < s.heightOf x)
    (hle : s.heightOf x ≤ s.heightOf (plainLastCommon s args above lastCommon)) :
    isHeld s x = true := by
  unfold plainLastCommon at hle
  generalize hp : (fun h => isWalkable s args h && isHeld s h) = p at hle
  have hpx : p x = true → isHeld s x = true := by
    intro h
    rw [← hp, Bool.and_eq_true] at h
    exact h.2
  clear hp
  induction above generalizing lastCommon with
  | nil => cases hx
  | cons h above ih =>
    rw [List.takeWhile_cons] at hle
    split at hle
    · next hph =>
      rw [List.getLastD_cons] at hle
      rcases List.mem_cons.mp hx with rfl | hx
      · exact hpx hph
      · exact ih hc.tail hx (List.rel_of_pairwise_cons hc.rising hx) hle
    · exact absurd (show s.heightOf x ≤ s.heightOf lastCommon from hle) (by omega)

/-! ## Where the walk starts -/

/-- The highest block of a path on the active chain. -/
structure IsForkPoint (s : BlockIndex) (l : List Hash) (fork : Hash) : Prop where
  mem : fork ∈ l
  active : fork ∈ s.activeChain
  highest : ∀ x ∈ l, x ∈ s.activeChain → s.heightOf x ≤ s.heightOf fork

/-- The `last_common` a walk starts from: the fork point where it is unset, has less
work than that or is not on the path. -/
def plainStart (s : BlockIndex) (l : List Hash) (fork : Hash) : Option Hash → Hash
  | none => fork
  | some c => if s.weight c < s.weight fork ∨ c ∉ l then fork else c

theorem resetLastCommon_plain (ht : HeaderTree chain s) (hl : IsPath chain s l best) {fork : Hash}
    (hfork : fork ∈ l) {c : Option Hash}
    (hc : ∀ x, c = some x → ∃ info, s.getBlockInfo x = some info) :
    resetLastCommon s best fork c = some (plainStart s l fork c) := by
  obtain ⟨finfo, hfinfo, -⟩ := ht.info_of_mem hl hfork
  cases c with
  | none => rfl
  | some c =>
    obtain ⟨info, hinfo⟩ := hc c rfl
    have hmem : l[info.index]? = some c ↔ c ∈ l :=
      ⟨List.mem_of_getElem?, fun h => hl.getElem?_of_mem ht.tree h (nodes_eq hinfo)⟩
    unfold resetLastCommon plainStart
    dsimp only
    rw [ht.work_eq hinfo, ht.work_eq hfinfo, Option.bind_eq_bind, Option.bind_some,
      Option.bind_eq_bind, Option.bind_some]
    by_cases hwork : s.weight c < s.weight fork
    · rw [if_pos hwork, if_pos (.inl hwork)]
      rfl
    · rw [if_neg hwork, hinfo, Option.bind_eq_bind, Option.bind_some, ht.getAncestor_eq hl,
        Option.bind_some]
      by_cases hon : c ∈ l
      · rw [if_pos (hmem.mpr hon), if_neg (by simp [hwork, hon])]
        rfl
      · rw [if_neg (mt hmem.mp hon), if_pos (.inr hon)]
        rfl

/-- **Where the walk starts.** -/
theorem walkStart_plain (hs : Consistent chain s) (hskip : Skipped s) {tip : Hash} {m : ℕ}
    (htip : s.activeChain.getLast? = some tip) (hbest : a.bestKnown = some best)
    (hl : IsPath chain s l best) (hwork : s.weight tip ≤ s.weight best) (hmin : m ≤ s.weight best)
    (hc : ∀ x, a.lastCommon = some x → ∃ info, s.getBlockInfo x = some info) :
    ∃ fork, IsForkPoint s l fork ∧ walkStart s a m =
      some ({ a with lastCommon := some (plainStart s l fork a.lastCommon) },
        if plainStart s l fork a.lastCommon = best then none else some best) := by
  have ht := hs.headerTree
  obtain ⟨binfo, hbinfo, -⟩ := ht.info_of_mem hl hl.tip_mem
  obtain ⟨tip', tinfo, htip', htinfo, hmain, htwork⟩ := hs.exists_tip
  obtain rfl : tip = tip' := Option.some.inj (htip.symm.trans htip')
  obtain ⟨fork, k, hfork, hlk, hmk, hlast⟩ := ht.lastCommonAncestor_paths hskip hl hmain
  obtain ⟨finfo, hfinfo, hfindex⟩ := ht.info_of_getElem? hl hlk
  have hmem := List.mem_of_getElem? hlk
  refine ⟨fork, ⟨hmem, List.mem_of_getElem? hmk, fun x hx hactive => ?_⟩, ?_⟩
  · obtain ⟨xinfo, hxinfo, hxl⟩ := ht.info_of_mem hl hx
    have hxm := hmain.getElem?_of_mem ht.tree hactive (nodes_eq hxinfo)
    rw [heightOf_eq hxinfo, heightOf_eq hfinfo]
    by_contra hlt
    exact hlast xinfo.index (by omega) (List.getElem?_eq_some_iff.mp hxl).1 (hxl.trans hxm.symm)
  · unfold walkStart
    rw [hbest]
    dsimp only
    rw [htip, ht.work_eq hbinfo]
    dsimp only [Option.bind_eq_bind, Option.bind_some]
    rw [ht.work_eq htinfo, Option.bind_some, if_neg (by omega), hfork, Option.bind_some,
      resetLastCommon_plain ht hl hmem hc]
    rfl

/-- A walk that is not due. -/
theorem walkStart_idle (hs : Consistent chain s) {tip : Hash} {m : ℕ}
    (htip : s.activeChain.getLast? = some tip)
    (hk : ∀ b, a.bestKnown = some b → ∃ info, s.getBlockInfo b = some info)
    (hidle : ∀ b, a.bestKnown = some b → s.weight b < s.weight tip ∨ s.weight b < m) :
    walkStart s a m = some (a, none) := by
  unfold walkStart
  cases hbest : a.bestKnown with
  | none => rfl
  | some b =>
    obtain ⟨binfo, hbinfo⟩ := hk b hbest
    obtain ⟨tip', tinfo, htip', htinfo, -⟩ := hs.exists_tip
    obtain rfl : tip = tip' := Option.some.inj (htip.symm.trans htip')
    dsimp only
    rw [htip, hs.headerTree.work_eq hbinfo]
    dsimp only [Option.bind_eq_bind, Option.bind_some]
    rw [hs.headerTree.work_eq htinfo, Option.bind_some, if_pos (hidle b hbest)]
    rfl

/-! ## The whole call -/

theorem process_lastCommon {a₁ : BlockAvailability P} (heq : process s a = some a₁) :
    a₁.lastCommon = a.lastCommon := by
  unfold process at heq
  split at heq
  · cases heq
    rfl
  · split at heq
    · cases heq
      rfl
    · rw [Option.bind_eq_bind, Option.bind_eq_some_iff] at heq
      obtain ⟨x, -, heq⟩ := heq
      cases heq
      rfl

/-- What the walk asks of each block, from `last_common` up to `best_known`. -/
def plainArgs (s : BlockIndex) (best lastCommon : Hash) (count segwitHeight : ℕ)
    (inFlight : Std.ExtTreeMap Hash ℕ) (peerId : ℕ) (limited canServeWitnesses : Bool) :
    WalkArgs where
  count
  segwitHeight
  inFlight
  peerId
  limited
  canServeWitnesses
  bestHeight := s.heightOf best
  windowEnd := s.heightOf lastCommon + blockDownloadWindow

/-- **The plain answer** to `args`: the walk starts at `lastCommon` on the path `l`
of `best_known`, and leaves the peer's state `a₁` with the `last_common` it came to.
The header index and the chunks give the blocks above one by one. -/
structure PlainAnswer (chain : Chain) (s : BlockIndex) (a₁ : BlockAvailability P) (best : Hash)
    (l : List Hash) (lastCommon : Hash) (args : WalkArgs)
    (answer : BlockAvailability P × List Hash × Option ℕ) : Prop where
  path : IsPath chain s l best
  start : ∃ fork, IsForkPoint s l fork ∧ lastCommon = plainStart s l fork a₁.lastCommon
  mem : lastCommon ∈ l
  answer_eq : answer = ({ a₁ with
      lastCommon := some (plainLastCommon s args (aboveOf l (s.heightOf lastCommon)) lastCommon) },
    plainBlocks s args (aboveOf l (s.heightOf lastCommon)),
    plainStaller s args (aboveOf l (s.heightOf lastCommon)))
  moves : ∀ x ∈ aboveOf l (s.heightOf lastCommon), s.heightOf x ≤
      s.heightOf (plainLastCommon s args (aboveOf l (s.heightOf lastCommon)) lastCommon) →
    isHeld s x = true
  shortcut : best ∈ s.headerIndexPos →
    (s.headerIndex.take (min args.bestHeight (args.windowEnd + 1) + 1)).drop
      (s.heightOf lastCommon + 1) = aboveOf l (s.heightOf lastCommon)
  chunks : ∀ w : Walk, w.ended = none →
    visitChunks s args best (min args.bestHeight (args.windowEnd + 1))
        (min args.bestHeight (args.windowEnd + 1) - s.heightOf lastCommon)
        (s.heightOf lastCommon) w =
      visitAll s args (aboveOf l (s.heightOf lastCommon)) w

/-- **`find_next_blocks_to_download` is the plain walk.** -/
theorem findNextBlocks_eq_plain (hs : Consistent chain s) (hskip : Skipped s) (hk : a.Known s)
    (hc : ∀ x, a.lastCommon = some x → ∃ info, s.getBlockInfo x = some info) {count : ℕ}
    (hcount : 0 < count) (minimumChainWork segwitHeight : ℕ) (inFlight : Std.ExtTreeMap Hash ℕ)
    (peerId : ℕ) (limited canServeWitnesses : Bool) :
    ∃ a₁ tip, process s a = some a₁ ∧ s.activeChain.getLast? = some tip ∧
      ((∀ b, a₁.bestKnown = some b → s.weight b < s.weight tip ∨ s.weight b < minimumChainWork) →
        findNextBlocksToDownload s a count minimumChainWork segwitHeight inFlight peerId limited
          canServeWitnesses = some (a₁, [], none)) ∧
      ∀ best, a₁.bestKnown = some best → s.weight tip ≤ s.weight best →
        minimumChainWork ≤ s.weight best → ∃ l lastCommon answer,
          findNextBlocksToDownload s a count minimumChainWork segwitHeight inFlight peerId limited
            canServeWitnesses = some answer ∧
          PlainAnswer chain s a₁ best l lastCommon (plainArgs s best lastCommon count
            segwitHeight inFlight peerId limited canServeWitnesses) answer := by
  have ht := hs.headerTree
  obtain ⟨a₁, hprocess⟩ := exists_process ht hk
  have hk₁ := (kept_process hprocess).known hk
  have hc₁ : ∀ x, a₁.lastCommon = some x → ∃ info, s.getBlockInfo x = some info := by
    rw [process_lastCommon hprocess]
    exact hc
  obtain ⟨tip, tinfo, htip, -⟩ := hs.exists_tip
  refine ⟨a₁, tip, hprocess, htip, fun hidle => ?_, fun best hbest hwork hmin => ?_⟩
  · unfold findNextBlocksToDownload
    rw [if_neg (by omega), hprocess, Option.bind_eq_bind, Option.bind_some,
      walkStart_idle hs htip (fun b hb => hk₁ b (.inl hb)) hidle]
    rfl
  obtain ⟨binfo, hbinfo⟩ := hk₁ best (.inl hbest)
  obtain ⟨l, hl, hlen⟩ := ht.exists_path hbinfo
  obtain ⟨fork, hfork, hstart⟩ := walkStart_plain hs hskip htip hbest hl hwork hmin hc₁
  obtain ⟨lastCommon, hlc⟩ : ∃ x, x = plainStart s l fork a₁.lastCommon := ⟨_, rfl⟩
  have hmem : lastCommon ∈ l := by
    rw [hlc]
    unfold plainStart
    split
    · exact hfork.mem
    · split
      · exact hfork.mem
      · next hon => exact of_not_not fun hno => hon (.inr hno)
  obtain ⟨cinfo, hcinfo, hcl⟩ := ht.info_of_mem hl hmem
  have hcheight := heightOf_eq hcinfo
  have hbheight := heightOf_eq hbinfo
  rw [← hlc] at hstart
  obtain ⟨args, hargs⟩ : ∃ args, args = plainArgs s best lastCommon count segwitHeight inFlight
    peerId limited canServeWitnesses := ⟨_, rfl⟩
  have hclimbs : Climbs s args (aboveOf l (s.heightOf lastCommon)) :=
    climbs_aboveOf ht hl (by rw [hargs]; rfl)
  obtain ⟨stop, hstop⟩ : ∃ n, n = min (s.heightOf best)
    (s.heightOf lastCommon + blockDownloadWindow + 1) := ⟨_, rfl⟩
  have hstoplt : stop < l.length := by omega
  have habove : (l.take (stop + 1)).drop (s.heightOf lastCommon + 1) =
      aboveOf l (s.heightOf lastCommon) := by
    rw [← aboveOf_eq, hstop, hbheight, hlen, Nat.add_sub_cancel]
  have hindex : best ∈ s.headerIndexPos →
      (s.headerIndex.take (stop + 1)).drop (s.heightOf lastCommon + 1) =
        aboveOf l (s.heightOf lastCommon) := fun hpos => by
    rw [take_headerIndex hs hl hpos hstoplt, habove]
  have hchunks : ∀ w : Walk, w.ended = none →
      visitChunks s args best stop (stop - s.heightOf lastCommon) (s.heightOf lastCommon) w =
        visitAll s args (aboveOf l (s.heightOf lastCommon)) w := fun w hended => by
    rw [visitChunks_eq ht hl hstoplt (Nat.le_refl _) hended, habove]
  obtain ⟨w₀, hw₀⟩ : ∃ w : Walk, w = ⟨lastCommon, [], none, true, none⟩ := ⟨_, rfl⟩
  have hended₀ : w₀.ended = none := by rw [hw₀]
  obtain ⟨w, hvisit, ho⟩ := visitAll_plain hclimbs hended₀
    (show w₀.blocks.length < args.count by rw [hw₀, hargs]; exact hcount)
  have hblocks : w.blocks = plainBlocks s args (aboveOf l (s.heightOf lastCommon)) := by
    rw [ho.blocks, hw₀]
    rfl
  have hlast : w.lastCommon =
      plainLastCommon s args (aboveOf l (s.heightOf lastCommon)) lastCommon := by
    rw [ho.lastCommon, hw₀]
    rfl
  have hstaller : w.ended.getD none =
      plainStaller s args (aboveOf l (s.heightOf lastCommon)) := by
    rw [ho.staller, hblocks, hw₀]
    rfl
  have hmoves : ∀ x ∈ aboveOf l (s.heightOf lastCommon), s.heightOf x ≤
      s.heightOf (plainLastCommon s args (aboveOf l (s.heightOf lastCommon)) lastCommon) →
      isHeld s x = true := by
    intro x hx hle
    refine isHeld_of_le_plainLastCommon hclimbs hx ?_ hle
    obtain ⟨i, hi⟩ := List.mem_iff_getElem?.mp ((List.take_sublist _ _).subset hx)
    rw [List.getElem?_drop] at hi
    obtain ⟨xinfo, hxinfo, hxindex⟩ := ht.info_of_getElem? hl hi
    rw [heightOf_eq hxinfo]
    omega
  refine ⟨l, lastCommon, ({ a₁ with lastCommon := some w.lastCommon }, w.blocks,
    w.ended.getD none), ?_, ?_⟩
  · unfold findNextBlocksToDownload
    rw [if_neg (by omega), hprocess, Option.bind_eq_bind, Option.bind_some, hstart]
    dsimp only [Option.bind_eq_bind, Option.bind_some]
    by_cases hat : lastCommon = best
    · -- a walk from `best_known` itself visits nothing
      have hnil : aboveOf l (s.heightOf lastCommon) = [] := by
        rw [aboveOf, List.drop_eq_nil_of_le (by rw [hat, hbheight]; omega), List.take_nil]
      rw [if_pos hat]
      rw [hnil] at hvisit
      obtain rfl : w₀ = w := Option.some.inj hvisit
      rw [hw₀]
      rfl
    · rw [if_neg hat]
      dsimp only [Option.bind_some]
      rw [hcinfo, hbinfo]
      dsimp only [Option.bind_some]
      have hsame : (⟨count, segwitHeight, inFlight, peerId, limited, canServeWitnesses,
          binfo.index, cinfo.index + blockDownloadWindow⟩ : WalkArgs) = args := by
        rw [hargs, plainArgs, hcheight, hbheight]
      have hvisits : visitSuccessors s args best cinfo.index stop w₀ = some w := by
        rw [← hcheight]
        unfold visitSuccessors
        split
        · next hpos => rw [hindex hpos, hvisit]
        · rw [hchunks w₀ hended₀, hvisit]
      rw [hsame, ← hw₀, ← hbheight, ← hcheight, ← hstop, hcheight, hvisits]
      rfl
  · rw [hblocks, hlast, hstaller, ← hargs]
    have hstop' : min args.bestHeight (args.windowEnd + 1) = stop := by
      rw [hstop, hargs]
      rfl
    exact ⟨hl, ⟨fork, hfork, hlc⟩, hmem, rfl, hmoves, by rw [hstop']; exact hindex,
      by rw [hstop']; exact hchunks⟩

/-! ## A pruned block below the fork point -/

/-- Three blocks on genesis, two of them connected and the lower one pruned. -/
def prunedCalls : List StoreCall :=
  [.call (.addHeaders [lightHeader 2 1, lightHeader 3 2, lightHeader 4 3] true true 0),
    .call (.setDownloaded 2 true), .call (.setDownloaded 3 true), .call (.connectTip 2),
    .call (.connectTip 3), .call .finalize, .call (.setDownloaded 2 false)]

/-- A peer with all three blocks, last found in common at genesis. -/
def prunedPeer : BlockAvailability Unit := ⟨some 4, none, some 1, none, 0, 0, ∅, ∅⟩

theorem exists_prunedIndex : ∃ s, Consistent lightChain s ∧ Skipped s ∧
    prunedPeer.Known s ∧
    (∀ x, prunedPeer.lastCommon = some x → ∃ info, s.getBlockInfo x = some info) ∧
    (findNextBlocksToDownload s prunedPeer 16 0 0 ∅ 0 false true).map
      (fun answer => (answer.1.lastCommon, answer.2)) = some (some 3, [4], none) ∧
    isHeld s 2 = false ∧ s.parentWalk 1 3 = some 2 ∧ s.parentWalk 1 2 = some 1 := by
  obtain ⟨s₀, hload, -⟩ := (storedTree_empty lightChain).exists_consistent
    (storedClosed_empty lightChain)
  have heval : (((initFromDb lightChain ∅).bind fun s =>
      Run.exec (IndexStore.reopenStep lightChain) ⟨s, ∅⟩ prunedCalls).any fun s =>
        decide ((findNextBlocksToDownload s.index prunedPeer 16 0 0 ∅ 0 false true).map
            (fun answer => (answer.1.lastCommon, answer.2)) = some (some 3, [4], none)) &&
          !isHeld s.index 2 && decide (s.index.parentWalk 1 3 = some 2) &&
          decide (s.index.parentWalk 1 2 = some 1) && (s.index.getBlockInfo 4).isSome &&
          (s.index.getBlockInfo 1).isSome) = true := by decide +kernel
  rw [hload, Option.bind_some, Option.any_eq_true] at heval
  obtain ⟨s, hrun, heval⟩ := heval
  simp only [Bool.and_eq_true, decide_eq_true_eq, Bool.not_eq_true'] at heval
  obtain ⟨⟨⟨⟨⟨hfind, hheld⟩, hwalk⟩, hwalk'⟩, hbest⟩, hcommon⟩ := heval
  have hs := IndexStore.pointed_of_run (storedTree_empty lightChain)
    (storedClosed_empty lightChain) hload hrun
  refine ⟨s.index, hs.consistent, hs.skipped, fun h hh => ?_, fun x hx => ?_, hfind, hheld, hwalk,
    hwalk'⟩
  · rcases hh with hh | hh
    · obtain rfl := Option.some.inj hh
      exact Option.isSome_iff_exists.mp hbest
    · cases hh
  · obtain rfl := Option.some.inj hx
    exact Option.isSome_iff_exists.mp hcommon

/-- The peer of the pruned node is asked for the one block above the fork point. -/
theorem findNextBlocks_eq_plain_pruned : ∃ s a₁ l lastCommon answer,
    findNextBlocksToDownload s prunedPeer 16 0 0 ∅ 0 false true = some answer ∧
      PlainAnswer lightChain s a₁ 4 l lastCommon
        (plainArgs s 4 lastCommon 16 0 ∅ 0 false true) answer := by
  obtain ⟨s, hs, hskip, hk, hc, heval, -⟩ := exists_prunedIndex
  obtain ⟨a₁, tip, hprocess, htip, hidle, hwalk⟩ :=
    findNextBlocks_eq_plain hs hskip hk hc (show 0 < 16 by decide) 0 0 ∅ 0 false true
  obtain rfl : prunedPeer = a₁ := Option.some.inj hprocess
  by_cases hwork : s.weight tip ≤ s.weight 4
  · obtain ⟨l, lastCommon, answer, hanswer, hplain⟩ := hwalk 4 rfl hwork (Nat.zero_le _)
    exact ⟨s, prunedPeer, l, lastCommon, answer, hanswer, hplain⟩
  · rw [hidle fun b hb => .inl (by
      obtain rfl := Option.some.inj hb
      omega)] at heval
    cases heval

/-- **The reset looks at no block**: `last_common` moves from genesis to the fork
point past a block that is not held. -/
theorem lastCommon_past_pruned : ∃ s answer, Consistent lightChain s ∧
    findNextBlocksToDownload s prunedPeer 16 0 0 ∅ 0 false true = some answer ∧
    prunedPeer.lastCommon = some 1 ∧ answer.1.lastCommon = some 3 ∧
    s.parentWalk 1 3 = some 2 ∧ s.parentWalk 1 2 = some 1 ∧ isHeld s 2 = false := by
  obtain ⟨s, hs, -, -, -, heval, hheld, hwalk, hwalk'⟩ := exists_prunedIndex
  rw [Option.map_eq_some_iff] at heval
  obtain ⟨answer, hanswer, heq⟩ := heval
  exact ⟨s, answer, hs, hanswer, rfl, congrArg Prod.fst heq, hwalk, hwalk', hheld⟩

end BtclibNode.BlockAvailability
