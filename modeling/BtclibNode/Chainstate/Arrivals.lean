/-
# Numbering what arrives

A block's data takes the next number when its parent has one, and otherwise waits
under it.  `log` lists the blocks whose data is here, in the order it came: which
of them are numbered, and who waits where, is read off it (`Logged`), so that one
arrival releases what it releases level by level, each level in the order of the
log.
-/
import BtclibNode.Lib.BreadthFirst
import BtclibNode.Chainstate.IndexRun

namespace BtclibNode.BlockIndex

open HeightTree

/-- The data of `h` is here. -/
def Arrived (s : BlockIndex) (h : Hash) : Prop :=
  ∃ info, s.getBlockInfo h = some info ∧ info.downloaded = true

/-- Whether `c` hangs from `p`. -/
def hangsFrom (s : BlockIndex) (p c : Hash) : Bool :=
  (s.getBlockInfo c).any fun info =>
    decide (info.header.previousBlockHash = p) && decide (info.index ≠ 0)

/-- What arrived under `p`, in the order of `log`. -/
def arrivedUnder (s : BlockIndex) (log : List Hash) (p : Hash) : List Hash :=
  log.filter (s.hangsFrom p)

/-- The arrival of `h` and what has waited on it, level by level. -/
def releasedBy (s : BlockIndex) (log : List Hash) (h : Hash) : List Hash :=
  levels (s.arrivedUnder log) [h] s.headerDict.keys.length

/-- `ids` with the numbers from `n` on given along a list. -/
def numberFrom : List Hash → ℤ → Std.ExtTreeMap Hash ℤ → Std.ExtTreeMap Hash ℤ
  | [], _, ids => ids
  | h :: rest, n, ids => numberFrom rest (n + 1) (ids.insert h n)

section Release

variable {chain : Chain} {s t : BlockIndex} {h p c x : Hash} {info : BlockInfo}
  {log order done queue : List Hash}

theorem hangsFrom_iff : s.hangsFrom p c = true ↔ Child s.nodes p c := by
  unfold hangsFrom
  rw [Option.any_eq_true]
  constructor
  · rintro ⟨info, hinfo, hc⟩
    simp only [Bool.and_eq_true, decide_eq_true_eq] at hc
    obtain ⟨rfl, hindex⟩ := hc
    obtain ⟨n, hn⟩ := Nat.exists_eq_succ_of_ne_zero hindex
    exact ⟨n, by rw [nodes_eq hinfo, hn]⟩
  · rintro ⟨n, hn⟩
    obtain ⟨info, hinfo, heq⟩ := exists_info hn
    obtain ⟨rfl, hindex⟩ := Prod.mk.inj heq
    refine ⟨info, hinfo, ?_⟩
    simp [← hindex]

theorem mem_arrivedUnder : c ∈ s.arrivedUnder log p ↔ c ∈ log ∧ Child s.nodes p c := by
  unfold arrivedUnder
  rw [List.mem_filter, hangsFrom_iff]

/-! ## Numbers along a list -/

theorem numberFrom_append (l m : List Hash) (n : ℤ) (ids : Std.ExtTreeMap Hash ℤ) :
    numberFrom (l ++ m) n ids = numberFrom m (n + l.length) (numberFrom l n ids) := by
  induction l generalizing n ids with
  | nil => simp [numberFrom]
  | cons a l ih =>
    rw [List.cons_append, numberFrom, ih, numberFrom, List.length_cons]
    congr 1
    push_cast
    omega

theorem getElem?_numberFrom_of_notMem (hx : x ∉ order) (n : ℤ) (ids : Std.ExtTreeMap Hash ℤ) :
    (numberFrom order n ids)[x]? = ids[x]? := by
  induction order generalizing n ids with
  | nil => rfl
  | cons a order ih =>
    rw [List.mem_cons, not_or] at hx
    rw [numberFrom, ih hx.2, FiniteMap.getElem?_insert_ne _ _ (Ne.symm hx.1)]

theorem getElem?_numberFrom (hnodup : order.Nodup) {i : ℕ} (hi : order[i]? = some x) (n : ℤ)
    (ids : Std.ExtTreeMap Hash ℤ) : (numberFrom order n ids)[x]? = some (n + i) := by
  induction order generalizing n ids i with
  | nil => simp at hi
  | cons a order ih =>
    obtain ⟨ha, hrest⟩ := List.nodup_cons.mp hnodup
    rw [numberFrom]
    cases i with
    | zero =>
      obtain rfl : a = x := by simpa using hi
      rw [getElem?_numberFrom_of_notMem ha, FiniteMap.getElem?_insert, if_pos rfl]
      simp
    | succ i =>
      rw [ih hrest (by simpa using hi)]
      push_cast
      congr 1
      omega

theorem getElem?_foldl_erase (l : List Hash) (m : Std.ExtTreeMap Hash (List Hash)) (p : Hash) :
    (l.foldl Std.ExtTreeMap.erase m)[p]? = if p ∈ l then none else m[p]? := by
  induction l generalizing m with
  | nil => simp
  | cons a l ih =>
    rw [List.foldl_cons, ih, FiniteMap.getElem?_erase]
    by_cases hp : p ∈ l
    · simp [hp]
    · by_cases ha : a = p
      · simp [ha]
      · simp [hp, ha, Ne.symm ha]

/-! ## The queue -/

/-- The index once `order` has been numbered and waits no more. -/
def withNumbered (s : BlockIndex) (order : List Hash) : BlockIndex :=
  { s with
    sequenceId := numberFrom order s.nextSequenceId s.sequenceId
    nextSequenceId := s.nextSequenceId + order.length
    unlinked := order.foldl Std.ExtTreeMap.erase s.unlinked }

/-- Everyone who waits. -/
def allWaiting (s : BlockIndex) : List Hash := s.unlinked.toList.flatMap Prod.snd

theorem length_allWaiting (s : BlockIndex) :
    s.unlinked.foldl (fun n _ waiting => n + waiting.length) 1 = s.allWaiting.length + 1 := by
  have hfold : ∀ (l : List (Hash × List Hash)) (n : ℕ),
      l.foldl (fun n b => n + b.2.length) n = (l.flatMap Prod.snd).length + n := by
    intro l
    induction l with
    | nil => simp
    | cons b l ih =>
      intro n
      rw [List.foldl_cons, ih, List.flatMap_cons, List.length_append]
      omega
  rw [Std.ExtTreeMap.foldl_eq_foldl_toList]
  exact hfold _ 1

theorem mem_allWaiting (hc : c ∈ s.unlinked[p]?.getD []) : c ∈ s.allWaiting := by
  unfold allWaiting
  rw [List.mem_flatMap]
  cases hp : s.unlinked[p]? with
  | none => simp [hp] at hc
  | some waiting =>
    rw [hp] at hc
    exact ⟨(p, waiting), (FiniteMap.mem_toList _ _ _).mpr hp, hc⟩

/-- A turn of the queue. -/
theorem withNumbered_snoc (s : BlockIndex) (done : List Hash) (a : Hash) :
    { s.withNumbered done with
      sequenceId := (s.withNumbered done).sequenceId.insert a (s.withNumbered done).nextSequenceId
      nextSequenceId := (s.withNumbered done).nextSequenceId + 1
      unlinked := (s.withNumbered done).unlinked.erase a } = s.withNumbered (done ++ [a]) := by
  simp only [withNumbered, numberFrom_append, numberFrom, List.foldl_append, List.foldl_cons,
    List.foldl_nil, List.length_append, List.length_singleton, Int.natCast_add, Int.natCast_one,
    Int.add_assoc]

/-- **The queue of `_link` runs empty**, and numbers what it has served. -/
theorem linkFrom_eq {w : Hash → List Hash} (ht : HeaderTree chain s)
    (hw : ∀ p, s.unlinked[p]?.getD [] = w p) (hsub : ∀ p, ∀ c ∈ w p, Child s.nodes p c)
    (hnodup : ∀ p, (w p).Nodup) {fuel : ℕ} (hq : Queued s.nodes w h done queue)
    (hfuel : s.allWaiting.length + 1 ≤ fuel + done.length) :
    ∃ order, linkFrom fuel queue (s.withNumbered done) = s.withNumbered order ∧
      Queued s.nodes w h order [] := by
  induction fuel generalizing done queue with
  | zero =>
    -- as many have been served as there are to serve
    have hsubset : done ++ queue ⊆ h :: s.allWaiting := by
      intro x hx
      rw [hq.order, List.mem_cons, List.mem_flatMap] at hx
      rcases hx with rfl | ⟨p, -, hpx⟩
      · exact List.mem_cons_self
      · exact List.mem_cons_of_mem _ (mem_allWaiting (by rw [hw]; exact hpx))
    have hlen := (List.subperm_of_subset hq.nodup hsubset).length_le
    rw [List.length_append, List.length_cons] at hlen
    obtain rfl : queue = [] := by
      rw [← List.length_eq_zero_iff]
      omega
    exact ⟨done, rfl, hq⟩
  | succ fuel ih =>
    cases queue with
    | nil => exact ⟨done, rfl, hq⟩
    | cons a queue =>
      have ha : a ∉ done := by
        have hnd := hq.nodup
        rw [List.nodup_append] at hnd
        exact fun h0 => hnd.2.2 a h0 a List.mem_cons_self rfl
      have hwaiting : (s.withNumbered done).unlinked[a]?.getD [] = w a := by
        show (done.foldl Std.ExtTreeMap.erase s.unlinked)[a]?.getD [] = w a
        rw [getElem?_foldl_erase, if_neg ha, hw]
      rw [linkFrom, hwaiting, withNumbered_snoc]
      refine ih (hq.step ht.tree hsub hnodup) ?_
      rw [List.length_append, List.length_singleton]
      omega

/-! ## The log -/

/-- Who is numbered, and who waits where, read off the log. -/
structure Logged (chain : Chain) (s : BlockIndex) (log : List Hash) : Prop where
  nodup : log.Nodup
  mem_log : ∀ x, x ∈ log ↔ s.Arrived x
  genesis : chain.genesis.hash ∈ s.sequenceId
  mem_of_numbered : ∀ x ∈ s.sequenceId, x ∈ log
  numbered_iff : ∀ p c, Child s.nodes p c → (c ∈ s.sequenceId ↔ c ∈ log ∧ p ∈ s.sequenceId)
  waiting : ∀ p : Hash,
    s.unlinked[p]?.getD [] = if p ∈ s.sequenceId then [] else s.arrivedUnder log p

theorem arrivedUnder_congr (hsame : ∀ c ∈ log, Child t.nodes p c ↔ Child s.nodes p c) :
    t.arrivedUnder log p = s.arrivedUnder log p := by
  refine List.filter_congr fun c hc => ?_
  rw [Bool.eq_iff_iff, hangsFrom_iff, hangsFrom_iff]
  exact hsame c hc

/-- Who waits under a block hangs from it, each once, and is not numbered. -/
theorem Logged.of_waiting (hs : Logged chain s log) (hc : c ∈ s.unlinked[p]?.getD []) :
    c ∈ log ∧ Child s.nodes p c ∧ p ∉ s.sequenceId ∧ c ∉ s.sequenceId := by
  rw [hs.waiting] at hc
  split at hc
  · cases hc
  · next hp =>
    obtain ⟨hlog, hchild⟩ := mem_arrivedUnder.mp hc
    exact ⟨hlog, hchild, hp, fun h0 => hp ((hs.numbered_iff p c hchild).mp h0).2⟩

theorem Logged.nodup_waiting (hs : Logged chain s log) (p : Hash) :
    (s.unlinked[p]?.getD []).Nodup := by
  rw [hs.waiting]
  split
  · exact List.nodup_nil
  · exact hs.nodup.filter _

/-- **Numbered are those whose line has arrived.** -/
theorem Logged.numbered_iff_line (hs : Logged chain s log) (ht : HeaderTree chain s) (h : Hash) :
    h ∈ s.sequenceId ↔ ∀ x, Descends s.nodes x h → s.Arrived x := by
  have hline : ∀ l, IsPath chain s l h →
      (h ∈ s.sequenceId ↔ ∀ x, Descends s.nodes x h → s.Arrived x) := by
    intro l hl
    simp only [← hl.mem_iff_descends ht.tree, ← hs.mem_log]
    -- along the path, one block after its parent
    induction hl with
    | root =>
      refine iff_of_true hs.genesis fun x hx => ?_
      rw [List.mem_singleton.mp hx]
      exact hs.mem_of_numbered _ hs.genesis
    | @snoc l a b hpath hnode ih =>
      obtain ⟨n, hn⟩ := Nat.exists_eq_succ_of_ne_zero (Nat.pos_iff_ne_zero.mp hpath.length_pos)
      rw [hs.numbered_iff a b ⟨n, by rw [hnode, hn]⟩, ih]
      simp only [List.mem_append, List.mem_singleton]
      constructor
      · rintro ⟨hb, hall⟩ x (hx | rfl)
        · exact hall x hx
        · exact hb
      · intro hall
        exact ⟨hall b (.inr rfl), fun x hx => hall x (.inl hx)⟩
  constructor
  · intro hh
    obtain ⟨info, hinfo, -⟩ := (hs.mem_log h).mp (hs.mem_of_numbered h hh)
    obtain ⟨l, hl, -⟩ := ht.exists_path hinfo
    exact (hline l hl).mp hh
  · intro hall
    obtain ⟨info, hinfo, -⟩ := hall h (Descends.refl h)
    obtain ⟨l, hl, -⟩ := ht.exists_path hinfo
    exact (hline l hl).mpr hall

/-- **Every other block that arrived waits once**, under its parent. -/
theorem Logged.waits_once (hs : Logged chain s log) (ht : HeaderTree chain s)
    (hinfo : s.getBlockInfo h = some info) (harrived : s.Arrived h) (hnew : h ∉ s.sequenceId) :
    (s.unlinked[info.header.previousBlockHash]?.getD []).count h = 1 ∧
      ∀ p : Hash, h ∈ s.unlinked[p]?.getD [] → p = info.header.previousBlockHash := by
  have hindex : info.index ≠ 0 := by
    intro h0
    have := ht.tree.height_zero (h0 ▸ nodes_eq hinfo)
    exact hnew (this ▸ hs.genesis)
  obtain ⟨n, hn⟩ := Nat.exists_eq_succ_of_ne_zero hindex
  have hchild : Child s.nodes info.header.previousBlockHash h := ⟨n, by rw [nodes_eq hinfo, hn]⟩
  have hlog := (hs.mem_log h).mpr harrived
  have hparent : info.header.previousBlockHash ∉ s.sequenceId :=
    fun h0 => hnew ((hs.numbered_iff _ h hchild).mpr ⟨hlog, h0⟩)
  refine ⟨List.count_eq_one_of_mem (hs.nodup_waiting _) ?_, fun p hp => ?_⟩
  · rw [hs.waiting, if_neg hparent]
    exact mem_arrivedUnder.mpr ⟨hlog, hchild⟩
  · exact (hs.of_waiting hp).2.1.parent_unique hchild

/-! ## The numbers -/

/-- The numbers handed out since `s₀`. -/
structure HandedOut (s₀ s : BlockIndex) : Prop where
  kept : ∀ (x : Hash) (n : ℤ), s₀.sequenceId[x]? = some n → s.sequenceId[x]? = some n
  next_le : s₀.nextSequenceId ≤ s.nextSequenceId
  below : ∀ (x : Hash) (n : ℤ), s.sequenceId[x]? = some n → n < s.nextSequenceId
  fresh : ∀ (x : Hash) (n : ℤ), x ∉ s₀.sequenceId → s.sequenceId[x]? = some n →
    s₀.nextSequenceId ≤ n
  distinct : ∀ (x y : Hash) (n : ℤ), x ∉ s₀.sequenceId → y ∉ s₀.sequenceId →
    s.sequenceId[x]? = some n → s.sequenceId[y]? = some n → x = y
  parent_lt : ∀ (p c : Hash) (m n : ℤ), Child s.nodes p c → c ∉ s₀.sequenceId →
    s.sequenceId[p]? = some m → s.sequenceId[c]? = some n → m < n

/-! ## Calls that bring nothing -/

/-- The calls that number nothing: more headers, perhaps, and the same arrivals. -/
structure SameArrivals (s t : BlockIndex) : Prop where
  nodes : ∀ x y, s.nodes x = some y → t.nodes x = some y
  arrived : ∀ x, t.Arrived x ↔ s.Arrived x
  sequenceId : t.sequenceId = s.sequenceId
  nextSequenceId : t.nextSequenceId = s.nextSequenceId
  unlinked : t.unlinked = s.unlinked

theorem SameArrivals.refl (s : BlockIndex) : SameArrivals s s :=
  ⟨fun _ _ h => h, fun _ => Iff.rfl, rfl, rfl, rfl⟩

theorem Arrived.node (ha : s.Arrived x) : ∃ y, s.nodes x = some y := by
  obtain ⟨info, hinfo, -⟩ := ha
  exact ⟨_, nodes_eq hinfo⟩

theorem SameArrivals.child_iff (hst : SameArrivals s t) (hc : s.Arrived c) :
    Child t.nodes p c ↔ Child s.nodes p c := by
  obtain ⟨y, hy⟩ := hc.node
  unfold Child
  rw [hst.nodes c y hy, hy]

theorem Logged.same (hs : Logged chain s log) (hst : SameArrivals s t) : Logged chain t log where
  nodup := hs.nodup
  mem_log x := (hs.mem_log x).trans (hst.arrived x).symm
  genesis := hst.sequenceId ▸ hs.genesis
  mem_of_numbered := hst.sequenceId ▸ hs.mem_of_numbered
  numbered_iff p c hpc := by
    rw [hst.sequenceId]
    by_cases hc : c ∈ log
    · exact hs.numbered_iff p c ((hst.child_iff ((hs.mem_log c).mp hc)).mp hpc)
    · exact iff_of_false (fun h0 => hc (hs.mem_of_numbered c h0)) fun h0 => hc h0.1
  waiting p := by
    rw [hst.unlinked, hst.sequenceId, hs.waiting,
      arrivedUnder_congr fun c hc => hst.child_iff ((hs.mem_log c).mp hc)]

theorem HandedOut.same {s₀ : BlockIndex} (hs : HandedOut s₀ s) (hl : Logged chain s log)
    (hst : SameArrivals s t) : HandedOut s₀ t := by
  obtain ⟨hkept, hnext, hbelow, hfresh, hdistinct, hparent⟩ := hs
  rw [← hst.sequenceId] at hkept hbelow hfresh hdistinct hparent
  rw [← hst.nextSequenceId] at hnext hbelow
  refine ⟨hkept, hnext, hbelow, hfresh, hdistinct, fun p c m n hpc hc hm hn => ?_⟩
  refine hparent p c m n ((hst.child_iff ((hl.mem_log c).mp (hl.mem_of_numbered c ?_))).mp hpc)
    hc hm hn
  rw [← hst.sequenceId, FiniteMap.mem_iff_exists]
  exact ⟨n, hn⟩

/-! ## One arrival -/

/-- The data of `h`, a block above genesis, arrives, and `t` is `s` but for it and
the numbering. -/
structure DataCame (h : Hash) (s t : BlockIndex) : Prop where
  nodes : t.nodes = s.nodes
  arrived : ∀ x, t.Arrived x ↔ s.Arrived x ∨ x = h
  missing : ¬ s.Arrived h
  parent : ∃ p, Child s.nodes p h

theorem Logged.notMem_of_dataCame (hs : Logged chain s log) (hd : DataCame h s t) : h ∉ log :=
  fun h0 => hd.missing ((hs.mem_log h).mp h0)

/-- **A block whose parent has no number waits.** -/
theorem Logged.waits (hs : Logged chain s log) (hd : DataCame h s t) (hp : Child s.nodes p h)
    (hnew : p ∉ s.sequenceId) (hids : t.sequenceId = s.sequenceId)
    (hunlinked : t.unlinked = appendAt s.unlinked p h) : Logged chain t (log ++ [h]) := by
  have hfresh := hs.notMem_of_dataCame hd
  have hnot : h ∉ s.sequenceId := fun h0 => hfresh (hs.mem_of_numbered h h0)
  refine ⟨?_, fun x => ?_, hids ▸ hs.genesis, fun x hx => ?_, fun q c hqc => ?_, fun q => ?_⟩
  · rw [List.nodup_append]
    refine ⟨hs.nodup, List.nodup_singleton h, ?_⟩
    rintro a ha b hb rfl
    exact hfresh (List.mem_singleton.mp hb ▸ ha)
  · rw [List.mem_append, List.mem_singleton, hs.mem_log, hd.arrived]
  · rw [hids] at hx
    exact List.mem_append_left _ (hs.mem_of_numbered x hx)
  · rw [hd.nodes] at hqc
    rw [hids, hs.numbered_iff q c hqc, List.mem_append, List.mem_singleton]
    constructor
    · rintro ⟨hc, hq⟩
      exact ⟨.inl hc, hq⟩
    · rintro ⟨hc | rfl, hq⟩
      · exact ⟨hc, hq⟩
      · exact absurd (hp.parent_unique hqc ▸ hq) hnew
  · have hunder : t.arrivedUnder (log ++ [h]) q =
        s.arrivedUnder log q ++ if q = p then [h] else [] := by
      rw [arrivedUnder_congr (s := s) fun c _ => by rw [hd.nodes]]
      unfold arrivedUnder
      rw [List.filter_append]
      congr 1
      by_cases hq : q = p
      · rw [if_pos hq, List.filter_cons_of_pos (hangsFrom_iff.mpr (hq ▸ hp))]
        rfl
      · have hno : ¬ s.hangsFrom q h = true :=
          fun h0 => hq ((hangsFrom_iff.mp h0).parent_unique hp)
        rw [if_neg hq, List.filter_cons_of_neg hno]
        rfl
    rw [hids, hunlinked, hunder]
    unfold appendAt
    rw [FiniteMap.getElem?_insert]
    by_cases hq : q = p
    · rw [if_pos hq.symm, if_neg (hq ▸ hnew), if_pos hq, Option.getD_some, hs.waiting p,
        if_neg hnew, hq]
    · rw [if_neg (Ne.symm hq), if_neg hq, List.append_nil, hs.waiting]

theorem HandedOut.waits {s₀ : BlockIndex} (hs : HandedOut s₀ s) (hd : DataCame h s t)
    (hids : t.sequenceId = s.sequenceId) (hnext : t.nextSequenceId = s.nextSequenceId) :
    HandedOut s₀ t := by
  obtain ⟨hkept, hle, hbelow, hfresh, hdistinct, hparent⟩ := hs
  rw [← hids] at hkept hbelow hfresh hdistinct hparent
  rw [← hnext] at hle hbelow
  rw [← hd.nodes] at hparent
  exact ⟨hkept, hle, hbelow, hfresh, hdistinct, hparent⟩

/-- The data of `h` arrives, and `order` is what its queue has served. -/
structure Serves (h : Hash) (order : List Hash) (s t : BlockIndex) : Prop extends
    DataCame h s t where
  queued : Queued s.nodes (fun p => s.unlinked[p]?.getD []) h order []
  sequenceId : t.sequenceId = numberFrom order s.nextSequenceId s.sequenceId
  nextSequenceId : t.nextSequenceId = s.nextSequenceId + order.length
  unlinked : t.unlinked = order.foldl Std.ExtTreeMap.erase s.unlinked

theorem Serves.mem_order (hd : Serves h order s t) :
    x ∈ order ↔ x = h ∨ ∃ p ∈ order, x ∈ s.unlinked[p]?.getD [] := by
  have horder := hd.queued.order
  rw [List.append_nil] at horder
  conv_lhs => rw [horder]
  rw [List.mem_cons, List.mem_flatMap]

theorem Serves.nodup (hd : Serves h order s t) : order.Nodup := by
  have hnodup := hd.queued.nodup
  rwa [List.append_nil] at hnodup

/-- What is served had no number and has arrived. -/
theorem Serves.fresh (hs : Logged chain s log) (hd : Serves h order s t) (hx : x ∈ order) :
    x ∉ s.sequenceId ∧ x ∈ log ++ [h] := by
  rw [List.mem_append, List.mem_singleton]
  rcases hd.mem_order.mp hx with rfl | ⟨p, -, hpx⟩
  · exact ⟨fun h0 => hs.notMem_of_dataCame hd.toDataCame (hs.mem_of_numbered x h0), .inr rfl⟩
  · obtain ⟨hlog, -, -, hnew⟩ := hs.of_waiting hpx
    exact ⟨hnew, .inl hlog⟩

theorem Serves.numbered_iff (hd : Serves h order s t) :
    x ∈ t.sequenceId ↔ x ∈ order ∨ x ∈ s.sequenceId := by
  rw [FiniteMap.mem_iff_exists, hd.sequenceId]
  by_cases hx : x ∈ order
  · obtain ⟨i, hi⟩ := List.getElem?_of_mem hx
    exact iff_of_true ⟨_, getElem?_numberFrom hd.nodup hi _ _⟩ (.inl hx)
  · rw [getElem?_numberFrom_of_notMem hx, ← FiniteMap.mem_iff_exists]
    exact ⟨.inr, fun h0 => h0.resolve_left hx⟩

/-- **A block whose parent has a number frees all that has waited on it.** -/
theorem Logged.serves (hs : Logged chain s log) (hd : Serves h order s t)
    (hp : Child s.nodes p h) (hnum : p ∈ s.sequenceId) : Logged chain t (log ++ [h]) := by
  have hfresh := hs.notMem_of_dataCame hd.toDataCame
  have hhead : h ∈ order := hd.mem_order.mpr (.inl rfl)
  refine ⟨?_, fun x => ?_, ?_, fun x hx => ?_, fun q c hqc => ?_, fun q => ?_⟩
  · rw [List.nodup_append]
    refine ⟨hs.nodup, List.nodup_singleton h, ?_⟩
    rintro a ha b hb rfl
    exact hfresh (List.mem_singleton.mp hb ▸ ha)
  · rw [List.mem_append, List.mem_singleton, hs.mem_log, hd.arrived]
  · exact hd.numbered_iff.mpr (.inr hs.genesis)
  · rcases hd.numbered_iff.mp hx with hx | hx
    · exact (hd.fresh hs hx).2
    · exact List.mem_append_left _ (hs.mem_of_numbered x hx)
  · rw [hd.nodes] at hqc
    rw [hd.numbered_iff, hd.numbered_iff, List.mem_append, List.mem_singleton]
    constructor
    · rintro (hc | hc)
      · rcases hd.mem_order.mp hc with rfl | ⟨r, hr, hrc⟩
        · exact ⟨.inr rfl, .inr (hp.parent_unique hqc ▸ hnum)⟩
        · obtain ⟨hlog, hchild, -, -⟩ := hs.of_waiting hrc
          exact ⟨.inl hlog, .inl (hchild.parent_unique hqc ▸ hr)⟩
      · obtain ⟨hlog, hq⟩ := (hs.numbered_iff q c hqc).mp hc
        exact ⟨.inl hlog, .inr hq⟩
    · rintro ⟨hc | rfl, hq⟩
      · by_cases hold : q ∈ s.sequenceId
        · exact .inr ((hs.numbered_iff q c hqc).mpr ⟨hc, hold⟩)
        · -- `q` is served now, and `c` has waited under it
          refine .inl (hd.mem_order.mpr (.inr ⟨q, hq.resolve_right hold, ?_⟩))
          rw [hs.waiting, if_neg hold]
          exact mem_arrivedUnder.mpr ⟨hc, hqc⟩
      · exact .inl hhead
  · rw [hd.unlinked, getElem?_foldl_erase]
    by_cases hq : q ∈ order
    · rw [if_pos hq, if_pos (hd.numbered_iff.mpr (.inl hq))]
      rfl
    · rw [if_neg hq, hs.waiting]
      by_cases hold : q ∈ s.sequenceId
      · rw [if_pos hold, if_pos (hd.numbered_iff.mpr (.inr hold))]
      · rw [if_neg hold, if_neg fun h0 => (hd.numbered_iff.mp h0).elim hq hold,
          arrivedUnder_congr (s := s) (t := t) fun c _ => by rw [hd.nodes]]
        have hno : ¬ s.hangsFrom q h = true :=
          fun h0 => hold ((hangsFrom_iff.mp h0).parent_unique hp ▸ hnum)
        unfold arrivedUnder
        rw [List.filter_append, List.filter_cons_of_neg hno, List.filter_nil, List.append_nil]

/-- The number of the block served at a place. -/
theorem Serves.number (hd : Serves h order s t) {i : ℕ} (hi : order[i]? = some x) :
    t.sequenceId[x]? = some (s.nextSequenceId + i) := by
  rw [hd.sequenceId]
  exact getElem?_numberFrom hd.nodup hi _ _

theorem Serves.number_of_notMem (hd : Serves h order s t) (hx : x ∉ order) :
    t.sequenceId[x]? = s.sequenceId[x]? := by
  rw [hd.sequenceId]
  exact getElem?_numberFrom_of_notMem hx _ _

/-- **The newly numbered, and their numbers**, are the places of the order. -/
theorem Serves.newly_iff (hs : Logged chain s log) (hd : Serves h order s t) (x : Hash) (n : ℤ) :
    x ∉ s.sequenceId ∧ t.sequenceId[x]? = some n ↔
      ∃ i : ℕ, order[i]? = some x ∧ n = s.nextSequenceId + i := by
  constructor
  · rintro ⟨hnew, hn⟩
    have hx : x ∈ order := by
      have hmem := (FiniteMap.mem_iff_exists t.sequenceId x).mpr ⟨n, hn⟩
      exact (hd.numbered_iff.mp hmem).resolve_right hnew
    obtain ⟨i, hi⟩ := List.getElem?_of_mem hx
    rw [hd.number hi, Option.some.injEq] at hn
    exact ⟨i, hi, hn.symm⟩
  · rintro ⟨i, hi, rfl⟩
    exact ⟨(hd.fresh hs (List.mem_of_getElem? hi)).1, hd.number hi⟩

/-- **Level by level**, each in the order of the log. -/
theorem Serves.eq_releasedBy (hs : Logged chain s log) (ht : HeaderTree chain s)
    (hd : Serves h order s t) : order = s.releasedBy log h := by
  have hq : Queued s.nodes (s.arrivedUnder log) h order [] := by
    refine hd.queued.congr fun p hp => ?_
    rw [hs.waiting, if_neg (hd.fresh hs hp).1]
  obtain ⟨p, n, hn⟩ := hd.parent
  refine hq.eq_levels ht.tree (fun p c hc => (mem_arrivedUnder.mp hc).2) ⟨_, hn⟩ fun x q k hk => ?_
  obtain ⟨info, hinfo, heq⟩ := exists_info hk
  obtain ⟨l, hl, hlen⟩ := ht.exists_path hinfo
  have := ht.length_le hl
  have := (Prod.mk.inj heq).2
  omega

theorem HandedOut.serves {s₀ : BlockIndex} (hs : HandedOut s₀ s) (hl : Logged chain s log)
    (ht : HeaderTree chain s) (hd : Serves h order s t) : HandedOut s₀ t := by
  have hle := hs.next_le
  have hnew : ∀ x ∈ order, x ∉ s.sequenceId := fun x hx => (hd.fresh hl hx).1
  -- a number is an old one, or the place of a block in the order
  have hcases : ∀ (x : Hash) (n : ℤ), t.sequenceId[x]? = some n →
      (x ∉ order ∧ s.sequenceId[x]? = some n) ∨
        ∃ i : ℕ, order[i]? = some x ∧ n = s.nextSequenceId + i := by
    intro x n hn
    by_cases hx : x ∈ order
    · exact .inr ((hd.newly_iff hl x n).mp ⟨hnew x hx, hn⟩)
    · rw [hd.number_of_notMem hx] at hn
      exact .inl ⟨hx, hn⟩
  refine ⟨fun x n hn => ?_, ?_, fun x n hn => ?_, fun x n hx hn => ?_,
    fun x y n hx hy hxn hyn => ?_, fun p c m n hpc hc hm hn => ?_⟩
  · have hold := hs.kept x n hn
    rw [hd.number_of_notMem fun h0 => hnew x h0 ((FiniteMap.mem_iff_exists _ _).mpr ⟨n, hold⟩)]
    exact hold
  · rw [hd.nextSequenceId]
    omega
  · rw [hd.nextSequenceId]
    rcases hcases x n hn with ⟨-, hold⟩ | ⟨i, hi, rfl⟩
    · have := hs.below x n hold
      omega
    · have := (List.getElem?_eq_some_iff.mp hi).1
      omega
  · rcases hcases x n hn with ⟨-, hold⟩ | ⟨i, hi, rfl⟩
    · exact hs.fresh x n hx hold
    · omega
  · rcases hcases x n hxn with ⟨-, holdx⟩ | ⟨i, hi, hni⟩
    · have hlt := hs.below x n holdx
      rcases hcases y n hyn with ⟨-, holdy⟩ | ⟨j, hj, hnj⟩
      · exact hs.distinct x y n hx hy holdx holdy
      · omega
    · rcases hcases y n hyn with ⟨-, holdy⟩ | ⟨j, hj, hnj⟩
      · have hlt := hs.below y n holdy
        omega
      · obtain rfl : i = j := by omega
        exact Option.some.inj (hi.symm.trans hj)
  · rw [hd.nodes] at hpc
    rcases hcases c n hn with ⟨-, holdc⟩ | ⟨i, hi, rfl⟩
    · -- the parent of a numbered block had its number already
      have hmem := (FiniteMap.mem_iff_exists s.sequenceId c).mpr ⟨n, holdc⟩
      have hpmem := ((hl.numbered_iff p c hpc).mp hmem).2
      rw [hd.number_of_notMem fun h0 => hnew p h0 hpmem] at hm
      exact hs.parent_lt p c m n hpc hc hm holdc
    · rcases hcases p m hm with ⟨-, holdp⟩ | ⟨j, hj, rfl⟩
      · have := hs.below p m holdp
        omega
      · -- both are in the order: the parent stands before its child
        have hbefore := hd.queued.parent_before i c
        rw [List.append_nil] at hbefore
        rcases hbefore hi with rfl | ⟨k, hk, q, hq, hqc⟩
        · have horder := hd.queued.order
          rw [List.append_nil] at horder
          rw [horder] at hi
          obtain rfl : h = c := by simpa using hi
          have hdesc := hd.queued.descends p
          rw [List.append_nil] at hdesc
          exact absurd rfl (hpc.ne_start ht.tree (hdesc (List.mem_of_getElem? hj)))
        · obtain rfl := hqc.parent_unique hpc
          have hkj := (List.getElem?_inj (List.getElem?_eq_some_iff.mp hq).1 hd.nodup).mp
            (hq.trans hj.symm)
          omega

end Release

end BtclibNode.BlockIndex
