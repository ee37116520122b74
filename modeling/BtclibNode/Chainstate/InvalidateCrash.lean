/-
# A kill inside `invalidate`

`invalidate` writes one record after the other, parents before what is built on
them, and nothing holds the writes together.  A store cut between them loads as
an index whose invalidity is closed only where every header already written has
its children written, or invalid from before; elsewhere a valid header is left
on an invalid one, and the load may raise.
-/
import BtclibNode.Chainstate.IndexStore

namespace BtclibNode.BlockIndex

open HeightTree

/-- What a restart asks of the store: an index whose invalidity is closed, with
a header index that is a path and its exact inverse. -/
def SoundReload (chain : Chain) (db : BlockTable) : Prop :=
  ∃ s, initFromDb chain db = some s ∧ InvalidClosed s ∧
    (∃ tip, IsPath chain s s.headerIndex tip) ∧ PosInverse s.headerIndex s.headerIndexPos

/-- The headers of the block and of what is built on it whose records are
written through, in the order of the writes. -/
def writeOrder (s : BlockIndex) (h : Hash) : List Hash :=
  (s.invalidationOrder h).filter (· ∉ s.pending)

/-- The first `k` writes leave no child behind: each of its children is among
them, or was invalid before. -/
def ClosedCut (s : BlockIndex) (h : Hash) (k : ℕ) : Prop :=
  ∀ p ∈ (s.writeOrder h).take k, ∀ c, Child s.nodes p c →
    c ∈ (s.writeOrder h).take k ∨ s.statusOf c = some .invalid

section Cut

variable {chain : Chain} {main : List Hash} {s t : BlockIndex} {db : BlockTable} {h x : Hash}
  {info : BlockInfo} {k : ℕ}

/-- The first `k` records are those of the first `k` headers. -/
theorem take_changedRecords (f : BlockInfo → BlockInfo) (w : List Hash)
    (hknown : ∀ x ∈ w, ∃ info, s.getBlockInfo x = some info) (k : ℕ) :
    (s.changedRecords f w).take k = s.changedRecords f (w.take k) := by
  induction w generalizing k with
  | nil => simp [changedRecords]
  | cons x w ih =>
    obtain ⟨⟨info, hinfo⟩, hrest⟩ := List.forall_mem_cons.mp hknown
    cases k with
    | zero => rfl
    | succ k =>
      have hhead : ∀ w, s.changedRecords f (x :: w) = f info :: s.changedRecords f w := by
        intro w
        unfold changedRecords
        rw [List.filterMap_cons, hinfo]
        rfl
      rw [hhead, List.take_succ_cons, List.take_succ_cons, hhead, ih hrest]

theorem Invalidated.puts_eq (hi : Invalidated h s t) (hputs : s.puts = []) :
    t.puts = s.changedRecords (·.withStatus .invalid) (s.writeOrder h) := by
  obtain ⟨u, hst, ht⟩ := hi.statuses
  have htu : t.puts = u.puts := by rw [ht]
  rw [htu, hst.puts, hputs, List.nil_append]
  rfl

/-- **What the first `k` writes leave is closed** as the cut is. -/
theorem StoreAgrees.storedClosed_cut (ha : StoreAgrees chain main s db) (hs : Consistent chain s)
    (hinfo : s.getBlockInfo h = some info) (hoff : h ∉ s.activeChain) :
    StoredTree chain (writeAll db
      (s.changedRecords (·.withStatus .invalid) ((s.writeOrder h).take k))) main ∧
    (StoredClosed chain (writeAll db
      (s.changedRecords (·.withStatus .invalid) ((s.writeOrder h).take k))) ↔
      s.ClosedCut h k) := by
  obtain ⟨-, hmem⟩ := hs.headerTree.invalidationOrder_spec hinfo
  have hw : ∀ x ∈ (s.writeOrder h).take k, x ∉ s.pending := by
    intro x hx
    simpa using (List.mem_filter.mp (List.mem_of_mem_take hx)).2
  have hdesc : ∀ x ∈ (s.writeOrder h).take k, Descends s.nodes h x := fun x hx =>
    (hmem x).mp (List.mem_filter.mp (List.mem_of_mem_take hx)).1
  have hwoff : ∀ x ∈ (s.writeOrder h).take k, x ∉ s.activeChain := fun x hx hxa =>
    hoff (hs.active_of_descends (hdesc x hx) hxa)
  have hf := keepsHeader_withStatus .invalid
  have htree := ha.storedTree_write hf hs.headerTree hw fun x hx xinfo hxinfo => by
    refine iff_of_false (by simp [BlockInfo.withStatus]) fun hstatus => hwoff x hx ?_
    rw [← hs.activeStatus, statusOf_eq hxinfo, hstatus]
  have hget := fun x => ha.storedInfo_write hf hs.headerTree hw x
  -- a child of a written header does not wait for `finalize`
  have hchild : ∀ p ∈ (s.writeOrder h).take k, ∀ c, Child s.nodes p c → c ∉ s.pending := by
    intro p hp c hpc hc
    rcases ha.pendingParent p c hpc hc with hp' | hp'
    · exact hw p hp hp'
    · exact hwoff p hp hp'
  have hnodes : storedNodes chain (writeAll db
      (s.changedRecords (·.withStatus .invalid) ((s.writeOrder h).take k))) = s.nodes := by
    rw [← ha.nodes_eq]
    funext x
    unfold storedNodes
    rw [hget]
    split
    · rw [Option.map_map]
      rfl
    · rfl
  have hclosed := ha.storedClosed hs
  refine ⟨htree, fun hc p hp c hpc => ?_, fun hcut p c pinfo cinfo hpc hp hc hinv => ?_⟩
  · by_cases hcw : c ∈ (s.writeOrder h).take k
    · exact .inl hcw
    · right
      obtain ⟨cinfo, hcinfo, -⟩ := exists_info hpc.choose_spec
      obtain ⟨pinfo, hpinfo⟩ := known_of_descends hinfo (hdesc p hp)
      rw [← ha.same p (hw p hp)] at hpinfo
      have hcs := ha.same c (hchild p hp c hpc)
      have hinv := hc p c _ cinfo (by rw [hnodes]; exact hpc)
        (by rw [hget, if_pos hp, hpinfo]; rfl) (by rw [hget, if_neg hcw, hcs, hcinfo]) rfl
      rw [statusOf_eq hcinfo, hinv]
  · rw [hnodes] at hpc
    rw [hget] at hp hc
    by_cases hpw : p ∈ (s.writeOrder h).take k
    · rcases hcut p hpw c hpc with hcw | hcinv
      · rw [if_pos hcw] at hc
        obtain ⟨cinfo', -, rfl⟩ := Option.map_eq_some_iff.mp hc
        rfl
      · split at hc
        · obtain ⟨cinfo', -, rfl⟩ := Option.map_eq_some_iff.mp hc
          rfl
        · rw [ha.same c (hchild p hpw c hpc)] at hc
          rwa [statusOf_eq hc, Option.some.injEq] at hcinv
    · rw [if_neg hpw] at hp
      split at hc
      · obtain ⟨cinfo', -, rfl⟩ := Option.map_eq_some_iff.mp hc
        rfl
      · exact hclosed p c pinfo cinfo (by rw [ha.nodes_eq]; exact hpc) hp hc hinv

end Cut

/-- **A kill inside `invalidate` leaves a sound store exactly where the writes
before it leave no child behind.** -/
theorem invalidate_kill_iff {chain : Chain} {db : BlockTable} {main : List Hash}
    {s₀ : BlockIndex} {calls : List IndexCall} {s : IndexStore} (hdb : StoredTree chain db main)
    (hclosed : StoredClosed chain db) (hload : initFromDb chain db = some s₀)
    (hrun : Run.exec (IndexStore.step chain) ⟨s₀, db⟩ calls = some s) {h : Hash}
    (hknown : (s.index.getBlockInfo h).isSome) (hoff : h ∉ s.index.activeChain) (k : ℕ) :
    ∃ t, s.index.invalidate h = some t ∧
      (SoundReload chain (writeAll s.db (t.puts.take k)) ↔ s.index.ClosedCut h k) := by
  obtain ⟨hs, ⟨main', ha⟩, hputs⟩ := IndexStore.agrees_of_run hdb hclosed hload hrun
  obtain ⟨info, hinfo⟩ := Option.isSome_iff_exists.mp hknown
  obtain ⟨t, heq, hi, -⟩ := hs.invalidate_eq hinfo hoff
  obtain ⟨-, hmem⟩ := hs.headerTree.invalidationOrder_spec hinfo
  obtain ⟨htree, hiff⟩ := ha.storedClosed_cut (k := k) hs hinfo hoff
  have hw : ∀ x ∈ s.index.writeOrder h, ∃ info, s.index.getBlockInfo x = some info := fun x hx =>
    known_of_descends hinfo ((hmem x).mp (List.mem_filter.mp hx).1)
  refine ⟨t, heq, ?_⟩
  rw [hi.puts_eq hputs, take_changedRecords _ _ hw, ← hiff]
  constructor
  · rintro ⟨r, hr, hrc, -⟩
    exact (htree.loaded hr).storedClosed hrc
  · intro hc
    obtain ⟨r, hr, -, hcons⟩ := htree.exists_consistent hc
    obtain ⟨tip, hpath, -⟩ := hcons.best
    exact ⟨r, hr, hcons.invalidClosed, ⟨tip, hpath.path⟩, hpath.pos⟩

/-- A block with two children, one of which has a child. -/
def branchCalls : List IndexCall :=
  [.addHeaders [lightHeader 2 1, lightHeader 3 2] true true 0,
    .addHeaders [lightHeader 4 2, lightHeader 5 4] true true 0]

/-- The last write of all leaves a sound store. -/
theorem invalidate_kill_iff_branch : ∃ s t, Run.exec (IndexStore.step lightChain)
      ⟨s, ∅⟩ branchCalls = some t ∧ ∃ u, t.index.invalidate 2 = some u ∧
        (SoundReload lightChain (writeAll t.db (u.puts.take 1)) ↔ t.index.ClosedCut 2 1) := by
  have heval : ((initFromDb lightChain ∅).bind fun s =>
      Run.exec (IndexStore.step lightChain) ⟨s, ∅⟩ branchCalls).any (fun t =>
        (t.index.getBlockInfo 2).isSome && decide (2 ∉ t.index.activeChain)) = true := by
    decide +kernel
  rw [Option.any_eq_true] at heval
  obtain ⟨t, hrun, ht⟩ := heval
  obtain ⟨s, hload, hexec⟩ := Option.bind_eq_some_iff.mp hrun
  rw [Bool.and_eq_true, decide_eq_true_iff] at ht
  exact ⟨s, t, hexec, invalidate_kill_iff (storedTree_empty lightChain)
    (storedClosed_empty lightChain) hload hexec ht.1 ht.2 1⟩

/-- **Killed after its first write, `invalidate` leaves a store that does not
load**: the load drops the tail of a header index from which nothing is removed. -/
theorem invalidate_kill_raises : ∃ s t u, initFromDb lightChain ∅ = some s ∧
    Run.exec (IndexStore.step lightChain) ⟨s, ∅⟩ branchCalls = some t ∧
    t.index.invalidate 2 = some u ∧ ¬SoundReload lightChain (writeAll t.db (u.puts.take 1)) := by
  have heval : ((initFromDb lightChain ∅).bind fun s =>
      (Run.exec (IndexStore.step lightChain) ⟨s, ∅⟩ branchCalls).bind fun t =>
        (t.index.invalidate 2).map fun u =>
          (initFromDb lightChain (writeAll t.db (u.puts.take 1))).isNone) = some true := by
    decide +kernel
  obtain ⟨s, hload, heval⟩ := Option.bind_eq_some_iff.mp heval
  obtain ⟨t, hrun, heval⟩ := Option.bind_eq_some_iff.mp heval
  obtain ⟨u, hcall, hnone⟩ := Option.map_eq_some_iff.mp heval
  refine ⟨s, t, u, hload, hrun, hcall, ?_⟩
  rintro ⟨r, hr, -⟩
  rw [hr] at hnone
  cases hnone

end BtclibNode.BlockIndex
