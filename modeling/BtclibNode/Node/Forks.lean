/-
# Forks

The fork `_ready_fork` names, and the moves of the active chain that commit it:
the blocks it removes are taken off the tip down, and the blocks it adds go on
from where it leaves the chain.
-/
import BtclibNode.Chainstate.IndexRun

namespace BtclibNode.BlockIndex

open HeightTree

/-- `toAdd` goes on from `kept`, a part of the active chain from genesis on, of
which `toRemove` is the rest; nothing it adds is active or invalid. -/
structure IsTrialFork (chain : Chain) (s : BlockIndex) (kept toAdd toRemove : List Hash) :
    Prop where
  active : s.activeChain = kept ++ toRemove
  genesis : chain.genesis.hash ∈ kept
  path : ∃ h, toAdd.getLast? = some h ∧ IsPath chain s (kept ++ toAdd) h
  off : ∀ x ∈ toAdd, x ∉ s.activeChain
  valid : ∀ x ∈ toAdd, s.statusOf x ≠ some .invalid

section Forks

variable {chain : Chain} {s t : BlockIndex} {kept toAdd toRemove : List Hash} {h tip : Hash}
  {info : BlockInfo}

/-- **The fork of a header off the active chain** that is not invalid. -/
theorem Consistent.exists_trialFork (hs : Consistent chain s) (hinfo : s.getBlockInfo h = some info)
    (hoff : h ∉ s.activeChain) (hvalid : s.statusOf h ≠ some .invalid) :
    ∃ kept toAdd toRemove, s.getForkDetails h [] = some (toAdd, toRemove) ∧
      toAdd.getLast? = some h ∧ IsTrialFork chain s kept toAdd toRemove ∧
      ∀ x, x ∈ toAdd ↔ Descends s.nodes x h ∧ x ∉ s.activeChain := by
  have ht := hs.headerTree
  obtain ⟨tip, hmain⟩ := hs.active
  obtain ⟨l, hl, -⟩ := ht.exists_path hinfo
  have hne : h ≠ chain.genesis.hash := fun h0 => hoff (h0 ▸ hs.genesis_active)
  obtain ⟨add, remove, k, hfork, hisFork⟩ := ht.getForkDetails_eq hl hmain hne
  have hnil : s.getForkDetails h [] = s.getForkDetails h s.activeChain := by
    unfold getForkDetails
    rw [if_pos rfl, if_neg (List.ne_nil_of_length_pos hmain.length_pos)]
  have hmem := hisFork.mem_add_iff ht hl hmain hoff
  have hpath : s.activeChain.take k ++ add = l := by
    rw [hisFork.add_eq, ← hisFork.take_eq, List.take_append_drop]
  have hlast : add.getLast? = some h := by
    rw [hisFork.add_eq, List.getLast?_drop, if_neg (by have := hisFork.lt; omega), hl.getLast?]
  refine ⟨s.activeChain.take k, add, remove, hnil ▸ hfork, hlast, ⟨?_, ?_, ⟨h, hlast, ?_⟩, ?_, ?_⟩,
    fun x => ?_⟩
  · rw [hisFork.remove_eq, List.take_append_drop]
  · apply List.mem_of_head?
    rw [List.head?_take, if_neg (by have := hisFork.pos; omega), hmain.head?]
  · rw [hpath]
    exact hl
  · exact fun x hx => ((hmem x).mp hx).2
  · intro x hx hinv
    have hdesc := (hl.mem_iff_descends ht.tree).mp ((hmem x).mp hx).1
    exact hvalid (hdesc.closed (P := fun y => s.statusOf y = some .invalid) hs.invalidClosed hinv)
  · rw [hmem x, hl.mem_iff_descends ht.tree]

/-! ## Moving the active chain -/

/-- `t` is `s` with another active chain and the statuses that go with it. -/
structure ChainMoved (s t : BlockIndex) : Prop where
  rewrites : Rewrites s t
  downloaded : ∀ x, (t.getBlockInfo x).map BlockInfo.downloaded =
    (s.getBlockInfo x).map BlockInfo.downloaded
  invalid : ∀ x, t.statusOf x = some .invalid ↔ s.statusOf x = some .invalid
  others : t = { s with
    activeChain := t.activeChain
    headerDict := t.headerDict
    pending := t.pending }

theorem ChainMoved.refl (s : BlockIndex) : ChainMoved s s :=
  ⟨.refl s, fun _ => rfl, fun _ => Iff.rfl, rfl⟩

theorem ChainMoved.trans {u : BlockIndex} (hst : ChainMoved s t) (htu : ChainMoved t u) :
    ChainMoved s u := by
  refine ⟨hst.rewrites.trans htu.rewrites, fun x => ?_, fun x => ?_, ?_⟩
  · rw [htu.downloaded, hst.downloaded]
  · rw [htu.invalid, hst.invalid]
  · rw [htu.others, hst.others]

/-- A status that is not `invalid`, staged for a header that was not invalid. -/
theorem StatusStaged.chainMoved {status : BlockStatus} {chain' : List Hash}
    (hst : StatusStaged status h { s with activeChain := chain' } t)
    (hinfo : s.getBlockInfo h = some info) (hvalid : info.status ≠ .invalid)
    (hstatus : status ≠ .invalid) : ChainMoved s t := by
  have hr : Rewrites s { s with activeChain := chain' } :=
    SameRecords.rewrites ⟨rfl, rfl, rfl, rfl, rfl, rfl⟩
  refine ⟨hr.trans hst.rewrites, fun x => ?_, hst.invalid_iff hinfo hvalid hstatus, ?_⟩
  · rw [hst.info x]
    split
    · rw [Option.map_map]
      rfl
    · rfl
  · rw [hst.others]

/-- The tip above genesis can be taken off. -/
theorem allowed_disconnectTip (hactive : s.activeChain = kept ++ [h])
    (hgenesis : chain.genesis.hash ∈ kept) (hs : Consistent chain s) :
    s.allowed chain (.disconnectTip h) = true := by
  obtain ⟨tip, hpath⟩ := hs.active
  have hnodup := hpath.nodup hs.headerTree.tree
  unfold allowed
  rw [hactive, List.getLast?_concat, Bool.and_eq_true, decide_eq_true_iff, decide_eq_true_iff]
  refine ⟨rfl, fun h0 => ?_⟩
  rw [hactive, List.nodup_append] at hnodup
  exact hnodup.2.2 _ hgenesis _ (List.mem_singleton_self h) h0.symm

/-- A header that is not invalid goes on from the tip. -/
theorem allowed_connectTip (hs : Consistent chain s) (hpath : IsPath chain s (s.activeChain ++ [h]) h)
    (hvalid : s.statusOf h ≠ some .invalid) : s.allowed chain (.connectTip h) = true := by
  obtain ⟨info, hinfo, hindex⟩ := hs.headerTree.info_of_mem hpath hpath.tip_mem
  obtain ⟨tip, hmain⟩ := hs.active
  have hlen := hmain.length_pos
  have hnodup := hpath.nodup hs.headerTree.tree
  have hne : h ≠ chain.genesis.hash := by
    rintro rfl
    rw [List.nodup_append] at hnodup
    exact hnodup.2.2 _ hs.genesis_active _ (List.mem_singleton_self _) rfl
  obtain ⟨parent, hparent, hnode⟩ := hpath.exists_dropLast hne
  rw [List.dropLast_concat] at hparent
  have hnodes := nodes_eq hinfo
  rw [hnode, Option.some.injEq, Prod.mk.injEq] at hnodes
  unfold allowed
  rw [Option.any_eq_true]
  refine ⟨info, hinfo, ?_⟩
  rw [hparent.getLast?, hnodes.1]
  simp only [decide_true, Bool.true_and, Bool.and_eq_true, decide_eq_true_iff]
  refine ⟨?_, (statusOf_ne hinfo).mp hvalid⟩
  rw [List.dropLast_concat] at hnodes
  omega

end Forks

end BtclibNode.BlockIndex
