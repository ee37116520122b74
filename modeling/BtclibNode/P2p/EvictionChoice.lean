/-
# Who is evicted

The loop over what is left keeps the largest group so far, and of the groups as large the one
whose youngest connected last (`Leads`).  What is left stands youngest first, so that each
group's first entry is its youngest.
-/
import BtclibNode.P2p.Eviction
import Mathlib.Data.List.Induction

namespace BtclibNode.Eviction

open SortedTail

variable {P : Type}

/-! ## The largest group -/

/-- The members of a network group. -/
def group (l : List (EvictionCandidate P)) (g : ℕ) : List (EvictionCandidate P) :=
  l.filter fun c => decide (c.keyedNetGroup = g)

theorem group_append_self (l : List (EvictionCandidate P)) (c : EvictionCandidate P) :
    group (l ++ [c]) c.keyedNetGroup = group l c.keyedNetGroup ++ [c] := by
  unfold group
  rw [List.filter_append, List.filter_cons_of_pos (by simp), List.filter_nil]

theorem group_append_ne (l : List (EvictionCandidate P)) {c : EvictionCandidate P} {g : ℕ}
    (h : g ≠ c.keyedNetGroup) : group (l ++ [c]) g = group l g := by
  unfold group
  rw [List.filter_append, List.filter_cons_of_neg (by simpa using Ne.symm h), List.filter_nil,
    List.append_nil]

theorem head?_append_singleton {α : Type} (l : List α) (a : α) :
    (l ++ [a]).head? = some ((l ++ [a]).headD a) := by
  cases l with
  | nil => rfl
  | cons b l => rfl

/-- What the loop keeps of the candidates it has met. -/
structure Leads (l : List (EvictionCandidate P)) (s : Groups P) : Prop where
  groups : ∀ g, s.groups g = group l g
  leader : l ≠ [] → ∃ c, (group l s.mostConnectionsGroup).head? = some c ∧
    s.mostConnections = (group l s.mostConnectionsGroup).length ∧
    s.mostConnectionsTime = c.connected
  largest : ∀ g c, (group l g).head? = some c → (group l g).length < s.mostConnections ∨
    ((group l g).length = s.mostConnections ∧ c.connected ≤ s.mostConnectionsTime)
  start : l = [] → s.mostConnections = 0

theorem Leads.add {l : List (EvictionCandidate P)} {s : Groups P} (h : Leads l s)
    (c : EvictionCandidate P) : Leads (l ++ [c]) (s.add c) := by
  have hgroups : ∀ g, Function.update s.groups c.keyedNetGroup (group l c.keyedNetGroup ++ [c]) g =
      group (l ++ [c]) g := by
    intro g
    by_cases hg : g = c.keyedNetGroup
    · rw [hg, Function.update_self, group_append_self]
    · rw [Function.update_of_ne hg, h.groups, group_append_ne l hg]
  have hself := group_append_self l c
  have hhead := head?_append_singleton (group l c.keyedNetGroup) c
  unfold Groups.add
  rw [h.groups]
  dsimp only
  by_cases hmore : s.mostConnections < (group l c.keyedNetGroup ++ [c]).length ∨
      ((group l c.keyedNetGroup ++ [c]).length = s.mostConnections ∧
        s.mostConnectionsTime < ((group l c.keyedNetGroup ++ [c]).headD c).connected)
  · rw [if_pos hmore]
    refine ⟨hgroups, fun _ => ⟨_, ?_, ?_, rfl⟩, ?_, fun hnil => by simp at hnil⟩
    · rw [hself]
      exact hhead
    · rw [hself]
    · intro g d hd
      by_cases hg : g = c.keyedNetGroup
      · right
        rw [hg, hself] at hd ⊢
        rw [hhead] at hd
        cases hd
        exact ⟨rfl, le_refl _⟩
      · rw [group_append_ne l hg] at hd ⊢
        have hold := h.largest g d hd
        dsimp only
        omega
  · rw [if_neg hmore]
    -- the leading group is another one, or it would have grown
    have hnonempty : l ≠ [] := by
      intro hnil
      have hzero := h.start hnil
      rw [List.length_append, List.length_singleton] at hmore
      omega
    obtain ⟨d, hd, hmost, htime⟩ := h.leader hnonempty
    have hother : s.mostConnectionsGroup ≠ c.keyedNetGroup := by
      intro heq
      rw [heq] at hmost
      rw [List.length_append, List.length_singleton] at hmore
      omega
    refine ⟨hgroups, fun _ => ⟨d, ?_, ?_, htime⟩, ?_, fun hnil => by simp at hnil⟩
    · dsimp only
      rw [group_append_ne l hother]
      exact hd
    · dsimp only
      rw [group_append_ne l hother]
      exact hmost
    · intro g e he
      by_cases hg : g = c.keyedNetGroup
      · rw [hg, hself] at he ⊢
        rw [hhead] at he
        cases he
        dsimp only
        omega
      · rw [group_append_ne l hg] at he ⊢
        exact h.largest g e he

theorem leads_foldl (l : List (EvictionCandidate P)) (g : ℕ) :
    Leads l (l.foldl Groups.add ⟨fun _ => [], 0, 0, g⟩) := by
  induction l using List.reverseRecOn with
  | nil =>
    refine ⟨fun _ => rfl, fun h => absurd rfl h, fun g c h => ?_, fun _ => rfl⟩
    cases h
  | append_singleton l c ih =>
    rw [List.foldl_append]
    exact ih.add c

/-- The size of a candidate's group. -/
def groupSize (l : List (EvictionCandidate P)) (c : EvictionCandidate P) : ℕ :=
  l.countP fun d => decide (d.keyedNetGroup = c.keyedNetGroup)

/-- The youngest of the largest group, or of the group whose youngest connected last among
those as large. -/
structure Evicted (l : List (EvictionCandidate P)) (c : EvictionCandidate P) : Prop where
  mem : c ∈ l
  youngest : ∀ d ∈ l, d.keyedNetGroup = c.keyedNetGroup → d.connected ≤ c.connected
  largest : ∀ d ∈ l, groupSize l d < groupSize l c ∨
    (groupSize l d = groupSize l c ∧ d.connected ≤ c.connected)

/-- The first of a group of a list that stands youngest first. -/
theorem le_head_of_group {l : List (EvictionCandidate P)}
    (hl : l.Pairwise fun c d => d.connected ≤ c.connected) {g : ℕ} {c d : EvictionCandidate P}
    (hc : (group l g).head? = some c) (hd : d ∈ group l g) : d.connected ≤ c.connected := by
  obtain ⟨rest, hrest⟩ := List.head?_eq_some_iff.mp hc
  have hgroup : (group l g).Pairwise fun c d => d.connected ≤ c.connected :=
    hl.sublist List.filter_sublist
  rw [hrest] at hgroup hd
  rcases List.mem_cons.mp hd with rfl | hd
  · exact le_refl _
  · exact (List.pairwise_cons.mp hgroup).1 d hd

theorem mem_group_iff {l : List (EvictionCandidate P)} {g : ℕ} {c : EvictionCandidate P} :
    c ∈ group l g ↔ c ∈ l ∧ c.keyedNetGroup = g := by
  unfold group
  rw [List.mem_filter, decide_eq_true_eq]

theorem groupSize_eq (l : List (EvictionCandidate P)) (c : EvictionCandidate P) :
    groupSize l c = (group l c.keyedNetGroup).length := List.countP_eq_length_filter

theorem pool_ne_nil {l : List (EvictionCandidate P)} (h : l ≠ []) : pool l ≠ [] := by
  unfold pool
  by_cases hany : (l.any fun c => c.preferEvict) = true
  · rw [if_pos hany]
    obtain ⟨c, hc, hprefer⟩ := List.any_eq_true.mp hany
    exact List.ne_nil_of_mem (List.mem_filter.mpr ⟨hc, hprefer⟩)
  · rw [if_neg hany]
    exact h

theorem pool_sublist (l : List (EvictionCandidate P)) : (pool l).Sublist l := by
  unfold pool
  split_ifs
  · exact List.filter_sublist
  · exact List.Sublist.refl l

/-- **The choice is the youngest of the largest group.** -/
theorem evictAmong_spec {l : List (EvictionCandidate P)}
    (hl : l.Pairwise fun c d => d.connected ≤ c.connected) (hne : l ≠ []) :
    ∃ c, evictAmong l = some c.id ∧ Evicted (pool l) c := by
  obtain ⟨first, rest, rfl⟩ := List.exists_cons_of_ne_nil hne
  have hsorted := hl.sublist (pool_sublist (first :: rest))
  have hleads := leads_foldl (pool (first :: rest))
    ((pool (first :: rest)).headD first).keyedNetGroup
  unfold evictAmong
  dsimp only
  generalize (pool (first :: rest)).foldl Groups.add _ = s at hleads ⊢
  obtain ⟨c, hc, hmost, htime⟩ := hleads.leader (pool_ne_nil hne)
  obtain ⟨hmem, hgroup⟩ := mem_group_iff.mp (List.mem_of_head? hc)
  refine ⟨c, ?_, hmem, ?_, ?_⟩
  · rw [hleads.groups, hc, Option.map_some]
  · intro d hd hsame
    exact le_head_of_group hsorted hc (mem_group_iff.mpr ⟨hd, hsame.trans hgroup⟩)
  · intro d hd
    have hdgroup : d ∈ group (pool (first :: rest)) d.keyedNetGroup := mem_group_iff.mpr ⟨hd, rfl⟩
    obtain ⟨e, he⟩ := Option.isSome_iff_exists.mp
      (List.isSome_head?.mpr (List.ne_nil_of_mem hdgroup))
    have hyoung := le_head_of_group hsorted he hdgroup
    have hlargest := hleads.largest d.keyedNetGroup e he
    rw [groupSize_eq, groupSize_eq, hgroup, ← hmost]
    omega

/-! ## The steps -/

/-- Whom each step protects, and who is left, the youngest first. -/
structure Steps (candidates byGroup byPing byTx byBlockRelay byBlock byRatio remaining :
    List (EvictionCandidate P)) : Prop where
  perm : (byGroup ++ (byPing ++ (byTx ++ (byBlockRelay ++ (byBlock ++
    (byRatio ++ remaining)))))).Perm candidates
  byGroup : byGroup.length ≤ 4
  byPing : byPing.length ≤ 8
  byTx : byTx.length ≤ 4
  byBlockRelay : byBlockRelay.length ≤ 8
  byBlock : byBlock.length ≤ 4
  byRatio : byRatio.length = (byRatio.length + remaining.length) / 2

/-- What one step leaves to the others. -/
theorem perm_of_erased {κ : Type} [LinearOrder κ] (key : EvictionCandidate P → κ) (k : ℕ)
    (predicate : EvictionCandidate P → Bool) (l : List (EvictionCandidate P))
    {rest : List (EvictionCandidate P)} (h : rest.Perm (eraseLastK key k predicate l)) :
    (erased key k predicate l ++ rest).Perm l :=
  (h.append_left _).trans (erased_append_perm key k predicate l)

variable [LinearOrder P]

theorem unprotected_spec (fuel : ℕ) (candidates : List (EvictionCandidate P))
    (hfuel : candidates.length < fuel) :
    ∃ byGroup byPing byTx byBlockRelay byBlock byRatio remaining,
      unprotected fuel candidates = some remaining ∧
      Steps (eligible candidates) byGroup byPing byTx byBlockRelay byBlock byRatio remaining ∧
      remaining.Pairwise fun c d => d.connected ≤ c.connected := by
  unfold unprotected
  dsimp only
  generalize hl₀ : eligible candidates = l₀
  have hle : l₀.length ≤ candidates.length := by
    rw [← hl₀]
    exact List.length_filter_le _ _
  generalize hl₁ : eraseLastK netGroupKeyed 4 anyOne l₀ = l₁
  generalize hl₂ : eraseLastK reverseMinPing 8 anyOne l₁ = l₂
  generalize hl₃ : eraseLastK txTime 4 anyOne l₂ = l₃
  generalize hl₄ : eraseLastK blockRelayOnlyTime 8
    (fun c => !c.relayTxs && c.relevantServices) l₃ = l₄
  generalize hl₅ : eraseLastK blockTime 4 anyOne l₄ = l₅
  have hfuel₅ : l₅.length < fuel := by
    have h₁ := length_eraseLastK_le netGroupKeyed 4 anyOne l₀
    have h₂ := length_eraseLastK_le reverseMinPing 8 anyOne l₁
    have h₃ := length_eraseLastK_le txTime 4 anyOne l₂
    have h₄ := length_eraseLastK_le blockRelayOnlyTime 8
      (fun c => !c.relayTxs && c.relevantServices) l₃
    have h₅ := length_eraseLastK_le blockTime 4 anyOne l₄
    rw [hl₁] at h₁
    rw [hl₂] at h₂
    rw [hl₃] at h₃
    rw [hl₄] at h₄
    rw [hl₅] at h₅
    omega
  obtain ⟨byNetwork, byUptime, kept, hkept, hperm, hhalf, -, -, -, hsorted⟩ :=
    protectEvictionCandidatesByRatio_spec fuel l₅ hfuel₅
  refine ⟨erased netGroupKeyed 4 anyOne l₀, erased reverseMinPing 8 anyOne l₁,
    erased txTime 4 anyOne l₂,
    erased blockRelayOnlyTime 8 (fun c => !c.relayTxs && c.relevantServices) l₃,
    erased blockTime 4 anyOne l₄, byNetwork ++ byUptime, kept, hkept,
    ⟨?_, length_erased_le, length_erased_le, length_erased_le, length_erased_le, length_erased_le,
      ?_⟩, hsorted⟩
  · rw [← List.append_assoc] at hperm
    refine perm_of_erased _ _ _ _ ?_
    rw [hl₁]
    refine perm_of_erased _ _ _ _ ?_
    rw [hl₂]
    refine perm_of_erased _ _ _ _ ?_
    rw [hl₃]
    refine perm_of_erased _ _ _ _ ?_
    rw [hl₄]
    refine perm_of_erased _ _ _ _ ?_
    rw [hl₅]
    exact hperm
  · have hlen := hperm.length_eq
    rw [List.length_append, List.length_append] at hlen
    rw [List.length_append]
    omega

/-- A candidate of a group. -/
def sampleCandidate (id connected : ℤ) (network : Network) (keyedNetGroup : ℕ) :
    EvictionCandidate ℕ :=
  ⟨id, connected, 0, 0, 0, true, true, false, keyedNetGroup, false, false, network, false, true⟩

end BtclibNode.Eviction
