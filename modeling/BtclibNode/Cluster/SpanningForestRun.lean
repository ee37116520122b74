/-
# The chunks are the trees of the active dependencies

Merging and splitting chunks keep what the tables of a `SpanningForestState` stand for, and so
does every run of them.
-/
import BtclibNode.Cluster.SpanningForest
import BtclibNode.Lib.Run

namespace BtclibNode.SpanningForestState

open Forest SimpleGraph

variable {g : DepGraph} {s s' : SpanningForestState} {a b c i p u v : ℕ}

/-! ## Merging -/

theorem Represents.slot_eq (h : Represents g s) (u v : ℕ) (hv : v ∈ s.activeChildren u) :
    s.depTop u v = some (s.slot u v) := by
  obtain ⟨d, hd, -⟩ := h.tops u v hv
  rw [slot, hd, Option.getD_some]

theorem Represents.slot_inj (h : Represents g s) (u v : ℕ) (hv : v ∈ s.activeChildren u)
    (u' v' : ℕ) (hv' : v' ∈ s.activeChildren u') (heq : s.slot u v = s.slot u' v') :
    u = u' ∧ v = v' := by
  refine h.tops_inj u v hv u' v' hv' ?_
  rw [h.slot_eq u v hv, h.slot_eq u' v' hv', heq]

theorem Represents.slot_spec (h : Represents g s) (hv : v ∈ s.activeChildren u) :
    s.slot u v ∉ s.chunkIdxs ∧ (∀ b, b ∈ (s.sets (s.slot u v)).tx ↔ Side s.active u v b) ∧
      IsSum g (s.sets (s.slot u v)) := by
  obtain ⟨d, hd, hspec⟩ := h.tops u v hv
  rw [slot, hd, Option.getD_some]
  exact hspec

theorem mem_update_insert (children : ℕ → Finset ℕ) :
    b ∈ Function.update children p (insert c (children p)) a ↔
      b ∈ children a ∨ a = p ∧ b = c := by
  by_cases ha : a = p
  · subst ha
    rw [Function.update_self, Finset.mem_insert, or_comm, and_iff_right rfl]
  · rw [Function.update_of_ne ha, or_iff_left fun h => ha h.1]

theorem update_update_of_ne {α : Type} (f : ℕ → ℕ → α) {x : α} (hne : ¬ (u = p ∧ v = c)) :
    Function.update f p (Function.update (f p) c x) u v = f u v := by
  by_cases hu : u = p
  · subst hu
    rw [Function.update_self, Function.update_of_ne fun hv => hne ⟨rfl, hv⟩]
  · rw [Function.update_of_ne hu]

/-- One more active dependency. -/
theorem active_insert (children : ℕ → Finset ℕ) (hpc : p ≠ c) :
    SimpleGraph.fromRel (fun a b => b ∈ Function.update children p (insert c (children p)) a) =
      SimpleGraph.fromRel (fun a b => b ∈ children a) ⊔ edge p c := by
  refine SimpleGraph.ext (funext fun a => funext fun b => propext ?_)
  rw [sup_adj, fromRel_adj, fromRel_adj, edge_adj, mem_update_insert, mem_update_insert]
  constructor
  · rintro ⟨hne, (h | ⟨rfl, rfl⟩) | h | ⟨rfl, rfl⟩⟩
    · exact Or.inl ⟨hne, Or.inl h⟩
    · exact Or.inr ⟨Or.inl ⟨rfl, rfl⟩, hne⟩
    · exact Or.inl ⟨hne, Or.inr h⟩
    · exact Or.inr ⟨Or.inr ⟨rfl, rfl⟩, hne⟩
  · rintro (⟨hne, h | h⟩ | ⟨⟨rfl, rfl⟩ | ⟨rfl, rfl⟩, hne⟩)
    · exact ⟨hne, Or.inl (Or.inl h)⟩
    · exact ⟨hne, Or.inr (Or.inl h)⟩
    · exact ⟨hne, Or.inl (Or.inr ⟨rfl, rfl⟩)⟩
    · exact ⟨hne, Or.inr (Or.inr ⟨rfl, rfl⟩)⟩

/-- **The top sets after a merge** are the sides with the new dependency. -/
theorem Represents.exists_widened (h : Represents g s) (hp : p ∈ g.positions)
    (hc : c ∈ g.positions) (happart : ¬ s.active.Reachable p c) :
    ∃ sets₁ sets₂,
      s.changeTops (widen p (s.sets (s.chunkIdx c))) (s.sets (s.chunkIdx p)).tx s.sets =
        some sets₁ ∧
      s.changeTops (widen c (s.sets (s.chunkIdx p))) (s.sets (s.chunkIdx c)).tx sets₁ =
        some sets₂ ∧
      (∀ u v, v ∈ s.activeChildren u →
        (∀ b, b ∈ (sets₂ (s.slot u v)).tx ↔ Side (s.active ⊔ edge p c) u v b) ∧
          IsSum g (sets₂ (s.slot u v))) ∧
      ∀ i ∈ s.chunkIdxs, sets₂ i = s.sets i := by
  have htop : ∀ b, b ∈ (s.sets (s.chunkIdx p)).tx ↔ s.active.Reachable p b :=
    fun b => h.mem_chunk hp
  have hbot : ∀ b, b ∈ (s.sets (s.chunkIdx c)).tx ↔ s.active.Reachable c b :=
    fun b => h.mem_chunk hc
  have hsumTop : IsSum g (s.sets (s.chunkIdx p)) := h.sums _ (h.idx_mem hp)
  have hsumBot : IsSum g (s.sets (s.chunkIdx c)) := h.sums _ (h.idx_mem hc)
  obtain ⟨sets₁, h₁, hin₁, hout₁, hrest₁⟩ :=
    exists_changeTops (s.sets (s.chunkIdx p)).tx (widen p (s.sets (s.chunkIdx c))) s.sets
      h.slot_eq h.slot_inj
  obtain ⟨sets₂, h₂, hin₂, hout₂, hrest₂⟩ :=
    exists_changeTops (s.sets (s.chunkIdx c)).tx (widen c (s.sets (s.chunkIdx p))) sets₁
      h.slot_eq h.slot_inj
  refine ⟨sets₁, sets₂, h₁, h₂, fun u v hv => ?_, fun i hi => ?_⟩
  · obtain ⟨-, hside, hsum⟩ := h.slot_spec hv
    have hadj := h.adj hv
    by_cases hu : s.active.Reachable p u
    · -- a dependency of the top chunk
      have hnot : u ∉ (s.sets (s.chunkIdx c)).tx := fun hmem =>
        happart (hu.trans ((hbot u).mp hmem).symm)
      obtain ⟨hmem, hsum'⟩ := widen_spec (t := p) hside hbot
        (fun b hb hb' => happart (hu.trans (hb.reachable.trans hb'.symm))) hsum hsumBot
      rw [hout₂ u hnot v hv, hin₁ u ((htop u).mpr hu) v hv]
      exact ⟨fun b => (hmem b).trans (side_sup_left happart hadj hu).symm, hsum'⟩
    · have hnot : u ∉ (s.sets (s.chunkIdx p)).tx := fun hmem => hu ((htop u).mp hmem)
      by_cases hu' : s.active.Reachable c u
      · obtain ⟨hmem, hsum'⟩ := widen_spec (t := c) hside htop
          (fun b hb hb' => happart (hb'.trans (hb.reachable.symm.trans hu'.symm))) hsum hsumTop
        rw [hin₂ u ((hbot u).mpr hu') v hv, hout₁ u hnot v hv]
        exact ⟨fun b => (hmem b).trans (side_sup_right happart hadj hu').symm, hsum'⟩
      · have hnot' : u ∉ (s.sets (s.chunkIdx c)).tx := fun hmem => hu' ((hbot u).mp hmem)
        rw [hout₂ u hnot' v hv, hout₁ u hnot v hv]
        exact ⟨fun b => (hside b).trans (side_sup_other hu hu').symm, hsum⟩
  · have hslot : ∀ u v, v ∈ s.activeChildren u → s.slot u v ≠ i := fun u v hv heq =>
      (h.slot_spec hv).1 (heq ▸ hi)
    rw [hrest₂ i hslot, hrest₁ i hslot]

/-- What two chunks reach outside both of them. -/
theorem reach_union (f : ℕ → Finset ℕ) (A B : Finset ℕ) :
    (A.biUnion f \ A ∪ B.biUnion f \ B) \ (A ∪ B) = (A ∪ B).biUnion f \ (A ∪ B) := by
  rw [Finset.union_biUnion]
  ext x
  simp only [Finset.mem_sdiff, Finset.mem_union]
  tauto

/-- **Merging keeps what the tables stand for.** -/
theorem Represents.activate (h : Represents g s) (hdep : c ∈ s.children p)
    (hne : s.chunkIdx p ≠ s.chunkIdx c) :
    ∃ s', s.activate p c = some (s.chunkIdx c, s') ∧ Represents g s' := by
  obtain ⟨hp, hc, hpc⟩ := h.mem_of_child hdep
  have happart : ¬ s.active.Reachable p c := fun hreach =>
    hne ((h.chunk p hp c hc).mpr hreach)
  obtain ⟨sets₁, sets₂, h₁, h₂, htops, hchunks⟩ := h.exists_widened hp hc happart
  have hidxP := h.idx_mem hp
  have hidxC := h.idx_mem hc
  have hactive : SimpleGraph.fromRel (fun a b =>
      b ∈ Function.update s.activeChildren p (insert c (s.activeChildren p)) a) =
      s.active ⊔ edge p c := active_insert s.activeChildren hpc
  -- a transaction of the top chunk is one that has its number
  have htop : ∀ b ∈ g.positions, b ∈ (s.sets (s.chunkIdx p)).tx ↔ s.chunkIdx b = s.chunkIdx p :=
    fun b hb => (h.members _ hidxP b).trans (and_iff_right hb)
  have hmoved : ∀ i ∈ s.chunkIdxs.erase (s.chunkIdx p), i ≠ s.chunkIdx c → ∀ b,
      b ∈ (s.sets i).tx ↔ b ∈ g.positions ∧
        (if b ∈ (s.sets (s.chunkIdx p)).tx then s.chunkIdx c else s.chunkIdx b) = i := by
    intro i hi hic b
    obtain ⟨hip, hi⟩ := Finset.mem_erase.mp hi
    rw [h.members i hi]
    refine and_congr_right fun hb => ?_
    split_ifs with hmem
    · rw [(htop b hb).mp hmem]
      exact iff_of_false (Ne.symm hip) (Ne.symm hic)
    · exact Iff.rfl
  have hmerged : ∀ b, b ∈ (s.sets (s.chunkIdx c)).tx ∪ (s.sets (s.chunkIdx p)).tx ↔
      b ∈ g.positions ∧
        (if b ∈ (s.sets (s.chunkIdx p)).tx then s.chunkIdx c else s.chunkIdx b) =
          s.chunkIdx c := by
    intro b
    rw [Finset.mem_union]
    by_cases hmem : b ∈ (s.sets (s.chunkIdx p)).tx
    · rw [if_pos hmem]
      exact iff_of_true (Or.inr hmem) ⟨((h.members _ hidxP b).mp hmem).1, rfl⟩
    · rw [if_neg hmem, or_iff_left hmem]
      exact h.members _ hidxC b
  have hdisjoint : Disjoint (s.sets (s.chunkIdx c)).tx (s.sets (s.chunkIdx p)).tx :=
    Finset.disjoint_left.mpr fun b hb hb' =>
      hne (((h.members _ hidxP b).mp hb').2.symm.trans ((h.members _ hidxC b).mp hb).2)
  refine ⟨_, by
    rw [SpanningForestState.activate, h₁, Option.bind_eq_bind, Option.bind_some, h₂]
    rfl, ?_⟩
  constructor
  case transactions => exact h.transactions
  case parents => exact h.parents
  case children => exact h.children
  case dependency =>
    intro a b hb
    rcases (mem_update_insert s.activeChildren).mp hb with hb | ⟨rfl, rfl⟩
    · exact h.dependency a b hb
    · exact hdep
  case forest =>
    change (SimpleGraph.fromRel _).IsAcyclic
    rw [hactive]
    exact h.forest.sup_edge_of_not_reachable happart
  case chunk =>
    intro a ha b hb
    change (if a ∈ _ then _ else _) = (if b ∈ _ then _ else _) ↔
      (SimpleGraph.fromRel _).Reachable a b
    rw [hactive, reachable_sup_edge, ← h.chunk a ha b hb, ← h.chunk a ha p hp, ← h.chunk c hc b hb,
      ← h.chunk a ha c hc, ← h.chunk p hp b hb]
    simp only [htop a ha, htop b hb]
    split_ifs <;> omega
  case idxs =>
    ext i
    change i ∈ s.chunkIdxs.erase (s.chunkIdx p) ↔ _
    rw [Finset.mem_erase, h.idxs, Finset.mem_image, Finset.mem_image]
    constructor
    · rintro ⟨hip, a, ha, rfl⟩
      refine ⟨a, ha, if_neg fun hmem => hip ((htop a ha).mp hmem)⟩
    · rintro ⟨a, ha, rfl⟩
      dsimp only
      split_ifs with hmem
      · exact ⟨Ne.symm hne, c, hc, rfl⟩
      · exact ⟨fun heq => hmem ((htop a ha).mpr heq), a, ha, rfl⟩
  case members =>
    intro i hi b
    by_cases hic : i = s.chunkIdx c
    · subst hic
      change b ∈ (Function.update sets₂ (s.chunkIdx c) _ (s.chunkIdx c)).tx ↔ _
      rw [Function.update_self]
      exact hmerged b
    · change b ∈ (Function.update sets₂ (s.chunkIdx c) _ i).tx ↔ _
      rw [Function.update_of_ne hic, hchunks i (Finset.mem_of_mem_erase hi)]
      exact hmoved i hi hic b
  case sums =>
    intro i hi
    by_cases hic : i = s.chunkIdx c
    · subst hic
      change IsSum g (Function.update sets₂ (s.chunkIdx c) _ (s.chunkIdx c))
      rw [Function.update_self]
      exact (h.sums _ hidxC).union (h.sums _ hidxP) hdisjoint
    · change IsSum g (Function.update sets₂ (s.chunkIdx c) _ i)
      rw [Function.update_of_ne hic, hchunks i (Finset.mem_of_mem_erase hi)]
      exact h.sums i (Finset.mem_of_mem_erase hi)
  case tops =>
    intro u v hv
    change ∃ d, _ ∧ d ∉ s.chunkIdxs.erase (s.chunkIdx p) ∧
      (∀ b, b ∈ (Function.update sets₂ (s.chunkIdx c) _ d).tx ↔
        Side (SimpleGraph.fromRel _) u v b) ∧ IsSum g (Function.update sets₂ (s.chunkIdx c) _ d)
    rw [hactive]
    by_cases hnew : u = p ∧ v = c
    · -- the new dependency has the set of the top chunk
      obtain ⟨rfl, rfl⟩ := hnew
      refine ⟨s.chunkIdx u, ?_, Finset.notMem_erase _ _, ?_⟩
      · change Function.update s.depTop u _ u v = _
        rw [Function.update_self, Function.update_self]
      · rw [Function.update_of_ne hne, hchunks _ hidxP]
        exact ⟨fun b => (h.mem_chunk hp).trans (side_new happart).symm, h.sums _ hidxP⟩
    · have hold : v ∈ s.activeChildren u :=
        ((mem_update_insert s.activeChildren).mp hv).resolve_right hnew
      have hslot := (h.slot_spec hold).1
      have hslotNe : s.slot u v ≠ s.chunkIdx c := fun heq => hslot (heq ▸ hidxC)
      refine ⟨s.slot u v, ?_, fun hmem => hslot (Finset.mem_of_mem_erase hmem), ?_⟩
      · rw [← h.slot_eq u v hold]
        exact update_update_of_ne s.depTop hnew
      · rw [Function.update_of_ne hslotNe]
        exact htops u v hold
  case tops_inj =>
    intro u v hv u' v' hv'
    change Function.update s.depTop p _ u v = Function.update s.depTop p _ u' v' → _
    have hnew : ∀ {a b}, (a = p ∧ b = c) →
        Function.update s.depTop p (Function.update (s.depTop p) c (some (s.chunkIdx p))) a b =
          some (s.chunkIdx p) := by
      rintro a b ⟨rfl, rfl⟩
      rw [Function.update_self, Function.update_self]
    have hold : ∀ {a b}, b ∈ Function.update s.activeChildren p
        (insert c (s.activeChildren p)) a → ¬ (a = p ∧ b = c) → b ∈ s.activeChildren a :=
      fun hb hne => ((mem_update_insert s.activeChildren).mp hb).resolve_right hne
    -- the slot of an old dependency is no chunk's
    have hslot : ∀ {a b}, b ∈ s.activeChildren a → s.depTop a b ≠ some (s.chunkIdx p) := by
      intro a b hb heq
      rw [h.slot_eq a b hb, Option.some.injEq] at heq
      exact (h.slot_spec hb).1 (heq ▸ hidxP)
    by_cases h1 : u = p ∧ v = c
    · by_cases h2 : u' = p ∧ v' = c
      · exact fun _ => ⟨h1.1.trans h2.1.symm, h1.2.trans h2.2.symm⟩
      · rw [hnew h1, update_update_of_ne s.depTop h2]
        exact fun heq => absurd heq.symm (hslot (hold hv' h2))
    · by_cases h2 : u' = p ∧ v' = c
      · rw [hnew h2, update_update_of_ne s.depTop h1]
        exact fun heq => absurd heq (hslot (hold hv h1))
      · rw [update_update_of_ne s.depTop h1, update_update_of_ne s.depTop h2]
        exact h.tops_inj u v (hold hv h1) u' v' (hold hv' h2)
  case reach =>
    intro i hi
    by_cases hic : i = s.chunkIdx c
    · subst hic
      obtain ⟨hupC, hdownC⟩ := h.reach _ hidxC
      obtain ⟨hupP, hdownP⟩ := h.reach _ hidxP
      change Function.update s.reachUp _ _ (s.chunkIdx c) =
          (Function.update sets₂ (s.chunkIdx c) _ (s.chunkIdx c)).tx.biUnion s.parents \
            (Function.update sets₂ (s.chunkIdx c) _ (s.chunkIdx c)).tx ∧
        Function.update s.reachDown _ _ (s.chunkIdx c) =
          (Function.update sets₂ (s.chunkIdx c) _ (s.chunkIdx c)).tx.biUnion s.children \
            (Function.update sets₂ (s.chunkIdx c) _ (s.chunkIdx c)).tx
      rw [Function.update_self, Function.update_self, Function.update_self, hupC, hupP, hdownC,
        hdownP]
      exact ⟨reach_union s.parents _ _, reach_union s.children _ _⟩
    · have hi' := Finset.mem_of_mem_erase hi
      change Function.update s.reachUp _ _ i =
          (Function.update sets₂ (s.chunkIdx c) _ i).tx.biUnion s.parents \
            (Function.update sets₂ (s.chunkIdx c) _ i).tx ∧
        Function.update s.reachDown _ _ i =
          (Function.update sets₂ (s.chunkIdx c) _ i).tx.biUnion s.children \
            (Function.update sets₂ (s.chunkIdx c) _ i).tx
      rw [Function.update_of_ne hic, Function.update_of_ne hic, Function.update_of_ne hic,
        hchunks i hi']
      exact h.reach i hi'

/-! ## Splitting -/

theorem mem_update_erase (children : ℕ → Finset ℕ) :
    b ∈ Function.update children p ((children p).erase c) a ↔
      b ∈ children a ∧ ¬ (a = p ∧ b = c) := by
  by_cases ha : a = p
  · subst ha
    rw [Function.update_self, Finset.mem_erase, and_comm, and_iff_right rfl]
  · rw [Function.update_of_ne ha, and_iff_left fun h => ha h.1]

/-- One active dependency less, where the other way round there is none. -/
theorem active_erase (children : ℕ → Finset ℕ) (hback : p ∉ children c) :
    SimpleGraph.fromRel (fun a b => b ∈ Function.update children p ((children p).erase c) a) =
      without (SimpleGraph.fromRel (fun a b => b ∈ children a)) p c := by
  refine SimpleGraph.ext (funext fun a => funext fun b => propext ?_)
  rw [deleteEdges_adj, fromRel_adj, fromRel_adj, mem_update_erase, mem_update_erase,
    Set.mem_singleton_iff, Sym2.eq_iff]
  constructor
  · rintro ⟨hne, ⟨h, hnot⟩ | ⟨h, hnot⟩⟩
    · refine ⟨⟨hne, Or.inl h⟩, ?_⟩
      rintro (⟨rfl, rfl⟩ | ⟨rfl, rfl⟩)
      · exact hnot ⟨rfl, rfl⟩
      · exact hback h
    · refine ⟨⟨hne, Or.inr h⟩, ?_⟩
      rintro (⟨rfl, rfl⟩ | ⟨rfl, rfl⟩)
      · exact hback h
      · exact hnot ⟨rfl, rfl⟩
  · rintro ⟨⟨hne, h | h⟩, hnot⟩
    · exact ⟨hne, Or.inl ⟨h, fun heq => hnot (Or.inl heq)⟩⟩
    · exact ⟨hne, Or.inr ⟨h, fun heq => hnot (Or.inr ⟨heq.2, heq.1⟩)⟩⟩

/-- The lower part of a chunk that is split. -/
def splitBottom (whole topSet : SetInfo) : SetInfo :=
  ⟨whole.tx \ topSet.tx, whole.fee - topSet.fee, whole.size - topSet.size⟩

/-- The state in which the loops of a split run. -/
def splitting (s : SpanningForestState) (p c : ℕ) : SpanningForestState :=
  { s with
    depTop := Function.update s.depTop p (Function.update (s.depTop p) c none)
    activeChildren := Function.update s.activeChildren p ((s.activeChildren p).erase c) }

theorem splitting_slot (hv : v ∈ (s.splitting p c).activeChildren u) :
    (s.splitting p c).slot u v = s.slot u v ∧ v ∈ s.activeChildren u ∧ ¬ (u = p ∧ v = c) := by
  obtain ⟨hmem, hne⟩ := (mem_update_erase s.activeChildren).mp hv
  refine ⟨?_, hmem, hne⟩
  rw [slot, slot, splitting]
  dsimp only
  rw [update_update_of_ne s.depTop hne]

theorem Represents.active_splitting (h : Represents g s) (hg : g.IsAcyclic)
    (hc : c ∈ s.activeChildren p) : (s.splitting p c).active = without s.active p c :=
  active_erase s.activeChildren fun hp =>
    h.not_both hg (h.dependency p c hc) (h.dependency c p hp)

/-- The two parts of a chunk that is split are the trees of the ends. -/
theorem Represents.split_parts (h : Represents g s) (hc : c ∈ s.activeChildren p) :
    (∀ b, b ∈ (s.sets (s.slot p c)).tx ↔ (without s.active p c).Reachable p b) ∧
      (∀ b, b ∈ (splitBottom (s.sets (s.chunkIdx p)) (s.sets (s.slot p c))).tx ↔
        (without s.active p c).Reachable c b) ∧
      IsSum g (s.sets (s.slot p c)) ∧
      IsSum g (splitBottom (s.sets (s.chunkIdx p)) (s.sets (s.slot p c))) := by
  obtain ⟨hp, -, -⟩ := h.mem_of_child (h.dependency p c hc)
  obtain ⟨-, hside, hsum⟩ := h.slot_spec hc
  have hadj := h.adj hc
  have happart := not_reachable_without h.forest hadj
  have hjoined := without_sup_edge_self hadj
  have hwhole : ∀ b, b ∈ (s.sets (s.chunkIdx p)).tx ↔
      (without s.active p c).Reachable p b ∨ (without s.active p c).Reachable c b := by
    intro b
    rw [h.mem_chunk hp]
    conv_lhs => rw [← hjoined]
    rw [reachable_sup_edge]
    constructor
    · rintro (hreach | ⟨-, hreach⟩ | ⟨hreach, -⟩)
      · exact Or.inl hreach
      · exact Or.inr hreach
      · exact absurd hreach happart
    · rintro (hreach | hreach)
      · exact Or.inl hreach
      · exact Or.inr (Or.inl ⟨Reachable.refl p, hreach⟩)
  have hsub : (s.sets (s.slot p c)).tx ⊆ (s.sets (s.chunkIdx p)).tx := fun b hb =>
    (hwhole b).mpr (Or.inl ((hside b).mp hb))
  refine ⟨hside, fun b => ?_, hsum, (h.sums _ (h.idx_mem hp)).sdiff hsum hsub⟩
  change b ∈ (s.sets (s.chunkIdx p)).tx \ (s.sets (s.slot p c)).tx ↔ _
  rw [Finset.mem_sdiff, hwhole, hside]
  constructor
  · rintro ⟨hreach | hreach, hnot⟩
    · exact absurd hreach hnot
    · exact hreach
  · exact fun hreach => ⟨Or.inr hreach, fun hreach' => happart (hreach'.trans hreach.symm)⟩

/-- **The top sets after a split** are the sides without the dependency. -/
theorem Represents.exists_narrowed (h : Represents g s) (hg : g.IsAcyclic)
    (hc : c ∈ s.activeChildren p) (botSet : SetInfo)
    (hbotSet : botSet = splitBottom (s.sets (s.chunkIdx p)) (s.sets (s.slot p c))) :
    ∃ sets₁ sets₂,
      (s.splitting p c).changeTops (narrow p botSet) (s.sets (s.slot p c)).tx
        (Function.update s.sets (s.chunkIdx p) botSet) = some sets₁ ∧
      (s.splitting p c).changeTops (narrow c (s.sets (s.slot p c))) botSet.tx sets₁ =
        some sets₂ ∧
      (∀ u v, v ∈ (s.splitting p c).activeChildren u →
        (∀ b, b ∈ (sets₂ (s.slot u v)).tx ↔ Side (without s.active p c) u v b) ∧
          IsSum g (sets₂ (s.slot u v))) ∧
      sets₂ (s.slot p c) = s.sets (s.slot p c) ∧
      sets₂ (s.chunkIdx p) = botSet ∧
      ∀ i ∈ s.chunkIdxs, i ≠ s.chunkIdx p → sets₂ i = s.sets i := by
  obtain ⟨hp, -, -⟩ := h.mem_of_child (h.dependency p c hc)
  have hadj := h.adj hc
  have happart := not_reachable_without h.forest hadj
  have hjoined := without_sup_edge_self hadj
  obtain ⟨htop, hbot, hsumTop, hsumBot⟩ := h.split_parts hc
  rw [← hbotSet] at hbot hsumBot
  have hslotEq : ∀ u v, v ∈ (s.splitting p c).activeChildren u →
      (s.splitting p c).depTop u v = some ((s.splitting p c).slot u v) := by
    intro u v hv
    obtain ⟨hslot, hmem, hne⟩ := splitting_slot hv
    rw [hslot, ← h.slot_eq u v hmem]
    exact update_update_of_ne s.depTop hne
  have hslotInj : ∀ u v, v ∈ (s.splitting p c).activeChildren u → ∀ u' v',
      v' ∈ (s.splitting p c).activeChildren u' →
      (s.splitting p c).slot u v = (s.splitting p c).slot u' v' → u = u' ∧ v = v' := by
    intro u v hv u' v' hv' heq
    obtain ⟨hslot, hmem, -⟩ := splitting_slot hv
    obtain ⟨hslot', hmem', -⟩ := splitting_slot hv'
    rw [hslot, hslot'] at heq
    exact h.slot_inj u v hmem u' v' hmem' heq
  obtain ⟨sets₁, h₁, hin₁, hout₁, hrest₁⟩ :=
    exists_changeTops (s.sets (s.slot p c)).tx (narrow p botSet)
      (Function.update s.sets (s.chunkIdx p) botSet) hslotEq hslotInj
  obtain ⟨sets₂, h₂, hin₂, hout₂, hrest₂⟩ :=
    exists_changeTops botSet.tx (narrow c (s.sets (s.slot p c))) sets₁ hslotEq hslotInj
  have hkept : ∀ d, (∀ u v, v ∈ (s.splitting p c).activeChildren u → s.slot u v ≠ d) →
      sets₂ d = Function.update s.sets (s.chunkIdx p) botSet d := by
    intro d hd
    have hne : ∀ u v, v ∈ (s.splitting p c).activeChildren u →
        (s.splitting p c).slot u v ≠ d := fun u v hv => by
      rw [(splitting_slot hv).1]
      exact hd u v hv
    rw [hrest₂ d hne, hrest₁ d hne]
  have hslotChunk : ∀ i ∈ s.chunkIdxs, ∀ u v, v ∈ (s.splitting p c).activeChildren u →
      s.slot u v ≠ i := fun i hi u v hv heq =>
    (h.slot_spec (splitting_slot hv).2.1).1 (heq ▸ hi)
  have hidxP := h.idx_mem hp
  refine ⟨sets₁, sets₂, h₁, h₂, fun u v hv => ?_, ?_, ?_, fun i hi hip => ?_⟩
  · obtain ⟨hslot, hmem, hne⟩ := splitting_slot hv
    obtain ⟨hnotIdx, hside, hsum⟩ := h.slot_spec hmem
    have hslotNe : s.slot u v ≠ s.chunkIdx p := fun heq => hnotIdx (heq ▸ hidxP)
    have hadj' : (without s.active p c).Adj u v := by
      refine (deleteEdges_adj ..).mpr ⟨h.adj hmem, fun heq => ?_⟩
      rcases Sym2.eq_iff.mp (Set.mem_singleton_iff.mp heq) with heq | ⟨rfl, rfl⟩
      · exact hne heq
      · exact h.not_both hg (h.dependency _ _ hc) (h.dependency _ _ hmem)
    rw [← hjoined] at hside
    rw [← hslot]
    by_cases hu : (without s.active p c).Reachable p u
    · have hnot : u ∉ botSet.tx := fun hmem' => happart (hu.trans ((hbot u).mp hmem').symm)
      rw [hout₂ u hnot v hv, hin₁ u ((htop u).mpr hu) v hv, hslot,
        Function.update_of_ne hslotNe]
      exact narrow_spec (t := p) (fun b => (hside b).trans (side_sup_left happart hadj' hu)) hbot
        (fun b hb hb' => happart (hu.trans (hb.reachable.trans hb'.symm))) hsum hsumBot
    · have hnot : u ∉ (s.sets (s.slot p c)).tx := fun hmem' => hu ((htop u).mp hmem')
      by_cases hu' : (without s.active p c).Reachable c u
      · rw [hin₂ u ((hbot u).mpr hu') v hv, hout₁ u hnot v hv, hslot,
          Function.update_of_ne hslotNe]
        exact narrow_spec (t := c)
          (fun b => (hside b).trans (side_sup_right happart hadj' hu')) htop
          (fun b hb hb' => happart (hb'.trans (hb.reachable.symm.trans hu'.symm))) hsum hsumTop
      · have hnot' : u ∉ botSet.tx := fun hmem' => hu' ((hbot u).mp hmem')
        rw [hout₂ u hnot' v hv, hout₁ u hnot v hv, hslot, Function.update_of_ne hslotNe]
        exact ⟨fun b => (hside b).trans (side_sup_other hu hu'), hsum⟩
  · have hslotNe : s.slot p c ≠ s.chunkIdx p := fun heq =>
      (h.slot_spec hc).1 (heq ▸ hidxP)
    rw [hkept, Function.update_of_ne hslotNe]
    intro u v hv heq
    obtain ⟨-, hmem, hne⟩ := splitting_slot hv
    exact hne (h.slot_inj u v hmem p c hc heq)
  · rw [hkept _ (hslotChunk _ hidxP), Function.update_self]
  · rw [hkept i (hslotChunk i hi), Function.update_of_ne hip]

/-- **Splitting keeps what the tables stand for.** -/
theorem Represents.deactivate (h : Represents g s) (hg : g.IsAcyclic)
    (hc : c ∈ s.activeChildren p) :
    ∃ s', s.deactivate p c = some ((s.slot p c, s.chunkIdx p), s') ∧ Represents g s' := by
  obtain ⟨hp, hcMem, hpc⟩ := h.mem_of_child (h.dependency p c hc)
  have hadj := h.adj hc
  have happart := not_reachable_without h.forest hadj
  have hjoined := without_sup_edge_self hadj
  obtain ⟨hT, hbot, hsumTop, hsumBot⟩ := h.split_parts hc
  obtain ⟨sets₁, sets₂, h₁, h₂, htops, htopSet, hbotSet, hothers⟩ :=
    h.exists_narrowed hg hc _ rfl
  have hidxP := h.idx_mem hp
  have hfresh : s.slot p c ∉ s.chunkIdxs := (h.slot_spec hc).1
  have hne : s.slot p c ≠ s.chunkIdx p := fun heq => hfresh (heq ▸ hidxP)
  have hwhole : ∀ b ∈ (s.sets (s.slot p c)).tx, b ∈ g.positions ∧ s.chunkIdx b = s.chunkIdx p := by
    intro b hb
    have hreach : s.active.Reachable p b := ((hT b).mp hb).mono (deleteEdges_le _)
    exact (h.members _ hidxP b).mp ((h.mem_chunk hp).mpr hreach)
  have hcNot : c ∉ (s.sets (s.slot p c)).tx := fun hmem => happart ((hT c).mp hmem)
  have hcIdx : s.chunkIdx c = s.chunkIdx p := ((h.chunk p hp c hcMem).mpr hadj.reachable).symm
  have hactive := h.active_splitting hg hc
  refine ⟨_, by
    rw [SpanningForestState.deactivate, h.slot_eq p c hc, Option.bind_eq_bind, Option.bind_some]
    change ((s.splitting p c).changeTops (narrow p
      (splitBottom (s.sets (s.chunkIdx p)) (s.sets (s.slot p c)))) (s.sets (s.slot p c)).tx
      (Function.update s.sets (s.chunkIdx p)
        (splitBottom (s.sets (s.chunkIdx p)) (s.sets (s.slot p c))))).bind _ = _
    rw [h₁, Option.bind_some]
    change ((s.splitting p c).changeTops (narrow c (s.sets (s.slot p c)))
      (splitBottom (s.sets (s.chunkIdx p)) (s.sets (s.slot p c))).tx sets₁).bind _ = _
    rw [h₂, Option.bind_some], ?_⟩
  constructor
  case transactions => exact h.transactions
  case parents => exact h.parents
  case children => exact h.children
  case dependency =>
    exact fun a b hb => h.dependency a b ((mem_update_erase s.activeChildren).mp hb).1
  case forest =>
    change (s.splitting p c).active.IsAcyclic
    rw [hactive]
    exact h.forest.anti (deleteEdges_le _)
  case chunk =>
    intro a ha b hb
    change (if a ∈ _ then _ else _) = (if b ∈ _ then _ else _) ↔
      (s.splitting p c).active.Reachable a b
    rw [hactive]
    have hidxA : s.slot p c ≠ s.chunkIdx a := fun heq => hfresh (heq ▸ h.idx_mem ha)
    have hidxB : s.slot p c ≠ s.chunkIdx b := fun heq => hfresh (heq ▸ h.idx_mem hb)
    by_cases hTa : a ∈ (s.sets (s.slot p c)).tx
    · have hpa := (hT a).mp hTa
      rw [if_pos hTa]
      by_cases hTb : b ∈ (s.sets (s.slot p c)).tx
      · rw [if_pos hTb]
        exact iff_of_true rfl (hpa.symm.trans ((hT b).mp hTb))
      · rw [if_neg hTb]
        exact iff_of_false hidxB fun hreach => hTb ((hT b).mpr (hpa.trans hreach))
    · have hpa : ¬ (without s.active p c).Reachable p a := fun hreach => hTa ((hT a).mpr hreach)
      rw [if_neg hTa]
      by_cases hTb : b ∈ (s.sets (s.slot p c)).tx
      · rw [if_pos hTb]
        exact iff_of_false hidxA.symm fun hreach => hpa (((hT b).mp hTb).trans hreach.symm)
      · have hpb : ¬ (without s.active p c).Reachable p b := fun hreach =>
          hTb ((hT b).mpr hreach)
        rw [if_neg hTb, h.chunk a ha b hb]
        conv_lhs => rw [← hjoined]
        rw [reachable_sup_edge]
        refine or_iff_left ?_
        rintro (⟨hreach, -⟩ | ⟨-, hreach⟩)
        · exact hpa hreach.symm
        · exact hpb hreach
  case idxs =>
    ext i
    change i ∈ insert (s.slot p c) s.chunkIdxs ↔ _
    rw [Finset.mem_insert, h.idxs, Finset.mem_image, Finset.mem_image]
    constructor
    · rintro (rfl | ⟨a, ha, rfl⟩)
      · exact ⟨p, hp, if_pos ((hT p).mpr (Reachable.refl p))⟩
      · by_cases hTa : a ∈ (s.sets (s.slot p c)).tx
        · refine ⟨c, hcMem, ?_⟩
          rw [(hwhole a hTa).2, ← hcIdx]
          exact if_neg hcNot
        · exact ⟨a, ha, if_neg hTa⟩
    · rintro ⟨a, ha, rfl⟩
      dsimp only
      split_ifs
      · exact Or.inl rfl
      · exact Or.inr ⟨a, ha, rfl⟩
  case members =>
    intro i hi b
    change b ∈ (sets₂ i).tx ↔ b ∈ g.positions ∧ (if b ∈ (s.sets (s.slot p c)).tx then s.slot p c
      else s.chunkIdx b) = i
    rcases Finset.mem_insert.mp hi with rfl | hi'
    · rw [htopSet]
      split_ifs with hTb
      · exact iff_of_true hTb ⟨(hwhole b hTb).1, rfl⟩
      · exact iff_of_false hTb fun hand => hfresh (hand.2 ▸ h.idx_mem hand.1)
    · have hslot : s.slot p c ≠ i := fun heq => hfresh (heq ▸ hi')
      by_cases hip : i = s.chunkIdx p
      · subst hip
        rw [hbotSet]
        change b ∈ (s.sets (s.chunkIdx p)).tx \ (s.sets (s.slot p c)).tx ↔ _
        rw [Finset.mem_sdiff, h.members _ hidxP]
        split_ifs with hTb
        · exact iff_of_false (fun hand => hand.2 hTb) fun hand => hslot hand.2
        · exact and_iff_left hTb
      · rw [hothers i hi' hip, h.members i hi']
        split_ifs with hTb
        · exact iff_of_false (fun hand => hip (hand.2.symm.trans (hwhole b hTb).2))
            fun hand => hslot hand.2
        · exact Iff.rfl
  case sums =>
    intro i hi
    change IsSum g (sets₂ i)
    rcases Finset.mem_insert.mp hi with rfl | hi'
    · rw [htopSet]
      exact hsumTop
    · by_cases hip : i = s.chunkIdx p
      · subst hip
        rw [hbotSet]
        exact hsumBot
      · rw [hothers i hi' hip]
        exact h.sums i hi'
  case tops =>
    intro u v hv
    obtain ⟨hslot, hmem, hneq⟩ := splitting_slot hv
    change ∃ d, (s.splitting p c).depTop u v = some d ∧ d ∉ insert (s.slot p c) s.chunkIdxs ∧
      (∀ b, b ∈ (sets₂ d).tx ↔ Side (s.splitting p c).active u v b) ∧ IsSum g (sets₂ d)
    rw [hactive]
    refine ⟨s.slot u v, ?_, ?_, htops u v hv⟩
    · rw [← h.slot_eq u v hmem]
      exact update_update_of_ne s.depTop hneq
    · rw [Finset.mem_insert, not_or]
      exact ⟨fun heq => hneq (h.slot_inj u v hmem p c hc heq), (h.slot_spec hmem).1⟩
  case tops_inj =>
    intro u v hv u' v' hv'
    obtain ⟨-, hmem, hneq⟩ := splitting_slot hv
    obtain ⟨-, hmem', hneq'⟩ := splitting_slot hv'
    change (s.splitting p c).depTop u v = (s.splitting p c).depTop u' v' → _
    rw [splitting]
    dsimp only
    rw [update_update_of_ne s.depTop hneq, update_update_of_ne s.depTop hneq']
    exact h.tops_inj u v hmem u' v' hmem'
  case reach =>
    intro i hi
    change Function.update (Function.update s.reachUp _ _) _ _ i =
        (sets₂ i).tx.biUnion s.parents \ (sets₂ i).tx ∧
      Function.update (Function.update s.reachDown _ _) _ _ i =
        (sets₂ i).tx.biUnion s.children \ (sets₂ i).tx
    rcases Finset.mem_insert.mp hi with rfl | hi'
    · rw [Function.update_of_ne hne, Function.update_self, Function.update_of_ne hne,
        Function.update_self, htopSet]
      exact ⟨rfl, rfl⟩
    · have hslot : i ≠ s.slot p c := fun heq => hfresh (heq ▸ hi')
      by_cases hip : i = s.chunkIdx p
      · subst hip
        rw [Function.update_self, Function.update_self, hbotSet]
        exact ⟨rfl, rfl⟩
      · rw [Function.update_of_ne hip, Function.update_of_ne hslot, Function.update_of_ne hip,
          Function.update_of_ne hslot, hothers i hi' hip]
        exact h.reach i hi'

/-! ## Runs -/

/-- Every transaction in a chunk of its own. -/
theorem represents_init (g : DepGraph) : Represents g (init g) := by
  have hactive : (init g).active = ⊥ := by
    refine SimpleGraph.ext (funext fun a => funext fun b => propext ?_)
    rw [active_adj, bot_adj, iff_false]
    rintro ⟨-, hb | ha⟩
    · exact Finset.notMem_empty b hb
    · exact Finset.notMem_empty a ha
  have hidx : ∀ {b}, b ∈ g.positions → (bits g.positions)[(bits g.positions).idxOf b]? = some b :=
    fun hb => List.getElem?_idxOf (mem_bits.mpr hb)
  have hlength : (bits g.positions).length = g.positions.card := Finset.length_sort _
  -- each chunk has the one transaction at its number
  have hchunk : ∀ i ∈ (init g).chunkIdxs, ∃ tx ∈ g.positions,
      (bits g.positions)[i]? = some tx ∧ (bits g.positions).idxOf tx = i := by
    intro i hi
    have hlt : i < (bits g.positions).length := hlength ▸ Finset.mem_range.mp hi
    exact ⟨_, mem_bits.mp (List.getElem_mem hlt), List.getElem?_eq_getElem hlt,
      (nodup_bits g.positions).idxOf_getElem i hlt⟩
  constructor
  case transactions => rfl
  case parents => exact fun i => rfl
  case children => exact fun p c => Finset.mem_filter
  case dependency => exact fun p c hc => absurd hc (Finset.notMem_empty c)
  case forest =>
    rw [hactive]
    exact isAcyclic_bot
  case chunk =>
    intro a ha b hb
    rw [hactive, reachable_bot]
    exact List.idxOf_inj (mem_bits.mpr ha)
  case idxs =>
    ext i
    rw [Finset.mem_image]
    constructor
    · intro hi
      obtain ⟨tx, htx, -, hof⟩ := hchunk i hi
      exact ⟨tx, htx, hof⟩
    · rintro ⟨tx, htx, rfl⟩
      refine Finset.mem_range.mpr ?_
      rw [← hlength]
      exact List.idxOf_lt_length_iff.mpr (mem_bits.mpr htx)
  case members =>
    intro i hi b
    obtain ⟨tx, htx, hget, hof⟩ := hchunk i hi
    simp only [init, hget, Finset.mem_singleton]
    constructor
    · rintro rfl
      exact ⟨htx, hof⟩
    · rintro ⟨hb, rfl⟩
      exact Option.some.inj ((hidx hb).symm.trans hget)
  case sums =>
    intro i hi
    obtain ⟨tx, -, hget, -⟩ := hchunk i hi
    simp only [IsSum, init, hget, Finset.sum_singleton, and_self]
  case tops => exact fun p c hc => absurd hc (Finset.notMem_empty c)
  case tops_inj => exact fun p c hc => absurd hc (Finset.notMem_empty c)
  case reach =>
    intro i hi
    obtain ⟨tx, htx, hget, -⟩ := hchunk i hi
    simp only [init, hget, Finset.singleton_biUnion]
    constructor
    · refine (Finset.sdiff_eq_self_of_disjoint
        (Finset.disjoint_singleton_right.mpr fun hmem => ?_)).symm
      rw [if_pos htx] at hmem
      have hsub := reducedParents_subset g tx hmem
      exact (Finset.mem_sdiff.mp hsub).2 (Finset.mem_singleton_self tx)
    · refine (Finset.sdiff_eq_self_of_disjoint
        (Finset.disjoint_singleton_right.mpr fun hmem => ?_)).symm
      have hsub := reducedParents_subset g tx (Finset.mem_filter.mp hmem).2
      exact (Finset.mem_sdiff.mp hsub).2 (Finset.mem_singleton_self tx)

/-- What merging and splitting are called with. -/
inductive Op where
  | activate (parent child : ℕ)
  | deactivate (parent child : ℕ)

/-- A call on the forest. -/
def step (s : SpanningForestState) : Op → Option SpanningForestState
  | .activate parent child => (s.activate parent child).map Prod.snd
  | .deactivate parent child => (s.deactivate parent child).map Prod.snd

/-- A dependency between two chunks is activated, and an active one is deactivated. -/
def Allowed (s : SpanningForestState) : Op → Prop
  | .activate parent child => child ∈ s.children parent ∧ child ∉ s.activeChildren parent ∧
      s.chunkIdx parent ≠ s.chunkIdx child
  | .deactivate parent child => child ∈ s.activeChildren parent

/-- Every call of a run is allowed where it is made. -/
def AllowedRun : SpanningForestState → List Op → Prop
  | _, [] => True
  | s, op :: ops => Allowed s op ∧ ∀ s', s.step op = some s' → AllowedRun s' ops

/-- A call that is allowed goes through, and keeps what the tables stand for. -/
theorem Represents.step (h : Represents g s) (hg : g.IsAcyclic) {op : Op} (hop : Allowed s op) :
    ∃ s', s.step op = some s' ∧ Represents g s' := by
  cases op with
  | activate parent child =>
    obtain ⟨s', hs', h'⟩ := h.activate hop.1 hop.2.2
    exact ⟨s', by rw [SpanningForestState.step, hs', Option.map_some], h'⟩
  | deactivate parent child =>
    obtain ⟨s', hs', h'⟩ := h.deactivate hg hop
    exact ⟨s', by rw [SpanningForestState.step, hs', Option.map_some], h'⟩

/-- **The chunks are the trees of the active dependencies** through every run of merges and
splits, and the tables are what they stand for. -/
theorem represents_run (g : DepGraph) (hg : g.IsAcyclic) (ops : List Op)
    (hops : AllowedRun (init g) ops) :
    ∃ s, Run.exec SpanningForestState.step (init g) ops = some s ∧ Represents g s := by
  have hrun : ∀ (ops : List Op) (s : SpanningForestState), Represents g s → AllowedRun s ops →
      ∃ s', Run.exec SpanningForestState.step s ops = some s' ∧ Represents g s' := by
    intro ops
    induction ops with
    | nil => exact fun s h _ => ⟨s, rfl, h⟩
    | cons op ops ih =>
      intro s h hops
      obtain ⟨s', hs', h'⟩ := h.step hg hops.1
      obtain ⟨s'', hs'', h''⟩ := ih s' h' (hops.2 s' hs')
      exact ⟨s'', Run.exec_cons.mpr ⟨s', hs', hs''⟩, h''⟩
  exact hrun ops (init g) (represents_init g) hops

/-- A transaction and its parent. -/
def pair : DepGraph where
  positions := {0, 1}
  fees := fun i => if i = 0 then 100 else 900
  sizes := fun _ => 200
  ancestors := fun i => if i = 1 then {0, 1} else {i}
  self_mem := by decide
  ancestors_subset := by decide
  ancestors_trans := by decide

theorem mem_of_activate {k : ℕ} (h : s.activate p c = some (k, s')) :
    c ∈ s'.activeChildren p := by
  rw [SpanningForestState.activate] at h
  obtain ⟨sets₁, -, h⟩ := Option.bind_eq_some_iff.mp h
  obtain ⟨sets₂, -, h⟩ := Option.bind_eq_some_iff.mp h
  rw [← (Prod.mk.inj (Option.some.inj h)).2]
  change c ∈ Function.update s.activeChildren p (insert c (s.activeChildren p)) p
  rw [Function.update_self]
  exact Finset.mem_insert_self _ _

theorem represents_run_pair :
    ∃ s, Run.exec SpanningForestState.step (init pair) [.activate 0 1, .deactivate 0 1] =
      some s ∧ Represents pair s := by
  have hacyclic : pair.IsAcyclic := by
    unfold DepGraph.IsAcyclic
    decide
  refine represents_run pair hacyclic _ ⟨⟨?_, by decide, ?_⟩, fun s' hs' => ⟨?_, ?_⟩⟩
  · decide +kernel
  · exact fun heq => absurd ((List.idxOf_inj (mem_bits.mpr (by decide))).mp heq) zero_ne_one
  · obtain ⟨⟨k, s''⟩, h, rfl⟩ := Option.map_eq_some_iff.mp hs'
    exact mem_of_activate h
  · exact fun _ _ => trivial

end BtclibNode.SpanningForestState
