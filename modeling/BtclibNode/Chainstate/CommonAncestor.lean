/-
# The fork point of two headers

`last_common_ancestor`: both headers are brought to one height, then walked
back together, by skip pointers while those differ and by parents where they
agree.  On a loaded index, where every header above genesis has its pointer,
the walk ends at a header both descend from.
-/
import BtclibNode.Chainstate.IndexLoad

namespace BtclibNode.BlockIndex

open HeightTree

/-- The loop of `last_common_ancestor` on two headers of one height, of at most
`fuel` turns.  After a turn by unequal pointers the two are unequal, so the test
of the outer loop may stand in front of every turn. -/
def commonFrom (s : BlockIndex) : ℕ → Hash → Hash → Option Hash
  | fuel, first, second =>
    if first = second then some first
    else
      match fuel with
      | 0 => none
      | fuel + 1 =>
        if s.skip[first]? ≠ s.skip[second]? then do
          commonFrom s fuel (← s.skip[first]?) (← s.skip[second]?)
        else do
          let firstInfo ← s.getBlockInfo first
          let secondInfo ← s.getBlockInfo second
          commonFrom s fuel firstInfo.header.previousBlockHash secondInfo.header.previousBlockHash

/-- `last_common_ancestor`. -/
def lastCommonAncestor (s : BlockIndex) (first second : Hash) : Option Hash := do
  let firstHeight := (← s.getBlockInfo first).index
  let secondHeight := (← s.getBlockInfo second).index
  if secondHeight < firstHeight then
    s.commonFrom secondHeight (← s.ancestor first firstHeight secondHeight) second
  else if firstHeight < secondHeight then
    s.commonFrom firstHeight first (← s.ancestor second secondHeight firstHeight)
  else s.commonFrom firstHeight first second

section CommonAncestor

variable {chain : Chain} {s t : BlockIndex} {db : BlockTable} {h first second : Hash}
  {l m : List Hash}

/-! ## Every header of a loaded index has its pointer -/

/-- `t` has the headers of `s` and its skip pointers. -/
structure SkipsKept (s t : BlockIndex) : Prop where
  info : t.getBlockInfo = s.getBlockInfo
  mem : ∀ x : Hash, x ∈ s.skip → x ∈ t.skip

theorem SkipsKept.trans {u : BlockIndex} (hst : SkipsKept s t) (htu : SkipsKept t u) :
    SkipsKept s u := ⟨htu.info.trans hst.info, fun x hx => htu.mem x (hst.mem x hx)⟩

theorem buildSkip_skip {info : BlockInfo} (heq : s.buildSkip h info = some t) :
    SkipsKept s t ∧ (info.index ≠ 0 → h ∈ t.skip) := by
  unfold buildSkip at heq
  split at heq
  · next hzero =>
    cases heq
    exact ⟨⟨rfl, fun _ hx => hx⟩, fun hne => absurd hzero hne⟩
  · rw [Option.bind_eq_bind, Option.bind_eq_some_iff] at heq
    obtain ⟨target, -, ht⟩ := heq
    cases ht
    refine ⟨⟨rfl, fun x hx => ?_⟩, fun _ => Std.ExtTreeMap.mem_insert_self⟩
    exact Std.ExtTreeMap.mem_insert.mpr (.inr hx)

theorem weighInvalid_skip (heq : s.weighInvalid h = some t) : SkipsKept s t := by
  unfold weighInvalid at heq
  split at heq
  · cases heq
    exact ⟨rfl, fun _ hx => hx⟩
  · simp only [Option.bind_eq_bind, Option.bind_eq_some_iff] at heq
    obtain ⟨_, -, _, -, heq⟩ := heq
    split at heq <;> cases heq <;> exact ⟨rfl, fun _ hx => hx⟩

theorem weighHeader_skip {info : BlockInfo} (hinfo : s.getBlockInfo h = some info)
    (heq : s.weighHeader chain h = some t) :
    SkipsKept s t ∧ (info.index ≠ 0 → h ∈ t.skip) := by
  obtain ⟨u, v, hsu, hskip, hlast⟩ : ∃ u v : BlockIndex, SkipsKept s u ∧
      u.buildSkip h info = some v ∧ (v.weighInvalid h = some t ∨ v = t) := by
    unfold weighHeader at heq
    rw [hinfo, Option.bind_eq_bind, Option.bind_some] at heq
    by_cases hzero : info.index = 0
    · simp only [if_pos hzero, Option.bind_eq_bind, Option.bind_eq_some_iff] at heq
      obtain ⟨work, -, v, hv, hlast⟩ := heq
      refine ⟨_, v, ⟨?_, ?_⟩, hv, ?_⟩
      · rfl
      · exact fun _ hx => hx
      · split at hlast
        · exact .inl hlast
        · exact .inr (Option.some.inj hlast)
    · simp only [if_neg hzero, Option.bind_eq_bind, Option.bind_eq_some_iff] at heq
      obtain ⟨work, -, v, hv, hlast⟩ := heq
      refine ⟨_, v, ⟨?_, ?_⟩, hv, ?_⟩
      · rfl
      · exact fun _ hx => hx
      · split at hlast
        · exact .inl hlast
        · exact .inr (Option.some.inj hlast)
  obtain ⟨hkept, hmem⟩ := buildSkip_skip hskip
  have hvt : SkipsKept v t := by
    rcases hlast with hlast | rfl
    · exact weighInvalid_skip hlast
    · exact ⟨rfl, fun _ hx => hx⟩
  exact ⟨(hsu.trans hkept).trans hvt, fun hne => hvt.mem h (hmem hne)⟩

/-- `calculate_chainwork` sets the pointer of every header it comes to. -/
theorem calculateChainwork_skip {keys : List Hash} (heq : calculateChainwork chain keys s = some t) :
    SkipsKept s t ∧ ∀ x ∈ keys, ∀ info, s.getBlockInfo x = some info → info.index ≠ 0 →
      x ∈ t.skip := by
  induction keys generalizing s with
  | nil =>
    cases heq
    exact ⟨⟨rfl, fun _ hx => hx⟩, by simp⟩
  | cons h keys ih =>
    rw [calculateChainwork, Option.bind_eq_bind, Option.bind_eq_some_iff] at heq
    obtain ⟨u, hweigh, hrest⟩ := heq
    obtain ⟨hut, hmem⟩ := ih hrest
    cases hinfo : s.getBlockInfo h with
    | none =>
      unfold weighHeader at hweigh
      rw [hinfo] at hweigh
      cases hweigh
    | some info =>
      obtain ⟨hsu, hhead⟩ := weighHeader_skip hinfo hweigh
      refine ⟨hsu.trans hut, List.forall_mem_cons.mpr ⟨fun info' hinfo' hne => ?_, ?_⟩⟩
      · rw [hinfo, Option.some.injEq] at hinfo'
        exact hut.mem h (hhead (hinfo' ▸ hne))
      · rw [← hsu.info]
        exact hmem

/-- **Every header of a load above genesis has its pointer.** -/
theorem initFromDb_skip (hload : initFromDb chain db = some s) :
    ∀ x info, s.getBlockInfo x = some info → info.index ≠ 0 → x ∈ s.skip := by
  unfold initFromDb at hload
  simp only [Option.bind_eq_bind, Option.bind_eq_some_iff] at hload
  obtain ⟨s₁, -, s₂, hweigh, s₄, hids, s₅, hcands, hrebuild⟩ := hload
  obtain ⟨hkept, hmem⟩ := calculateChainwork_skip hweigh
  have hlast : SkipsKept s₂ s := by
    obtain ⟨ids, unlinked, heq⟩ := loadSequenceIds_eq s₂.generateActiveChain.sortedHeaders
      fun x hx => (s₂.generateActiveChain.mem_sortedHeaders x).mp hx
    rw [heq] at hids
    cases hids
    unfold generateBlockCandidates at hcands
    simp only [Option.bind_eq_bind, Option.bind_eq_some_iff] at hcands
    obtain ⟨tip, -, cands, -, hcands⟩ := hcands
    cases hcands
    rw [(extendHeaderIndex_only hrebuild).eq]
    exact ⟨rfl, fun _ hx => hx⟩
  intro x info hinfo hne
  rw [hlast.info, hkept.info] at hinfo
  exact hlast.mem x (hmem x ((s₁.mem_sortedHeaders x).mpr ⟨info, hinfo⟩) info hinfo hne)

/-! ## The walk -/

/-- The pointer of an entry of a path is an entry of the path. -/
theorem HeaderTree.skip_getElem? (ht : HeaderTree chain s) {a x p : Hash}
    (hl : IsPath chain s l a) {i : ℕ} (hx : l[i]? = some x) (hp : s.skip[x]? = some p)
    (hi : 0 < i) : l[skipHeight i]? = some p := by
  have htarget := ht.skip_eq hp (hl.take hx)
  have hlen : (l.take (i + 1)).length = i + 1 := by
    have := (List.getElem?_eq_some_iff.mp hx).1
    rw [List.length_take]
    omega
  have hlow := skipHeight_lt hi
  rwa [hlen, Nat.add_sub_cancel, List.getElem?_take, if_pos (by omega)] at htarget

/-- The walk from two headers of one height ends on both paths, at the last entry
they share. -/
theorem HeaderTree.commonFrom_eq (ht : HeaderTree chain s)
    (hskip : ∀ x info, s.getBlockInfo x = some info → info.index ≠ 0 → x ∈ s.skip)
    {a b x y : Hash} (hl : IsPath chain s l a) (hm : IsPath chain s m b) {fuel i : ℕ}
    (hx : l[i]? = some x) (hy : m[i]? = some y) (hfuel : i ≤ fuel) :
    ∃ c k, s.commonFrom fuel x y = some c ∧ l[k]? = some c ∧ m[k]? = some c ∧
      ∀ j, k < j → j ≤ i → l[j]? ≠ m[j]? := by
  -- two paths that share an entry share what is below it
  have hbelow : ∀ {j k : ℕ}, j ≤ k → k < l.length → l[k]? = m[k]? → l[j]? = m[j]? := by
    intro j k hjk hk heq
    obtain ⟨c, hc⟩ : ∃ c, l[k]? = some c := ⟨_, List.getElem?_eq_getElem hk⟩
    have htake := Path.unique ht.tree (hl.take hc) (hm.take (heq ▸ hc))
    have hlj : (l.take (k + 1))[j]? = l[j]? := by rw [List.getElem?_take, if_pos (by omega)]
    have hmj : (m.take (k + 1))[j]? = m[j]? := by rw [List.getElem?_take, if_pos (by omega)]
    rw [← hlj, ← hmj, htake]
  induction fuel generalizing i x y with
  | zero =>
    obtain rfl : i = 0 := by omega
    have hxy : x = y := by
      rw [← List.head?_eq_getElem?, hl.head?, Option.some.injEq] at hx
      rw [← List.head?_eq_getElem?, hm.head?, Option.some.injEq] at hy
      exact hx.symm.trans hy
    refine ⟨x, 0, ?_, hx, hxy ▸ hy, fun j hj hj0 => absurd hj (by omega)⟩
    rw [commonFrom, if_pos hxy]
  | succ fuel ih =>
    rw [commonFrom]
    by_cases hxy : x = y
    · rw [if_pos hxy]
      exact ⟨x, i, rfl, hx, hxy ▸ hy, fun j hj hji => absurd hj (by omega)⟩
    · rw [if_neg hxy]
      obtain ⟨j, rfl⟩ : ∃ j, i = j + 1 := by
        refine Nat.exists_eq_succ_of_ne_zero fun h0 => hxy ?_
        rw [h0, ← List.head?_eq_getElem?, hl.head?, Option.some.injEq] at hx
        rw [h0, ← List.head?_eq_getElem?, hm.head?, Option.some.injEq] at hy
        exact hx.symm.trans hy
      obtain ⟨xinfo, hxinfo, hxindex⟩ := ht.info_of_getElem? hl hx
      obtain ⟨yinfo, hyinfo, hyindex⟩ := ht.info_of_getElem? hm hy
      have hilt := (List.getElem?_eq_some_iff.mp hx).1
      split
      · next hne =>
        -- the pointers differ: both are entries of their paths at one lower height
        have hlow := skipHeight_lt (n := j + 1) (by omega)
        obtain ⟨p, hp⟩ := (FiniteMap.mem_iff_exists _ _).mp (hskip x xinfo hxinfo (by omega))
        obtain ⟨q, hq⟩ := (FiniteMap.mem_iff_exists _ _).mp (hskip y yinfo hyinfo (by omega))
        have hlp := ht.skip_getElem? hl hx hp (by omega)
        have hmq := ht.skip_getElem? hm hy hq (by omega)
        rw [hp, hq] at hne ⊢
        obtain ⟨c, k, heq, hlk, hmk, hlast⟩ := ih hlp hmq (by omega)
        refine ⟨c, k, heq, hlk, hmk, fun i hki hij heqi => ?_⟩
        by_cases hi : i ≤ skipHeight (j + 1)
        · exact hlast i hki hi heqi
        · refine hne ?_
          rw [← hlp, ← hmq]
          exact hbelow (by omega) (by omega) heqi
      · obtain ⟨p, hp, hpnode⟩ := hl.parent_getElem? hx
        obtain ⟨q, hq, hqnode⟩ := hm.parent_getElem? hy
        rw [nodes_eq hxinfo, Option.some.injEq, Prod.mk.injEq] at hpnode
        rw [nodes_eq hyinfo, Option.some.injEq, Prod.mk.injEq] at hqnode
        rw [hxinfo, hyinfo]
        show ∃ c k, s.commonFrom fuel xinfo.header.previousBlockHash
          yinfo.header.previousBlockHash = some c ∧ _
        rw [hpnode.1, hqnode.1]
        obtain ⟨c, k, heq, hlk, hmk, hlast⟩ := ih hp hq (by omega)
        refine ⟨c, k, heq, hlk, hmk, fun i hki hij heqi => ?_⟩
        by_cases hi : i ≤ j
        · exact hlast i hki hi heqi
        · obtain rfl : i = j + 1 := by omega
          rw [hx, hy, Option.some.injEq] at heqi
          exact hxy heqi

/-- `last_common_ancestor` answers the last entry two paths share. -/
theorem HeaderTree.lastCommonAncestor_paths (ht : HeaderTree chain s)
    (hskip : ∀ x info, s.getBlockInfo x = some info → info.index ≠ 0 → x ∈ s.skip)
    (hl : IsPath chain s l first) (hm : IsPath chain s m second) :
    ∃ c k, s.lastCommonAncestor first second = some c ∧ l[k]? = some c ∧ m[k]? = some c ∧
      ∀ j, k < j → j < l.length → l[j]? ≠ m[j]? := by
  obtain ⟨a, ha, haindex⟩ := ht.info_of_getElem? hl hl.tip_getElem?
  obtain ⟨b, hb, hbindex⟩ := ht.info_of_getElem? hm hm.tip_getElem?
  have hllen := hl.length_pos
  have hmlen := hm.length_pos
  have hltip : l[a.index]? = some first := haindex ▸ hl.tip_getElem?
  have hmtip : m[b.index]? = some second := hbindex ▸ hm.tip_getElem?
  -- past the end of the shorter path nothing is shared
  have hfinish : ∀ {i : ℕ} {o : Option Hash}, (∃ c k, o = some c ∧ l[k]? = some c ∧
      m[k]? = some c ∧ ∀ j, k < j → j ≤ i → l[j]? ≠ m[j]?) → (l.length ≤ i + 1 ∨ m.length ≤ i + 1) →
      ∃ c k, o = some c ∧ l[k]? = some c ∧ m[k]? = some c ∧
        ∀ j, k < j → j < l.length → l[j]? ≠ m[j]? := by
    rintro i o ⟨c, k, hc, hlk, hmk, hlast⟩ hi
    refine ⟨c, k, hc, hlk, hmk, fun j hkj hj heq => ?_⟩
    by_cases hji : j ≤ i
    · exact hlast j hkj hji heq
    · rw [List.getElem?_eq_getElem hj, List.getElem?_eq_none (by omega)] at heq
      cases heq
  unfold lastCommonAncestor
  rw [ha, hb]
  simp only [Option.bind_eq_bind, Option.bind_some]
  rcases Nat.lt_trichotomy a.index b.index with hlt | heq | hlt
  · obtain ⟨y, hy⟩ : ∃ y, m[a.index]? = some y :=
      ⟨_, List.getElem?_eq_getElem (by omega)⟩
    rw [if_neg (by omega), if_pos hlt, ht.ancestor_eq hm hmtip (by omega), hy, Option.bind_some]
    exact hfinish (ht.commonFrom_eq hskip hl hm hltip hy (Nat.le_refl _)) (.inl (by omega))
  · rw [if_neg (by omega), if_neg (by omega)]
    exact hfinish (ht.commonFrom_eq hskip hl hm hltip (heq ▸ hmtip) (Nat.le_refl _))
      (.inl (by omega))
  · obtain ⟨x, hx⟩ : ∃ x, l[b.index]? = some x :=
      ⟨_, List.getElem?_eq_getElem (by omega)⟩
    rw [if_pos hlt, ht.ancestor_eq hl hltip (by omega), hx, Option.bind_some]
    exact hfinish (ht.commonFrom_eq hskip hl hm hx hmtip (Nat.le_refl _)) (.inr (by omega))

/-- **`last_common_ancestor` answers a header both descend from.** -/
theorem HeaderTree.lastCommonAncestor_eq (ht : HeaderTree chain s)
    (hskip : ∀ x info, s.getBlockInfo x = some info → info.index ≠ 0 → x ∈ s.skip)
    {a b : BlockInfo} (ha : s.getBlockInfo first = some a) (hb : s.getBlockInfo second = some b) :
    ∃ c info, s.lastCommonAncestor first second = some c ∧ s.getBlockInfo c = some info ∧
      Descends s.nodes c first ∧ Descends s.nodes c second := by
  obtain ⟨l, hl, -⟩ := ht.exists_path ha
  obtain ⟨m, hm, -⟩ := ht.exists_path hb
  obtain ⟨c, k, hc, hlk, hmk, -⟩ := ht.lastCommonAncestor_paths hskip hl hm
  obtain ⟨info, hinfo, -⟩ := ht.info_of_getElem? hl hlk
  exact ⟨c, info, hc, hinfo, (hl.mem_iff_descends ht.tree).mp (List.mem_of_getElem? hlk),
    (hm.mem_iff_descends ht.tree).mp (List.mem_of_getElem? hmk)⟩

end CommonAncestor

end BtclibNode.BlockIndex
