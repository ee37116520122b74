/-
# New headers

`_insert_valid_headers` hangs an admitted header from its indexed parent as a
new leaf.  The tree stays a tree, the header index stays the best header chain,
and the header is a candidate where it beats the active tip.
-/
import BtclibNode.Chainstate.HeaderStatus

namespace BtclibNode.BlockIndex

open HeightTree

/-! ## The new leaf -/

/-- The record of a new header. -/
def newInfo (header : BlockHeader) (parentHeight : ℕ) : BlockInfo :=
  ⟨header, parentHeight + 1, .validHeader, false⟩

/-- What inserting `header` under a parent of height `parentHeight` does. -/
structure HeaderInserted (chain : Chain) (s : BlockIndex) (currentWork : ℕ) (header : BlockHeader)
    (parentHeight : ℕ) (t : BlockIndex) : Prop where
  info : ∀ x, t.getBlockInfo x =
    if header.hash = x then some (newInfo header parentHeight) else s.getBlockInfo x
  keys : t.headerDict.keys = s.headerDict.keys ++ [header.hash]
  chainwork : t.chainwork = s.chainwork.insert header.hash
    (s.weight header.previousBlockHash + chain.calculateWork header)
  blockCandidates : t.blockCandidates =
    if currentWork < s.weight header.previousBlockHash + chain.calculateWork header then
      s.blockCandidates ++
        [(header.hash, s.weight header.previousBlockHash + chain.calculateWork header)]
    else s.blockCandidates
  puts : t.puts = s.puts ++ [newInfo header parentHeight]
  others : t = { s with
    headerDict := t.headerDict
    chainwork := t.chainwork
    skip := t.skip
    blockCandidates := t.blockCandidates
    headerIndex := t.headerIndex
    headerIndexPos := t.headerIndexPos
    children := t.children
    puts := t.puts }

/-- A header that is not indexed, with a parent of height `parentHeight` that is. -/
structure NewHeader (chain : Chain) (s : BlockIndex) (header : BlockHeader) (parentHeight : ℕ) :
    Prop where
  fresh : s.getBlockInfo header.hash = none
  parent : ∃ pinfo, s.getBlockInfo header.previousBlockHash = some pinfo ∧
    pinfo.index = parentHeight ∧ pinfo.status ≠ .invalid
  pow : chain.validPow header = true

section NewHeader

variable {chain : Chain} {s t : BlockIndex} {header : BlockHeader} {parentHeight currentWork : ℕ}
  {x p c : Hash} {l : List Hash}

theorem NewHeader.ne (hn : NewHeader chain s header parentHeight) {info : BlockInfo}
    (hinfo : s.getBlockInfo x = some info) : header.hash ≠ x := by
  rintro rfl
  rw [hn.fresh] at hinfo
  cases hinfo

/-- The index with the header recorded and weighed, before its skip pointer. -/
def withLeaf (chain : Chain) (s : BlockIndex) (header : BlockHeader) (parentHeight : ℕ) :
    BlockIndex :=
  { s with
    headerDict := s.headerDict.set header.hash (newInfo header parentHeight)
    children := appendAt s.children header.previousBlockHash header.hash
    chainwork := s.chainwork.insert header.hash
      (s.weight header.previousBlockHash + chain.calculateWork header)
    puts := s.puts ++ [newInfo header parentHeight] }

theorem getBlockInfo_withLeaf (x : Hash) : (s.withLeaf chain header parentHeight).getBlockInfo x =
    if header.hash = x then some (newInfo header parentHeight) else s.getBlockInfo x :=
  Dict.get?_set s.headerDict header.hash (newInfo header parentHeight) x

theorem nodes_withLeaf (x : Hash) : (s.withLeaf chain header parentHeight).nodes x =
    if header.hash = x then some (header.previousBlockHash, parentHeight + 1) else s.nodes x := by
  unfold nodes
  rw [getBlockInfo_withLeaf]
  split <;> rfl

theorem NewHeader.nodes_of_known (hn : NewHeader chain s header parentHeight) {y : Hash × ℕ}
    (hx : s.nodes x = some y) : (s.withLeaf chain header parentHeight).nodes x = some y := by
  obtain ⟨info, hinfo, -⟩ := exists_info hx
  rw [nodes_withLeaf, if_neg (hn.ne hinfo), hx]

/-- The new header is the child of its parent, and there is no other new child. -/
theorem NewHeader.child_iff (hn : NewHeader chain s header parentHeight) :
    Child (s.withLeaf chain header parentHeight).nodes p c ↔
      Child s.nodes p c ∨ p = header.previousBlockHash ∧ c = header.hash := by
  unfold Child
  rw [nodes_withLeaf]
  by_cases hc : header.hash = c
  · subst hc
    rw [if_pos rfl]
    constructor
    · rintro ⟨n, hp⟩
      rw [Option.some.injEq, Prod.mk.injEq] at hp
      exact .inr ⟨hp.1.symm, rfl⟩
    · rintro (⟨n, hp⟩ | ⟨rfl, -⟩)
      · unfold nodes at hp
        rw [hn.fresh] at hp
        cases hp
      · exact ⟨parentHeight, rfl⟩
  · rw [if_neg hc]
    exact ⟨.inl, fun h => h.resolve_right fun h0 => hc h0.2.symm⟩

theorem weight_withLeaf (x : Hash) : (s.withLeaf chain header parentHeight).weight x =
    if header.hash = x then s.weight header.previousBlockHash + chain.calculateWork header
      else s.weight x := by
  unfold weight withLeaf
  rw [FiniteMap.getElem?_insert]
  split <;> rfl

/-- The path of a known header is its path still. -/
theorem NewHeader.path_iff (hn : NewHeader chain s header parentHeight) (ht : HeaderTree chain s)
    (htt : IsTree (s.withLeaf chain header parentHeight).nodes chain.genesis.hash)
    {info : BlockInfo} (hinfo : s.getBlockInfo x = some info) :
    IsPath chain (s.withLeaf chain header parentHeight) l x ↔ IsPath chain s l x := by
  have hup : ∀ {m}, IsPath chain s m x → IsPath chain (s.withLeaf chain header parentHeight) m x :=
    fun hm => hm.mono fun _ _ _ hy => hn.nodes_of_known hy
  constructor
  · intro hl
    obtain ⟨m, hm, -⟩ := ht.exists_path hinfo
    rw [hl.unique htt (hup hm)]
    exact hm
  · exact hup

theorem NewHeader.isTree (hn : NewHeader chain s header parentHeight) (ht : HeaderTree chain s) :
    IsTree (s.withLeaf chain header parentHeight).nodes chain.genesis.hash := by
  obtain ⟨ginfo, hginfo, -⟩ := ht.genesis_info
  obtain ⟨pinfo, hpinfo, hpindex, -⟩ := hn.parent
  constructor
  · obtain ⟨p, hp⟩ := ht.tree.root_node
    exact ⟨p, hn.nodes_of_known hp⟩
  · intro a p ha
    rw [nodes_withLeaf] at ha
    split at ha
    · cases ha
    · exact ht.tree.height_zero ha
  · intro a p n ha
    rw [nodes_withLeaf] at ha
    split at ha
    · rw [Option.some.injEq, Prod.mk.injEq] at ha
      obtain ⟨rfl, hheight⟩ := ha
      refine ⟨pinfo.header.previousBlockHash, hn.nodes_of_known ?_⟩
      rw [nodes_eq hpinfo, hpindex]
      congr 2
      omega
    · obtain ⟨q, hq⟩ := ht.tree.parent_node ha
      exact ⟨q, hn.nodes_of_known hq⟩

/-- **The tree with its new leaf is a tree.** -/
theorem NewHeader.headerTree (hn : NewHeader chain s header parentHeight)
    (ht : HeaderTree chain s) : HeaderTree chain (s.withLeaf chain header parentHeight) := by
  obtain ⟨pinfo, hpinfo, hpindex, -⟩ := hn.parent
  have htt := hn.isTree ht
  have hknown : ∀ {p c}, Child s.nodes p c →
      (∃ info, s.getBlockInfo p = some info) ∧ ∃ info, s.getBlockInfo c = some info := by
    rintro p c ⟨n, hc⟩
    obtain ⟨q, hq⟩ := ht.tree.parent_node hc
    obtain ⟨info, hinfo, -⟩ := exists_info hq
    obtain ⟨info', hinfo', -⟩ := exists_info hc
    exact ⟨⟨info, hinfo⟩, info', hinfo'⟩
  have hchildren : ∀ p : Hash, (s.withLeaf chain header parentHeight).children[p]?.getD [] =
      if header.previousBlockHash = p then s.children[p]?.getD [] ++ [header.hash]
        else s.children[p]?.getD [] := by
    intro p
    show (appendAt s.children _ _)[p]?.getD [] = _
    unfold appendAt
    rw [FiniteMap.getElem?_insert]
    by_cases hp : header.previousBlockHash = p
    · rw [if_pos hp, if_pos hp, hp]
      rfl
    · rw [if_neg hp, if_neg hp]
  constructor
  case tree => exact htt
  case hash_eq =>
    intro x info hinfo
    rw [getBlockInfo_withLeaf] at hinfo
    split at hinfo
    · next hx =>
      rw [Option.some.injEq] at hinfo
      rw [← hinfo]
      exact hx
    · exact ht.hash_eq hinfo
  case work_some =>
    intro x info hinfo
    show ∃ w, (s.chainwork.insert _ _)[x]? = some w
    rw [FiniteMap.getElem?_insert]
    split
    · exact ⟨_, rfl⟩
    · next hx =>
      rw [getBlockInfo_withLeaf, if_neg hx] at hinfo
      exact ht.work_some hinfo
  case work_lt =>
    intro p c hpc
    rw [weight_withLeaf, weight_withLeaf]
    rcases hn.child_iff.mp hpc with hpc | ⟨rfl, rfl⟩
    · obtain ⟨⟨info, hinfo⟩, info', hinfo'⟩ := hknown hpc
      rw [if_neg (hn.ne hinfo), if_neg (hn.ne hinfo')]
      exact ht.work_lt hpc
    · rw [if_neg (hn.ne hpinfo), if_pos rfl]
      have := chain.work_pos header hn.pow
      omega
  case mem_children =>
    intro p c
    rw [hchildren, hn.child_iff, ← ht.mem_children p c]
    by_cases hp : header.previousBlockHash = p
    · rw [if_pos hp, List.mem_append, List.mem_singleton]
      simp [hp]
    · rw [if_neg hp]
      simp [Ne.symm hp]
  case nodup_children =>
    intro p
    rw [hchildren]
    split
    · rw [List.nodup_append]
      refine ⟨ht.nodup_children p, List.nodup_singleton _, ?_⟩
      rintro c hc c' hc' rfl
      rw [List.mem_singleton] at hc'
      obtain ⟨-, info, hinfo⟩ := hknown ((ht.mem_children p c).mp hc)
      exact hn.ne hinfo hc'.symm
    · exact ht.nodup_children p
  case skip_eq =>
    intro x target l hs hl
    obtain ⟨info, hinfo⟩ := ht.skip_known hs
    exact ht.skip_eq hs ((hn.path_iff ht htt hinfo).mp hl)
  case skip_known =>
    intro x target hs
    obtain ⟨info, hinfo⟩ := ht.skip_known hs
    exact ⟨info, by rw [getBlockInfo_withLeaf, if_neg (hn.ne hinfo), hinfo]⟩

/-- The path of the new leaf. -/
theorem NewHeader.exists_path (hn : NewHeader chain s header parentHeight)
    (ht : HeaderTree chain s) :
    ∃ l, IsPath chain s l header.previousBlockHash ∧ l.length = parentHeight + 1 ∧
      IsPath chain (s.withLeaf chain header parentHeight) (l ++ [header.hash]) header.hash := by
  obtain ⟨pinfo, hpinfo, hpindex, -⟩ := hn.parent
  obtain ⟨l, hl, hlen⟩ := ht.exists_path hpinfo
  rw [hpindex] at hlen
  refine ⟨l, hl, hlen, .snoc ((hn.path_iff ht (hn.isTree ht) hpinfo).mpr hl) ?_⟩
  rw [nodes_withLeaf, if_pos rfl, hlen]

/-- Its skip pointer is an entry of its path. -/
theorem NewHeader.buildSkip_eq (hn : NewHeader chain s header parentHeight)
    (ht : HeaderTree chain s) :
    ∃ target, (s.withLeaf chain header parentHeight).buildSkip header.hash
        (newInfo header parentHeight) =
        some { s.withLeaf chain header parentHeight with
          skip := s.skip.insert header.hash target } ∧
      HeaderTree chain { s.withLeaf chain header parentHeight with
        skip := s.skip.insert header.hash target } := by
  obtain ⟨pinfo, hpinfo, hpindex, -⟩ := hn.parent
  obtain ⟨l, hl, hlen, hpath⟩ := hn.exists_path ht
  have htt := hn.headerTree ht
  have hlt := skipHeight_lt (n := parentHeight + 1) (by omega)
  have hl' := (hn.path_iff ht htt.tree hpinfo).mpr hl
  have htip := hl'.tip_getElem?
  rw [hlen, Nat.add_sub_cancel] at htip
  obtain ⟨target, htarget⟩ : ∃ target, l[skipHeight (parentHeight + 1)]? = some target :=
    ⟨_, List.getElem?_eq_getElem (by omega)⟩
  refine ⟨target, ?_, ?_⟩
  · unfold buildSkip newInfo
    rw [if_neg (by simp)]
    simp only [Nat.add_sub_cancel]
    rw [htt.ancestor_eq hl' htip (by omega), htarget]
    rfl
  · refine ⟨htt.tree, htt.hash_eq, htt.work_some, htt.work_lt, htt.mem_children,
      htt.nodup_children, ?_, ?_⟩
    · intro x target' m hs hm
      have hs' : (s.skip.insert header.hash target)[x]? = some target' := hs
      rw [FiniteMap.getElem?_insert] at hs'
      split at hs'
      · next hx =>
        subst hx
        rw [Path.unique htt.tree hm hpath, List.length_append, List.length_singleton,
          Nat.add_sub_cancel, hlen, List.getElem?_append_left (by omega), htarget, hs']
      · exact htt.skip_eq hs' hm
    · intro x target' hs
      have hs' : (s.skip.insert header.hash target)[x]? = some target' := hs
      rw [FiniteMap.getElem?_insert] at hs'
      split at hs'
      · next hx =>
        exact ⟨newInfo header parentHeight, by
          show (s.withLeaf chain header parentHeight).getBlockInfo x = _
          rw [getBlockInfo_withLeaf, if_pos hx]⟩
      · exact htt.skip_known hs'

/-! ## One header -/

theorem NewHeader.statusOf_withLeaf (x : Hash) :
    (s.withLeaf chain header parentHeight).statusOf x =
      if header.hash = x then some .validHeader else s.statusOf x := by
  unfold statusOf
  rw [getBlockInfo_withLeaf]
  split <;> rfl

/-- A leaf under a valid parent keeps invalidity closed. -/
theorem NewHeader.invalidClosed (hn : NewHeader chain s header parentHeight)
    (hc : InvalidClosed s) (ht : HeaderTree chain s) :
    InvalidClosed (s.withLeaf chain header parentHeight) := by
  obtain ⟨pinfo, hpinfo, -, hpvalid⟩ := hn.parent
  intro p c hpc hp
  rw [statusOf_withLeaf] at hp ⊢
  rcases hn.child_iff.mp hpc with hpc | ⟨rfl, rfl⟩
  · obtain ⟨n, hcn⟩ := hpc
    obtain ⟨q, hq⟩ := ht.tree.parent_node hcn
    obtain ⟨info, hinfo, -⟩ := exists_info hq
    obtain ⟨info', hinfo', -⟩ := exists_info hcn
    rw [if_neg (hn.ne hinfo)] at hp
    rw [if_neg (hn.ne hinfo')]
    exact hc p c ⟨n, hcn⟩ hp
  · rw [if_neg (hn.ne hpinfo)] at hp
    unfold statusOf at hp
    rw [hpinfo, Option.map_some, Option.some.injEq] at hp
    exact absurd hp hpvalid

/-- **An admitted header is inserted**, and the header index stays the best
header chain. -/
theorem NewHeader.insertHeader_eq (hn : NewHeader chain s header parentHeight)
    (ht : HeaderTree chain s) (hc : InvalidClosed s) (hbest : BestHeaderChain chain s)
    (currentWork : ℕ) :
    ∃ t, s.insertHeader chain currentWork header parentHeight = some t ∧
      HeaderInserted chain s currentWork header parentHeight t ∧
      HeaderTree chain t ∧ InvalidClosed t ∧ BestHeaderChain chain t := by
  obtain ⟨pinfo, hpinfo, hpindex, hpvalid⟩ := hn.parent
  obtain ⟨tip, hpath, hmax⟩ := hbest
  obtain ⟨target, hskip, ht₃⟩ := hn.buildSkip_eq ht
  -- the index before `_grow_header_index`
  obtain ⟨cands, hcands⟩ : ∃ cands, cands =
      if currentWork < s.weight header.previousBlockHash + chain.calculateWork header then
        s.blockCandidates ++
          [(header.hash, s.weight header.previousBlockHash + chain.calculateWork header)]
      else s.blockCandidates := ⟨_, rfl⟩
  obtain ⟨s₄, hs₄⟩ : ∃ s₄, s₄ = ({ s.withLeaf chain header parentHeight with
      skip := s.skip.insert header.hash target
      blockCandidates := cands } : BlockIndex) := ⟨_, rfl⟩
  have ht₄ : HeaderTree chain s₄ := by
    rw [hs₄]
    exact ht₃.congr rfl rfl rfl rfl
  have hc₄ : InvalidClosed s₄ := by
    rw [hs₄]
    exact hn.invalidClosed hc ht
  have hinfo₄ : ∀ x, s₄.getBlockInfo x =
      if header.hash = x then some (newInfo header parentHeight) else s.getBlockInfo x := by
    intro x
    rw [hs₄]
    show (s.withLeaf chain header parentHeight).getBlockInfo x = _
    rw [getBlockInfo_withLeaf]
  have hweight₄ : ∀ x, s₄.weight x = if header.hash = x
      then s.weight header.previousBlockHash + chain.calculateWork header else s.weight x := by
    intro x
    rw [hs₄]
    show (s.withLeaf chain header parentHeight).weight x = _
    rw [weight_withLeaf]
  have hindex₄ : s₄.headerIndex = s.headerIndex := by rw [hs₄]; rfl
  obtain ⟨tinfo, htinfo, -⟩ := ht.info_of_mem hpath.path hpath.path.tip_mem
  have hpath₄ : HeaderIndexPath chain s₄ tip := by
    rw [hs₄]
    refine ⟨(hn.path_iff ht (hn.isTree ht) htinfo).mpr hpath.path, hpath.pos, fun x hx => ?_⟩
    obtain ⟨xinfo, hxinfo, -⟩ := ht.info_of_mem hpath.path hx
    show (s.withLeaf chain header parentHeight).statusOf x ≠ _
    rw [statusOf_withLeaf, if_neg (hn.ne hxinfo)]
    exact hpath.valid x hx
  have hnot : header.hash ∉ s₄.headerIndex := by
    rw [hindex₄]
    intro hmem
    obtain ⟨info, hinfo, -⟩ := ht.info_of_mem hpath.path hmem
    exact hn.ne hinfo rfl
  have hnew : s₄.getBlockInfo header.hash = some (newInfo header parentHeight) := by
    rw [hinfo₄, if_pos rfl]
  -- what is known and valid weighs at most the tip
  have hknown : ∀ x info, s₄.getBlockInfo x = some info → info.status ≠ .invalid →
      x ≠ header.hash → s₄.weight x ≤ s₄.weight tip := by
    intro x info hinfo hvalid hx
    rw [hinfo₄, if_neg (Ne.symm hx)] at hinfo
    rw [hweight₄, hweight₄, if_neg (hn.ne hinfo), if_neg (hn.ne htinfo)]
    exact hmax x info hinfo hvalid
  have hbelow : ∀ x, Descends s₄.nodes x header.hash → x ≠ header.hash →
      s₄.weight x ≤ s₄.weight tip := by
    intro x hx hne
    have hvalid := hc₄.valid_of_descends hx hnew (by simp [newInfo])
    obtain ⟨l, hl, -⟩ := ht₄.exists_path hnew
    obtain ⟨info, hinfo, -⟩ := ht₄.info_of_mem hl ((hl.mem_iff_descends ht₄.tree).mpr hx)
    refine hknown x info hinfo ?_ hne
    unfold statusOf at hvalid
    rw [hinfo, Option.map_some, ne_eq, Option.some.injEq] at hvalid
    exact hvalid
  obtain ⟨l, d, tip', hgrow, hpath', hle, hle'⟩ :=
    hpath₄.grow ht₄ hc₄ hnew (by simp [newInfo]) hnot hbelow
  refine ⟨{ s₄ with headerIndex := l, headerIndexPos := d }, ?_, ?_, ht₄.withHeaderIndex l d, hc₄,
    tip', hpath', fun x info hinfo hvalid => ?_⟩
  · have hstart : (s.insertBlockInfo (newInfo header parentHeight)) =
        { s with
          headerDict := s.headerDict.set header.hash (newInfo header parentHeight)
          children := appendAt s.children header.previousBlockHash header.hash
          puts := s.puts ++ [newInfo header parentHeight] } := by
      unfold insertBlockInfo recordBlockInfo
      rw [show (newInfo header parentHeight).header.hash = header.hash from rfl, hn.fresh]
      rfl
    unfold insertHeader
    rw [ht.work_eq hpinfo, Option.bind_eq_bind, Option.bind_some]
    rw [hweight₄, if_pos rfl] at hgrow
    have hskip' := hskip
    unfold withLeaf at hskip'
    show (buildSkip _ header.hash (newInfo header parentHeight)).bind _ = _
    rw [show (⟨header, parentHeight + 1, .validHeader, false⟩ : BlockInfo) =
      newInfo header parentHeight from rfl, hstart, hskip', Option.bind_some]
    rw [show (newInfo header parentHeight).header = header from rfl] at hgrow
    rw [← hgrow, hs₄, hcands]
    split <;> rfl
  · refine ⟨hinfo₄, ?_, ?_, ?_, ?_, ?_⟩
    · rw [hs₄]
      exact Dict.keys_set_of_none _ hn.fresh
    · rw [hs₄]
      rfl
    · rw [hs₄]
      exact hcands
    · rw [hs₄]
      rfl
    · rw [hs₄]
      rfl
  · by_cases hx : x = header.hash
    · rw [hx]
      exact hle'
    · exact Nat.le_trans (hknown x info hinfo hvalid hx) hle

end NewHeader

end BtclibNode.BlockIndex
