/-
# The tree of headers

What the methods of `BlockIndex` that walk the tree rely on: every header but
the genesis one hangs from an indexed parent one below it, its work is its
parent's and more, and `skip` and `children` say what the headers say.  On such
an index `_ancestor` and `get_fork_details` return, and return what the paths
from genesis give.
-/
import BtclibNode.Lib.Worklist
import BtclibNode.Chainstate.BlockIndex

namespace BtclibNode.BlockIndex

open HeightTree

/-! ## The tree -/

/-- The parent and the height each header records. -/
def nodes (s : BlockIndex) : Nodes Hash := fun h =>
  (s.getBlockInfo h).map fun info => (info.header.previousBlockHash, info.index)

/-- The work recorded for a header. -/
def weight (s : BlockIndex) (h : Hash) : ℕ := s.chainwork[h]?.getD 0

/-- The status of a header. -/
def statusOf (s : BlockIndex) (h : Hash) : Option BlockStatus :=
  (s.getBlockInfo h).map BlockInfo.status

/-- The headers from genesis up to `h`. -/
abbrev IsPath (chain : Chain) (s : BlockIndex) (l : List Hash) (h : Hash) : Prop :=
  Path s.nodes chain.genesis.hash l h

/-- The tree, and what the index records beside it of each header. -/
structure HeaderTree (chain : Chain) (s : BlockIndex) : Prop where
  tree : IsTree s.nodes chain.genesis.hash
  hash_eq : ∀ {h info}, s.getBlockInfo h = some info → info.header.hash = h
  work_some : ∀ {h info}, s.getBlockInfo h = some info → ∃ w, s.chainwork[h]? = some w
  work_lt : ∀ {p c}, Child s.nodes p c → s.weight p < s.weight c
  mem_children : ∀ p c : Hash, c ∈ s.children[p]?.getD [] ↔ Child s.nodes p c
  nodup_children : ∀ p : Hash, (s.children[p]?.getD []).Nodup
  skip_eq : ∀ {h target : Hash} {l}, s.skip[h]? = some target → IsPath chain s l h →
    l[skipHeight (l.length - 1)]? = some target
  skip_known : ∀ {h target : Hash}, s.skip[h]? = some target → ∃ info, s.getBlockInfo h = some info

section HeaderTree

variable {chain : Chain} {s : BlockIndex} {h p c : Hash} {info : BlockInfo} {l : List Hash}

theorem nodes_eq (hinfo : s.getBlockInfo h = some info) :
    s.nodes h = some (info.header.previousBlockHash, info.index) := by
  unfold nodes
  rw [hinfo]
  rfl

theorem exists_info {x : Hash × ℕ} (h' : s.nodes h = some x) :
    ∃ info, s.getBlockInfo h = some info ∧ x = (info.header.previousBlockHash, info.index) := by
  unfold nodes at h'
  rw [Option.map_eq_some_iff] at h'
  obtain ⟨info, hinfo, heq⟩ := h'
  exact ⟨info, hinfo, heq.symm⟩

theorem mem_keys_of_info (hinfo : s.getBlockInfo h = some info) : h ∈ s.headerDict.keys :=
  Dict.mem_keys_of_get? hinfo

theorem HeaderTree.work_eq (ht : HeaderTree chain s) (hinfo : s.getBlockInfo h = some info) :
    s.chainwork[h]? = some (s.weight h) := by
  obtain ⟨w, hw⟩ := ht.work_some hinfo
  unfold weight
  rw [hw]
  rfl

/-- Every indexed header has its path. -/
theorem HeaderTree.exists_path (ht : HeaderTree chain s) (hinfo : s.getBlockInfo h = some info) :
    ∃ l, IsPath chain s l h ∧ l.length = info.index + 1 :=
  ht.tree.exists_path (nodes_eq hinfo)

theorem HeaderTree.info_of_mem (ht : HeaderTree chain s) (hl : IsPath chain s l h) (hc : c ∈ l) :
    ∃ info, s.getBlockInfo c = some info ∧ l[info.index]? = some c := by
  obtain ⟨p, n, hn, hi⟩ := hl.node_of_mem ht.tree hc
  obtain ⟨info, hinfo, heq⟩ := exists_info hn
  cases heq
  exact ⟨info, hinfo, hi⟩

theorem HeaderTree.info_of_getElem? (ht : HeaderTree chain s) (hl : IsPath chain s l h) {i : ℕ}
    (hi : l[i]? = some c) : ∃ info, s.getBlockInfo c = some info ∧ info.index = i := by
  obtain ⟨p, hp⟩ := hl.node_getElem? ht.tree hi
  obtain ⟨info, hinfo, heq⟩ := exists_info hp
  exact ⟨info, hinfo, (congrArg Prod.snd heq).symm⟩

theorem HeaderTree.weight_le (ht : HeaderTree chain s) (hl : IsPath chain s l h) (hc : c ∈ l) :
    s.weight c ≤ s.weight h :=
  hl.weight_le (fun hx => ht.work_lt ⟨_, hx⟩) hc

/-- A path is no longer than there are headers. -/
theorem HeaderTree.length_le (ht : HeaderTree chain s) (hl : IsPath chain s l h) :
    l.length ≤ s.headerDict.keys.length := by
  refine (List.subperm_of_subset (hl.nodup ht.tree) fun x hx => ?_).length_le
  obtain ⟨info, hinfo, -⟩ := ht.info_of_mem hl hx
  exact mem_keys_of_info hinfo

theorem HeaderTree.genesis_info (ht : HeaderTree chain s) :
    ∃ info, s.getBlockInfo chain.genesis.hash = some info ∧ info.index = 0 := by
  obtain ⟨p, hp⟩ := ht.tree.root_node
  obtain ⟨info, hinfo, heq⟩ := exists_info hp
  exact ⟨info, hinfo, (congrArg Prod.snd heq).symm⟩

/-- The parent of a header above genesis. -/
theorem HeaderTree.exists_parent (ht : HeaderTree chain s) (hinfo : s.getBlockInfo h = some info)
    (hindex : info.index ≠ 0) :
    Child s.nodes info.header.previousBlockHash h ∧
      ∃ pinfo, s.getBlockInfo info.header.previousBlockHash = some pinfo ∧
        pinfo.index + 1 = info.index := by
  obtain ⟨n, hn⟩ := Nat.exists_eq_succ_of_ne_zero hindex
  have hnode := nodes_eq hinfo
  rw [hn] at hnode
  obtain ⟨q, hq⟩ := ht.tree.parent_node hnode
  obtain ⟨pinfo, hpinfo, heq⟩ := exists_info hq
  cases heq
  exact ⟨⟨_, hnode⟩, pinfo, hpinfo, hn.symm⟩

end HeaderTree

/-! ## `_ancestor` -/

theorem invertLowestOne_le (n : ℕ) : invertLowestOne n ≤ n - 1 := Nat.and_le_right

theorem skipHeight_lt {n : ℕ} (hn : 0 < n) : skipHeight n < n := by
  unfold skipHeight
  have h₁ := invertLowestOne_le n
  have h₂ := invertLowestOne_le (n - 1)
  have h₃ := invertLowestOne_le (invertLowestOne (n - 1))
  split
  · exact hn
  · split
    · omega
    · omega

section Ancestor

variable {chain : Chain} {s : BlockIndex} {h : Hash} {l : List Hash}

theorem info_of_getElem? (ht : IsTree s.nodes chain.genesis.hash) (hl : IsPath chain s l h) {i : ℕ}
    {c : Hash} (hi : l[i]? = some c) : ∃ info, s.getBlockInfo c = some info ∧ info.index = i := by
  obtain ⟨p, hp⟩ := hl.node_getElem? ht hi
  obtain ⟨info, hinfo, heq⟩ := exists_info hp
  cases heq
  exact ⟨info, hinfo, rfl⟩

/-- Each skip pointer is the entry of the path that `_skip_height` names. -/
def SkipPointers (chain : Chain) (s : BlockIndex) : Prop :=
  ∀ (h target : Hash) (l : List Hash), s.skip[h]? = some target → IsPath chain s l h →
    l[skipHeight (l.length - 1)]? = some target

/-- The walk of `_ancestor` stays on the path, downwards. -/
theorem ancestorFrom_eq (ht : IsTree s.nodes chain.genesis.hash) (hskips : SkipPointers chain s)
    (hl : IsPath chain s l h) {fuel i j : ℕ} {walk : Hash} (hwalk : l[i]? = some walk)
    (hij : j ≤ i) (hfuel : i ≤ fuel) : s.ancestorFrom fuel walk i j = l[j]? := by
  induction fuel generalizing i walk with
  | zero =>
    obtain rfl : i = j := by omega
    rw [ancestorFrom, if_pos (Nat.le_refl i), hwalk]
  | succ fuel ih =>
    rw [ancestorFrom]
    by_cases hle : i ≤ j
    · obtain rfl : i = j := by omega
      rw [if_pos hle, hwalk]
    · rw [if_neg hle]
      obtain ⟨info, hinfo, hindex⟩ := info_of_getElem? ht hl hwalk
      have hup : (do
          let info ← s.getBlockInfo walk
          ancestorFrom s fuel info.header.previousBlockHash (i - 1) j) = l[j]? := by
        obtain ⟨k, rfl⟩ : ∃ k, i = k + 1 := ⟨i - 1, by omega⟩
        obtain ⟨p, hp, hnode⟩ := hl.parent_getElem? hwalk
        rw [nodes_eq hinfo, Option.some.injEq, Prod.mk.injEq] at hnode
        rw [hinfo, Option.bind_eq_bind, Option.bind_some, hnode.1]
        exact ih hp (by omega) (by omega)
      cases hskip : s.skip[walk]? with
      | none => exact hup
      | some target =>
        simp only
        split
        · next hcond =>
          have htarget := hskips walk target _ hskip (hl.take hwalk)
          have hlen : (l.take (i + 1)).length = i + 1 := by
            have := (List.getElem?_eq_some_iff.mp hwalk).1
            rw [List.length_take]
            omega
          have hlt := skipHeight_lt (n := i) (by omega)
          rw [hlen, Nat.add_sub_cancel, List.getElem?_take, if_pos (by omega)] at htarget
          exact ih htarget (by omega) (by omega)
        · exact hup

/-- **`_ancestor` answers the entry of the path.** -/
theorem ancestor_eq (ht : IsTree s.nodes chain.genesis.hash) (hskips : SkipPointers chain s)
    (hl : IsPath chain s l h) {i j : ℕ} {walk : Hash} (hwalk : l[i]? = some walk) (hij : j ≤ i) :
    s.ancestor walk i j = l[j]? :=
  ancestorFrom_eq ht hskips hl hwalk hij (Nat.le_refl i)

theorem HeaderTree.ancestor_eq (ht : HeaderTree chain s) (hl : IsPath chain s l h) {i j : ℕ}
    {walk : Hash} (hwalk : l[i]? = some walk) (hij : j ≤ i) : s.ancestor walk i j = l[j]? :=
  BlockIndex.ancestor_eq ht.tree (fun _ _ _ => ht.skip_eq) hl hwalk hij

/-- **`get_ancestor` answers the entry of the path**, or no ancestor above it. -/
theorem HeaderTree.getAncestor_eq (ht : HeaderTree chain s) (hl : IsPath chain s l h) (j : ℕ) :
    s.getAncestor h j = some l[j]? := by
  obtain ⟨info, hinfo, hindex⟩ := ht.info_of_getElem? hl hl.tip_getElem?
  have hpos := hl.length_pos
  unfold getAncestor
  rw [hinfo, Option.bind_eq_bind, Option.bind_some]
  by_cases hj : info.index < j
  · rw [if_pos hj, List.getElem?_eq_none (by omega)]
    rfl
  · rw [if_neg hj, ht.ancestor_eq hl (hindex ▸ hl.tip_getElem?) (by omega),
      List.getElem?_eq_getElem (by omega)]
    rfl

end Ancestor

/-! ## `get_fork_details` -/

section Fork

variable {chain : Chain} {s : BlockIndex} {h tip : Hash} {l main : List Hash}

/-- `add` and `remove` are what is above the highest entry the path `l` shares
with `main` below its tip. -/
structure IsFork (l main add remove : List Hash) (k : ℕ) : Prop where
  pos : 0 < k
  lt : k < l.length
  le : k ≤ main.length
  add_eq : add = l.drop k
  remove_eq : remove = main.drop k
  take_eq : l.take k = main.take k
  differ : ∀ j, k ≤ j → j + 1 < l.length → j < main.length → l[j]? ≠ main[j]?

/-- A fork that removes nothing goes on from the tip. -/
theorem IsFork.child_of_full {add remove : List Hash}
    (hf : IsFork l main add remove main.length) (hl : IsPath chain s l h)
    (hmain : IsPath chain s main tip) : ∃ x, l[main.length]? = some x ∧ Child s.nodes tip x := by
  have hx := List.getElem?_eq_getElem hf.lt
  obtain ⟨x, hx'⟩ : ∃ x, l[main.length]? = some x := ⟨_, hx⟩
  refine ⟨x, hx', ?_⟩
  obtain ⟨m, hm⟩ := Nat.exists_eq_succ_of_ne_zero (Nat.ne_of_gt hf.pos)
  rw [hm] at hx'
  obtain ⟨p, hp, hnode⟩ := hl.parent_getElem? hx'
  have htip := hmain.tip_getElem?
  rw [← List.take_length (l := main), ← hf.take_eq, List.length_take, List.getElem?_take,
    Nat.min_eq_left (Nat.le_of_lt hf.lt), hm, Nat.succ_sub_one, if_pos (Nat.lt_succ_self m), hp,
    Option.some.injEq] at htip
  exact ⟨m, htip ▸ hnode⟩

theorem pyGet?_pred {α : Type} (xs : List α) {n : ℕ} (hn : n ≠ 0) :
    pyGet? xs ((n : ℤ) - 1) = xs[n - 1]? := by
  unfold pyGet?
  rw [if_pos (by omega)]
  congr 1
  omega

theorem HeaderTree.forkFrom_eq (ht : HeaderTree chain s) (hl : IsPath chain s l h)
    (hmain : IsPath chain s main tip) {fuel i : ℕ} {x : Hash} (hx : l[i]? = some x) (hi : i ≠ 0)
    (hfuel : i ≤ fuel)
    (hdiffer : ∀ j, i ≤ j → j + 1 < l.length → j < main.length → l[j]? ≠ main[j]?) :
    ∃ add remove k, s.forkFrom main fuel x (l.drop i) = some (add, remove) ∧
      IsFork l main add remove k := by
  induction fuel generalizing i x with
  | zero => omega
  | succ fuel ih =>
    obtain ⟨info, hinfo, rfl⟩ := ht.info_of_getElem? hl hx
    obtain ⟨k, hk⟩ := Nat.exists_eq_succ_of_ne_zero hi
    have hxk := hx
    rw [hk] at hxk
    obtain ⟨p, hp, hnode⟩ := hl.parent_getElem? hxk
    rw [nodes_eq hinfo, Option.some.injEq, Prod.mk.injEq] at hnode
    have hlt := (List.getElem?_eq_some_iff.mp hx).1
    rw [forkFrom, hinfo, Option.bind_eq_bind, Option.bind_some]
    dsimp only
    -- the parent is on `main`, or the walk goes on from it
    by_cases hon : info.index ≤ main.length ∧ main[k]? = some p
    · refine ⟨l.drop info.index, main.drop info.index, info.index, ?_, ?_⟩
      · rw [if_pos hon.1, pyGet?_pred main hi, hk, Nat.succ_sub_one, hon.2, Option.bind_eq_bind,
          Option.bind_some, if_pos hnode.1]
        rfl
      · refine ⟨by omega, hlt, hon.1, rfl, rfl, ?_, hdiffer⟩
        rw [hk]
        exact Path.unique ht.tree (hl.take hp) (hmain.take hon.2)
    · have hk0 : k ≠ 0 := by
        rintro rfl
        refine hon ⟨by have := hmain.length_pos; omega, ?_⟩
        have hroot := hl.head?
        rw [List.head?_eq_getElem?, hp, Option.some.injEq] at hroot
        rw [hroot, ← List.head?_eq_getElem?, hmain.head?]
      have hdrop : p :: l.drop info.index = l.drop k := by
        rw [List.drop_eq_getElem_cons (i := k) (by omega), hk]
        congr 1
        rw [List.getElem?_eq_getElem (by omega), Option.some.injEq] at hp
        exact hp.symm
      have hrest := ih hp hk0 (by omega) (by
        intro j hj hjl hjm
        by_cases hjk : j = k
        · rw [hjk, hp]
          intro heq
          exact hon ⟨by omega, heq.symm⟩
        · exact hdiffer j (by omega) hjl hjm)
      rw [hnode.1, hdrop]
      by_cases hle : info.index ≤ main.length
      · obtain ⟨q, hq⟩ : ∃ q, main[k]? = some q :=
          ⟨main[k], List.getElem?_eq_getElem (by omega)⟩
        have hpq : p ≠ q := by
          rintro rfl
          exact hon ⟨hle, hq⟩
        rw [if_pos hle, pyGet?_pred main hi, hk, Nat.succ_sub_one, hq, Option.bind_eq_bind,
          Option.bind_some, if_neg hpq]
        exact hrest
      · rw [if_neg hle]
        exact hrest

/-- **`get_fork_details` returns the fork** of a header above genesis. -/
theorem HeaderTree.getForkDetails_eq (ht : HeaderTree chain s) (hl : IsPath chain s l h)
    (hmain : IsPath chain s main tip) (hne : h ≠ chain.genesis.hash) :
    ∃ add remove k, s.getForkDetails h main = some (add, remove) ∧
      IsFork l main add remove k := by
  have hpos := hl.length_pos
  have hlen : l.length - 1 ≠ 0 := by
    intro h0
    have hroot := hl.head?
    have htip := hl.tip_getElem?
    rw [h0, ← List.head?_eq_getElem?, hroot, Option.some.injEq] at htip
    exact hne htip.symm
  have hmain_ne : main ≠ [] := List.ne_nil_of_length_pos hmain.length_pos
  have hdrop : l.drop (l.length - 1) = [h] := by
    rw [List.drop_eq_getElem_cons (by omega), List.drop_of_length_le (by omega)]
    congr 1
    have htip := hl.tip_getElem?
    rwa [List.getElem?_eq_getElem (by omega), Option.some.injEq] at htip
  unfold getForkDetails
  rw [if_neg hmain_ne, ← hdrop]
  refine ht.forkFrom_eq hl hmain hl.tip_getElem? hlen ?_ fun j hj hjl => by omega
  have := ht.length_le hl
  omega

end Fork

end BtclibNode.BlockIndex
