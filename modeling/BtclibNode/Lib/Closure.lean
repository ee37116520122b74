/-
# Closing a set over a frontier

A loop that takes a place off a stack, meets the items that stand there, and for each item met
the first time pushes the places it leads to.  What it has met at the end is what can be reached
from the start, and it ends once every place of every item has been taken off.
-/
import BtclibNode.Lib.FiniteMap
import Mathlib.Logic.Relation
import Mathlib.Algebra.Order.BigOperators.Group.Finset

namespace Closure

universe u

variable {α : Type u} {β : Type u} [Ord α] [Std.TransOrd α] [Std.LawfulEqOrd α]

/-! ## The loop -/

/-- An item met: the first time it is kept, and its places go on top of the stack. -/
def meet (push : α → Option (List β)) (at_ : Std.ExtTreeSet α × List β) (a : α) :
    Option (Std.ExtTreeSet α × List β) :=
  if a ∈ at_.1 then some at_ else (push a).map fun bs => (at_.1.insert a, bs.reverse ++ at_.2)

/-- The loop, with as many turns as `fuel`. -/
def close (next : β → List α) (push : α → Option (List β)) :
    ℕ → Std.ExtTreeSet α → List β → Option (Std.ExtTreeSet α)
  | _, seen, [] => some seen
  | 0, _, _ :: _ => none
  | fuel + 1, seen, b :: stack => do
    let (seen, stack) ← (next b).foldlM (meet push) (seen, stack)
    close next push fuel seen stack

/-- `a'` stands at a place `a` leads to. -/
def Leads (next : β → List α) (push : α → Option (List β)) (a a' : α) : Prop :=
  ∃ bs, push a = some bs ∧ ∃ b ∈ bs, a' ∈ next b

/-! ## What the loop keeps -/

section Invariant

variable {next : β → List α} {push : α → Option (List β)} {P : α → Prop}
  {seen seen' : Std.ExtTreeSet α} {stack stack' : List β} {b : β} {items : List α}

/-- Every item kept is one of `P`, and so is what stands at a place still to come; a place of
an item kept is still to come, or all that stands there is kept. -/
structure Closing (next : β → List α) (push : α → Option (List β)) (P : α → Prop)
    (seen : Std.ExtTreeSet α) (stack : List β) : Prop where
  sound : ∀ a ∈ seen, P a
  ahead : ∀ b ∈ stack, ∀ a ∈ next b, P a
  closed : ∀ a ∈ seen, ∀ bs, push a = some bs → ∀ b ∈ bs, b ∈ stack ∨ ∀ a' ∈ next b, a' ∈ seen

/-- How many places the items not kept yet will push. -/
def toPush (push : α → Option (List β)) (keys : Finset α) (seen : Std.ExtTreeSet α) : ℕ :=
  ∑ a ∈ keys with a ∉ seen, ((push a).getD []).length

theorem toPush_insert {keys : Finset α} {a : α} {bs : List β} (ha : a ∈ keys) (hnew : a ∉ seen)
    (hbs : push a = some bs) :
    toPush push keys seen = bs.length + toPush push keys (seen.insert a) := by
  classical
  have hsplit : {x ∈ keys | x ∉ seen} = insert a {x ∈ keys | x ∉ seen.insert a} := by
    ext x
    simp only [Finset.mem_filter, Finset.mem_insert, FiniteMap.mem_insert]
    constructor
    · rintro ⟨hx, hxs⟩
      by_cases hxa : x = a
      · exact .inl hxa
      · exact .inr ⟨hx, by tauto⟩
    · rintro (rfl | ⟨hx, hxs⟩)
      · exact ⟨ha, hnew⟩
      · exact ⟨hx, fun h => hxs (.inr h)⟩
  unfold toPush
  rw [hsplit, Finset.sum_insert, hbs]
  · rfl
  · simp

/-- The items met are kept, nothing kept is lost, and the invariant holds but for the place
taken off, of which the items still to be met may be missing. -/
theorem meet_all (hstep : ∀ a bs, P a → push a = some bs → ∀ b ∈ bs, ∀ a' ∈ next b, P a')
    (hpush : ∀ a, P a → (push a).isSome) (hP : ∀ a ∈ items, P a)
    (hsound : ∀ a ∈ seen, P a) (hahead : ∀ b ∈ stack, ∀ a ∈ next b, P a)
    {keys : Finset α} (hkeys : ∀ a, P a → a ∈ keys) :
    ∃ seen' stack', items.foldlM (meet push) (seen, stack) = some (seen', stack') ∧
      stack'.length + toPush push keys seen' = stack.length + toPush push keys seen ∧
      (∀ a, a ∈ seen' ↔ a ∈ seen ∨ a ∈ items) ∧ (∀ b ∈ stack, b ∈ stack') ∧
      (∀ b ∈ stack', ∀ a ∈ next b, P a) ∧
      ∀ a ∈ seen', a ∉ seen → ∀ bs, push a = some bs → ∀ b ∈ bs, b ∈ stack' := by
  induction items generalizing seen stack with
  | nil => exact ⟨seen, stack, rfl, rfl, by simp, fun _ h => h, hahead, fun a h h' => absurd h h'⟩
  | cons a items ih =>
    rw [List.foldlM_cons]
    by_cases ha : a ∈ seen
    · obtain ⟨seen', stack', hfold, hcount, hmem, hrest⟩ :=
        ih (fun a h => hP a (List.mem_cons_of_mem _ h)) hsound hahead
      refine ⟨seen', stack', ?_, hcount, fun x => ?_, hrest⟩
      · show (meet push (seen, stack) a).bind _ = _
        rw [meet, if_pos ha]
        exact hfold
      · rw [hmem, List.mem_cons]
        constructor
        · tauto
        · rintro (h | rfl | h)
          · exact .inl h
          · exact .inl ha
          · exact .inr h
    · have hPa := hP a List.mem_cons_self
      obtain ⟨bs, hbs⟩ := Option.isSome_iff_exists.mp (hpush a hPa)
      have hsound' : ∀ x ∈ seen.insert a, P x := by
        intro x hx
        rcases (FiniteMap.mem_insert seen a x).mp hx with rfl | hx
        · exact hPa
        · exact hsound x hx
      have hahead' : ∀ b ∈ bs.reverse ++ stack, ∀ x ∈ next b, P x := by
        intro b hb
        rcases List.mem_append.mp hb with hb | hb
        · exact hstep a bs hPa hbs b (List.mem_reverse.mp hb)
        · exact hahead b hb
      obtain ⟨seen', stack', hfold, hcount, hmem, hkeep, hnext, hnew⟩ :=
        ih (fun a h => hP a (List.mem_cons_of_mem _ h)) hsound' hahead'
      refine ⟨seen', stack', ?_, ?_, fun x => ?_,
        fun b hb => hkeep b (List.mem_append_right _ hb), hnext, ?_⟩
      · show (meet push (seen, stack) a).bind _ = _
        rw [meet, if_neg ha, hbs]
        exact hfold
      · rw [hcount, toPush_insert (hkeys a hPa) ha hbs, List.length_append, List.length_reverse]
        omega
      · rw [hmem, FiniteMap.mem_insert, List.mem_cons]
        tauto
      · intro x hx hxs bs' hbs' b hb
        by_cases hxa : a = x
        · subst hxa
          rw [hbs, Option.some.injEq] at hbs'
          subst hbs'
          exact hkeep b (List.mem_append_left _ (List.mem_reverse.mpr hb))
        · refine hnew x hx ?_ bs' hbs' b hb
          rw [FiniteMap.mem_insert]
          tauto

/-- One turn of the loop. -/
theorem Closing.turn (h : Closing next push P seen (b :: stack))
    (hstep : ∀ a bs, P a → push a = some bs → ∀ b ∈ bs, ∀ a' ∈ next b, P a')
    (hpush : ∀ a, P a → (push a).isSome) {keys : Finset α} (hkeys : ∀ a, P a → a ∈ keys) :
    ∃ seen' stack', (next b).foldlM (meet push) (seen, stack) = some (seen', stack') ∧
      stack'.length + toPush push keys seen' = stack.length + toPush push keys seen ∧
      Closing next push P seen' stack' ∧ (∀ a ∈ seen, a ∈ seen') ∧ (∀ a ∈ next b, a ∈ seen') ∧
      ∀ b ∈ stack, b ∈ stack' := by
  have hP : ∀ a ∈ next b, P a := h.ahead b List.mem_cons_self
  obtain ⟨seen', stack', hfold, hcount, hmem, hkeep, hnext, hnew⟩ := meet_all hstep hpush hP
    h.sound (fun b' hb' => h.ahead b' (List.mem_cons_of_mem _ hb')) hkeys
  refine ⟨seen', stack', hfold, hcount, ⟨?_, hnext, ?_⟩, fun a ha => (hmem a).mpr (.inl ha),
    fun a ha => (hmem a).mpr (.inr ha), hkeep⟩
  · intro a ha
    rcases (hmem a).mp ha with ha | ha
    · exact h.sound a ha
    · exact hP a ha
  · intro a ha bs hbs b' hb'
    by_cases hold : a ∈ seen
    · rcases h.closed a hold bs hbs b' hb' with hst | hall
      · rcases List.mem_cons.mp hst with rfl | hst
        · exact .inr fun a' ha' => (hmem a').mpr (.inr ha')
        · exact .inl (hkeep b' hst)
      · exact .inr fun a' ha' => (hmem a').mpr (.inl (hall a' ha'))
    · exact .inl (hnew a ha hold bs hbs b' hb')

/-- **The loop ends** with a set that is closed, given a turn for every place on the stack and
every place that will be pushed.  The set has what it had, and what stands at the places it was
started from. -/
theorem Closing.close (h : Closing next push P seen stack)
    (hstep : ∀ a bs, P a → push a = some bs → ∀ b ∈ bs, ∀ a' ∈ next b, P a')
    (hpush : ∀ a, P a → (push a).isSome) {keys : Finset α} (hkeys : ∀ a, P a → a ∈ keys)
    {fuel : ℕ} (hfuel : stack.length + toPush push keys seen ≤ fuel) :
    ∃ seen', Closure.close next push fuel seen stack = some seen' ∧
      Closing next push P seen' [] ∧ (∀ a ∈ seen, a ∈ seen') ∧
      ∀ b ∈ stack, ∀ a ∈ next b, a ∈ seen' := by
  induction fuel generalizing seen stack with
  | zero =>
    obtain rfl : stack = [] := List.length_eq_zero_iff.mp (by omega)
    exact ⟨seen, rfl, h, fun _ h => h, by simp⟩
  | succ fuel ih =>
    cases stack with
    | nil => exact ⟨seen, rfl, h, fun _ h => h, by simp⟩
    | cons b stack =>
      obtain ⟨seen', stack', hfold, hcount, hnext, hkeep, hmet, hstack⟩ := h.turn hstep hpush hkeys
      rw [List.length_cons] at hfuel
      -- the stack and what is to be pushed come to one less, the place taken off
      obtain ⟨final, hclose, hfinal, hsub, hdone⟩ := ih hnext (by omega)
      refine ⟨final, ?_, hfinal, fun a ha => hsub a (hkeep a ha), ?_⟩
      · rw [Closure.close, hfold]
        exact hclose
      · intro c hc a ha
        rcases List.mem_cons.mp hc with rfl | hc
        · exact hsub a (hmet a ha)
        · exact hdone c (hstack c hc) a ha

end Invariant

/-! ## What the loop meets -/

section Reach

variable {next : β → List α} {push : α → Option (List β)}

omit [Std.LawfulEqOrd α] in
/-- What is closed under the places of its items is closed under `Leads`. -/
theorem Closing.leads {P : α → Prop} {seen : Std.ExtTreeSet α} (h : Closing next push P seen [])
    {a a' : α} (ha : a ∈ seen) (hlead : Relation.ReflTransGen (Leads next push) a a') :
    a' ∈ seen := by
  induction hlead with
  | refl => exact ha
  | tail _ hstep ih =>
    obtain ⟨bs, hbs, b, hb, hmem⟩ := hstep
    rcases h.closed _ ih bs hbs b hb with hnil | hall
    · cases hnil
    · exact hall _ hmem

/-- **From an item and its places the loop meets what the item leads to, itself included.** -/
theorem close_item (next : β → List α) (push : α → Option (List β)) (keys : Finset α) {fuel : ℕ}
    {a : α} {bs : List β} (ha : push a = some bs)
    (hpush : ∀ x, Relation.ReflTransGen (Leads next push) a x → (push x).isSome)
    (hkeys : ∀ x, Relation.ReflTransGen (Leads next push) a x → x ∈ keys)
    (hfuel : (∑ x ∈ keys, ((push x).getD []).length) ≤ fuel) :
    ∃ seen, close next push fuel ((∅ : Std.ExtTreeSet α).insert a) bs.reverse = some seen ∧
      ∀ x, x ∈ seen ↔ Relation.ReflTransGen (Leads next push) a x := by
  have hone : ∀ x, x ∈ (∅ : Std.ExtTreeSet α).insert a ↔ a = x := by
    intro x
    rw [FiniteMap.mem_insert]
    simp
  have hstart : Closing next push (Relation.ReflTransGen (Leads next push) a)
      ((∅ : Std.ExtTreeSet α).insert a) bs.reverse := by
    refine ⟨?_, ?_, ?_⟩
    · intro x hx
      rw [(hone x).mp hx]
    · intro b hb x hx
      exact .single ⟨bs, ha, b, List.mem_reverse.mp hb, hx⟩
    · intro x hx cs hcs b hb
      rw [← (hone x).mp hx, ha, Option.some.injEq] at hcs
      exact .inl (List.mem_reverse.mpr (hcs ▸ hb))
  have hcount : toPush push keys (∅ : Std.ExtTreeSet α) =
      bs.length + toPush push keys ((∅ : Std.ExtTreeSet α).insert a) :=
    toPush_insert (hkeys a .refl) (by simp) ha
  have hturns : bs.reverse.length + toPush push keys ((∅ : Std.ExtTreeSet α).insert a) ≤ fuel := by
    rw [List.length_reverse, ← hcount]
    refine (Finset.sum_le_sum_of_subset ?_).trans hfuel
    exact Finset.filter_subset _ _
  obtain ⟨seen, hclose, hfinal, hsub, -⟩ := hstart.close
    (fun x cs hx hcs b hb y hy => hx.tail ⟨cs, hcs, b, hb, hy⟩) hpush hkeys hturns
  exact ⟨seen, hclose, fun x =>
    ⟨hfinal.sound x, fun hx => hfinal.leads (hsub a ((hone a).mpr rfl)) hx⟩⟩

/-- **From a place the loop meets what stands there and what that leads to.** -/
theorem close_place (next : β → List α) (push : α → Option (List β)) (keys : Finset α) {fuel : ℕ}
    {b : β}
    (hpush : ∀ a ∈ next b, ∀ x, Relation.ReflTransGen (Leads next push) a x → (push x).isSome)
    (hkeys : ∀ a ∈ next b, ∀ x, Relation.ReflTransGen (Leads next push) a x → x ∈ keys)
    (hfuel : (∑ x ∈ keys, ((push x).getD []).length) + 1 ≤ fuel) :
    ∃ seen, close next push fuel ∅ [b] = some seen ∧
      ∀ x, x ∈ seen ↔ ∃ a ∈ next b, Relation.ReflTransGen (Leads next push) a x := by
  have hstart : Closing next push
      (fun x => ∃ a ∈ next b, Relation.ReflTransGen (Leads next push) a x) ∅ [b] := by
    refine ⟨by simp, ?_, by simp⟩
    intro c hc x hx
    rw [List.mem_singleton] at hc
    exact ⟨x, hc ▸ hx, .refl⟩
  have hturns : [b].length + toPush push keys ∅ ≤ fuel := by
    have hle : toPush push keys ∅ ≤ ∑ x ∈ keys, ((push x).getD []).length :=
      Finset.sum_le_sum_of_subset (Finset.filter_subset _ _)
    rw [List.length_singleton]
    omega
  obtain ⟨seen, hclose, hfinal, -, hdone⟩ := hstart.close
    (fun x cs ⟨a, ha, hx⟩ hcs b' hb' y hy => ⟨a, ha, hx.tail ⟨cs, hcs, b', hb', hy⟩⟩)
    (fun x ⟨a, ha, hx⟩ => hpush a ha x hx) (fun x ⟨a, ha, hx⟩ => hkeys a ha x hx) hturns
  refine ⟨seen, hclose, fun x => ⟨hfinal.sound x, ?_⟩⟩
  rintro ⟨a, ha, hx⟩
  exact hfinal.leads (hdone b List.mem_cons_self a ha) hx

end Reach

end Closure
