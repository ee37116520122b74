/-
# Feerate diagrams

`cluster_linearize.py`: what a list of chunks pays by size, and how two of them are compared.
-/
import Mathlib.Data.Int.Notation
import Mathlib.Data.Real.Basic
import Mathlib.Tactic.FieldSimp
import BtclibNode.Lib.Polyline

namespace BtclibNode

/-- `FeeFrac`: a fee and a size. -/
structure FeeFrac where
  fee : ℤ
  size : ℤ
  deriving DecidableEq, Repr

namespace FeeFrac

def add (a b : FeeFrac) : FeeFrac := ⟨a.fee + b.fee, a.size + b.size⟩

def sub (a b : FeeFrac) : FeeFrac := ⟨a.fee - b.fee, a.size - b.size⟩

/-- `feerate_compare`. -/
def compare (a b : FeeFrac) : ℤ :=
  (if b.fee * a.size < a.fee * b.size then 1 else 0) -
    (if a.fee * b.size < b.fee * a.size then 1 else 0)

theorem compare_pos {a b : FeeFrac} : 0 < a.compare b ↔ b.fee * a.size < a.fee * b.size := by
  unfold compare
  split <;> split <;> omega

theorem compare_neg {a b : FeeFrac} : a.compare b < 0 ↔ a.fee * b.size < b.fee * a.size := by
  unfold compare
  split <;> split <;> omega

end FeeFrac

/-- A diagram that `compare_chunks` walks along: the chunks ahead, and the point reached. -/
structure Walk where
  ahead : List FeeFrac
  accum : FeeFrac

namespace Walk

/-- `next_point`, where there is one. -/
def nextPoint (d : Walk) : Option FeeFrac := d.ahead.head?.map d.accum.add

/-- `advance`. -/
def advance (d : Walk) : Walk :=
  match d.ahead with
  | [] => d
  | chunk :: ahead => ⟨ahead, d.accum.add chunk⟩

/-- How a point of one diagram lies to the other, and the other after the turn. -/
def meet (other : Walk) (p : FeeFrac) : ℤ × Walk :=
  let slope := p.sub other.accum
  match other.nextPoint with
  | none => (slope.compare ⟨0, 1⟩, other)
  | some b => (slope.compare (b.sub other.accum), if b.size = p.size then other.advance else other)

theorem length_advance {d : Walk} {p : FeeFrac} (h : d.nextPoint = some p) :
    d.advance.ahead.length < d.ahead.length := by
  unfold nextPoint at h
  unfold advance
  rcases hahead : d.ahead with _ | ⟨chunk, ahead⟩
  · rw [hahead] at h
    cases h
  · exact Nat.lt_succ_self _

theorem length_meet (other : Walk) (p : FeeFrac) :
    (other.meet p).2.ahead.length ≤ other.ahead.length := by
  unfold meet
  dsimp only
  split
  · exact le_rfl
  · rename_i b hb
    show (if _ then other.advance else other).ahead.length ≤ _
    split
    · exact (length_advance hb).le
    · exact le_rfl

end Walk

/-- The side whose next point comes first, with that point: the first diagram is `false`. -/
def firstSide (d0 d1 : Walk) : Option (Bool × FeeFrac) :=
  match d0.nextPoint, d1.nextPoint with
  | none, none => none
  | some p, none => some (false, p)
  | none, some p => some (true, p)
  | some p0, some p1 => if p1.size < p0.size then some (true, p1) else some (false, p0)

/-- What is known of a side that comes first. -/
theorem firstSide_some {d0 d1 : Walk} {side : Bool} {p : FeeFrac}
    (h : firstSide d0 d1 = some (side, p)) :
    (if side then d1 else d0).nextPoint = some p ∧
      ∀ b, (if side then d0 else d1).nextPoint = some b → p.size ≤ b.size := by
  unfold firstSide at h
  split at h
  · cases h
  · rename_i h0 h1
    cases h
    refine ⟨h0, fun b hb => ?_⟩
    rw [if_neg (by decide), h1] at hb
    cases hb
  · rename_i h0 h1
    cases h
    refine ⟨h1, fun b hb => ?_⟩
    rw [if_pos rfl, h0] at hb
    cases hb
  · rename_i p0 p1 h0 h1
    split at h
    · rename_i hlt
      cases h
      refine ⟨h1, fun b hb => ?_⟩
      rw [if_pos rfl, h0] at hb
      cases hb
      exact hlt.le
    · rename_i hle
      cases h
      refine ⟨h0, fun b hb => ?_⟩
      rw [if_neg (by decide), h1] at hb
      cases hb
      exact not_lt.mp hle

theorem firstSide_none {d0 d1 : Walk} (h : firstSide d0 d1 = none) :
    d0.nextPoint = none ∧ d1.nextPoint = none := by
  unfold firstSide at h
  split at h
  · rename_i h0 h1
    exact ⟨h0, h1⟩
  · cases h
  · cases h
  · split at h <;> cases h

/-- The loop of `compare_chunks`. -/
def compareLoop (d0 d1 : Walk) (better0 better1 : Bool) : Option ℤ :=
  match _h : firstSide d0 d1 with
  | none => some (better0.toInt - better1.toInt)
  | some (false, p) =>
    let cmp := (d1.meet p).1
    let better0 := better0 || decide (0 < cmp)
    let better1 := better1 || decide (cmp < 0)
    if better0 && better1 then none
    else compareLoop d0.advance (d1.meet p).2 better0 better1
  | some (true, p) =>
    let cmp := (d0.meet p).1
    let better1 := better1 || decide (0 < cmp)
    let better0 := better0 || decide (cmp < 0)
    if better0 && better1 then none
    else compareLoop (d0.meet p).2 d1.advance better0 better1
  termination_by d0.ahead.length + d1.ahead.length
  decreasing_by
    · have hfirst := Walk.length_advance (firstSide_some _h).1
      have hother := d1.length_meet p
      simp only [Bool.false_eq_true, if_false] at hfirst
      omega
    · have hfirst := Walk.length_advance (firstSide_some _h).1
      have hother := d0.length_meet p
      simp only [if_true] at hfirst
      omega

section CompareLoop

variable {d0 d1 : Walk} {better0 better1 : Bool} {p : FeeFrac}

theorem compareLoop_done (h : firstSide d0 d1 = none) :
    compareLoop d0 d1 better0 better1 = some (better0.toInt - better1.toInt) := by
  rw [compareLoop]
  split
  · rfl
  · rename_i hside
    rw [h] at hside
    cases hside
  · rename_i hside
    rw [h] at hside
    cases hside

theorem compareLoop_first (h : firstSide d0 d1 = some (false, p)) :
    compareLoop d0 d1 better0 better1 =
      let better0' := better0 || decide (0 < (d1.meet p).1)
      let better1' := better1 || decide ((d1.meet p).1 < 0)
      if better0' && better1' then none
      else compareLoop d0.advance (d1.meet p).2 better0' better1' := by
  rw [compareLoop]
  split
  · rename_i hside
    rw [h] at hside
    cases hside
  · rename_i hside
    rw [h] at hside
    cases hside
    rfl
  · rename_i hside
    rw [h] at hside
    cases hside

theorem compareLoop_second (h : firstSide d0 d1 = some (true, p)) :
    compareLoop d0 d1 better0 better1 =
      let better1' := better1 || decide (0 < (d0.meet p).1)
      let better0' := better0 || decide ((d0.meet p).1 < 0)
      if better0' && better1' then none
      else compareLoop (d0.meet p).2 d1.advance better0' better1' := by
  rw [compareLoop]
  split
  · rename_i hside
    rw [h] at hside
    cases hside
  · rename_i hside
    rw [h] at hside
    cases hside
  · rename_i hside
    rw [h] at hside
    cases hside
    rfl

end CompareLoop

/-- `compare_chunks`. -/
def compareChunks (chunks0 chunks1 : List FeeFrac) : Option ℤ :=
  compareLoop ⟨chunks0, ⟨0, 0⟩⟩ ⟨chunks1, ⟨0, 0⟩⟩ false false

/-! ## The diagrams -/

/-- The steps of a list of chunks. -/
def steps (chunks : List FeeFrac) : List (ℝ × ℝ) :=
  chunks.map fun chunk => ((chunk.size : ℝ), (chunk.fee : ℝ))

/-- The diagram of a list of chunks: what is paid by size, flat past the last chunk. -/
noncomputable def diagram (chunks : List FeeFrac) : ℝ → ℝ := Polyline.height 0 0 (steps chunks)

namespace Walk

/-- The diagram from the point reached on. -/
noncomputable def height (d : Walk) : ℝ → ℝ :=
  Polyline.height (d.accum.size : ℝ) (d.accum.fee : ℝ) (steps d.ahead)

/-- A walk that has got to `x`: the point reached is not past it, the next one is. -/
structure At (d : Walk) (x : ℤ) : Prop where
  reached : d.accum.size ≤ x
  next : ∀ p, d.nextPoint = some p → x < p.size
  ahead : ∀ chunk ∈ d.ahead, 0 < chunk.size

variable {d : Walk} {x : ℤ} {p : FeeFrac}

theorem steps_pos {chunks : List FeeFrac} (h : ∀ chunk ∈ chunks, 0 < chunk.size) :
    ∀ step ∈ steps chunks, 0 < step.1 := by
  intro step hstep
  obtain ⟨chunk, hchunk, rfl⟩ := List.mem_map.mp hstep
  exact Int.cast_pos.mpr (h chunk hchunk)

/-- A next point is that of the first chunk ahead. -/
theorem nextPoint_some (h : d.nextPoint = some p) : ∃ chunk ahead,
    d.ahead = chunk :: ahead ∧ p = d.accum.add chunk ∧ d.advance = ⟨ahead, p⟩ := by
  unfold nextPoint at h
  unfold advance
  rcases hahead : d.ahead with _ | ⟨chunk, ahead⟩
  · rw [hahead] at h
    cases h
  · rw [hahead] at h
    cases h
    exact ⟨chunk, ahead, rfl, rfl, rfl⟩

theorem nextPoint_none (h : d.nextPoint = none) : d.ahead = [] := by
  unfold nextPoint at h
  rw [Option.map_eq_none_iff, List.head?_eq_none_iff] at h
  exact h

theorem height_of_none (h : d.nextPoint = none) (s : ℝ) : d.height s = d.accum.fee := by
  unfold height
  rw [nextPoint_none h]
  rfl

theorem height_advance (hd : d.At x) (h : d.nextPoint = some p) {s : ℝ} (hs : (p.size : ℝ) ≤ s) :
    d.advance.height s = d.height s := by
  obtain ⟨chunk, ahead, hahead, rfl, hadvance⟩ := nextPoint_some h
  have hpos := steps_pos hd.ahead
  rw [hahead] at hpos
  unfold height
  rw [hadvance, hahead]
  have hcons : steps (chunk :: ahead) = ((chunk.size : ℝ), (chunk.fee : ℝ)) :: steps ahead := rfl
  rw [hcons] at hpos ⊢
  rw [FeeFrac.add, Int.cast_add] at hs
  rw [Polyline.height_cons_of_ge (hpos _ List.mem_cons_self)
    (fun step hstep => hpos step (List.mem_cons_of_mem _ hstep)) hs]
  dsimp only [FeeFrac.add]
  rw [Int.cast_add, Int.cast_add]

theorem At.advance (hd : d.At x) (h : d.nextPoint = some p) : d.advance.At p.size := by
  obtain ⟨chunk, ahead, hahead, rfl, hadvance⟩ := nextPoint_some h
  have hpos := hd.ahead
  rw [hahead] at hpos
  rw [hadvance]
  refine ⟨le_rfl, ?_, fun chunk' hmem => hpos chunk' (List.mem_cons_of_mem _ hmem)⟩
  intro q hq
  obtain ⟨next, more, hmore, rfl, -⟩ := nextPoint_some hq
  have hmore : ahead = next :: more := hmore
  have hnext : 0 < next.size := hpos next (by rw [hmore]; simp)
  show _ < (d.accum.add chunk).size + next.size
  omega

/-- At the next point the diagram pays what the point says. -/
theorem height_next (hd : d.At x) (h : d.nextPoint = some p) : d.height p.size = p.fee := by
  rw [← height_advance hd h le_rfl]
  obtain ⟨chunk, ahead, -, rfl, hadvance⟩ := nextPoint_some h
  have hpos := steps_pos (hd.advance h).ahead
  unfold height
  rw [hadvance] at hpos ⊢
  exact Polyline.height_start hpos

/-- The diagram is straight up to the next point. -/
theorem straightOn (h : ∀ b, d.nextPoint = some b → p.size ≤ b.size) :
    Polyline.StraightOn d.height x p.size := by
  unfold height
  cases hnext : d.nextPoint with
  | none =>
    rw [nextPoint_none hnext]
    exact Polyline.straightOn_nil _
  | some b =>
    have hle := h b hnext
    obtain ⟨chunk, ahead, hahead, rfl, -⟩ := nextPoint_some hnext
    rw [hahead]
    apply (Polyline.straightOn_cons (x : ℝ)).mono le_rfl
    rw [← Int.cast_add]
    exact Int.cast_le.mpr hle

/-- A walk that stays where it is while the other gets to its next point or before. -/
theorem At.stay (hd : d.At x) {x' : ℤ} (hx : x ≤ x') (h : ∀ b, d.nextPoint = some b → x' < b.size) :
    d.At x' := ⟨hd.reached.trans hx, h, hd.ahead⟩

/-- A point ahead is above the diagram where it is above the line from the point reached to the
next, whose slope is compared. -/
theorem compare_iff (hd : d.At x) {b : FeeFrac} (h : d.nextPoint = some b)
    (hle : p.size ≤ b.size) :
    (0 < (p.sub d.accum).compare (b.sub d.accum) ↔ d.height p.size < p.fee) ∧
      ((p.sub d.accum).compare (b.sub d.accum) < 0 ↔ p.fee < d.height p.size) := by
  obtain ⟨chunk, ahead, hahead, rfl, -⟩ := nextPoint_some h
  have hwidth : 0 < chunk.size := by
    apply hd.ahead
    rw [hahead]
    exact List.mem_cons_self
  have hheight : d.height p.size =
      d.accum.fee + chunk.fee / chunk.size * (p.size - d.accum.size) := by
    unfold height
    rw [hahead]
    apply Polyline.height_cons_of_le
    rw [← Int.cast_add]
    exact Int.cast_le.mpr hle
  have hline : d.height p.size * chunk.size =
      d.accum.fee * chunk.size + chunk.fee * (p.size - d.accum.size) := by
    rw [hheight]
    field_simp
  have hpos : (0 : ℝ) < chunk.size := Int.cast_pos.mpr hwidth
  have hchunk : (d.accum.add chunk).sub d.accum = chunk := by
    unfold FeeFrac.add FeeFrac.sub
    simp
  rw [hchunk, FeeFrac.compare_pos, FeeFrac.compare_neg]
  dsimp only [FeeFrac.sub]
  rw [← mul_lt_mul_iff_left₀ hpos, ← mul_lt_mul_iff_left₀ (b := (p.fee : ℝ)) hpos, hline,
    ← Int.cast_lt (R := ℝ), ← Int.cast_lt (R := ℝ)]
  push_cast
  constructor <;> constructor <;> intro hlt <;> linarith

/-- **A turn**: the point is compared with the other diagram, which is straight up to there, and
the walk along the other gets to it. -/
theorem meet_spec (hd : d.At x) (hx : x < p.size)
    (hle : ∀ b, d.nextPoint = some b → p.size ≤ b.size) :
    (0 < (d.meet p).1 ↔ d.height p.size < p.fee) ∧ ((d.meet p).1 < 0 ↔ p.fee < d.height p.size) ∧
      (d.meet p).2.At p.size ∧ ∀ s : ℝ, p.size ≤ s → (d.meet p).2.height s = d.height s := by
  unfold meet
  dsimp only
  cases hnext : d.nextPoint with
  | none =>
    dsimp only
    rw [height_of_none hnext, FeeFrac.compare_pos, FeeFrac.compare_neg]
    refine ⟨?_, ?_, hd.stay hx.le fun b hb => ?_, fun s _ => rfl⟩
    · rw [Int.cast_lt]
      unfold FeeFrac.sub
      dsimp only
      omega
    · rw [Int.cast_lt]
      unfold FeeFrac.sub
      dsimp only
      omega
    · rw [hnext] at hb
      cases hb
  | some b =>
    obtain ⟨habove, hbelow⟩ := compare_iff hd hnext (hle b hnext)
    refine ⟨habove, hbelow, ?_⟩
    show (if b.size = p.size then d.advance else d).At _ ∧
      ∀ s : ℝ, _ → (if b.size = p.size then d.advance else d).height s = _
    split
    · rename_i hsize
      rw [← hsize]
      exact ⟨hd.advance hnext, fun s hs => height_advance hd hnext hs⟩
    · rename_i hsize
      refine ⟨hd.stay hx.le fun b' hb => ?_, fun s _ => rfl⟩
      rw [hnext] at hb
      cases hb
      exact lt_of_le_of_ne (hle b hnext) (Ne.symm hsize)

end Walk

/-! ## The comparison -/

/-- One function is above another somewhere from `x` on. -/
def AboveFrom (x : ℝ) (f g : ℝ → ℝ) : Prop := ∃ s, x ≤ s ∧ g s < f s

/-- What two answers come to: `none` where each is better somewhere. -/
def verdict (better0 better1 : Bool) : Option ℤ :=
  if better0 && better1 then none else some (better0.toInt - better1.toInt)

/-- A function stays above another on from `x'`, where they were straight before. -/
theorem aboveFrom_iff {d d' e e' : Walk} {x x' : ℤ} (hx : x ≤ x')
    (hd : Polyline.StraightOn d.height x x') (he : Polyline.StraightOn e.height x x')
    (hd' : ∀ s : ℝ, x' ≤ s → d'.height s = d.height s)
    (he' : ∀ s : ℝ, x' ≤ s → e'.height s = e.height s) :
    AboveFrom x d.height e.height ↔ e.height x < d.height x ∨ e.height x' < d.height x' ∨
      AboveFrom x' d'.height e'.height := by
  unfold AboveFrom
  rw [Polyline.exists_lt_iff (Int.cast_le.mpr hx) he hd]
  have hfrom : (∃ s : ℝ, x' ≤ s ∧ e.height s < d.height s) ↔
      ∃ s : ℝ, x' ≤ s ∧ e'.height s < d'.height s := by
    apply exists_congr
    intro s
    constructor
    · rintro ⟨hs, hlt⟩
      rw [hd' s hs, he' s hs]
      exact ⟨hs, hlt⟩
    · rintro ⟨hs, hlt⟩
      rw [hd' s hs, he' s hs] at hlt
      exact ⟨hs, hlt⟩
  rw [hfrom]

/-- What the flags and the diagrams say stays the same over a turn of the side `d`. -/
structure Turn (d e d' e' : Walk) (x x' : ℤ) (better worse better' worse' : Bool) : Prop where
  side : d'.At x'
  other : e'.At x'
  better : better' = true ↔ better = true ∨ e.height x' < d.height x'
  worse : worse' = true ↔ worse = true ∨ d.height x' < e.height x'
  above : e.height x < d.height x ∨ e.height x' < d.height x' ∨ AboveFrom x' d'.height e'.height ↔
    AboveFrom x d.height e.height
  below : d.height x < e.height x ∨ d.height x' < e.height x' ∨ AboveFrom x' e'.height d'.height ↔
    AboveFrom x e.height d.height
  sideSame : d'.height x' = d.height x'
  otherSame : e'.height x' = e.height x'

theorem turn_spec {d e : Walk} {x : ℤ} {p : FeeFrac} (hd : d.At x) (he : e.At x)
    (h : d.nextPoint = some p) (hle : ∀ b, e.nextPoint = some b → p.size ≤ b.size)
    (better worse : Bool) :
    Turn d e d.advance (e.meet p).2 x p.size better worse
      (better || decide (0 < (e.meet p).1)) (worse || decide ((e.meet p).1 < 0)) := by
  obtain ⟨habove, hbelow, hother, hsame⟩ := e.meet_spec he (hd.next p h) hle
  have hx := (hd.next p h).le
  have hnext := d.height_next hd h
  have hstraight : Polyline.StraightOn d.height x p.size := by
    apply d.straightOn
    intro b hb
    rw [h] at hb
    cases hb
    exact le_rfl
  have hdiff := fun s hs => d.height_advance hd h (s := s) hs
  refine ⟨hd.advance h, hother, ?_, ?_, ?_, ?_, hdiff _ le_rfl, hsame _ le_rfl⟩
  · rw [Bool.or_eq_true, decide_eq_true_eq, habove, hnext]
  · rw [Bool.or_eq_true, decide_eq_true_eq, hbelow, hnext]
  · exact (aboveFrom_iff hx hstraight (e.straightOn hle) hdiff hsame).symm
  · exact (aboveFrom_iff hx (e.straightOn hle) hstraight hsame hdiff).symm

/-- Flags that answered for all up to `x` answer for all up to `x'` after the turn. -/
theorem Turn.answer {d e d' e' : Walk} {x x' : ℤ} {better worse better' worse' : Bool}
    (h : Turn d e d' e' x x' better worse better' worse')
    (hbetter : e.height x < d.height x → better = true)
    (hworse : d.height x < e.height x → worse = true) :
    (e'.height x' < d'.height x' → better' = true) ∧
      (d'.height x' < e'.height x' → worse' = true) ∧
      (better' = true ∨ AboveFrom x' d'.height e'.height ↔
        better = true ∨ AboveFrom x d.height e.height) ∧
      (worse' = true ∨ AboveFrom x' e'.height d'.height ↔
        worse = true ∨ AboveFrom x e.height d.height) := by
  rw [h.sideSame, h.otherSame, ← h.above, ← h.below, h.better, h.worse]
  tauto

/-- **The loop** answers whether each diagram has been better so far, or is from there on. -/
theorem compareLoop_spec (d0 d1 : Walk) (better0 better1 : Bool) :
    ∀ x : ℤ, d0.At x → d1.At x → (d1.height x < d0.height x → better0 = true) →
      (d0.height x < d1.height x → better1 = true) → (better0 && better1) = false →
      ∃ r0 r1, compareLoop d0 d1 better0 better1 = verdict r0 r1 ∧
        (r0 = true ↔ better0 = true ∨ AboveFrom x d0.height d1.height) ∧
        (r1 = true ↔ better1 = true ∨ AboveFrom x d1.height d0.height) := by
  induction d0, d1, better0, better1 using compareLoop.induct with
  | case1 d0 d1 better0 better1 h =>
    intro x _ _ habove hbelow hnot
    obtain ⟨h0, h1⟩ := firstSide_none h
    -- nothing is ahead, so that both are flat
    have hflat : ∀ s, d0.height s = d0.height x ∧ d1.height s = d1.height x := by
      intro s
      rw [d0.height_of_none h0, d1.height_of_none h1, d0.height_of_none h0, d1.height_of_none h1]
      exact ⟨rfl, rfl⟩
    refine ⟨better0, better1, ?_, ?_, ?_⟩
    · rw [compareLoop_done h]
      unfold verdict
      rw [if_neg (ne_true_of_eq_false hnot)]
    · refine ⟨.inl, ?_⟩
      rintro (hbetter | ⟨s, -, hlt⟩)
      · exact hbetter
      · rw [(hflat s).1, (hflat s).2] at hlt
        exact habove hlt
    · refine ⟨.inl, ?_⟩
      rintro (hbetter | ⟨s, -, hlt⟩)
      · exact hbetter
      · rw [(hflat s).1, (hflat s).2] at hlt
        exact hbelow hlt
  | case2 d0 d1 better0 better1 p h cmp better0' better1' hboth =>
    intro x hd0 hd1 habove hbelow _
    obtain ⟨hnext, hle⟩ := firstSide_some h
    obtain ⟨-, -, h0, h1⟩ := (turn_spec hd0 hd1 hnext hle better0 better1).answer habove hbelow
    obtain ⟨hb0, hb1⟩ := (Bool.and_eq_true _ _).mp hboth
    refine ⟨true, true, ?_, iff_of_true rfl (h0.mp (.inl hb0)), iff_of_true rfl (h1.mp (.inl hb1))⟩
    rw [compareLoop_first h]
    exact if_pos hboth
  | case3 d0 d1 better0 better1 p h cmp better0' better1' hboth ih =>
    intro x hd0 hd1 habove hbelow _
    obtain ⟨hnext, hle⟩ := firstSide_some h
    have hturn := turn_spec hd0 hd1 hnext hle better0 better1
    obtain ⟨habove', hbelow', h0, h1⟩ := hturn.answer habove hbelow
    obtain ⟨r0, r1, hloop, hr0, hr1⟩ := ih p.size hturn.side hturn.other habove' hbelow'
      (eq_false_of_ne_true hboth)
    refine ⟨r0, r1, ?_, hr0.trans h0, hr1.trans h1⟩
    rw [compareLoop_first h]
    exact (if_neg hboth).trans hloop
  | case4 d0 d1 better0 better1 p h cmp better1' better0' hboth =>
    intro x hd0 hd1 habove hbelow _
    obtain ⟨hnext, hle⟩ := firstSide_some h
    obtain ⟨-, -, h1, h0⟩ := (turn_spec hd1 hd0 hnext hle better1 better0).answer hbelow habove
    obtain ⟨hb0, hb1⟩ := (Bool.and_eq_true _ _).mp hboth
    refine ⟨true, true, ?_, iff_of_true rfl (h0.mp (.inl hb0)), iff_of_true rfl (h1.mp (.inl hb1))⟩
    rw [compareLoop_second h]
    exact if_pos hboth
  | case5 d0 d1 better0 better1 p h cmp better1' better0' hboth ih =>
    intro x hd0 hd1 habove hbelow _
    obtain ⟨hnext, hle⟩ := firstSide_some h
    have hturn := turn_spec hd1 hd0 hnext hle better1 better0
    obtain ⟨hbelow', habove', h1, h0⟩ := hturn.answer hbelow habove
    obtain ⟨r0, r1, hloop, hr0, hr1⟩ := ih p.size hturn.other hturn.side habove' hbelow'
      (eq_false_of_ne_true hboth)
    refine ⟨r0, r1, ?_, hr0.trans h0, hr1.trans h1⟩
    rw [compareLoop_second h]
    exact (if_neg hboth).trans hloop

/-- A walk at the start of its diagram. -/
theorem Walk.at_start {chunks : List FeeFrac} (h : ∀ chunk ∈ chunks, 0 < chunk.size) :
    (⟨chunks, ⟨0, 0⟩⟩ : Walk).At 0 := by
  refine ⟨le_rfl, ?_, h⟩
  intro p hp
  obtain ⟨chunk, ahead, hahead, rfl, -⟩ := Walk.nextPoint_some hp
  have hchunk : 0 < chunk.size := by
    apply h
    have hahead : chunks = chunk :: ahead := hahead
    rw [hahead]
    exact List.mem_cons_self
  show 0 < 0 + chunk.size
  omega

theorem Walk.height_start (chunks : List FeeFrac) :
    (⟨chunks, ⟨0, 0⟩⟩ : Walk).height = diagram chunks := by
  unfold Walk.height diagram
  dsimp only
  rw [Int.cast_zero]

/-- What `compare_chunks` answers, by where each diagram is above the other. -/
theorem compareChunks_eq {chunks0 chunks1 : List FeeFrac} (h0 : ∀ chunk ∈ chunks0, 0 < chunk.size)
    (h1 : ∀ chunk ∈ chunks1, 0 < chunk.size) :
    ∃ r0 r1, compareChunks chunks0 chunks1 = verdict r0 r1 ∧
      (r0 = true ↔ AboveFrom 0 (diagram chunks0) (diagram chunks1)) ∧
      (r1 = true ↔ AboveFrom 0 (diagram chunks1) (diagram chunks0)) := by
  have hzero : ∀ {chunks : List FeeFrac}, (∀ chunk ∈ chunks, 0 < chunk.size) →
      diagram chunks 0 = 0 := fun h => Polyline.height_start (Walk.steps_pos h)
  have hspec := compareLoop_spec ⟨chunks0, ⟨0, 0⟩⟩ ⟨chunks1, ⟨0, 0⟩⟩ false false 0
    (Walk.at_start h0) (Walk.at_start h1)
  rw [Walk.height_start, Walk.height_start, Int.cast_zero, hzero h0, hzero h1] at hspec
  obtain ⟨r0, r1, heq, hr0, hr1⟩ :=
    hspec (fun h => absurd h (lt_irrefl 0)) (fun h => absurd h (lt_irrefl 0)) rfl
  refine ⟨r0, r1, heq, hr0.trans ?_, hr1.trans ?_⟩
  · exact or_iff_right Bool.false_ne_true
  · exact or_iff_right Bool.false_ne_true

/-- **`compare_chunks`** answers how the diagrams lie: 1 where the first is nowhere below the
second and somewhere above it, -1 for the reverse, 0 where they are equal everywhere, and `none`
where each is above the other somewhere. -/
theorem compareChunks_spec (chunks0 chunks1 : List FeeFrac)
    (h0 : ∀ chunk ∈ chunks0, 0 < chunk.size) (h1 : ∀ chunk ∈ chunks1, 0 < chunk.size) :
    (compareChunks chunks0 chunks1 = some 1 ↔
      (∀ s, 0 ≤ s → diagram chunks1 s ≤ diagram chunks0 s) ∧
        ∃ s, 0 ≤ s ∧ diagram chunks1 s < diagram chunks0 s) ∧
    (compareChunks chunks0 chunks1 = some (-1) ↔
      (∀ s, 0 ≤ s → diagram chunks0 s ≤ diagram chunks1 s) ∧
        ∃ s, 0 ≤ s ∧ diagram chunks0 s < diagram chunks1 s) ∧
    (compareChunks chunks0 chunks1 = some 0 ↔
      ∀ s, 0 ≤ s → diagram chunks0 s = diagram chunks1 s) ∧
    (compareChunks chunks0 chunks1 = none ↔
      (∃ s, 0 ≤ s ∧ diagram chunks1 s < diagram chunks0 s) ∧
        ∃ s, 0 ≤ s ∧ diagram chunks0 s < diagram chunks1 s) := by
  obtain ⟨r0, r1, heq, hr0, hr1⟩ := compareChunks_eq h0 h1
  have hnowhere : ∀ {f g : ℝ → ℝ}, (∀ s, 0 ≤ s → f s ≤ g s) ↔ ¬ AboveFrom 0 f g := by
    intro f g
    unfold AboveFrom
    push Not
    rfl
  have hequal : (∀ s, 0 ≤ s → diagram chunks0 s = diagram chunks1 s) ↔
      ¬ AboveFrom 0 (diagram chunks0) (diagram chunks1) ∧
        ¬ AboveFrom 0 (diagram chunks1) (diagram chunks0) := by
    rw [← hnowhere, ← hnowhere]
    constructor
    · exact fun h => ⟨fun s hs => (h s hs).le, fun s hs => (h s hs).ge⟩
    · exact fun h s hs => le_antisymm (h.1 s hs) (h.2 s hs)
  have habove : ∀ {f g : ℝ → ℝ}, (∃ s, 0 ≤ s ∧ g s < f s) ↔ AboveFrom 0 f g := Iff.rfl
  rw [hnowhere, hnowhere, hequal, habove, habove, heq, ← hr0, ← hr1]
  cases r0 <;> cases r1 <;> decide

/-- The diagrams of a package that pays more for less, and then is worse at its end. -/
theorem compareChunks_spec_crossing :
    compareChunks [⟨5, 1⟩, ⟨-2, 2⟩] [⟨4, 2⟩] = none ↔
      (∃ s, 0 ≤ s ∧ diagram [⟨4, 2⟩] s < diagram [⟨5, 1⟩, ⟨-2, 2⟩] s) ∧
        ∃ s, 0 ≤ s ∧ diagram [⟨5, 1⟩, ⟨-2, 2⟩] s < diagram [⟨4, 2⟩] s :=
  (compareChunks_spec [⟨5, 1⟩, ⟨-2, 2⟩] [⟨4, 2⟩] (by decide) (by decide)).2.2.2

end BtclibNode
