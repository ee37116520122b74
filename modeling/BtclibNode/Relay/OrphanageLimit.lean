/-
# `_limit_orphans`

Where a global limit is exceeded some peer is above the share it had when the
loop started, for the peers are no more than they were.  What the loop keeps is
that the peers it has no score of are within their share; so the worst peer it
picks is above its share, up to every announcement it erases.
-/
import Mathlib.Tactic.Linarith
import Mathlib.Tactic.NormNum
import Mathlib.Algebra.Order.Field.Basic
import BtclibNode.Relay.OrphanageCalls

namespace BtclibNode

open Incidence

namespace TxOrphanage

variable {lim : OrphanLimits} {A B : Held} {s t m : TxOrphanage} {a b : OrphanAnnouncement}
  {tx : OrphanTx} {w : Hash} {p q : PeerId}

/-! ## The limits -/

/-- A global limit is exceeded. -/
def Crowded (lim : OrphanLimits) (A : Held) : Prop :=
  lim.maxGlobalLatencyScore < once (fun tx => tx.latencyScore - 1) A + A.card ∨
    lim.reservedPeerWeight * max (holders A).card 1 < once OrphanTx.weight A

theorem needsTrim_iff (hs : Holds A s) : s.needsTrim lim = true ↔ Crowded lim A := by
  unfold needsTrim Crowded
  rw [hs.uniqueInputScores_eq, hs.announcements_eq, hs.uniqueWeight_eq, hs.use_length,
    Bool.or_eq_true, decide_eq_true_iff, decide_eq_true_iff]
  norm_cast

/-- The share of the latency score of each of some peers. -/
def latencyShare (lim : OrphanLimits) (peers : ℕ) : ℕ := lim.maxGlobalLatencyScore / max peers 1

theorem maxPeerLatencyScore_eq (hs : Holds A s) :
    s.maxPeerLatencyScore lim = latencyShare lim (holders A).card := by
  unfold maxPeerLatencyScore latencyShare
  rw [hs.use_length]
  norm_cast

/-- A peer uses more than its share. -/
def Above (latency weight : ℕ) (A : Held) (p : PeerId) : Prop :=
  latency < load OrphanTx.latencyScore A p ∨ weight < load OrphanTx.weight A p

/-- **Where a limit is exceeded, one of no more peers than there were is above its share.** -/
theorem Crowded.exists_above {peers : ℕ} (h : Crowded lim A) (hpeers : (holders A).card ≤ peers) :
    ∃ p ∈ holders A, Above (latencyShare lim peers) lim.reservedPeerWeight A p := by
  rcases h with hlatency | hweight
  · -- an announcement has a score of one, and more for its inputs
    have hsum : lim.maxGlobalLatencyScore < ∑ x ∈ A, x.1.latencyScore := by
      have hinputs := once_le (fun tx : OrphanTx => tx.latencyScore - 1) A
      have hsplit : ∑ x ∈ A, x.1.latencyScore = ∑ x ∈ A, (x.1.latencyScore - 1) + A.card := by
        rw [Finset.card_eq_sum_ones, ← Finset.sum_add_distrib]
        apply Finset.sum_congr rfl
        intro x _
        unfold OrphanTx.latencyScore
        omega
      omega
    have hshare : (holders A).card * latencyShare lim peers ≤ lim.maxGlobalLatencyScore := by
      unfold latencyShare
      calc (holders A).card * (lim.maxGlobalLatencyScore / max peers 1)
          ≤ max peers 1 * (lim.maxGlobalLatencyScore / max peers 1) :=
            Nat.mul_le_mul_right _ (hpeers.trans (le_max_left _ _))
        _ ≤ lim.maxGlobalLatencyScore := Nat.mul_div_le _ _
    obtain ⟨p, hp, habove⟩ := exists_share_lt_load OrphanTx.latencyScore
      (lt_of_le_of_lt hshare hsum)
    exact ⟨p, hp, .inl habove⟩
  · have hsum := lt_of_lt_of_le hweight (once_le OrphanTx.weight A)
    rw [mul_comm] at hsum
    obtain ⟨p, hp, habove⟩ := exists_share_lt_load OrphanTx.weight
      (lt_of_le_of_lt (Nat.mul_le_mul_right _ (le_max_left _ 1)) hsum)
    exact ⟨p, hp, .inr habove⟩

/-! ## The scores -/

/-- The score of a peer. -/
def scoreOf (latency weight : ℕ) (A : Held) (p : PeerId) : OrphanScore :=
  max (toLex ((load OrphanTx.latencyScore A p : ℚ) / latency, -(latency : ℤ)))
    (toLex ((load OrphanTx.weight A p : ℚ) / weight, -(weight : ℤ)))

section Scores

variable {latency weight : ℕ}

theorem dosScore_eq (hlatency : 0 < latency) (hweight : 0 < weight) (p : PeerId) :
    (useOf A p).dosScore latency weight = some (scoreOf latency weight A p) := by
  unfold PeerUse.dosScore ratio
  rw [if_neg (by omega), if_neg (by omega)]
  simp [scoreOf, useOf]

theorem fst_max (x y : OrphanScore) : (ofLex (max x y)).1 = max (ofLex x).1 (ofLex y).1 :=
  Prod.Lex.monotone_fst_ofLex.map_max

/-- A score above one is the one of a peer above its share. -/
theorem above_iff (hlatency : 0 < latency) (hweight : 0 < weight) :
    1 < (ofLex (scoreOf latency weight A p)).1 ↔ Above latency weight A p := by
  unfold scoreOf
  rw [fst_max]
  show 1 < max ((load OrphanTx.latencyScore A p : ℚ) / latency)
    ((load OrphanTx.weight A p : ℚ) / weight) ↔ _
  rw [lt_max_iff, one_lt_div (by exact_mod_cast hlatency),
    one_lt_div (by exact_mod_cast hweight), Nat.cast_lt, Nat.cast_lt]
  rfl

/-- A score above the one where no peer is left over is one of a peer above its share. -/
theorem lt_score_iff (hlatency : 0 < latency) (hweight : 0 < weight) :
    (toLex (1, -1) : OrphanScore) < scoreOf latency weight A p ↔ Above latency weight A p := by
  rw [← above_iff hlatency hweight]
  constructor
  · intro h
    by_contra hle
    have hsnd : (ofLex (scoreOf latency weight A p)).2 ≤ -1 := by
      unfold scoreOf
      rcases max_choice (toLex ((load OrphanTx.latencyScore A p : ℚ) / latency, -(latency : ℤ)))
        (toLex ((load OrphanTx.weight A p : ℚ) / weight, -(weight : ℤ))) with hmax | hmax
      · rw [hmax]
        show -(latency : ℤ) ≤ -1
        omega
      · rw [hmax]
        show -(weight : ℤ) ≤ -1
        omega
    rcases Prod.Lex.lt_iff.mp h with hlt | ⟨-, hlt⟩
    · exact hle hlt
    · have : -1 < (ofLex (scoreOf latency weight A p)).2 := hlt
      omega
  · intro h
    exact Prod.Lex.lt_iff.mpr (.inl h)

/-! ## The evictions -/

/-- A peer's use is above the shares. -/
def AboveShare (latency weight : ℤ) (s : TxOrphanage) (p : PeerId) : Prop :=
  ∃ use, s.use.get? p = some use ∧ (latency < use.latencyScore ∨ weight < use.weight)

theorem aboveShare_iff (hs : Holds A s) :
    AboveShare latency weight s p ↔ Above latency weight A p := by
  unfold AboveShare Above
  rw [hs.use_eq]
  split
  · simp [useOf]
  · next hp => simp [load_eq_zero _ hp]

/-- Announcements erased one after another, each of a peer above the shares at that time. -/
inductive FairEvictions (latency weight : ℤ) :
    TxOrphanage → List OrphanAnnouncement → TxOrphanage → Prop
  | nil (s : TxOrphanage) : FairEvictions latency weight s [] s
  | cons {s m t : TxOrphanage} {a : OrphanAnnouncement} {l : List OrphanAnnouncement} :
      s.get a.wtxid a.announcer = some a → AboveShare latency weight s a.announcer →
      erase a s = some m → FairEvictions latency weight m l t →
      FairEvictions latency weight s (a :: l) t

theorem FairEvictions.append {l l' : List OrphanAnnouncement}
    (h : FairEvictions latency weight s l m) (h' : FairEvictions latency weight m l' t) :
    FairEvictions latency weight s (l ++ l') t := by
  induction h with
  | nil s => exact h'
  | cons hget habove herase _ ih => exact .cons hget habove herase (ih h')

/-- Evicting only takes announcements away. -/
theorem FairEvictions.holds {l : List OrphanAnnouncement} (hs : Holds A s)
    (h : FairEvictions latency weight s l t) : ∃ B ⊆ A, Holds B t := by
  induction h generalizing A with
  | nil s => exact ⟨A, Finset.Subset.refl A, hs⟩
  | cons hget _ herase _ ih =>
    obtain ⟨m, hm, hholds, -⟩ := erase_eq hs hget
    rw [herase] at hm
    obtain ⟨B, hB, ht⟩ := ih (Option.some.inj hm ▸ hholds)
    exact ⟨B, hB.trans (Finset.erase_subset _ A), ht⟩

/-- **A peer within its share loses nothing.** -/
theorem FairEvictions.keeps {l : List OrphanAnnouncement} (hs : Holds A s)
    (h : FairEvictions latency weight s l t) (hp : ¬AboveShare latency weight s p) (w : Hash) :
    t.get w p = s.get w p := by
  induction h generalizing A with
  | nil s => rfl
  | @cons s m t a l hget habove herase _ ih =>
    obtain ⟨m', hm, hholds, hgets⟩ := erase_eq hs hget
    rw [herase, Option.some.injEq] at hm
    subst hm
    rw [ih hholds, hgets, if_neg]
    · rintro ⟨-, rfl⟩
      exact hp habove
    · -- its use is no more than it was
      intro habove'
      apply hp
      rw [aboveShare_iff hholds] at habove'
      rw [aboveShare_iff hs]
      have hsub := Finset.erase_subset (a.tx, a.announcer) A
      exact habove'.imp (fun h => h.trans_le (load_mono _ hsub p))
        fun h => h.trans_le (load_mono _ hsub p)

/-! ## The inner loop -/

/-- Another peer keeps what it uses. -/
theorem useOf_erase (h : (tx, p) ∈ A) (hq : q ≠ p) : useOf (A.erase (tx, p)) q = useOf A q := by
  unfold useOf
  rw [load_erase OrphanTx.weight h q, load_erase OrphanTx.latencyScore h q,
    load_erase (fun _ => 1) h q]
  simp [Ne.symm hq]

theorem scoreOf_congr (h : useOf B p = useOf A p) :
    scoreOf latency weight B p = scoreOf latency weight A p := by
  unfold useOf at h
  simp only [PeerUse.mk.injEq, Nat.cast_inj] at h
  unfold scoreOf
  rw [h.1, h.2.2]

theorem mem_holders_congr (h : useOf B p = useOf A p) : p ∈ holders B ↔ p ∈ holders A := by
  unfold useOf at h
  simp only [PeerUse.mk.injEq, Nat.cast_inj] at h
  rw [mem_holders_iff_load, mem_holders_iff_load, h.2.1]

/-- Some peer is above its share wherever a limit is exceeded. -/
def Blamed (lim : OrphanLimits) (latency weight : ℕ) (A : Held) : Prop :=
  ∀ B ⊆ A, Crowded lim B → ∃ p ∈ holders B, Above latency weight B p

/-- What the inner loop leaves. -/
structure Trimmed (lim : OrphanLimits) (latency weight : ℕ) (worst : PeerId) (A : Held)
    (s : TxOrphanage) (B : Held) (t : TxOrphanage) (back : Option OrphanScore)
    (evicted : List OrphanAnnouncement) : Prop where
  subset : B ⊆ A
  holds : Holds B t
  fair : FairEvictions latency weight s evicted t
  others : ∀ p ≠ worst, useOf B p = useOf A p
  back_eq : ∀ score, back = some score →
    worst ∈ holders B ∧ score = scoreOf latency weight B worst
  done : back = none → worst ∉ holders B ∨ ¬Crowded lim B

theorem Trimmed.of_not_crowded {worst : PeerId} (hs : Holds A s) (h : ¬Crowded lim A) :
    Trimmed lim latency weight worst A s A s none [] :=
  ⟨Finset.Subset.refl A, hs, .nil s, fun _ _ => rfl, nofun, fun _ => .inr h⟩

/-- The worst peer is above its share, the others being no worse. -/
theorem Blamed.worst_above (hlatency : 0 < latency) (hweight : 0 < weight)
    {threshold : OrphanScore} {worst : PeerId} (hblamed : Blamed lim latency weight A)
    (hcrowded : Crowded lim A)
    (hothers : ∀ p ∈ holders A, p ≠ worst → Above latency weight A p →
      scoreOf latency weight A p ≤ threshold)
    (hthreshold : threshold ≤ scoreOf latency weight A worst) : Above latency weight A worst := by
  obtain ⟨p, hp, habove⟩ := hblamed A (Finset.Subset.refl A) hcrowded
  by_cases hpw : p = worst
  · exact hpw ▸ habove
  · rw [← above_iff hlatency hweight] at habove ⊢
    exact habove.trans_le
      (Prod.Lex.monotone_fst _ _ ((hothers p hp hpw ((above_iff hlatency hweight).mp habove)).trans
        hthreshold))

/-- **The inner loop erases from the worst peer while it is above its share.** -/
theorem trimPeer_eq (hlatency : 0 < latency) (hweight : 0 < weight) {threshold : OrphanScore}
    {worst : PeerId} {l : List OrphanAnnouncement} (hs : Holds A s)
    (hblamed : Blamed lim latency weight A)
    (hothers : ∀ p ∈ holders A, p ≠ worst → Above latency weight A p →
      scoreOf latency weight A p ≤ threshold)
    (hworst : worst ∈ holders A) (hthreshold : threshold ≤ scoreOf latency weight A worst)
    (hl : ∀ a ∈ l, a.announcer = worst ∧ s.get a.wtxid worst = some a) (hnodup : l.Nodup)
    (hall : ∀ w a, s.get w worst = some a → a ∈ l) :
    ∃ B t back evicted, trimPeer lim latency weight threshold worst l s =
        some (t, back, evicted) ∧
      Trimmed lim latency weight worst A s B t back evicted ∧
      (Crowded lim A → B ≠ A) := by
  induction l generalizing A s with
  | nil =>
    -- the worst peer has an announcement
    obtain ⟨tx, htx⟩ := mem_holders.mp hworst
    obtain ⟨a, ha, -⟩ := hs.get_tx htx
    cases hall _ a ha
  | cons a l ih =>
    by_cases hcrowded : Crowded lim A
    · obtain ⟨hnew, hnodup⟩ := List.nodup_cons.mp hnodup
      obtain ⟨⟨rfl, ha⟩, hl⟩ := List.forall_mem_cons.mp hl
      have hmem := hs.mem ha
      have habove := hblamed.worst_above hlatency hweight hcrowded hothers hthreshold
      obtain ⟨m, hm, hholds, hget⟩ := erase_eq hs ha
      have hsub := Finset.erase_subset (a.tx, a.announcer) A
      have hfair : ∀ {evicted t}, FairEvictions latency weight m evicted t →
          FairEvictions latency weight s (a :: evicted) t :=
        fun h => .cons ha ((aboveShare_iff hs).mpr habove) hm h
      have hsame : ∀ p ≠ a.announcer, useOf (A.erase (a.tx, a.announcer)) p = useOf A p :=
        fun p hp => useOf_erase hmem hp
      rw [trimPeer.eq_def]
      dsimp only
      rw [if_pos ((needsTrim_iff hs).mpr hcrowded)]
      simp only [hm, Option.bind_eq_bind, Option.bind_some, hholds.use_eq a.announcer]
      by_cases hgone : a.announcer ∈ holders (A.erase (a.tx, a.announcer))
      · rw [if_pos hgone]
        simp only [dosScore_eq hlatency hweight, Option.bind_some, Option.pure_def]
        split
        · exact ⟨_, m, _, [a], rfl, ⟨hsub, hholds, hfair (.nil m), hsame,
            fun score h => ⟨hgone, (Option.some.inj h).symm⟩, nofun⟩,
            fun _ => (Finset.erase_ssubset hmem).ne⟩
        · next hover =>
          have hkeep : ∀ b, b ≠ a → ∀ w, s.get w a.announcer = some b →
              m.get w a.announcer = some b := by
            intro b hne w hb
            rw [hget, if_neg]
            · exact hb
            · rintro ⟨rfl, -⟩
              exact hne (Option.some.inj (hb.symm.trans ha))
          obtain ⟨B, t, back, evicted, heq, htrim, -⟩ := ih hholds
            (fun B hB => hblamed B (hB.trans hsub))
            (fun p hp hne habovep => by
              have huse := hsame p hne
              rw [scoreOf_congr huse]
              refine hothers p ((mem_holders_congr huse).mp hp) hne ?_
              rw [← above_iff hlatency hweight, scoreOf_congr huse] at habovep
              exact (above_iff hlatency hweight).mp habovep)
            hgone (not_le.mp hover).le
            (fun b hb => ⟨(hl b hb).1, hkeep b (fun h => hnew (h ▸ hb)) _ (hl b hb).2⟩)
            hnodup
            (fun w b hb => by
              rw [hget] at hb
              split at hb
              · cases hb
              · next hne =>
                rcases List.mem_cons.mp (hall w b hb) with rfl | hmem
                · obtain ⟨hw, -⟩ := hs.get_mem w _ b hb
                  exact absurd ⟨hw, rfl⟩ hne
                · exact hmem)
          rw [heq]
          exact ⟨B, t, back, a :: evicted, rfl, ⟨htrim.subset.trans hsub, htrim.holds,
            hfair htrim.fair, fun p hp => (htrim.others p hp).trans (hsame p hp),
            htrim.back_eq, htrim.done⟩,
            fun _ h => (Finset.erase_ssubset hmem).not_subset (h ▸ htrim.subset)⟩
      · rw [if_neg hgone]
        exact ⟨_, m, none, [a], rfl, ⟨hsub, hholds, hfair (.nil m), hsame, nofun,
          fun _ => .inl hgone⟩, fun _ => (Finset.erase_ssubset hmem).ne⟩
    · rw [trimPeer.eq_def]
      dsimp only
      rw [if_neg (mt (needsTrim_iff hs).mp hcrowded)]
      exact ⟨A, s, none, [], rfl, .of_not_crowded hs hcrowded, fun h => absurd h hcrowded⟩

/-! ## The outer loop -/

theorem worstOf_eq {overShare : List (PeerId × OrphanScore)} (h : overShare ≠ []) :
    ∃ e, worstOf overShare = some e ∧ e ∈ overShare ∧ ∀ f ∈ overShare, f.2 ≤ e.2 := by
  induction overShare with
  | nil => exact absurd rfl h
  | cons e l ih =>
    unfold worstOf
    cases hl : worstOf l with
    | none =>
      have hnil : l = [] := by
        by_contra hne
        obtain ⟨f, hf, -⟩ := ih hne
        rw [hl] at hf
        cases hf
      subst hnil
      exact ⟨e, rfl, List.mem_cons_self, by simp⟩
    | some f =>
      obtain ⟨f', hf', hmem, hmax⟩ := ih (by rintro rfl; cases hl)
      rw [hl, Option.some.injEq] at hf'
      subst hf'
      dsimp only
      split
      · next hworse =>
        have hle : e.2 ≤ f.2 := by
          unfold worseThan at hworse
          simp only [Bool.or_eq_true, Bool.and_eq_true, decide_eq_true_eq] at hworse
          rcases hworse with hlt | ⟨heq, -⟩
          · exact hlt.le
          · exact heq.le
        exact ⟨f, rfl, List.mem_cons_of_mem e hmem, List.forall_mem_cons.mpr ⟨hle, hmax⟩⟩
      · next hworse =>
        have hle : f.2 ≤ e.2 := by
          by_contra hlt
          apply hworse
          unfold worseThan
          rw [decide_eq_true (not_le.mp hlt), Bool.true_or]
        exact ⟨e, rfl, List.mem_cons_self,
          List.forall_mem_cons.mpr ⟨le_refl _, fun g hg => (hmax g hg).trans hle⟩⟩

/-- What the loop compares the worst peer with is the highest of the other scores. -/
theorem threshold_spec (scores : List OrphanScore) (d x : OrphanScore) :
    (∀ y ∈ scores, y ≤ (scores.max?).getD d) ∧
      ((∀ y ∈ scores, y ≤ x) → d ≤ x → (scores.max?).getD d ≤ x) := by
  cases h : scores.max? with
  | none =>
    rw [List.max?_eq_none_iff] at h
    subst h
    exact ⟨nofun, fun _ hd => hd⟩
  | some y =>
    obtain ⟨hmem, hmax⟩ := List.max?_eq_some_iff.mp h
    exact ⟨hmax, fun hx _ => hx y hmem⟩

/-- What the loop keeps of its scores: they are the ones of peers in use, and a peer it has
no score of is within its share. -/
structure Tracked (latency weight : ℕ) (A : Held)
    (overShare : List (PeerId × OrphanScore)) : Prop where
  current : ∀ e ∈ overShare, e.1 ∈ holders A ∧ e.2 = scoreOf latency weight A e.1
  within : ∀ p ∈ holders A, (∀ e ∈ overShare, e.1 ≠ p) → ¬Above latency weight A p

theorem mem_announcementsOf (hs : Holds A s) :
    a ∈ s.announcementsOf p ↔ s.get a.wtxid p = some a := by
  unfold announcementsOf
  rw [List.mem_filterMap]
  constructor
  · rintro ⟨w, -, ha⟩
    obtain ⟨rfl, -⟩ := hs.get_mem w p a ha
    exact ha
  · intro ha
    exact ⟨a.wtxid, (hs.byPeer_mem p _).mpr ⟨a, ha⟩, ha⟩

theorem nodup_announcementsOf (hs : Holds A s) : (s.announcementsOf p).Nodup := by
  unfold announcementsOf
  apply List.Nodup.filterMap
  · intro v w a hv hw
    rw [← (hs.get_mem v p a hv).1, (hs.get_mem w p a hw).1]
  · cases h : s.byPeer.get? p with
    | none => exact List.nodup_nil
    | some l => exact hs.byPeer_nodup p l h

theorem limitLoop_of_not_crowded (hs : Holds A s) (h : ¬Crowded lim A)
    (maxLatencyScore maxWeight : ℤ) (fuel : ℕ) (overShare : List (PeerId × OrphanScore)) :
    limitLoop lim maxLatencyScore maxWeight fuel overShare s = some (s, []) := by
  rw [limitLoop.eq_def]
  dsimp only
  rw [if_neg (mt (needsTrim_iff hs).mp h)]

/-- **The outer loop ends with both limits met, and is fair.** -/
theorem limitLoop_eq (hlatency : 0 < latency) (hweight : 0 < weight) {fuel : ℕ}
    {overShare : List (PeerId × OrphanScore)} (hs : Holds A s)
    (hblamed : Blamed lim latency weight A)
    (hover : Tracked latency weight A overShare) (hfuel : A.card ≤ fuel) :
    ∃ B t evicted, limitLoop lim latency weight fuel overShare s = some (t, evicted) ∧
      B ⊆ A ∧ Holds B t ∧ ¬Crowded lim B ∧ FairEvictions latency weight s evicted t := by
  induction fuel generalizing A s overShare with
  | zero =>
    -- nothing is held, so no one is to blame
    have hcrowded : ¬Crowded lim A := by
      intro h
      obtain ⟨p, hp, -⟩ := hblamed A (Finset.Subset.refl A) h
      obtain ⟨tx, htx⟩ := mem_holders.mp hp
      have := Finset.card_pos.mpr ⟨_, htx⟩
      omega
    exact ⟨A, s, [], limitLoop_of_not_crowded hs hcrowded _ _ _ _, Finset.Subset.refl A, hs,
      hcrowded, .nil s⟩
  | succ fuel ih =>
    by_cases hcrowded : Crowded lim A
    · rw [limitLoop.eq_def]
      dsimp only
      rw [if_pos ((needsTrim_iff hs).mpr hcrowded)]
      -- the loop has a score of whoever is above its share, so of someone
      have htracked : ∀ p ∈ holders A, Above latency weight A p →
          (p, scoreOf latency weight A p) ∈ overShare := by
        intro p hp habove
        by_contra hnone
        refine hover.within p hp (fun e he hep => hnone ?_) habove
        have := (hover.current e he).2
        rw [← hep, ← this]
        exact he
      obtain ⟨q, hq, hqabove⟩ := hblamed A (Finset.Subset.refl A) hcrowded
      have hqover := htracked q hq hqabove
      obtain ⟨⟨worst, score⟩, hworst, hmem, hmax⟩ := worstOf_eq (List.ne_nil_of_mem hqover)
      obtain ⟨hholder, hscore⟩ := hover.current _ hmem
      dsimp only at hholder hscore
      obtain ⟨others, hothers⟩ : ∃ l, overShare.filter (fun e => e.1 ≠ worst) = l := ⟨_, rfl⟩
      have hothersMem : ∀ e, e ∈ others ↔ e ∈ overShare ∧ e.1 ≠ worst := by
        intro e
        rw [← hothers, List.mem_filter, decide_eq_true_iff]
      obtain ⟨hle, hge⟩ := threshold_spec (others.map Prod.snd) (toLex (1, -1))
        (scoreOf latency weight A worst)
      have habove : Above latency weight A worst := by
        rw [← above_iff hlatency hweight] at hqabove ⊢
        exact hqabove.trans_le (Prod.Lex.monotone_fst _ _ (hscore ▸ hmax _ hqover))
      obtain ⟨B, m, back, evicted, htrim, htrimmed, hne⟩ := trimPeer_eq
        (l := (s.announcementsOf worst).insertionSort evictedBefore) hlatency hweight hs hblamed
        (fun p hp hpw hpabove => hle _ (List.mem_map.mpr
          ⟨_, (hothersMem _).mpr ⟨htracked p hp hpabove, hpw⟩, rfl⟩))
        hholder
        (hge (fun y hy => by
            obtain ⟨e, he, rfl⟩ := List.mem_map.mp hy
            exact hscore ▸ hmax e ((hothersMem e).mp he).1)
          ((lt_score_iff hlatency hweight).mpr habove).le)
        (fun a ha => by
          rw [List.mem_insertionSort, mem_announcementsOf hs] at ha
          exact ⟨(hs.get_mem _ _ a ha).2.1, ha⟩)
        ((List.perm_insertionSort _ _).nodup_iff.mpr (nodup_announcementsOf hs))
        (fun w a ha => by
          rw [List.mem_insertionSort, mem_announcementsOf hs, (hs.get_mem w _ a ha).1]
          exact ha)
      obtain ⟨l, hl⟩ : ∃ l, s.byPeer.get? worst = some l := by
        obtain ⟨tx, htx⟩ := mem_holders.mp hholder
        have hknown := (hs.byPeer_mem worst _).mpr (hs.mem_get _ htx)
        cases h : s.byPeer.get? worst with
        | none =>
          rw [h] at hknown
          cases hknown
        | some l => exact ⟨l, rfl⟩
      have hcard : B.card ≤ fuel := by
        have := Finset.card_lt_card (Finset.ssubset_iff_subset_ne.mpr
          ⟨htrimmed.subset, hne hcrowded⟩)
        omega
      obtain ⟨C, t, later, ht, hC, hholds, hlimits, hfair⟩ :
          ∃ C t later, limitLoop lim latency weight fuel
            (others ++ (back.map fun score => (worst, score)).toList) m = some (t, later) ∧
          C ⊆ B ∧ Holds C t ∧ ¬Crowded lim C ∧ FairEvictions latency weight m later t := by
        by_cases hstill : Crowded lim B
        · refine ih htrimmed.holds (fun C hC => hblamed C (hC.trans htrimmed.subset)) ⟨?_, ?_⟩ hcard
          · intro e he
            rcases List.mem_append.mp he with he | he
            · obtain ⟨he, hew⟩ := (hothersMem e).mp he
              have huse := htrimmed.others e.1 hew
              rw [mem_holders_congr huse, scoreOf_congr huse]
              exact hover.current e he
            · obtain ⟨score, hback, rfl⟩ := Option.map_eq_some_iff.mp (Option.mem_toList.mp he)
              exact htrimmed.back_eq score hback
          · intro p hp hnone
            by_cases hpw : p = worst
            · subst hpw
              cases hback : back with
              | none => exact absurd hp ((htrimmed.done hback).resolve_right (not_not.mpr hstill))
              | some score =>
                refine absurd rfl (hnone (p, score) (List.mem_append_right _ ?_))
                rw [hback]
                exact List.mem_singleton.mpr rfl
            · have huse := htrimmed.others p hpw
              rw [← above_iff hlatency hweight, scoreOf_congr huse, above_iff hlatency hweight]
              refine hover.within p ((mem_holders_congr huse).mp hp) fun e he hep => ?_
              exact hnone e (List.mem_append_left _ ((hothersMem e).mpr ⟨he, hep ▸ hpw⟩)) hep
        · exact ⟨B, m, [], limitLoop_of_not_crowded htrimmed.holds hstill _ _ _ _,
            Finset.Subset.refl B, htrimmed.holds, hstill, .nil m⟩
      refine ⟨C, t, evicted ++ later, ?_, hC.trans htrimmed.subset, hholds, hlimits,
        htrimmed.fair.append hfair⟩
      simp only [hworst, hothers, hl, htrim, ht, Option.bind_eq_bind, Option.bind_some,
        Option.pure_def]
    · exact ⟨A, s, [], limitLoop_of_not_crowded hs hcrowded _ _ _ _, Finset.Subset.refl A, hs,
        hcrowded, .nil s⟩

/-- The scores the loop starts with. -/
theorem scoresOver_eq (hlatency : 0 < latency) (hweight : 0 < weight)
    {l : List (PeerId × PeerUse)} (hl : ∀ e ∈ l, e.2 = useOf A e.1) :
    ∃ overShare, scoresOver latency weight l = some overShare ∧
      ∀ e, e ∈ overShare ↔ (∃ use, (e.1, use) ∈ l) ∧ e.2 = scoreOf latency weight A e.1 ∧
        Above latency weight A e.1 := by
  induction l with
  | nil => exact ⟨[], rfl, by simp⟩
  | cons e l ih =>
    obtain ⟨p, use⟩ := e
    obtain ⟨huse, hl⟩ := List.forall_mem_cons.mp hl
    obtain ⟨overShare, hover, hmem⟩ := ih hl
    dsimp only at huse
    subst huse
    refine ⟨if 1 < (ofLex (scoreOf latency weight A p)).1
      then (p, scoreOf latency weight A p) :: overShare else overShare, ?_, fun e => ?_⟩
    · rw [scoresOver, dosScore_eq hlatency hweight, hover, Option.bind_eq_bind, Option.bind_some,
        Option.bind_eq_bind, Option.bind_some]
      rfl
    · by_cases hp : 1 < (ofLex (scoreOf latency weight A p)).1
      · rw [if_pos hp, List.mem_cons, hmem]
        rw [above_iff hlatency hweight] at hp
        constructor
        · rintro (rfl | ⟨⟨use, huse⟩, hscore⟩)
          · exact ⟨⟨_, List.mem_cons_self⟩, rfl, hp⟩
          · exact ⟨⟨use, List.mem_cons_of_mem _ huse⟩, hscore⟩
        · rintro ⟨⟨use, huse⟩, hscore, habove⟩
          rcases List.mem_cons.mp huse with heq | huse
          · rw [Prod.mk.injEq] at heq
            exact .inl (Prod.ext heq.1 (by rw [hscore, heq.1]))
          · exact .inr ⟨⟨use, huse⟩, hscore, habove⟩
      · rw [if_neg hp, hmem]
        rw [above_iff hlatency hweight] at hp
        constructor
        · rintro ⟨⟨use, huse⟩, hrest⟩
          exact ⟨⟨use, List.mem_cons_of_mem _ huse⟩, hrest⟩
        · rintro ⟨⟨use, huse⟩, hscore, habove⟩
          rcases List.mem_cons.mp huse with heq | huse
          · rw [Prod.mk.injEq] at heq
            exact absurd (heq.1 ▸ habove) hp
          · exact ⟨⟨use, huse⟩, hscore, habove⟩

end Scores

/-- The peers in use, with what they use. -/
theorem mem_uses {use : PeerUse} : (p, use) ∈ s.uses ↔ s.use.get? p = some use := by
  unfold uses
  rw [List.mem_filterMap]
  constructor
  · rintro ⟨q, -, hq⟩
    obtain ⟨use', huse', heq⟩ := Option.map_eq_some_iff.mp hq
    rw [Prod.mk.injEq] at heq
    rw [← heq.1, ← heq.2]
    exact huse'
  · intro h
    exact ⟨p, Dict.mem_keys_of_get? h, by rw [h]; rfl⟩

theorem uses_eq_nil_iff (hs : Holds A s) : s.uses = [] ↔ holders A = ∅ := by
  rw [List.eq_nil_iff_forall_not_mem, Finset.eq_empty_iff_forall_notMem]
  constructor
  · intro h p hp
    obtain ⟨use, huse⟩ := (s.use.mem_keys_iff p).mp (hs.use_keys.mpr hp)
    exact h (p, use) (mem_uses.mpr huse)
  · rintro h ⟨p, use⟩ hp
    exact h p (hs.use_keys.mp (Dict.mem_keys_of_get? (mem_uses.mp hp)))

/-- With no peer there is no announcement, and nothing to do. -/
theorem limitOrphans_of_no_peer (lim : OrphanLimits) (hs : Holds A s) (hnone : holders A = ∅) :
    limitOrphans lim s = some (s, ⟨s, []⟩) ∧ ¬Crowded lim A := by
  have hcrowded : ¬Crowded lim A := by
    intro h
    obtain ⟨p, hp, -⟩ := h.exists_above le_rfl
    rw [hnone] at hp
    cases hp
  refine ⟨?_, hcrowded⟩
  unfold limitOrphans
  simp only [(uses_eq_nil_iff hs).mpr hnone, scoresOver, limitLoop_of_not_crowded hs hcrowded,
    Option.bind_eq_bind, Option.bind_some, Option.pure_def]

/-- **`_limit_orphans`, of peers no more than the global latency score.** -/
theorem limitOrphans_eq (hs : Holds A s) (hweight : 0 < lim.reservedPeerWeight)
    (hpeers : (holders A).card ≤ lim.maxGlobalLatencyScore) :
    ∃ B t evicted, limitOrphans lim s = some (t, ⟨s, evicted⟩) ∧ B ⊆ A ∧ Holds B t ∧
      ¬Crowded lim B ∧
      FairEvictions (s.maxPeerLatencyScore lim) lim.reservedPeerWeight s evicted t := by
  rcases Finset.eq_empty_or_nonempty (holders A) with hnone | hsome
  · obtain ⟨heq, hcrowded⟩ := limitOrphans_of_no_peer lim hs hnone
    exact ⟨A, s, [], heq, Finset.Subset.refl A, hs, hcrowded, .nil s⟩
  · unfold limitOrphans
    rw [maxPeerLatencyScore_eq hs, hs.announcements_eq, Int.toNat_natCast]
    have hlatency : 0 < latencyShare lim (holders A).card := by
      unfold latencyShare
      have hpos := Finset.card_pos.mpr hsome
      exact Nat.div_pos (max_le hpeers (hpos.trans_le hpeers)) (by omega)
    have huse : ∀ p, (∃ use, (p, use) ∈ s.uses) ↔ p ∈ holders A := by
      intro p
      rw [← hs.use_keys, s.use.mem_keys_iff]
      exact exists_congr fun use => mem_uses
    obtain ⟨overShare, hover, hmem⟩ := scoresOver_eq (A := A) hlatency hweight (l := s.uses) (by
      rintro ⟨p, use⟩ he
      rw [mem_uses, hs.use_eq] at he
      split at he
      · exact (Option.some.inj he).symm
      · cases he)
    obtain ⟨B, t, evicted, ht, hB, hholds, hlimits, hfair⟩ := limitLoop_eq hlatency
      hweight hs
      (fun B hB h => h.exists_above (Finset.card_le_card (holders_mono hB)))
      ⟨fun e he => ⟨(huse e.1).mp ((hmem e).mp he).1, ((hmem e).mp he).2.1⟩,
        fun p hp hnone habove => hnone (p, scoreOf _ _ A p)
          ((hmem _).mpr ⟨(huse p).mpr hp, rfl, habove⟩) rfl⟩
      le_rfl
    refine ⟨B, t, evicted, ?_, hB, hholds, hlimits, hfair⟩
    simp only [hover, ht, Option.bind_eq_bind, Option.bind_some, Option.pure_def]

theorem shares_ne_zero {use : PeerUse} {latency weight : ℤ} {score : OrphanScore}
    (h : use.dosScore latency weight = some score) : latency ≠ 0 ∧ weight ≠ 0 := by
  unfold PeerUse.dosScore ratio at h
  rw [Option.bind_eq_bind, Option.bind_eq_some_iff] at h
  obtain ⟨x, hx, h⟩ := h
  rw [Option.bind_eq_some_iff] at h
  obtain ⟨y, hy, -⟩ := h
  constructor
  · intro h0
    rw [if_pos h0] at hx
    cases hx
  · intro h0
    rw [if_pos h0] at hy
    cases hy

/-- **The scores of the peers in use divide by neither share, or `_limit_orphans` returns.** -/
theorem limitOrphans_of_scores (hs : Holds A s)
    (hscores : scoresOver (s.maxPeerLatencyScore lim) lim.reservedPeerWeight s.uses ≠ none) :
    ∃ B t evicted, limitOrphans lim s = some (t, ⟨s, evicted⟩) ∧ B ⊆ A ∧ Holds B t ∧
      FairEvictions (s.maxPeerLatencyScore lim) lim.reservedPeerWeight s evicted t := by
  by_cases hnone : holders A = ∅
  · obtain ⟨heq, -⟩ := limitOrphans_of_no_peer lim hs hnone
    exact ⟨A, s, [], heq, Finset.Subset.refl A, hs, .nil s⟩
  · -- the score of the first peer shows both shares
    have huses : s.uses ≠ [] := fun h => hnone ((uses_eq_nil_iff hs).mp h)
    obtain ⟨⟨p, use⟩, rest, hrest⟩ := List.exists_cons_of_ne_nil huses
    obtain ⟨score, hscore⟩ : ∃ score, use.dosScore (s.maxPeerLatencyScore lim)
        lim.reservedPeerWeight = some score := by
      rw [← Option.ne_none_iff_exists']
      intro h0
      rw [hrest, scoresOver, h0] at hscores
      exact hscores rfl
    obtain ⟨hlatency, hweight⟩ := shares_ne_zero hscore
    have hpeers : (holders A).card ≤ lim.maxGlobalLatencyScore := by
      by_contra hlt
      apply hlatency
      rw [maxPeerLatencyScore_eq hs, latencyShare, Nat.div_eq_of_lt (lt_max_of_lt_left (by omega))]
      rfl
    have hpos : 0 < lim.reservedPeerWeight := by omega
    obtain ⟨B, t, evicted, heq, hB, hholds, -, hfair⟩ := limitOrphans_eq hs hpos hpeers
    exact ⟨B, t, evicted, heq, hB, hholds, hfair⟩

end TxOrphanage

end BtclibNode
