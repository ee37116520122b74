/-
# Strings

`_string` reads the strings of the grammar: a piece at a time, its filter pairs the halves.
-/
import BtclibNode.Lib.ExceptBind
import BtclibNode.Settings.Grammar

namespace BtclibNode.Settings

/-! ## What a piece does to the filter -/

/-- What the filter has, between pieces, after what a piece stands for. -/
def takePiece (out : List Char) (first : ℕ) : Char ⊕ ℕ → Option (List Char × ℕ)
  | .inl c => some (out ++ [c], first)
  | .inr code =>
    if FirstHalf code then if first ≠ 0 then none else some (out, code)
    else if SecondHalf code then
      if first = 0 then none else some (out ++ [pairChar first code], 0)
    else if first ≠ 0 ∨ 0x10FFFF < code then none
    else some (out ++ [Char.ofNat code], first)

/-- And after what more pieces stand for. -/
def takePieces (out : List Char) (first : ℕ) : List (Char ⊕ ℕ) → Option (List Char × ℕ)
  | [] => some (out, first)
  | m :: ms => (takePiece out first m).bind fun s => takePieces s.1 s.2 ms

theorem takePieces_append (out : List Char) (first : ℕ) (ms ms' : List (Char ⊕ ℕ)) :
    takePieces out first (ms ++ ms') =
      (takePieces out first ms).bind fun s => takePieces s.1 s.2 ms' := by
  induction ms generalizing out first with
  | nil => rfl
  | cons m ms ih =>
    rw [List.cons_append, takePieces, takePieces, Option.bind_assoc]
    exact congrArg _ (funext fun s => ih s.1 s.2)

theorem takePieces_map_inl (out : List Char) (first : ℕ) (between : List Char) :
    takePieces out first (between.map .inl) = some (out ++ between, first) := by
  induction between generalizing out with
  | nil => rw [List.append_nil]; rfl
  | cons c between ih =>
    rw [List.map_cons, takePieces, takePiece, Option.bind_some, ih, List.append_assoc]
    rfl

theorem FirstHalf.ne_zero {code : ℕ} (h : FirstHalf code) : code ≠ 0 :=
  Nat.ne_of_gt (Nat.lt_of_lt_of_le (by decide) h.1)

theorem SecondHalf.not_first {code : ℕ} (h : SecondHalf code) : ¬ FirstHalf code :=
  fun hfirst => Nat.lt_irrefl _ (Nat.lt_of_lt_of_le hfirst.2 h.1)

theorem takePiece_scalar {code : ℕ} (hfirst : ¬ FirstHalf code) (hsecond : ¬ SecondHalf code)
    (hmax : code ≤ 0x10FFFF) (out : List Char) :
    takePiece out 0 (.inr code) = some (out ++ [Char.ofNat code], 0) := by
  rw [takePiece, if_neg hfirst, if_neg hsecond, if_neg (by omega)]

theorem takePiece_second {first second : ℕ} (hfirst : first ≠ 0) (hsecond : SecondHalf second)
    (out : List Char) :
    takePiece out first (.inr second) = some (out ++ [pairChar first second], 0) := by
  rw [takePiece, if_neg hsecond.not_first, if_pos hsecond, if_neg hfirst]

/-- The pieces of a string leave the filter with what they spell and no half. -/
theorem Spells.takePieces {ms : List (Char ⊕ ℕ)} {s : List Char} (h : Spells ms s)
    (out : List Char) : takePieces out 0 ms = some (out ++ s, 0) := by
  induction h generalizing out with
  | nil => rw [List.append_nil]; rfl
  | @char c ms s h ih =>
    rw [Settings.takePieces, takePiece, Option.bind_some, ih, List.append_assoc]
    rfl
  | @code code ms s hfirst hsecond hmax h ih =>
    rw [Settings.takePieces, takePiece_scalar hfirst hsecond hmax, Option.bind_some, ih,
      List.append_assoc]
    rfl
  | @pair first second between s ms hfirst hsecond h ih =>
    rw [Settings.takePieces, takePiece, if_pos hfirst, if_neg (not_not.mpr rfl),
      Option.bind_some, takePieces_append, takePieces_map_inl, Option.bind_some,
      Settings.takePieces, takePiece_second hfirst.ne_zero hsecond, Option.bind_some, ih]
    simp only [List.append_assoc, List.singleton_append]

/-- A first half in the filter is paired by the first code point that follows it. -/
theorem paired_of_takePieces {out out' : List Char} {first : ℕ} {ms : List (Char ⊕ ℕ)}
    (hfirst : first ≠ 0) (h : takePieces out first ms = some (out', 0)) :
    ∃ between second ms', ms = between.map .inl ++ .inr second :: ms' ∧ SecondHalf second ∧
      takePieces (out ++ between ++ [pairChar first second]) 0 ms' = some (out', 0) := by
  induction ms generalizing out with
  | nil =>
    rw [takePieces, Option.some.injEq, Prod.mk.injEq] at h
    exact absurd h.2 hfirst
  | cons m ms ih =>
    cases m with
    | inl c =>
      obtain ⟨between, second, ms', rfl, hsecond, hrest⟩ := ih h
      refine ⟨c :: between, second, ms', rfl, hsecond, ?_⟩
      rw [← hrest, List.append_assoc out [c]]
      rfl
    | inr code =>
      rw [takePieces, takePiece] at h
      split_ifs at h with hhalf hsecond hother
      · cases h
      · refine ⟨[], code, ms, rfl, hsecond, ?_⟩
        rw [List.append_nil]
        exact h
      · cases h
      · exact absurd (Or.inl hfirst) hother

/-- And only the pieces of a string do. -/
theorem spells_of_takePieces {out out' : List Char} (n : ℕ) {ms : List (Char ⊕ ℕ)}
    (hn : ms.length ≤ n) (h : takePieces out 0 ms = some (out', 0)) :
    ∃ s, out' = out ++ s ∧ Spells ms s := by
  induction n generalizing ms out with
  | zero =>
    rw [List.length_eq_zero_iff.mp (Nat.le_zero.mp hn)] at h ⊢
    rw [takePieces, Option.some.injEq, Prod.mk.injEq] at h
    exact ⟨[], by rw [List.append_nil, h.1], .nil⟩
  | succ n ih =>
    cases ms with
    | nil =>
      rw [takePieces, Option.some.injEq, Prod.mk.injEq] at h
      exact ⟨[], by rw [List.append_nil, h.1], .nil⟩
    | cons m ms =>
      have hms : ms.length ≤ n := Nat.le_of_succ_le_succ hn
      cases m with
      | inl c =>
        obtain ⟨s, rfl, hs⟩ := ih hms h
        exact ⟨c :: s, by rw [List.append_assoc]; rfl, .char hs⟩
      | inr code =>
        rw [takePieces, takePiece] at h
        by_cases hfirst : FirstHalf code
        · rw [if_pos hfirst, if_neg (not_not.mpr rfl), Option.bind_some] at h
          obtain ⟨between, second, ms', rfl, hsecond, hrest⟩ :=
            paired_of_takePieces hfirst.ne_zero h
          have hms' : ms'.length ≤ n := by
            rw [List.length_append, List.length_cons] at hms
            omega
          obtain ⟨s, rfl, hs⟩ := ih hms' hrest
          refine ⟨between ++ pairChar code second :: s, ?_, .pair hfirst hsecond hs⟩
          simp only [List.append_assoc, List.singleton_append]
        · rw [if_neg hfirst] at h
          by_cases hsecond : SecondHalf code
          · rw [if_pos hsecond, if_pos rfl] at h
            cases h
          · rw [if_neg hsecond] at h
            split_ifs at h with hother
            · cases h
            · obtain ⟨s, rfl, hs⟩ := ih hms h
              have hmax : code ≤ 0x10FFFF := by omega
              exact ⟨Char.ofNat code :: s, by rw [List.append_assoc]; rfl,
                .code hfirst hsecond hmax hs⟩

/-! ## The filter between pieces -/

variable {out out' text rest s : List Char} {first first' cp : ℕ}

/-- A code point that may be half of a pair. -/
theorem codePoint_bind (out : List Char) (first cp code : ℕ) (rest : List Char) :
    ((Chars.mk out first cp 0).codePoint code).bind (fun chars => string chars rest) =
      (takePiece out first (.inr code)).elim (.error .invalidJson)
        fun s => string ⟨s.1, s.2, cp, 0⟩ rest := by
  rw [Chars.codePoint, takePiece, if_neg (not_not.mpr rfl)]
  split_ifs <;> rfl

theorem Inside.le {c : Char} (h : Inside c) : 0x80 ≤ c.toNat := h ▸ Nat.and_le_left

theorem not_lt_space {c : Char} (h : 32 ≤ c.toNat) : ¬ c < ' ' := fun hlt => by
  have hlt : c.toNat < 32 := hlt
  omega

/-- A character of the string itself goes to the filter. -/
theorem string_plain {c : Char} (chars : Chars) (hspace : ¬ c < ' ') (hquote : c ≠ '"')
    (hescape : c ≠ '\\') (rest : List Char) :
    string chars (c :: rest) = (chars.byte c.toNat).bind fun chars => string chars rest := by
  rw [string.eq_def]
  dsimp only
  rw [if_neg hspace, if_neg hquote, if_neg hescape]
  rfl

/-- A high octet is a character of the string itself. -/
theorem string_high {c : Char} (chars : Chars) (h : 0x80 ≤ c.toNat) (rest : List Char) :
    string chars (c :: rest) = (chars.byte c.toNat).bind fun chars => string chars rest := by
  refine string_plain chars (not_lt_space (by omega)) ?_ ?_ rest
  · rintro rfl
    exact absurd h (by decide)
  · rintro rfl
    exact absurd h (by decide)

/-- An octet inside a sequence. -/
theorem byte_inside {c : Char} (h : Inside c) {state : ℕ} (hstate : state ≠ 0)
    (out : List Char) (first cp : ℕ) :
    (Chars.mk out first cp state).byte c.toNat =
      if state - 6 = 0 then
        (Chars.mk out first (cp ||| payload c <<< (state - 6)) (state - 6)).codePoint
          (cp ||| payload c <<< (state - 6))
      else .ok ⟨out, first, cp ||| payload c <<< (state - 6), state - 6⟩ := by
  rw [Chars.byte, if_pos hstate, if_neg (fun hne => hne h)]
  rfl

theorem byte_lead {c below mask state : ℕ} (h : 0x80 ≤ c)
    (hfind : leads.find? (fun lead => decide (0xC0 ≤ c ∧ c < lead.1)) = some (below, mask, state))
    (out : List Char) (first cp : ℕ) :
    (Chars.mk out first cp 0).byte c = .ok ⟨out, first, (c &&& mask) <<< state, state⟩ := by
  rw [Chars.byte, if_neg (not_not.mpr rfl), if_neg (by omega), hfind]

theorem byte_ascii {c : Char} (h : c.toNat < 0x80) (out : List Char) (first cp : ℕ) :
    (Chars.mk out first cp 0).byte c.toNat = .ok ⟨out ++ [c], first, cp, 0⟩ := by
  rw [Chars.byte, if_neg (not_not.mpr rfl), if_pos h, Char.ofNat_toNat]

theorem escaped_ascii {c ch : Char} (h : escaped c = some ch) : ch.toNat < 0x80 := by
  unfold escaped at h
  split at h <;> cases h <;> decide

/-- The escapes with a letter. -/
theorem string_escape {c ch : Char} (h : escaped c = some ch) (chars : Chars)
    (rest : List Char) :
    string chars ('\\' :: c :: rest) =
      (chars.byte ch.toNat).bind fun chars => string chars rest := by
  rw [string.eq_def]
  dsimp only
  rw [if_neg (by decide), if_neg (by decide), if_pos rfl]
  split
  · next heq =>
    rw [List.cons.injEq] at heq
    rw [heq.1] at h
    cases h
  · next heq =>
    rw [List.cons.injEq] at heq
    rw [← heq.1, ← heq.2, h]
    rfl
  · next heq => cases heq

/-- An escape with four digits. -/
theorem string_unicode {a b c d : Char} {code : ℕ} (h : hex4 a b c d = some code)
    (chars : Chars) (rest : List Char) :
    string chars ('\\' :: 'u' :: a :: b :: c :: d :: rest) =
      (chars.codePoint code).bind fun chars => string chars rest := by
  rw [string.eq_def]
  dsimp only
  rw [if_neg (by decide), if_neg (by decide), if_pos rfl]
  split
  · next heq =>
    obtain ⟨-, rfl, rfl, rfl, rfl, rfl⟩ : _ ∧ _ ∧ _ ∧ _ ∧ _ ∧ _ := by
      simpa only [List.cons.injEq] using heq
    rw [h]
    rfl
  · next hnot heq =>
    rw [List.cons.injEq] at heq
    exact absurd heq.2.symm (hnot _ _ _ _ _ heq.1.symm)
  · next heq => cases heq

/-- The first octets of the sequences of two, three and four. -/
theorem find_two {c : ℕ} (h : 0xC0 ≤ c ∧ c < 0xE0) :
    leads.find? (fun lead => decide (0xC0 ≤ c ∧ c < lead.1)) = some (0xE0, 0x1F, 6) := by
  rw [leads, List.find?_cons, decide_eq_true h]

theorem find_three {c : ℕ} (h : 0xE0 ≤ c ∧ c < 0xF0) :
    leads.find? (fun lead => decide (0xC0 ≤ c ∧ c < lead.1)) = some (0xF0, 0x0F, 12) := by
  rw [leads, List.find?_cons, decide_eq_false (by omega : ¬ (0xC0 ≤ c ∧ c < 0xE0)),
    List.find?_cons, decide_eq_true (by omega : 0xC0 ≤ c ∧ c < 0xF0)]

theorem find_four {c : ℕ} (h : 0xF0 ≤ c ∧ c < 0xF8) :
    leads.find? (fun lead => decide (0xC0 ≤ c ∧ c < lead.1)) = some (0xF8, 0x07, 18) := by
  rw [leads, List.find?_cons, decide_eq_false (by omega : ¬ (0xC0 ≤ c ∧ c < 0xE0)),
    List.find?_cons, decide_eq_false (by omega : ¬ (0xC0 ≤ c ∧ c < 0xF0)),
    List.find?_cons, decide_eq_true (by omega : 0xC0 ≤ c ∧ c < 0xF8)]

theorem find_none {c : ℕ} (htwo : ¬ (0xC0 ≤ c ∧ c < 0xE0)) (hthree : ¬ (0xE0 ≤ c ∧ c < 0xF0))
    (hfour : ¬ (0xF0 ≤ c ∧ c < 0xF8)) :
    leads.find? (fun lead => decide (0xC0 ≤ c ∧ c < lead.1)) = none := by
  rw [leads, List.find?_cons, decide_eq_false htwo, List.find?_cons,
    decide_eq_false (by omega : ¬ (0xC0 ≤ c ∧ c < 0xF0)), List.find?_cons,
    decide_eq_false (by omega : ¬ (0xC0 ≤ c ∧ c < 0xF8)), List.find?_nil]

/-- An octet inside a sequence that more octets follow, and one that is the last. -/
theorem string_inside {c : Char} (h : Inside c) {state : ℕ} (hstate : 6 < state)
    (out : List Char) (first cp : ℕ) (rest : List Char) :
    string ⟨out, first, cp, state⟩ (c :: rest) =
      string ⟨out, first, cp ||| payload c <<< (state - 6), state - 6⟩ rest := by
  rw [string_high _ h.le, byte_inside h (by omega), if_neg (by omega)]
  rfl

theorem string_last {c : Char} (h : Inside c) (out : List Char) (first cp : ℕ)
    (rest : List Char) :
    string ⟨out, first, cp, 6⟩ (c :: rest) =
      ((Chars.mk out first (cp ||| payload c) 0).codePoint (cp ||| payload c)).bind
        fun chars => string chars rest := by
  rw [string_high _ h.le, byte_inside h (by decide), if_pos rfl]
  rfl

/-- The first octet of a sequence. -/
theorem string_lead {c : Char} {below mask state : ℕ} (h : 0x80 ≤ c.toNat)
    (hfind : leads.find? (fun lead => decide (0xC0 ≤ c.toNat ∧ c.toNat < lead.1)) =
      some (below, mask, state)) (out : List Char) (first cp : ℕ) (rest : List Char) :
    string ⟨out, first, cp, 0⟩ (c :: rest) =
      string ⟨out, first, (c.toNat &&& mask) <<< state, state⟩ rest := by
  rw [string_high _ h, byte_lead h hfind]
  rfl

/-- **The loop takes a piece** as its filter does what the piece stands for. -/
theorem string_piece {p : List Char} {m : Char ⊕ ℕ} (h : Piece p m) (out : List Char)
    (first cp : ℕ) (rest : List Char) :
    ∃ cp', string ⟨out, first, cp, 0⟩ (p ++ rest) =
      (takePiece out first m).elim (.error .invalidJson)
        fun s => string ⟨s.1, s.2, cp', 0⟩ rest := by
  cases h with
  | @ascii c hcontrol hquote hescape hascii =>
    refine ⟨cp, ?_⟩
    rw [List.singleton_append, string_plain _ hcontrol hquote hescape, byte_ascii hascii]
    rfl
  | @escape c ch h =>
    refine ⟨cp, ?_⟩
    rw [List.cons_append, List.singleton_append, string_escape h, byte_ascii (escaped_ascii h)]
    rfl
  | @unicode a b c d code h =>
    refine ⟨cp, ?_⟩
    change string _ ('\\' :: 'u' :: a :: b :: c :: d :: rest) = _
    rw [string_unicode h, codePoint_bind]
  | @two lead a hlead ha =>
    refine ⟨(lead.toNat &&& 0x1F) <<< 6 ||| payload a, ?_⟩
    change string _ (lead :: a :: rest) = _
    rw [string_lead (by omega) (find_two hlead), string_last ha, codePoint_bind]
  | @three lead a b hlead ha hb =>
    refine ⟨(lead.toNat &&& 0x0F) <<< 12 ||| payload a <<< 6 ||| payload b, ?_⟩
    change string _ (lead :: a :: b :: rest) = _
    rw [string_lead (by omega) (find_three hlead), string_inside ha (by decide),
      string_last hb, codePoint_bind]
  | @four lead a b c hlead ha hb hc =>
    refine ⟨(lead.toNat &&& 0x07) <<< 18 ||| payload a <<< 12 ||| payload b <<< 6 |||
      payload c, ?_⟩
    change string _ (lead :: a :: b :: c :: rest) = _
    rw [string_lead (by omega) (find_four hlead), string_inside ha (by decide),
      string_inside hb (by decide), string_last hc, codePoint_bind]

/-- The loop takes pieces. -/
theorem string_pieces {ms : List (Char ⊕ ℕ)} (h : Pieces text ms)
    (htake : takePieces out first ms = some (out', first')) (cp : ℕ) (rest : List Char) :
    ∃ cp', string ⟨out, first, cp, 0⟩ (text ++ rest) =
      string ⟨out', first', cp', 0⟩ rest := by
  induction h generalizing out first cp with
  | nil =>
    rw [takePieces, Option.some.injEq, Prod.mk.injEq] at htake
    exact ⟨cp, by rw [htake.1, htake.2]; rfl⟩
  | @cons p text m ms h hs ih =>
    obtain ⟨⟨out₁, first₁⟩, hm, hms⟩ := Option.bind_eq_some_iff.mp htake
    obtain ⟨cp₁, hp⟩ := string_piece h out first cp (text ++ rest)
    obtain ⟨cp₂, htext⟩ := ih hms cp₁
    refine ⟨cp₂, ?_⟩
    rw [List.append_assoc, hp, hm]
    exact htext

/-- **A string of the grammar is read.** -/
theorem string_of_text (h : StringText text s) (rest : List Char) :
    string .start (text ++ '"' :: rest) = .ok (s, rest) := by
  obtain ⟨ms, hpieces, hspells⟩ := h
  obtain ⟨cp, hstring⟩ := string_pieces hpieces (hspells.takePieces []) 0 ('"' :: rest)
  change string ⟨[], 0, 0, 0⟩ _ = _
  rw [hstring, string.eq_def]
  rfl

/-! ## What is read is a string of the grammar -/

/-- **What a character did** where the loop came to its end. -/
theorem string_cases {c : Char} {chars : Chars} {r : List Char × List Char}
    (h : string chars (c :: rest) = .ok r) :
    ¬ c < ' ' ∧
      ((c = '"' ∧ chars.finalize = .ok r.1 ∧ rest = r.2) ∨
      (c = '\\' ∧ ∃ a₁ a₂ a₃ a₄ code rest' chars', rest = 'u' :: a₁ :: a₂ :: a₃ :: a₄ :: rest' ∧
        hex4 a₁ a₂ a₃ a₄ = some code ∧ chars.codePoint code = .ok chars') ∨
      (c = '\\' ∧ ∃ e ch rest' chars', rest = e :: rest' ∧ escaped e = some ch ∧
        chars.byte ch.toNat = .ok chars') ∨
      (c ≠ '"' ∧ c ≠ '\\' ∧ ∃ chars', chars.byte c.toNat = .ok chars' ∧
        string chars' rest = .ok r)) := by
  rw [string.eq_def] at h
  dsimp only at h
  split_ifs at h with hspace hquote hescape
  · obtain ⟨value, hvalue, hr⟩ := ExceptBind.bind_eq_ok_iff.mp h
    cases hr
    exact ⟨hspace, .inl ⟨hquote, hvalue, rfl⟩⟩
  · refine ⟨hspace, .inr ?_⟩
    split at h
    · next a₁ a₂ a₃ a₄ rest' =>
      split at h
      · next code hcode =>
        obtain ⟨chars', hchars, -⟩ := ExceptBind.bind_eq_ok_iff.mp h
        exact .inl ⟨hescape, a₁, a₂, a₃, a₄, code, rest', chars', rfl, hcode, hchars⟩
      · cases h
    · next e rest' hnot =>
      split at h
      · next ch hch =>
        obtain ⟨chars', hchars, -⟩ := ExceptBind.bind_eq_ok_iff.mp h
        exact .inr (.inl ⟨hescape, e, ch, rest', chars', rfl, hch, hchars⟩)
      · cases h
    · cases h
  · obtain ⟨chars', hchars, hrest⟩ := ExceptBind.bind_eq_ok_iff.mp h
    exact ⟨hspace, .inr (.inr (.inr ⟨hquote, hescape, chars', hchars, hrest⟩))⟩

/-- In the middle of a sequence the loop wants an octet inside it. -/
theorem inside_of_string {state : ℕ} {r : List Char × List Char} (hstate : state ≠ 0)
    (h : string ⟨out, first, cp, state⟩ text = .ok r) :
    ∃ a text', text = a :: text' ∧ Inside a := by
  have hbyte : ∀ {ch : ℕ} {chars : Chars},
      (Chars.mk out first cp state).byte ch = .ok chars → ch &&& 0xC0 = 0x80 := by
    intro ch chars hch
    rw [Chars.byte, if_pos hstate] at hch
    split_ifs at hch with hinside
    exact not_not.mp hinside
  cases text with
  | nil => cases h
  | cons c text =>
    obtain ⟨-, hquote | ⟨-, a₁, a₂, a₃, a₄, code, rest', chars', -, -, hcode⟩ |
      ⟨-, e, ch, rest', chars', -, hch, hchars⟩ | ⟨-, -, chars', hchars, -⟩⟩ := string_cases h
    · rw [Chars.finalize, if_pos (Or.inl hstate)] at hquote
      cases hquote.2.1
    · rw [Chars.codePoint, if_pos hstate] at hcode
      cases hcode
    · have hle : 0x80 ≤ ch.toNat := Inside.le (hbyte hchars)
      have hlt := escaped_ascii hch
      omega
    · exact ⟨c, text, rfl, hbyte hchars⟩

/-- What the loop read begins with a piece, or ends. -/
theorem piece_of_string {r : List Char × List Char}
    (h : string ⟨out, first, cp, 0⟩ text = .ok r) :
    (text = '"' :: r.2 ∧ first = 0 ∧ out = r.1) ∨
      ∃ p m text', Piece p m ∧ p ≠ [] ∧ text = p ++ text' := by
  cases text with
  | nil => cases h
  | cons c text =>
    obtain ⟨hspace, ⟨hquote, hfinal, hrest⟩ |
      ⟨hescape, a₁, a₂, a₃, a₄, code, rest', chars', hrest, hcode, -⟩ |
      ⟨hescape, e, ch, rest', chars', hrest, hch, -⟩ |
      ⟨hquote, hescape, chars', hbyte, hstring⟩⟩ := string_cases h
    · left
      rw [Chars.finalize] at hfinal
      split_ifs at hfinal with hopen
      cases hfinal
      rw [not_or, not_not] at hopen
      exact ⟨by rw [hquote, hrest], not_not.mp hopen.2, rfl⟩
    · subst hescape hrest
      exact .inr ⟨_, _, rest', .unicode hcode, List.cons_ne_nil _ _, rfl⟩
    · subst hescape hrest
      exact .inr ⟨_, _, rest', .escape hch, List.cons_ne_nil _ _, rfl⟩
    · right
      rw [Chars.byte, if_neg (not_not.mpr rfl)] at hbyte
      by_cases hascii : c.toNat < 0x80
      · exact ⟨_, _, text, .ascii hspace hquote hescape hascii, List.cons_ne_nil _ _, rfl⟩
      · rw [if_neg hascii] at hbyte
        by_cases htwo : 0xC0 ≤ c.toNat ∧ c.toNat < 0xE0
        · rw [find_two htwo] at hbyte
          cases hbyte
          obtain ⟨a, text₁, rfl, ha⟩ := inside_of_string (by decide) hstring
          exact ⟨_, _, text₁, .two htwo ha, List.cons_ne_nil _ _, rfl⟩
        by_cases hthree : 0xE0 ≤ c.toNat ∧ c.toNat < 0xF0
        · rw [find_three hthree] at hbyte
          cases hbyte
          obtain ⟨a, text₁, rfl, ha⟩ := inside_of_string (by decide) hstring
          rw [string_inside ha (by decide)] at hstring
          obtain ⟨b, text₂, rfl, hb⟩ := inside_of_string (by decide) hstring
          exact ⟨_, _, text₂, .three hthree ha hb, List.cons_ne_nil _ _, rfl⟩
        by_cases hfour : 0xF0 ≤ c.toNat ∧ c.toNat < 0xF8
        · rw [find_four hfour] at hbyte
          cases hbyte
          obtain ⟨a, text₁, rfl, ha⟩ := inside_of_string (by decide) hstring
          rw [string_inside ha (by decide)] at hstring
          obtain ⟨b, text₂, rfl, hb⟩ := inside_of_string (by decide) hstring
          rw [string_inside hb (by decide)] at hstring
          obtain ⟨d, text₃, rfl, hd⟩ := inside_of_string (by decide) hstring
          exact ⟨_, _, text₃, .four hfour ha hb hd, List.cons_ne_nil _ _, rfl⟩
        · rw [find_none htwo hthree hfour] at hbyte
          cases hbyte

/-- What the loop read is pieces, which leave the filter with the string and no half. -/
theorem pieces_of_string {r : List Char × List Char} (n : ℕ) (hn : text.length ≤ n)
    (h : string ⟨out, first, cp, 0⟩ text = .ok r) :
    ∃ body ms, text = body ++ '"' :: r.2 ∧ Pieces body ms ∧
      takePieces out first ms = some (r.1, 0) := by
  induction n generalizing text out first cp with
  | zero =>
    rw [List.length_eq_zero_iff.mp (Nat.le_zero.mp hn)] at h
    cases h
  | succ n ih =>
    obtain ⟨rfl, rfl, rfl⟩ | ⟨p, m, text', hp, hne, rfl⟩ := piece_of_string h
    · exact ⟨[], [], rfl, .nil, rfl⟩
    · obtain ⟨cp', hpiece⟩ := string_piece hp out first cp text'
      rw [hpiece] at h
      cases htake : takePiece out first m with
      | none =>
        rw [htake] at h
        cases h
      | some s =>
        rw [htake] at h
        have hlen : text'.length ≤ n := by
          have hpos := List.length_pos_iff.mpr hne
          rw [List.length_append] at hn
          omega
        obtain ⟨body, ms, rfl, hbody, hms⟩ := ih hlen h
        refine ⟨p ++ body, m :: ms, (List.append_assoc ..).symm, .cons hp hbody, ?_⟩
        rw [takePieces, htake]
        exact hms

/-- **What is read is a string of the grammar.** -/
theorem text_of_string (h : string .start text = .ok (s, rest)) :
    ∃ body, text = body ++ '"' :: rest ∧ StringText body s := by
  obtain ⟨body, ms, htext, hbody, hms⟩ := pieces_of_string text.length (Nat.le_refl _) h
  obtain ⟨s', hs', hspells⟩ := spells_of_takePieces ms.length (Nat.le_refl _) hms
  obtain rfl : s = s' := hs'
  exact ⟨body, htext, ms, hbody, hspells⟩

/-! ## What is refused -/

/-- What raises raises `_InvalidJsonError`. -/
def Refuses {α : Type} (x : Except Fault α) : Prop := ∀ e, x = .error e → e = .invalidJson

theorem refuses_ok {α : Type} (a : α) : Refuses (.ok a) := fun _ h => by cases h

theorem refuses_invalid {α : Type} : Refuses (.error .invalidJson : Except Fault α) :=
  fun _ h => by cases h; rfl

theorem Refuses.bind {α β : Type} {x : Except Fault α} {f : α → Except Fault β} (hx : Refuses x)
    (hf : ∀ a, Refuses (f a)) : Refuses (x >>= f) := by
  intro e h
  rcases ExceptBind.bind_eq_error_iff.mp h with h | ⟨a, -, h⟩
  · exact hx e h
  · exact hf a e h

theorem Refuses.ite {α : Type} {p : Prop} [Decidable p] {x y : Except Fault α} (hx : Refuses x)
    (hy : Refuses y) : Refuses (if p then x else y) := by
  split_ifs
  · exact hx
  · exact hy

theorem refuses_codePoint (chars : Chars) (code : ℕ) : Refuses (chars.codePoint code) := by
  rw [Chars.codePoint]
  exact refuses_invalid.ite ((refuses_invalid.ite (refuses_ok _)).ite
    ((refuses_invalid.ite (refuses_ok _)).ite (refuses_invalid.ite (refuses_ok _))))

theorem refuses_byte (chars : Chars) (ch : ℕ) : Refuses (chars.byte ch) := by
  rw [Chars.byte]
  refine (refuses_invalid.ite ((refuses_codePoint _ _).ite (refuses_ok _))).ite
    ((refuses_ok _).ite ?_)
  split
  · exact refuses_ok _
  · exact refuses_invalid

theorem refuses_finalize (chars : Chars) : Refuses chars.finalize := by
  rw [Chars.finalize]
  exact refuses_invalid.ite (refuses_ok _)

/-- A string is refused with `_InvalidJsonError`. -/
theorem refuses_string (n : ℕ) {chars : Chars} (hn : text.length ≤ n) :
    Refuses (string chars text) := by
  induction n generalizing text chars with
  | zero =>
    rw [List.length_eq_zero_iff.mp (Nat.le_zero.mp hn)]
    exact refuses_invalid
  | succ n ih =>
    cases text with
    | nil => exact refuses_invalid
    | cons c text =>
      have htext : text.length ≤ n := Nat.le_of_succ_le_succ hn
      rw [string.eq_def]
      dsimp only
      refine refuses_invalid.ite (Refuses.ite ?_ (Refuses.ite ?_ ?_))
      · exact (refuses_finalize chars).bind fun _ => refuses_ok _
      · split
        · next a₁ a₂ a₃ a₄ rest =>
          simp only [List.length_cons] at htext
          split
          · exact (refuses_codePoint chars _).bind fun _ => ih (by omega)
          · exact refuses_invalid
        · next e rest hnot =>
          rw [List.length_cons] at htext
          split
          · exact (refuses_byte chars _).bind fun _ => ih (by omega)
          · exact refuses_invalid
        · exact refuses_invalid
      · exact (refuses_byte chars _).bind fun _ => ih htext

end BtclibNode.Settings
