/-
# Tokens

`_token` reads the tokens of the grammar behind any whitespace, and every token takes something of
the text but its end.
-/
import BtclibNode.Settings.Numbers

namespace BtclibNode.Settings

variable {text rest ws body s n : List Char} {c : Char} {v : Json} {t : Token}

/-! ## Whitespace -/

theorem Ws.append {ws' : List Char} (h : Ws ws) (h' : Ws ws') : Ws (ws ++ ws') := fun c hc =>
  (List.mem_append.mp hc).elim (h c) (h' c)

theorem ws_nil : Ws [] := fun _ h => absurd h List.not_mem_nil

theorem ends_of_space (h : isSpace c = true) :
    c.isDigit = false ∧ c ≠ '.' ∧ c ≠ 'e' ∧ c ≠ 'E' := by
  simp only [isSpace, Bool.or_eq_true, decide_eq_true_eq] at h
  rcases h with ((rfl | rfl) | rfl) | rfl <;> decide

theorem Ends.behind (hws : Ws ws) (h : Ends rest) : Ends (ws ++ rest) := by
  cases ws with
  | nil => exact h
  | cons c ws =>
    intro d hd
    obtain rfl := Option.some.inj hd
    exact ends_of_space (hws c List.mem_cons_self)

theorem ends_nil : Ends [] := fun _ h => by cases h

theorem ends_mark (hc : c = ',' ∨ c = ']' ∨ c = '}') (rest : List Char) : Ends (c :: rest) := by
  intro d hd
  obtain rfl := Option.some.inj hd
  rcases hc with rfl | rfl | rfl <;> decide

/-- A token stands behind whitespace. -/
theorem token_ws (hws : Ws ws) (text : List Char) : token (ws ++ text) = token text := by
  rw [token, token, List.dropWhile_append_of_pos hws]

theorem token_of_not_space (h : isSpace c = false) (rest : List Char) :
    token (c :: rest) = tokenAt (c :: rest) := by
  rw [token, List.dropWhile_cons_of_neg (by rw [h]; decide)]

/-! ## The tokens are read -/

theorem token_nil : token [] = .ok (.ending, []) := rfl

theorem marks_cases (hc : c ∈ marks) :
    c = '{' ∨ c = '}' ∨ c = '[' ∨ c = ']' ∨ c = ':' ∨ c = ',' := by
  simpa only [marks, List.mem_cons, List.not_mem_nil, or_false] using hc

theorem token_mark (hc : c ∈ marks) (rest : List Char) :
    token (c :: rest) = .ok (.mark c, rest) := by
  have hspace : isSpace c = false := by
    rcases marks_cases hc with rfl | rfl | rfl | rfl | rfl | rfl <;> rfl
  rw [token_of_not_space hspace, tokenAt]
  exact if_pos hc

theorem token_string (h : StringText body s) (rest : List Char) :
    token ('"' :: (body ++ '"' :: rest)) = .ok (.string s, rest) := by
  rw [token_of_not_space rfl, tokenAt]
  dsimp only
  rw [if_neg (by decide), if_pos rfl, string_of_text h]
  rfl

/-- What a number begins with. -/
theorem numberText_cons (h : NumberText n) :
    ∃ c cs, n = c :: cs ∧ (c = '-' ∨ c.isDigit = true) := by
  obtain ⟨hsign, hwhole, -, -⟩ := h
  rcases hsign with rfl | rfl
  · cases hwhole with
    | zero => exact ⟨_, _, rfl, .inr rfl⟩
    | digits hc => exact ⟨_, _, rfl, .inr hc⟩
  · exact ⟨_, _, rfl, .inl rfl⟩

/-- What begins a number begins nothing else. -/
theorem begins_number (hc : c = '-' ∨ c.isDigit = true) :
    isSpace c = false ∧ c ∉ marks ∧ c ≠ '"' := by
  rcases hc with rfl | hc
  · decide
  · refine ⟨?_, ?_, ?_⟩
    · cases hspace : isSpace c with
      | false => rfl
      | true => exact absurd (ends_of_space hspace).1 (by rw [hc]; decide)
    · intro hmem
      rcases marks_cases hmem with rfl | rfl | rfl | rfl | rfl | rfl <;> cases hc
    · rintro rfl
      cases hc

theorem token_number (h : NumberText n) (hrest : Ends rest) :
    token (n ++ rest) = .ok (.scalar (.number n), rest) := by
  have hnumber := number_of_text h hrest
  obtain ⟨c, cs, rfl, hc⟩ := numberText_cons h
  obtain ⟨hspace, hmark, hquote⟩ := begins_number hc
  rw [List.cons_append, token_of_not_space hspace, tokenAt]
  dsimp only
  rw [if_neg hmark, if_neg hquote, if_pos hc, ← List.cons_append, hnumber]
  rfl

theorem token_null (rest : List Char) :
    token ("null".toList ++ rest) = .ok (.scalar .null, rest) := by
  rfl

theorem token_true (rest : List Char) :
    token ("true".toList ++ rest) = .ok (.scalar (.bool true), rest) := by
  rfl

theorem token_false (rest : List Char) :
    token ("false".toList ++ rest) = .ok (.scalar (.bool false), rest) := by
  rfl

/-! ## What is read is a token -/

/-- The texts of a token. -/
inductive TokenText : Token → List Char → Prop where
  | ending : TokenText .ending []
  | mark (c : Char) : TokenText (.mark c) [c]
  | string {body s : List Char} (h : StringText body s) :
      TokenText (.string s) ('"' :: body ++ ['"'])
  | scalar {v : Json} {body : List Char} (hne : body ≠ [])
      (h : ∀ d, Derives d (.value v) body) : TokenText (.scalar v) body

/-- The words that are scalars, as values of the grammar. -/
theorem derives_of_word {word : List Char × Json} (h : word ∈ words) :
    word.1 ≠ [] ∧ ∀ d, Derives d (.value word.2) word.1 := by
  rw [words, List.mem_cons, List.mem_cons, List.mem_singleton] at h
  rcases h with rfl | rfl | rfl
  · exact ⟨by decide, fun _ => .null⟩
  · exact ⟨by decide, fun _ => .true⟩
  · exact ⟨by decide, fun _ => .false⟩

/-- What `_token` reads after whitespace. -/
theorem text_of_tokenAt (h : tokenAt text = .ok (t, rest)) :
    ∃ body, text = body ++ rest ∧
      ((TokenText t body ∧ (t = .ending → rest = [])) ∨
        (t = .scalar (.number ['-']) ∧ body = ['-'] ∧ rest = [])) := by
  cases text with
  | nil =>
    cases h
    exact ⟨[], rfl, .inl ⟨.ending, fun _ => rfl⟩⟩
  | cons c text =>
    rw [tokenAt] at h
    split_ifs at h with hmark hquote hnumber
    · cases h
      exact ⟨[c], rfl, .inl ⟨.mark c, nofun⟩⟩
    · obtain ⟨⟨s, behind⟩, hstring, heq⟩ := ExceptBind.bind_eq_ok_iff.mp h
      cases heq
      obtain ⟨body, rfl, hbody⟩ := text_of_string hstring
      refine ⟨'"' :: body ++ ['"'], ?_, .inl ⟨.string hbody, nofun⟩⟩
      rw [hquote, List.append_assoc]
      rfl
    · obtain ⟨⟨n, behind⟩, htext, heq⟩ := ExceptBind.bind_eq_ok_iff.mp h
      cases heq
      obtain ⟨hsplit, hn | ⟨rfl, rfl⟩⟩ := text_of_number hnumber htext
      · obtain ⟨d, ds, rfl, -⟩ := numberText_cons hn
        exact ⟨_, hsplit, .inl ⟨.scalar (List.cons_ne_nil _ _) fun _ => .number hn, nofun⟩⟩
      · exact ⟨_, hsplit, .inr ⟨rfl, rfl, rfl⟩⟩
    · split at h
      · next word scalar hfind =>
        cases h
        obtain ⟨hne, hderives⟩ := derives_of_word (List.mem_of_find?_eq_some hfind)
        have hword := List.find?_some hfind
        obtain ⟨behind, hbehind⟩ := List.isPrefixOf_iff_prefix.mp hword
        refine ⟨word, ?_, .inl ⟨.scalar hne hderives, nofun⟩⟩
        rw [← hbehind, List.drop_left]
      · cases h

/-- **What `_token` reads.** -/
theorem text_of_token (h : token text = .ok (t, rest)) :
    ∃ ws body, Ws ws ∧ text = ws ++ (body ++ rest) ∧
      ((TokenText t body ∧ (t = .ending → rest = [])) ∨
        (t = .scalar (.number ['-']) ∧ body = ['-'] ∧ rest = [])) := by
  obtain ⟨body, hbody, ht⟩ := text_of_tokenAt h
  refine ⟨text.takeWhile isSpace, body, fun d hd => ?_, ?_, ht⟩
  · exact List.all_eq_true.mp List.all_takeWhile d hd
  · rw [← hbody, List.takeWhile_append_dropWhile]

theorem TokenText.ne_nil {body : List Char} (h : TokenText t body) (ht : t ≠ .ending) :
    body ≠ [] := by
  cases h with
  | ending => exact absurd rfl ht
  | mark c => exact List.cons_ne_nil _ _
  | string h => exact List.cons_ne_nil _ _
  | scalar hne h => exact hne

/-- Every token takes something of the text but its end. -/
theorem length_lt_of_token (h : token text = .ok (t, rest)) (ht : t ≠ .ending) :
    rest.length < text.length := by
  obtain ⟨ws, body, -, rfl, htoken⟩ := text_of_token h
  have hbody : body ≠ [] := by
    rcases htoken with ⟨htoken, -⟩ | ⟨-, rfl, -⟩
    · exact htoken.ne_nil ht
    · exact List.cons_ne_nil _ _
  have hpos := List.length_pos_iff.mpr hbody
  rw [List.length_append, List.length_append]
  omega

theorem rest_of_ending (h : token text = .ok (.ending, rest)) : Ws text ∧ rest = [] := by
  obtain ⟨ws, body, hws, rfl, ⟨htoken, hrest⟩ | ⟨hfalse, -⟩⟩ := text_of_token h
  · obtain rfl := hrest rfl
    cases htoken
    exact ⟨by rw [List.append_nil, List.append_nil]; exact hws, rfl⟩
  · cases hfalse

/-- A text is refused with `_InvalidJsonError` where no token stands. -/
theorem refuses_token (text : List Char) : Refuses (token text) := by
  rw [token]
  generalize text.dropWhile isSpace = text
  cases text with
  | nil => exact refuses_ok _
  | cons c text =>
    rw [tokenAt]
    refine (refuses_ok _).ite (Refuses.ite ?_ (Refuses.ite ?_ ?_))
    · exact (refuses_string text.length (Nat.le_refl _)).bind fun _ => refuses_ok _
    · exact (refuses_number _).bind fun _ => refuses_ok _
    · split
      · exact refuses_ok _
      · exact refuses_invalid

end BtclibNode.Settings
