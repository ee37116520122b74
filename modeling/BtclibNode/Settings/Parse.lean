/-
# The parser

The loop of `_parse` ends on every text, and accepts the JSON texts of the grammar with their
values, and a minus sign that ends the text.
-/
import BtclibNode.Settings.Tokens

namespace BtclibNode.Settings

variable {text rest ws body s : List Char} {v w : Json} {t : Token} {e : Expect}
  {stack stack' below : List Open} {top parent : Open} {d : ℕ}

/-! ## The loop ends -/

/-- What the loop comes to. -/
def outcome (stack : List Open) (expect : Expect) (text : List Char) : Except Fault Json :=
  loop (text.length + 1) stack expect text

theorem onToken_ending (stack : List Open) (e : Expect) :
    onToken stack e .ending = .error .invalidJson := by
  cases e <;> rfl

/-- No more steps are needed than the text has characters, and one for its end. -/
theorem loop_fuel (fuel fuel' : ℕ) (hfuel : text.length < fuel) (hfuel' : text.length < fuel') :
    loop fuel stack e text = loop fuel' stack e text := by
  induction fuel generalizing fuel' stack e text with
  | zero => exact absurd hfuel (Nat.not_lt_zero _)
  | succ fuel ih =>
    obtain ⟨fuel', rfl⟩ : ∃ n, fuel' = n + 1 := ⟨fuel' - 1, by omega⟩
    rw [loop, loop]
    cases htoken : token text with
    | error fault => rfl
    | ok r =>
      obtain ⟨t, rest⟩ := r
      rw [ExceptBind.ok_bind, ExceptBind.ok_bind]
      dsimp only
      split_ifs with hroot
      · rfl
      · cases hstep : onToken stack e t with
        | error fault => rfl
        | ok next =>
          have hlt : rest.length < text.length := by
            refine length_lt_of_token htoken ?_
            rintro rfl
            rw [onToken_ending] at hstep
            cases hstep
          exact ih fuel' (by omega) (by omega)

/-- **A step of the loop.** -/
theorem outcome_eq (stack : List Open) (e : Expect) (text : List Char) :
    outcome stack e text = (do
      let (t, rest) ← token text
      if e = .after ∧ stack.length = 1 then finish stack t
      else
        let (stack, e) ← onToken stack e t
        outcome stack e rest) := by
  rw [outcome, loop]
  cases htoken : token text with
  | error fault => rfl
  | ok r =>
    obtain ⟨t, rest⟩ := r
    rw [ExceptBind.ok_bind, ExceptBind.ok_bind]
    dsimp only
    split_ifs with hroot
    · rfl
    · cases hstep : onToken stack e t with
      | error fault => rfl
      | ok next =>
        have hlt : rest.length < text.length := by
          refine length_lt_of_token htoken ?_
          rintro rfl
          rw [onToken_ending] at hstep
          cases hstep
        exact loop_fuel _ _ hlt (Nat.lt_succ_self _)

/-- A step in the middle of the text. -/
theorem outcome_step {e' : Expect} (htoken : token text = .ok (t, rest))
    (hroot : ¬ (e = .after ∧ stack.length = 1)) (hstep : onToken stack e t = .ok (stack', e')) :
    outcome stack e text = outcome stack' e' rest := by
  rw [outcome_eq, htoken, ExceptBind.ok_bind]
  dsimp only
  rw [if_neg hroot, hstep]
  rfl

theorem outcome_ws (hws : Ws ws) : outcome stack e (ws ++ text) = outcome stack e text := by
  rw [outcome_eq, outcome_eq, token_ws hws]

/-! ## The texts of the grammar are accepted -/

/-- Where a value may stand. -/
def Expect.IsValue (e : Expect) : Prop := e = .value ∨ e = .element

theorem Expect.IsValue.not_after (he : e.IsValue) : ¬ (e = .after ∧ stack.length = 1) := by
  rintro ⟨rfl, -⟩
  rcases he with he | he <;> cases he

theorem outcome_scalar (he : e.IsValue) (htoken : token text = .ok (.scalar v, rest)) :
    outcome (top :: below) e text = outcome (top.add v :: below) .after rest := by
  refine outcome_step htoken he.not_after ?_
  rcases he with rfl | rfl <;> rfl

theorem outcome_string (he : e.IsValue) (htoken : token text = .ok (.string s, rest)) :
    outcome (top :: below) e text = outcome (top.add (.string s) :: below) .after rest := by
  refine outcome_step htoken he.not_after ?_
  rcases he with rfl | rfl <;> rfl

/-- An opener, below the bound. -/
theorem outcome_open (he : e.IsValue) (isObject : Bool) (hdepth : stack.length ≤ maxDepth)
    (rest : List Char) :
    outcome stack e ((if isObject then '{' else '[') :: rest) =
      outcome (Open.new isObject :: stack) (if isObject then .nameOrEnd else .element) rest := by
  have hopen : openTop isObject stack =
      .ok (Open.new isObject :: stack, if isObject then .nameOrEnd else .element) := by
    rw [openTop]
    exact if_neg (by rw [List.length_cons]; omega)
  refine outcome_step (t := .mark (if isObject then '{' else '[')) (token_mark ?_ rest)
    he.not_after ?_
  · cases isObject <;> decide
  · rw [← hopen]
    cases isObject <;> rcases he with rfl | rfl <;> rfl

/-- A closer after an item. -/
theorem outcome_close (top : Open) (rest : List Char) :
    outcome (top :: parent :: below) .after ((if top.isObject then '}' else ']') :: rest) =
      outcome (parent.add top.close :: below) .after rest := by
  refine outcome_step (t := .mark (if top.isObject then '}' else ']')) (token_mark ?_ rest)
    (fun h => by cases h.2) ?_
  · cases top.isObject <;> decide
  · have hcomma : (if top.isObject then '}' else ']') ≠ ',' := by
      cases top.isObject <;> decide
    rw [onToken, onAfter]
    rw [if_neg hcomma, if_neg (fun h => h rfl)]
    rfl

/-- A comma between items. -/
theorem outcome_comma (rest : List Char) :
    outcome (top :: parent :: below) .after (',' :: rest) =
      outcome (top :: parent :: below) (if top.isObject then .name else .value) rest :=
  outcome_step (t := .mark ',') (token_mark (by decide) rest) (fun h => by cases h.2) rfl

/-- A name and its colon. -/
theorem outcome_name (he : e = .name ∨ e = .nameOrEnd) (hs : StringText body s) (hws : Ws ws)
    (rest : List Char) :
    outcome (top :: below) e ('"' :: (body ++ '"' :: (ws ++ ':' :: rest))) =
      outcome ({ top with name := s } :: below) .value rest := by
  have hname : outcome (top :: below) e ('"' :: (body ++ '"' :: (ws ++ ':' :: rest))) =
      outcome ({ top with name := s } :: below) .colon (ws ++ ':' :: rest) := by
    refine outcome_step (token_string hs _) ?_ ?_
    · rintro ⟨rfl, -⟩
      rcases he with he | he <;> cases he
    · rcases he with rfl | rfl <;> rfl
  rw [hname, outcome_ws hws]
  exact outcome_step (t := .mark ':') (token_mark (by decide) rest) (fun h => by cases h.1) rfl

/-- An opener and its closer. -/
theorem outcome_empty (he : e.IsValue) (isObject : Bool) (hws : Ws ws)
    (hdepth : (top :: below).length ≤ maxDepth) (rest : List Char) :
    outcome (top :: below) e ((if isObject then '{' else '[') ::
        (ws ++ (if isObject then '}' else ']') :: rest)) =
      outcome (top.add (Open.new isObject).close :: below) .after rest := by
  rw [outcome_open he isObject hdepth, outcome_ws hws]
  refine outcome_step (t := .mark (if isObject then '}' else ']')) (token_mark ?_ rest) ?_ ?_
  · cases isObject <;> decide
  · cases isObject <;> exact fun h => by cases h.1
  · cases isObject <;> rfl

/-- What the loop makes of a part of the text. -/
def Accepted (d : ℕ) : Part → List Char → Prop
  | .value v, text => ∀ {top below e rest}, e.IsValue → (top :: below).length + d = maxDepth + 1 →
      Ends rest → outcome (top :: below) e (text ++ rest) =
        outcome (top.add v :: below) .after rest
  | .elements vs, text => ∀ {parent below rest},
      (parent :: below).length + 1 + d = maxDepth + 1 → Ends rest →
      outcome (Open.new false :: parent :: below) .element (text ++ rest) =
        outcome (⟨false, vs, [], []⟩ :: parent :: below) .after rest
  | .members ps, text => ∀ {parent below rest},
      (parent :: below).length + 1 + d = maxDepth + 1 → Ends rest →
      ∃ name, outcome (Open.new true :: parent :: below) .nameOrEnd (text ++ rest) =
        outcome (⟨true, [], ps, name⟩ :: parent :: below) .after rest

/-- A value and the whitespace around it. -/
theorem Accepted.padded {before behind : List Char} (h : Accepted d (.value v) text)
    (he : e.IsValue) (hdepth : (top :: below).length + d = maxDepth + 1) (hbefore : Ws before)
    (hbehind : Ws behind) (hrest : Ends rest) :
    outcome (top :: below) e (before ++ text ++ behind ++ rest) =
      outcome (top.add v :: below) .after rest := by
  rw [List.append_assoc, List.append_assoc, outcome_ws hbefore,
    h he hdepth (hrest.behind hbehind), outcome_ws hbehind]

/-- A member and the whitespace around it. -/
theorem Accepted.member {before colon gap behind : List Char} (h : Accepted d (.value v) text)
    (he : e = .name ∨ e = .nameOrEnd) (hdepth : (top :: below).length + d = maxDepth + 1)
    (hbefore : Ws before) (hname : StringText body s) (hcolon : Ws colon) (hgap : Ws gap)
    (hbehind : Ws behind) (hrest : Ends rest) :
    outcome (top :: below) e
      (before ++ '"' :: (body ++ '"' :: (colon ++ ':' :: (gap ++ text ++ behind))) ++ rest) =
      outcome (({ top with name := s } : Open).add v :: below) .after rest := by
  have htext : before ++ '"' :: (body ++ '"' :: (colon ++ ':' :: (gap ++ text ++ behind))) ++ rest =
      before ++ '"' :: (body ++ '"' :: (colon ++ ':' :: (gap ++ text ++ behind ++ rest))) := by
    simp only [List.append_assoc, List.cons_append]
  rw [htext, outcome_ws hbefore, outcome_name he hname hcolon]
  exact h.padded (.inl rfl) hdepth hgap hbehind hrest

/-- **The parts of the grammar are read.** -/
theorem accepted_of_derives {p : Part} (h : Derives d p text) : Accepted d p text := by
  induction h with
  | null =>
    intro top below e rest he hdepth hrest
    exact outcome_scalar he (token_null rest)
  | true =>
    intro top below e rest he hdepth hrest
    exact outcome_scalar he (token_true rest)
  | false =>
    intro top below e rest he hdepth hrest
    exact outcome_scalar he (token_false rest)
  | number hn =>
    intro top below e rest he hdepth hrest
    exact outcome_scalar he (token_number hn hrest)
  | @string d body s hs =>
    intro top below e rest he hdepth hrest
    simp only [List.cons_append, List.append_assoc, List.nil_append]
    exact outcome_string he (token_string hs rest)
  | @emptyArray d ws hws =>
    intro top below e rest he hdepth hrest
    simp only [List.cons_append, List.append_assoc, List.nil_append]
    exact outcome_empty he false hws (by omega) rest
  | @array d vs body hs ih =>
    intro top below e rest he hdepth hrest
    simp only [List.cons_append, List.append_assoc, List.nil_append]
    refine (outcome_open he false (by omega) _).trans ?_
    refine (ih (by omega) (ends_mark (.inr (.inl rfl)) rest)).trans ?_
    exact outcome_close ⟨false, vs, [], []⟩ rest
  | @emptyObject d ws hws =>
    intro top below e rest he hdepth hrest
    simp only [List.cons_append, List.append_assoc, List.nil_append]
    exact outcome_empty he true hws (by omega) rest
  | @object d ps body hs ih =>
    intro top below e rest he hdepth hrest
    obtain ⟨name, hname⟩ := @ih top below _ (by omega)
      (ends_mark (.inr (.inr rfl)) rest)
    simp only [List.cons_append, List.append_assoc, List.nil_append]
    refine (outcome_open he true (by omega) _).trans (hname.trans ?_)
    exact outcome_close ⟨true, [], ps, name⟩ rest
  | element hbefore hv hbehind ih =>
    intro parent below rest hdepth hrest
    exact ih.padded (.inr rfl) hdepth hbefore hbehind hrest
  | moreElements hs hbefore hv hbehind ihs ih =>
    intro parent below rest hdepth hrest
    rw [List.append_assoc, List.cons_append, ihs hdepth (ends_mark (.inl rfl) _), outcome_comma]
    exact ih.padded (.inl rfl) hdepth hbefore hbehind hrest
  | member hbefore hname hcolon hgap hv hbehind ih =>
    intro parent below rest hdepth hrest
    exact ⟨_, ih.member (.inr rfl) hdepth hbefore hname hcolon hgap hbehind hrest⟩
  | @moreMembers d ps key v items before name colon gap text behind hs hbefore hname hcolon hgap
      hv hbehind ihs ih =>
    intro parent below rest hdepth hrest
    obtain ⟨last, hitems⟩ := ihs hdepth (ends_mark (.inl rfl) _)
    refine ⟨key, ?_⟩
    rw [List.append_assoc, List.cons_append, hitems, outcome_comma]
    exact ih.member (.inl rfl) hdepth hbefore hname hcolon hgap hbehind hrest

/-- **The JSON texts are accepted**, with their values. -/
theorem parse_of_text (h : JsonText text v) : parse text = .ok v := by
  obtain ⟨before, body, behind, hbefore, hbehind, rfl, hbody⟩ := h
  have haccepted : Accepted maxDepth (.value v) body := accepted_of_derives hbody
  change outcome [Open.new false] .value _ = _
  rw [← List.append_nil (before ++ body ++ behind),
    haccepted.padded (.inl rfl) rfl hbefore hbehind ends_nil]
  rfl

/-- And so is a minus sign that ends the text. -/
theorem parse_minus (hws : Ws ws) : parse (ws ++ ['-']) = .ok (.number ['-']) := by
  change outcome [Open.new false] .value _ = _
  rw [outcome_ws hws]
  rfl

end BtclibNode.Settings
