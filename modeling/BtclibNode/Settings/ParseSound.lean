/-
# What the parser has read

Between two tokens the frames of the stack hold what the grammar makes of the text so far: from
there `_parse` accepts no other text, and refuses with `_InvalidJsonError`.
-/
import BtclibNode.Settings.Parse

namespace BtclibNode.Settings

variable {text rest ws body inner consumed s : List Char} {v : Json} {t : Token} {e e' : Expect}
  {stack below : List Open} {frame : Open} {d : ℕ}

/-! ## Frames -/

/-- The items an array or object has. -/
def Items (d : ℕ) (frame : Open) (items : List Char) : Prop :=
  if frame.isObject then Derives d (.members frame.pairs) items
  else Derives d (.elements frame.values) items

/-- Where the next item begins: behind the opener, or behind a comma. -/
def Lead (d : ℕ) (frame : Open) (inner : List Char) : Prop :=
  (inner = [] ∧ frame.values = [] ∧ frame.pairs = []) ∨
    ∃ items, inner = items ++ [','] ∧ Items d frame items

/-- What a frame has read behind its opener. -/
def Within (d : ℕ) (frame : Open) (inner : List Char) : Expect → Prop
  | .element => frame.isObject = false ∧ inner = [] ∧ frame.values = [] ∧ frame.pairs = []
  | .nameOrEnd => frame.isObject = true ∧ inner = [] ∧ frame.values = [] ∧ frame.pairs = []
  | .name => frame.isObject = true ∧ ∃ items, inner = items ++ [','] ∧ Items d frame items
  | .colon => frame.isObject = true ∧ ∃ lead before name,
      inner = lead ++ (before ++ '"' :: (name ++ ['"'])) ∧ Lead d frame lead ∧ Ws before ∧
      StringText name frame.name
  | .value =>
    if frame.isObject then
      ∃ lead before name colon,
        inner = lead ++ (before ++ '"' :: (name ++ '"' :: (colon ++ [':']))) ∧
        Lead d frame lead ∧ Ws before ∧ StringText name frame.name ∧ Ws colon
    else ∃ items, inner = items ++ [','] ∧ Items d frame items
  | .after => Items d frame inner

/-- The opener and the closer of a frame. -/
def opener (frame : Open) : Char := if frame.isObject then '{' else '['

def closer (frame : Open) : Char := if frame.isObject then '}' else ']'

theorem add_isObject (frame : Open) (v : Json) : (frame.add v).isObject = frame.isObject := by
  rw [Open.add]
  split_ifs <;> rfl

/-- An element more. -/
theorem Lead.addValue (hobject : frame.isObject = false) (h : Lead d frame inner) (hws : Ws ws)
    (hv : Derives d (.value v) body) : Items d (frame.add v) (inner ++ (ws ++ body)) := by
  have hend : ws ++ body = ws ++ body ++ [] := (List.append_nil _).symm
  rw [Items, add_isObject, hobject, if_neg Bool.false_ne_true, Open.add, hobject,
    if_neg Bool.false_ne_true, hend]
  obtain ⟨rfl, hvalues, -⟩ | ⟨items, rfl, hitems⟩ := h
  · dsimp only
    rw [hvalues]
    exact .element hws hv ws_nil
  · rw [Items, hobject, if_neg Bool.false_ne_true] at hitems
    rw [List.append_assoc items]
    exact .moreElements hitems hws hv ws_nil

/-- A member more. -/
theorem Lead.addMember {before name colon : List Char} (hobject : frame.isObject = true)
    (h : Lead d frame inner) (hbefore : Ws before) (hname : StringText name frame.name)
    (hcolon : Ws colon) (hws : Ws ws) (hv : Derives d (.value v) body) :
    Items d (frame.add v)
      (inner ++ (before ++ '"' :: (name ++ '"' :: (colon ++ ':' :: (ws ++ body))))) := by
  have hend : ws ++ body = ws ++ body ++ [] := (List.append_nil _).symm
  rw [Items, add_isObject, hobject, if_pos rfl, Open.add, hobject, if_pos rfl, hend]
  obtain ⟨rfl, -, hpairs⟩ | ⟨items, rfl, hitems⟩ := h
  · dsimp only
    rw [hpairs]
    exact .member hbefore hname hcolon hws hv ws_nil
  · rw [Items, hobject, if_pos rfl] at hitems
    rw [List.append_assoc items]
    exact .moreMembers hitems hbefore hname hcolon hws hv ws_nil

/-- **A value more** where one may stand. -/
theorem Within.addTop (he : e.IsValue) (h : Within d frame inner e) (hws : Ws ws)
    (hv : Derives d (.value v) body) : Within d (frame.add v) (inner ++ (ws ++ body)) .after := by
  rcases he with rfl | rfl
  · cases hobject : frame.isObject with
    | false =>
      rw [Within, hobject, if_neg Bool.false_ne_true] at h
      exact Lead.addValue hobject (.inr h) hws hv
    | true =>
      rw [Within, hobject, if_pos rfl] at h
      obtain ⟨lead, before, name, colon, rfl, hlead, hbefore, hname, hcolon⟩ := h
      have hitems := hlead.addMember hobject hbefore hname hcolon hws hv
      simpa only [Within, List.append_assoc, List.cons_append, List.nil_append] using hitems
  · exact Lead.addValue h.1 (.inl h.2) hws hv

/-- Whitespace behind the items. -/
theorem Items.behind (h : Items d frame inner) (hws : Ws ws) : Items d frame (inner ++ ws) := by
  rw [Items] at h ⊢
  split_ifs at h ⊢
  · generalize hp : Part.members frame.pairs = p at h
    cases h with
    | member hbefore hname hcolon hgap hv hbehind =>
      have hmember := Derives.member hbefore hname hcolon hgap hv (hbehind.append hws)
      simpa only [List.append_assoc, List.cons_append] using hmember
    | moreMembers hs hbefore hname hcolon hgap hv hbehind =>
      have hmember := Derives.moreMembers hs hbefore hname hcolon hgap hv (hbehind.append hws)
      simpa only [List.append_assoc, List.cons_append] using hmember
    | _ => cases hp
  · generalize hp : Part.elements frame.values = p at h
    cases h with
    | element hbefore hv hbehind =>
      have helement := Derives.element hbefore hv (hbehind.append hws)
      simpa only [List.append_assoc, List.cons_append] using helement
    | moreElements hs hbefore hv hbehind =>
      have helement := Derives.moreElements hs hbefore hv (hbehind.append hws)
      simpa only [List.append_assoc, List.cons_append] using helement
    | _ => cases hp

/-- **What a closer closes** is a value. -/
theorem Items.close (h : Items d frame inner) (hws : Ws ws) :
    Derives (d + 1) (.value frame.close) (opener frame :: (inner ++ (ws ++ [closer frame]))) := by
  have hbehind := h.behind hws
  rw [← List.append_assoc]
  rw [Items] at hbehind
  cases hobject : frame.isObject with
  | false =>
    rw [hobject, if_neg Bool.false_ne_true] at hbehind
    rw [Open.close, opener, closer, hobject]
    exact .array hbehind
  | true =>
    rw [hobject, if_pos rfl] at hbehind
    rw [Open.close, opener, closer, hobject]
    exact .object hbehind

theorem close_empty (hvalues : frame.values = []) (hpairs : frame.pairs = []) (hws : Ws ws) :
    Derives (d + 1) (.value frame.close) (opener frame :: (ws ++ [closer frame])) := by
  rw [Open.close, opener, closer]
  cases hobject : frame.isObject with
  | false =>
    rw [hvalues]
    exact .emptyArray hws
  | true =>
    rw [hpairs]
    exact .emptyObject hws

/-! ## The stack -/

/-- **What has been read**, with so many arrays and objects that may still be opened. -/
inductive Reads : ℕ → List Open → Expect → List Char → Prop where
  | start : Reads maxDepth [Open.new false] .value []
  | done {ws body : List Char} {v : Json} (hws : Ws ws) (h : Derives maxDepth (.value v) body) :
      Reads maxDepth [(Open.new false).add v] .after (ws ++ body)
  | inside {d : ℕ} {frame : Open} {below : List Open} {e e' : Expect}
      {consumed ws inner : List Char} (h : Reads (d + 1) below e consumed) (he : e.IsValue)
      (hws : Ws ws) (hin : Within d frame inner e') :
      Reads d (frame :: below) e' (consumed ++ (ws ++ opener frame :: inner))

theorem Reads.length (h : Reads d stack e consumed) : stack.length + d = maxDepth + 1 := by
  induction h with
  | start => rfl
  | done hws h => rfl
  | inside h he hws hin ih =>
    rw [List.length_cons]
    omega

/-- A value is added. -/
theorem Reads.add (h : Reads d stack e consumed) (he : e.IsValue) (hws : Ws ws)
    (hv : Derives d (.value v) body) :
    ∃ stack', addTop v stack = .ok (stack', .after) ∧
      Reads d stack' .after (consumed ++ (ws ++ body)) := by
  cases h with
  | start =>
    refine ⟨_, rfl, ?_⟩
    rw [List.nil_append]
    exact .done hws hv
  | done => rcases he with he | he <;> cases he
  | @inside d frame below e' e consumed ws' inner h he' hws' hin =>
    refine ⟨_, rfl, ?_⟩
    have hafter := Reads.inside h he' hws' (Within.addTop he hin hws hv)
    rw [show opener (frame.add v) = opener frame by rw [opener, add_isObject]; rfl] at hafter
    simpa only [List.append_assoc, List.cons_append] using hafter

/-- The last of the stack is closed. -/
theorem Reads.close (h : Reads d stack e consumed) (hroot : ¬ (e = .after ∧ stack.length = 1))
    (he : e = .element ∨ e = .nameOrEnd ∨ e = .after) (hws : Ws ws) :
    ∃ top below stack', stack = top :: below ∧ closeTop stack = .ok (stack', .after) ∧
      (e = .element → top.isObject = false) ∧ (e = .nameOrEnd → top.isObject = true) ∧
      Reads (d + 1) stack' .after (consumed ++ (ws ++ [closer top])) := by
  cases h with
  | start => rcases he with he | he | he <;> cases he
  | done => exact absurd ⟨rfl, rfl⟩ hroot
  | @inside d frame below e' e consumed ws' inner h he' hws' hin =>
    have hv : Derives (d + 1) (.value frame.close)
        (opener frame :: (inner ++ (ws ++ [closer frame]))) := by
      rcases he with rfl | rfl | rfl
      · rw [hin.2.1]
        exact close_empty hin.2.2.1 hin.2.2.2 hws
      · rw [hin.2.1]
        exact close_empty hin.2.2.1 hin.2.2.2 hws
      · exact Items.close hin hws
    obtain ⟨stack', hadd, hreads⟩ := h.add he' hws' hv
    refine ⟨frame, below, stack', rfl, hadd, ?_, ?_, ?_⟩
    · rintro rfl
      exact hin.1
    · rintro rfl
      exact hin.1
    · simpa only [List.append_assoc, List.cons_append] using hreads

/-- What a token leaves: a refusal, or a stack that holds the text with the token. -/
def Continues (x : Except Fault (List Open × Expect)) (consumed : List Char) : Prop :=
  x = .error .invalidJson ∨ ∃ d stack e, x = .ok (stack, e) ∧ Reads d stack e consumed

theorem continues_invalid (consumed : List Char) : Continues (.error .invalidJson) consumed :=
  .inl rfl

theorem Reads.continues_add (h : Reads d stack e consumed) (he : e.IsValue) (hws : Ws ws)
    (hv : Derives d (.value v) body) : Continues (addTop v stack) (consumed ++ (ws ++ body)) := by
  obtain ⟨stack', hadd, hreads⟩ := h.add he hws hv
  exact .inr ⟨d, stack', .after, hadd, hreads⟩

/-- A token that is a value. -/
theorem Reads.onValue (h : Reads d stack e consumed) (he : e.IsValue) (hws : Ws ws)
    (ht : TokenText t body) : Continues (onValue stack e t) (consumed ++ (ws ++ body)) := by
  have hroot : ¬ (e = .after ∧ stack.length = 1) := he.not_after
  have hopen : ∀ isObject, Continues (openTop isObject stack)
      (consumed ++ (ws ++ [opener (Open.new isObject)])) := by
    intro isObject
    rw [openTop]
    split_ifs with hdepth hobject
    · exact continues_invalid _
    · obtain ⟨d, rfl⟩ : ∃ n, d = n + 1 := by
        have hlength := h.length
        rw [List.length_cons] at hdepth
        exact ⟨d - 1, by omega⟩
      exact .inr ⟨d, _, _, rfl, .inside h he hws ⟨hobject, rfl, rfl, rfl⟩⟩
    · obtain ⟨d, rfl⟩ : ∃ n, d = n + 1 := by
        have hlength := h.length
        rw [List.length_cons] at hdepth
        exact ⟨d - 1, by omega⟩
      exact .inr ⟨d, _, _, rfl, .inside h he hws ⟨Bool.eq_false_iff.mpr hobject, rfl, rfl, rfl⟩⟩
  cases ht with
  | ending => exact continues_invalid _
  | mark c =>
    rw [Settings.onValue.eq_def]
    split
    · next heq =>
      obtain rfl := Token.mark.inj heq
      split_ifs with helement
      · exact continues_invalid _
      · obtain ⟨top, below, stack', rfl, hclose, harray, -, hreads⟩ :=
          h.close hroot (.inl (not_not.mp helement)) hws
        rw [closer, harray (not_not.mp helement)] at hreads
        exact .inr ⟨_, _, _, hclose, hreads⟩
    · next heq =>
      obtain rfl := Token.mark.inj heq
      exact hopen true
    · next heq =>
      obtain rfl := Token.mark.inj heq
      exact hopen false
    · exact continues_invalid _
    · next heq => cases heq
    · next heq => cases heq
    · next heq => cases heq
  | string hs => exact h.continues_add he hws (.string hs)
  | scalar hne hv => exact h.continues_add he hws (hv d)

/-- A token that is a name. -/
theorem Reads.onName (h : Reads d stack e consumed) (he : e = .name ∨ e = .nameOrEnd)
    (hws : Ws ws) (ht : TokenText t body) :
    Continues (onName stack e t) (consumed ++ (ws ++ body)) := by
  have hroot : ¬ (e = .after ∧ stack.length = 1) := by
    rintro ⟨rfl, -⟩
    rcases he with he | he <;> cases he
  cases ht with
  | ending => exact continues_invalid _
  | mark c =>
    rw [Settings.onName.eq_def]
    split
    · next heq => cases heq
    · next heq =>
      obtain rfl := Token.mark.inj heq
      split_ifs with hname
      · exact continues_invalid _
      · obtain ⟨top, below, stack', rfl, hclose, -, hobject, hreads⟩ :=
          h.close hroot (.inr (.inl (he.resolve_left hname))) hws
        rw [closer, hobject (he.resolve_left hname)] at hreads
        exact .inr ⟨_, _, _, hclose, hreads⟩
    · exact continues_invalid _
  | @string body s hs =>
    cases h with
    | start => rcases he with he | he <;> cases he
    | done => rcases he with he | he <;> cases he
    | @inside d frame below e' e consumed ws' inner h he' hws' hin =>
      refine .inr ⟨d, _, _, rfl, ?_⟩
      have hlead : frame.isObject = true ∧ Lead d frame inner := by
        rcases he with rfl | rfl
        · exact ⟨hin.1, .inr hin.2⟩
        · exact ⟨hin.1, .inl hin.2⟩
      have hcolon : Within d { frame with name := s }
          (inner ++ (ws ++ '"' :: (body ++ ['"']))) .colon :=
        ⟨hlead.1, inner, ws, body, rfl, hlead.2, hws, hs⟩
      have hreads := Reads.inside h he' hws' hcolon
      rw [show opener { frame with name := s } = opener frame from rfl] at hreads
      simpa only [List.append_assoc, List.cons_append] using hreads
  | scalar hne hv => exact continues_invalid _

/-- A comma behind an item. -/
theorem Reads.comma {c : Char} (h : Reads d (frame :: below) .after consumed)
    (hroot : (frame :: below).length ≠ 1) (hws : Ws ws) (hc : c = ',')
    (he : (frame.isObject = true ∧ e = .name) ∨ (¬ frame.isObject = true ∧ e = .value)) :
    Reads d (frame :: below) e (consumed ++ (ws ++ [c])) := by
  subst hc
  cases h with
  | done => exact absurd rfl hroot
  | @inside d frame below e'' e' consumed ws' inner h he' hws' hin =>
    have hitems : ∃ items, inner ++ (ws ++ [',']) = items ++ [','] ∧ Items d frame items :=
      ⟨inner ++ ws, (List.append_assoc ..).symm, Items.behind hin hws⟩
    have hwithin : Within d frame (inner ++ (ws ++ [','])) e := by
      obtain ⟨hobject, rfl⟩ | ⟨hobject, rfl⟩ := he
      · exact ⟨hobject, hitems⟩
      · rw [Within, if_neg hobject]
        exact hitems
    have hreads := Reads.inside h he' hws' hwithin
    simpa only [List.append_assoc, List.cons_append] using hreads

/-- A token behind an item. -/
theorem Reads.onAfter (h : Reads d stack .after consumed) (hroot : stack.length ≠ 1)
    (hws : Ws ws) (ht : TokenText t body) :
    Continues (onAfter stack t) (consumed ++ (ws ++ body)) := by
  cases ht with
  | ending => exact continues_invalid _
  | mark c =>
    obtain ⟨top, below, stack', rfl, hclose, -, -, hreads⟩ :=
      h.close (fun hand => hroot hand.2) (.inr (.inr rfl)) hws
    change Continues (if c = ',' then .ok (top :: below, if top.isObject then .name else .value)
      else if c ≠ closer top then .error .invalidJson else closeTop (top :: below)) _
    by_cases hcomma : c = ','
    · rw [if_pos hcomma]
      refine .inr ⟨d, _, _, rfl, h.comma hroot hws hcomma ?_⟩
      by_cases hobject : top.isObject = true
      · rw [if_pos hobject]
        exact .inl ⟨hobject, rfl⟩
      · rw [if_neg hobject]
        exact .inr ⟨hobject, rfl⟩
    · rw [if_neg hcomma]
      split_ifs with hcloser
      · exact continues_invalid _
      · rw [not_not.mp hcloser]
        exact .inr ⟨_, _, _, hclose, hreads⟩
  | string hs => exact continues_invalid _
  | scalar hne hv => exact continues_invalid _

/-- A token where the colon of a member stands. -/
theorem Reads.onColon (h : Reads d stack .colon consumed) (hws : Ws ws) (ht : TokenText t body) :
    Continues (onColon stack t) (consumed ++ (ws ++ body)) := by
  cases ht with
  | mark c =>
    rw [Settings.onColon]
    split_ifs with hcolon
    · exact continues_invalid _
    · obtain rfl := not_not.mp hcolon
      cases h with
      | @inside d frame below e'' e' consumed ws' inner h he' hws' hin =>
        obtain ⟨hobject, lead, before, name, rfl, hlead, hbefore, hname⟩ := hin
        have hwithin : Within d frame
            (lead ++ (before ++ '"' :: (name ++ '"' :: (ws ++ [':'])))) .value := by
          rw [Within, if_pos hobject]
          exact ⟨lead, before, name, ws, rfl, hlead, hbefore, hname, hws⟩
        refine .inr ⟨d, _, _, rfl, ?_⟩
        have hreads := Reads.inside h he' hws' hwithin
        simpa only [List.append_assoc, List.cons_append, List.nil_append] using hreads
  | _ => exact continues_invalid _

/-- **A token** in the middle of the text. -/
theorem Reads.onToken (h : Reads d stack e consumed) (hroot : ¬ (e = .after ∧ stack.length = 1))
    (hws : Ws ws) (ht : TokenText t body) :
    Continues (onToken stack e t) (consumed ++ (ws ++ body)) := by
  cases e with
  | value => exact h.onValue (.inl rfl) hws ht
  | element => exact h.onValue (.inr rfl) hws ht
  | name => exact h.onName (.inl rfl) hws ht
  | nameOrEnd => exact h.onName (.inr rfl) hws ht
  | colon => exact h.onColon hws ht
  | after => exact h.onAfter (fun hone => hroot ⟨rfl, hone⟩) hws ht

/-! ## The parser -/

/-- What a text may be that is accepted. -/
def AcceptedText (text : List Char) (v : Json) : Prop :=
  JsonText text v ∨ ∃ ws, Ws ws ∧ text = ws ++ ['-'] ∧ v = .number ['-']

/-- The end of the text. -/
theorem Reads.finish (h : Reads d stack .after consumed) (hone : stack.length = 1)
    (htoken : token text = .ok (t, rest)) :
    finish stack t = .error .invalidJson ∨
      ∃ v, finish stack t = .ok v ∧ JsonText (consumed ++ text) v := by
  cases t with
  | ending =>
    cases h with
    | @done ws body v hws h =>
      exact .inr ⟨v, rfl, ws, body, text, hws, (rest_of_ending htoken).1, rfl, h⟩
    | @inside d frame below e'' e' consumed ws' inner h he' hws' hin =>
      cases h <;> cases hone
  | mark c => exact .inl rfl
  | string s => exact .inl rfl
  | scalar v => exact .inl rfl

/-- A minus sign that ends the text: it is the text, or it is refused. -/
theorem Reads.outcome_minus (h : Reads d stack e consumed)
    (hroot : ¬ (e = .after ∧ stack.length = 1))
    (htoken : token text = .ok (.scalar (.number ['-']), [])) :
    outcome stack e text = .error .invalidJson ∨
      consumed = [] ∧ outcome stack e text = .ok (.number ['-']) := by
  have hvalue : e.IsValue →
      outcome stack e text = .error .invalidJson ∨
        consumed = [] ∧ outcome stack e text = .ok (.number ['-']) := by
    intro he
    cases h with
    | start =>
      refine .inr ⟨rfl, ?_⟩
      rw [outcome_scalar he htoken]
      rfl
    | done => rcases he with he | he <;> cases he
    | @inside d frame below e'' e' consumed ws' inner h he' hws' hin =>
      left
      rw [outcome_scalar he htoken, outcome_eq]
      cases h with
      | start => rfl
      | inside => rfl
      | done => rcases he' with he' | he' <;> cases he'
  have hrefused : Settings.onToken stack e (.scalar (.number ['-'])) = .error .invalidJson →
      outcome stack e text = .error .invalidJson := by
    intro hstep
    rw [outcome_eq, htoken, ExceptBind.ok_bind]
    dsimp only
    rw [if_neg hroot, hstep]
    rfl
  cases e with
  | value => exact hvalue (.inl rfl)
  | element => exact hvalue (.inr rfl)
  | name => exact .inl (hrefused rfl)
  | nameOrEnd => exact .inl (hrefused rfl)
  | colon => exact .inl (hrefused rfl)
  | after => exact .inl (hrefused rfl)

/-- **The loop from what has been read** accepts the texts of the grammar only. -/
theorem Reads.outcome (n : ℕ) (hn : text.length ≤ n) (h : Reads d stack e consumed) :
    Settings.outcome stack e text = .error .invalidJson ∨
      ∃ v, Settings.outcome stack e text = .ok v ∧ AcceptedText (consumed ++ text) v := by
  induction n using Nat.strongRecOn generalizing d stack e consumed text with
  | _ n ih =>
    cases htoken : token text with
    | error fault =>
      left
      rw [outcome_eq, htoken, refuses_token text fault htoken]
      rfl
    | ok r =>
      obtain ⟨t, rest⟩ := r
      by_cases hroot : e = .after ∧ stack.length = 1
      · obtain ⟨rfl, hone⟩ := hroot
        rw [outcome_eq, htoken, ExceptBind.ok_bind]
        dsimp only
        rw [if_pos ⟨rfl, hone⟩]
        rcases h.finish hone htoken with hrefused | ⟨v, hv, htext⟩
        · exact .inl hrefused
        · exact .inr ⟨v, hv, .inl htext⟩
      · obtain ⟨ws, body, hws, htext, ⟨ht, -⟩ | ⟨rfl, rfl, rfl⟩⟩ := text_of_token htoken
        · rcases h.onToken hroot hws ht with hrefused | ⟨d', stack', e', hstep, hreads⟩
          · left
            rw [outcome_eq, htoken, ExceptBind.ok_bind]
            dsimp only
            rw [if_neg hroot, hrefused]
            rfl
          · have hlt : rest.length < text.length := by
              refine length_lt_of_token htoken ?_
              rintro rfl
              rw [onToken_ending] at hstep
              cases hstep
            have hrest := ih rest.length (by omega) (Nat.le_refl _) hreads
            have hall : consumed ++ (ws ++ body) ++ rest = consumed ++ text := by
              rw [htext]
              simp only [List.append_assoc]
            rw [outcome_step htoken hroot hstep, ← hall]
            exact hrest
        · rcases h.outcome_minus hroot htoken with hrefused | ⟨rfl, haccepted⟩
          · exact .inl hrefused
          · exact .inr ⟨_, haccepted, .inr ⟨ws, hws, htext, rfl⟩⟩

/-- **`_parse` returns or raises `_InvalidJsonError`**, and accepts the texts of the grammar and
the minus sign only. -/
theorem parse_cases (text : List Char) :
    parse text = .error .invalidJson ∨ ∃ v, parse text = .ok v ∧ AcceptedText text v :=
  Reads.start.outcome text.length (Nat.le_refl _)

/-- **What `_parse` accepts.** -/
theorem parse_eq_ok_iff : parse text = .ok v ↔ AcceptedText text v := by
  constructor
  · intro h
    obtain hrefused | ⟨w, hw, htext⟩ := parse_cases text
    · rw [h] at hrefused
      cases hrefused
    · rw [h] at hw
      cases hw
      exact htext
  · rintro (h | ⟨ws, hws, rfl, rfl⟩)
    · exact parse_of_text h
    · exact parse_minus hws

end BtclibNode.Settings
