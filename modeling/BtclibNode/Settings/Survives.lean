/-
# The settings survive

What `read_settings` answers comes back when it is written and read again, at every start.
-/
import BtclibNode.Settings.Written

namespace BtclibNode.Settings

variable {quote : List Char → String} {path : String} {octets : List UInt8}
  {values pairs acc : List (List Char × Json)} {lineEnd : LineEnd}

/-! ## The keys -/

/-- The pairs of a file are collected where no key is repeated. -/
theorem collect_of_nodup (h : ((acc ++ pairs).map Prod.fst).Nodup) :
    collect quote path acc pairs = .ok (acc ++ pairs) := by
  induction pairs generalizing acc with
  | nil => rw [collect, List.append_nil]
  | cons p pairs ih =>
    obtain ⟨key, item⟩ := p
    have hnot : key ∉ acc.map Prod.fst := by
      intro hmem
      rw [List.map_append, List.map_cons] at h
      exact (List.nodup_append.mp h).2.2 key hmem key List.mem_cons_self rfl
    rw [collect, if_neg hnot, ih (by rwa [List.append_assoc]), List.append_assoc]
    rfl

theorem nodup_of_collect (hacc : (acc.map Prod.fst).Nodup)
    (h : collect quote path acc pairs = .ok values) :
    values = acc ++ pairs ∧ (values.map Prod.fst).Nodup := by
  induction pairs generalizing acc with
  | nil =>
    cases h
    exact ⟨(List.append_nil _).symm, hacc⟩
  | cons p pairs ih =>
    obtain ⟨key, item⟩ := p
    rw [collect] at h
    split_ifs at h with hkey
    have hnodup : ((acc ++ [(key, item)]).map Prod.fst).Nodup := by
      rw [List.map_append, List.nodup_append]
      refine ⟨hacc, List.pairwise_singleton _ _, fun k hk k' hk' heq => ?_⟩
      rw [heq, List.mem_singleton.mp hk'] at hk
      exact hkey hk
    obtain ⟨rfl, hvalues⟩ := ih hnodup h
    rw [List.append_assoc] at hvalues ⊢
    exact ⟨rfl, hvalues⟩

/-! ## What is answered -/

/-- In key order, each key once, and no warning. -/
structure Answer (values : List (List Char × Json)) : Prop where
  sorted : values.Pairwise fun a b => a.1 ≤ b.1
  nodup : (values.map Prod.fst).Nodup
  warning : warningKey ∉ values.map Prod.fst

theorem sortItems_perm (values : List (List Char × Json)) : (sortItems values).Perm values :=
  List.mergeSort_perm _ _

theorem sortItems_sorted (values : List (List Char × Json)) :
    (sortItems values).Pairwise fun a b => a.1 ≤ b.1 := by
  have hsorted := @List.pairwise_mergeSort (List Char × Json) (fun a b => decide (a.1 ≤ b.1))
    (fun a b e hab hbe =>
      decide_eq_true (le_trans (of_decide_eq_true hab) (of_decide_eq_true hbe)))
    (fun a b => by
      rw [Bool.or_eq_true, decide_eq_true_eq, decide_eq_true_eq]
      exact le_total a.1 b.1) values
  exact hsorted.imp of_decide_eq_true

/-- What reading answers, and where its values come from. -/
theorem answer_of_readOctets (h : readOctets quote path octets = .ok values) :
    Answer values ∧ ∃ pairs, parse (latin1 octets) = .ok (.object pairs) ∧
      ∀ p ∈ values, p ∈ pairs := by
  rw [readOctets] at h
  split at h
  · cases h
  · next pairs hparse =>
    obtain ⟨collected, hcollect, h⟩ := ExceptBind.bind_eq_ok_iff.mp h
    cases h
    obtain ⟨hcollected, hnodup⟩ :=
      nodup_of_collect (show (List.map Prod.fst []).Nodup from List.nodup_nil) hcollect
    rw [List.nil_append] at hcollected
    subst hcollected
    have hperm := sortItems_perm (collected.filter (·.1 ≠ warningKey))
    refine ⟨⟨sortItems_sorted _, ?_, ?_⟩, collected, hparse, fun p hp => ?_⟩
    · rw [(hperm.map Prod.fst).nodup_iff]
      exact hnodup.sublist (List.filter_sublist.map Prod.fst)
    · intro hmem
      obtain ⟨p, hp, hkey⟩ := List.mem_map.mp hmem
      have hne := (List.mem_filter.mp (hperm.mem_iff.mp hp)).2
      rw [decide_eq_true_eq] at hne
      exact hne hkey
    · exact (List.mem_filter.mp (hperm.mem_iff.mp hp)).1
  · cases h

/-- The values of an object that is accepted can be written. -/
theorem writes_of_parse (h : parse (latin1 octets) = .ok (.object pairs)) (lineEnd : LineEnd)
    (indent : ℕ) : ∀ p ∈ pairs, Writes lineEnd indent (maxDepth - 1) p.2 := by
  obtain ⟨before, body, behind, -, -, -, hbody⟩ | ⟨_, _, _, hminus⟩ := parse_eq_ok_iff.mp h
  · generalize hd : maxDepth = d at hbody
    generalize hv : Part.value (.object pairs) = part at hbody
    cases hbody with
    | emptyObject hws =>
      cases hv
      exact fun p hp => absurd hp List.not_mem_nil
    | object hs =>
      cases hv
      exact (writes_of_derives lineEnd indent hs).2
    | _ => cases hv
  · cases hminus

/-! ## What is written -/

/-- The document is read as the settings under the warning. -/
theorem parse_document (h : ∀ p ∈ values, Writes lineEnd 4 (maxDepth - 1) p.2) :
    parse (latin1 (document lineEnd values)) =
      .ok (.object ((warningKey, .string warning) :: values)) := by
  have hobject : Writes lineEnd 4 maxDepth (.object ((warningKey, .string warning) :: values)) := by
    refine writes_object (List.cons_ne_nil _ _) fun p hp => ?_
    rcases List.mem_cons.mp hp with rfl | hp
    · exact writes_of_derives lineEnd 4 (.string (stringText_escape .lf warning))
    · exact h p hp
  refine parse_of_text ⟨[], _, asRead lineEnd ['\n'], ws_nil, ?_, ?_, hobject 1⟩
  · exact ws_asRead fun c hc => .inr (List.mem_singleton.mp hc)
  · exact asRead_append _ _

/-- **What was answered comes back.** -/
theorem readOctets_document (hanswer : Answer values)
    (h : ∀ p ∈ values, Writes lineEnd 4 (maxDepth - 1) p.2) :
    readOctets quote path (document lineEnd values) = .ok values := by
  have hnodup : (([] ++ ((warningKey, Json.string warning) :: values)).map Prod.fst).Nodup :=
    List.nodup_cons.mpr ⟨hanswer.warning, hanswer.nodup⟩
  have hfilter : ((warningKey, Json.string warning) :: values).filter
      (fun p => p.1 ≠ warningKey) = values := by
    rw [List.filter_cons_of_neg (by simp only [ne_eq, not_true_eq_false, decide_false,
      Bool.false_eq_true, not_false_eq_true])]
    refine List.filter_eq_self.mpr fun p hp => decide_eq_true fun hkey => ?_
    exact hanswer.warning (List.mem_map.mpr ⟨p, hp, hkey⟩)
  have hsort : sortItems values = values :=
    List.mergeSort_of_pairwise (hanswer.sorted.imp decide_eq_true)
  rw [readOctets, parse_document h]
  dsimp only
  rw [collect_of_nodup hnodup, ExceptBind.ok_bind, List.nil_append, hfilter, hsort]

/-- **The settings survive every start, and the reader accepts the grammar.**  What is answered for
a file is written and answered again, whatever the platform's line end; and every text ends in a
value or in `_InvalidJsonError`, a value being that of the grammar's texts, with at most
`maxDepth` arrays and objects open at once, and of the texts that end in a minus sign with nothing
but whitespace before it. -/
theorem settings_survive (quote : List Char → String) (path : String) (lineEnd : LineEnd) :
    (∀ octets values, readSettings quote path (.file octets) = .ok values →
      ∃ rewritten, writeSettings lineEnd path ⟨true, true, true⟩ values = .ok rewritten ∧
        readSettings quote path (.file rewritten) = .ok values) ∧
    (∀ octets, parse (latin1 octets) = .error .invalidJson ∨
      ∃ v, parse (latin1 octets) = .ok v) ∧
    ∀ octets v, parse (latin1 octets) = .ok v ↔
      JsonText (latin1 octets) v ∨
        ∃ ws, Ws ws ∧ latin1 octets = ws ++ ['-'] ∧ v = .number ['-'] := by
  refine ⟨fun octets values h => ?_, fun octets => ?_, fun octets v => parse_eq_ok_iff⟩
  · obtain ⟨hanswer, pairs, hparse, hmem⟩ := answer_of_readOctets h
    refine ⟨_, rfl, readOctets_document hanswer fun p hp => ?_⟩
    exact writes_of_parse hparse lineEnd 4 p (hmem p hp)
  · rcases parse_cases (latin1 octets) with h | ⟨v, hv, -⟩
    · exact .inl h
    · exact .inr ⟨v, hv⟩

theorem numberText_digit {n : List Char} (h : NumberText n) : ∃ c ∈ n, c.isDigit = true := by
  obtain ⟨-, hwhole, -, -⟩ := h
  cases hwhole with
  | zero => exact ⟨'0', by simp, rfl⟩
  | digits hc => exact ⟨_, by simp, hc⟩

/-- A minus sign behind a blank is accepted, and is no JSON text; a pair of halves with `\u0041`
between them is refused. -/
theorem minus_and_escape :
    (parse (latin1 [0x20, 0x2D]) = .ok (.number ['-']) ∧ latin1 [0x20, 0x2D] ≠ ['-'] ∧
      ∀ v, ¬ JsonText (latin1 [0x20, 0x2D]) v) ∧
    parse (latin1 [0x22, 0x5C, 0x75, 0x64, 0x38, 0x30, 0x30, 0x5C, 0x75, 0x30, 0x30, 0x34, 0x31,
      0x5C, 0x75, 0x64, 0x63, 0x30, 0x30, 0x22]) = .error .invalidJson := by
  refine ⟨⟨rfl, by decide, fun v h => ?_⟩, rfl⟩
  have hv := parse_of_text h
  rw [show parse (latin1 [0x20, 0x2D]) = .ok (.number ['-']) from rfl] at hv
  cases hv
  obtain ⟨before, body, behind, -, -, -, hbody⟩ := h
  cases hbody with
  | number hn =>
    obtain ⟨c, hc, hdigit⟩ := numberText_digit hn
    rw [List.mem_singleton.mp hc] at hdigit
    cases hdigit

end BtclibNode.Settings
