import Nlutils.Kvp.Scan

/-! # The scan of escaped text

What the scan makes of an escaped string and the quotation mark after it: within quotes, and elsewhere. -/

namespace Nlutils
open Scan

/-- The string ends with this byte. -/
def EndsWith (str : Bytes) (c : Byte) : Prop := str.getLast? = some c

instance {str : Bytes} {c : Byte} : Decidable (EndsWith str c) := inferInstanceAs (Decidable (_ = _))

/-- The pairs whose values are quoted. -/
def quoted (ps : List KvpText) : List KvpText := ps.filter fun p => p.2.at 0 == 34

namespace Scan

/-- Within quotes: more of the text has been read. -/
def grow (bs : Bytes) : Scan → Scan
  | readQuotedKey k => readQuotedKey (k ++ bs)
  | readQuotedValue k v => readQuotedValue k (v ++ bs)
  | s => s

/-- No quoted value is being read. -/
def Idle : Scan → Prop
  | readQuotedValue _ _ => False
  | readValue _ v => v ≠ [] ∧ v.at 0 ≠ 34
  | _ => True

def wantsValue : Scan → Bool
  | expectValue _ => true
  | _ => false

end Scan

section
variable {rest str : Bytes} {c : Byte} {s : Scan} {k v : Bytes}

theorem endsWith_cons {d : Byte} (h : str ≠ []) : EndsWith (d :: str) c ↔ EndsWith str c := by
  obtain ⟨e, str, rfl⟩ := List.exists_cons_of_ne_nil h
  simp [EndsWith, List.getLast?_cons_cons]

/-! ### Within quotes -/

theorem inQuotes_grow {bs : Bytes} : (s.grow bs).inQuotes = s.inQuotes := by cases s <;> rfl

theorem grow_grow {bs bs' : Bytes} : (s.grow bs).grow bs' = s.grow (bs ++ bs') := by
  cases s <;> simp [grow]

theorem skipQuote_eq : s.skipQuote = s.grow [92, 34] := by cases s <;> rfl

theorem next_inQuotes (hq : s.inQuotes = true) (hc : c ≠ 34) : s.next c = s.grow [c] ∧ s.found c = [] := by
  cases s <;> simp [inQuotes] at hq <;> simp [next, found, grow, hc]

theorem scan_escapeByte_inQuotes (hq : s.inQuotes = true) (hc : c = 92 → rest.head? ≠ some 34) :
    scan (escapeByte c ++ rest) s = scan rest (s.grow (escapeByte c)) := by
  by_cases h : getEscape c = 0
  · obtain ⟨hb, hne⟩ := plain_ne h
    obtain ⟨hn, hf⟩ := next_inQuotes hq hne
    rw [escapeByte_plain h, List.singleton_append, scan_char hb, hn, hf, List.nil_append]
  · rw [escapeByte_escape h, List.cons_append, List.singleton_append]
    by_cases hr : getEscape c = 34
    · rw [hr]
      exact (scan_skipQuote hq).trans (by rw [skipQuote_eq]; rfl)
    · obtain ⟨-, -, -, -, -, hslash⟩ := escChars_spec _ (mem_escChars h)
      obtain ⟨hn, hf⟩ := next_inQuotes (c := escapeChar) hq (by decide)
      have hq' : (s.grow [escapeChar]).inQuotes = true := inQuotes_grow.trans hq
      obtain ⟨hn', hf'⟩ := next_inQuotes hq' hr
      rw [scan_cons (by simp [hr]), hn, hf, List.nil_append,
        scan_cons fun hs => hc (hslash.mp hs.2.1) hs.2.2, hn', hf', List.nil_append, grow_grow]
      rfl

/-- A quotation mark closes the quotes, unless the string before it ends with a backslash. -/
theorem scan_escaped_inQuotes (hq : s.inQuotes = true) : scan (escaped str ++ 34 :: rest) s =
    if EndsWith str 92 then scan rest (s.grow (escaped str ++ [34]))
    else (s.grow (escaped str)).found 34 ++ scan rest ((s.grow (escaped str)).next 34) := by
  induction str generalizing s with
  | nil =>
    have hnil : s.grow (escaped []) = s := by cases s <;> simp [grow, escaped]
    rw [if_neg (by simp [EndsWith]), hnil]
    exact scan_quote
  | cons c str ih =>
    have ih' := ih (s := s.grow (escapeByte c)) (inQuotes_grow.trans hq)
    simp only [grow_grow, ← List.append_assoc, ← escaped_cons] at ih'
    rw [escaped_cons, List.append_assoc]
    rcases List.eq_nil_or_concat str with rfl | hne
    · by_cases hc : c = 92
      · -- The second backslash and the quotation mark are taken for an escaped quotation mark.
        subst hc
        obtain ⟨hn, hf⟩ := next_inQuotes (c := 92) hq (by decide)
        have hskip : scan (92 :: 34 :: rest) (s.grow [92]) = scan rest (s.grow [92]).skipQuote :=
          scan_skipQuote (inQuotes_grow.trans hq)
        have htext : escapeByte 92 ++ (escaped [] ++ 34 :: rest) = 92 :: 92 :: 34 :: rest := rfl
        rw [if_pos (by decide), htext, scan_cons (by simp), hn, hf, List.nil_append, hskip, skipQuote_eq, grow_grow]
        rfl
      · have hend : ¬EndsWith [c] 92 := by simpa [EndsWith] using hc
        rw [if_neg (by simp [EndsWith])] at ih'
        rw [if_neg hend, scan_escapeByte_inQuotes hq fun h => absurd h hc]
        exact ih'
    · have hne : str ≠ [] := by
        obtain ⟨ys, y, rfl⟩ := hne
        simp
      obtain ⟨d, ds, rfl⟩ := List.exists_cons_of_ne_nil hne
      have hhead : (escaped (d :: ds) ++ 34 :: rest).head? ≠ some 34 := by
        rw [escaped_cons, List.append_assoc]
        exact head?_escapeByte
      simp only [endsWith_cons hne]
      rw [scan_escapeByte_inQuotes hq fun _ => hhead]
      exact ih'

/-! ### Elsewhere -/

theorem next_idle (hi : s.Idle) (hc : c ≠ 34 ∨ s.wantsValue = false) :
    (s.next c).Idle ∧ quoted (s.found c) = [] := by
  cases s with
  | readQuotedValue k v => exact hi.elim
  | readValue k v =>
    obtain ⟨d, v, rfl⟩ := List.exists_cons_of_ne_nil hi.1
    have hd : d ≠ 34 := hi.2
    by_cases hsp : isspace c = true
    · simp [next, found, hsp, Idle, quoted, Bytes.at, hd]
    · simp [next, found, hsp, Idle, quoted, Bytes.at, hd]
  | expectValue k =>
    have hc : c ≠ 34 := hc.resolve_right (by simp [wantsValue])
    by_cases hsp : isspace c = true
    · simp [next, found, hsp, Idle, quoted]
    · simp [next, found, hsp, hc, Idle, quoted, Bytes.at]
  | expectKey | skipKey | readKey k | readQuotedKey k | expectEquals k =>
    refine ⟨?_, rfl⟩
    simp only [next]
    repeat' split
    all_goals trivial

theorem next_wantsValue (hi : s.Idle) (h : (s.next c).wantsValue = true) : c = 61 := by
  cases s with
  | readQuotedValue k v => exact hi.elim
  | expectKey | skipKey | readKey k | readQuotedKey k | expectEquals k | expectValue k | readValue k v =>
    simp only [next] at h
    repeat' split at h
    all_goals first | assumption | simp [wantsValue] at h

/-- Only a value that is expected starts with a quotation mark. -/
theorem next_quote (hw : s.wantsValue = true) : ∃ k, s.next 34 = readQuotedValue k [34] ∧ s.found 34 = [] := by
  cases s <;> simp [wantsValue] at hw
  exact ⟨_, rfl, rfl⟩

theorem inQuotes_next_backslash (hq : s.inQuotes = false) : (s.next 92).inQuotes = false := by
  cases s <;> simp [inQuotes] at hq <;> rfl

theorem quoted_append {ps qs : List KvpText} : quoted (ps ++ qs) = quoted ps ++ quoted qs := List.filter_append ..

/-- What an idle scan makes of a character that does not start a quoted value and escapes no quotation mark. -/
theorem scan_idle_char (rest : Bytes) (hi : s.Idle) (hc : c ≠ 34 ∨ s.wantsValue = false)
    (hq : c = 92 → s.inQuotes = false) :
    ∃ es, scan (c :: rest) s = es ++ scan rest (s.next c) ∧ quoted es = [] ∧ (s.next c).Idle := by
  obtain ⟨hi', hf⟩ := next_idle hi hc
  exact ⟨_, scan_cons fun hs => by simp [hq hs.2.1] at hs, hf, hi'⟩

theorem scan_escapeByte_idle (rest : Bytes) (hi : s.Idle) (hq : s.inQuotes = false) :
    ∃ es s', scan (escapeByte c ++ rest) s = es ++ scan rest s' ∧ quoted es = [] ∧ s'.Idle ∧
      (s'.wantsValue = true → c = 61) := by
  by_cases h : getEscape c = 0
  · obtain ⟨-, hne⟩ := plain_ne h
    obtain ⟨es, hscan, hes, hi'⟩ := scan_idle_char rest hi (Or.inl hne) fun _ => hq
    rw [escapeByte_plain h]
    exact ⟨es, _, hscan, hes, hi', next_wantsValue hi⟩
  · obtain ⟨-, -, -, -, hr, -⟩ := escChars_spec _ (mem_escChars h)
    have hw : (s.next 92).wantsValue = false := by
      rw [← Bool.not_eq_true]
      intro hw
      exact absurd (next_wantsValue hi hw) (by decide)
    have hq' := inQuotes_next_backslash hq
    obtain ⟨es, hscan, hes, hi'⟩ := scan_idle_char (c := 92) (getEscape c :: rest) hi
      (Or.inl (by decide)) fun _ => hq
    obtain ⟨es', hscan', hes', hi''⟩ := scan_idle_char (c := getEscape c) rest hi' (Or.inr hw) fun _ => hq'
    refine ⟨es ++ es', _, ?_, by rw [quoted_append, hes, hes']; rfl, hi'', ?_⟩
    · rw [escapeByte_escape h, List.append_assoc, ← hscan']
      exact hscan
    · intro hw'
      exact absurd (next_wantsValue hi' hw') hr

/-- An escaped string starts no quoted value; the quotation mark after it does if an equals sign comes right
    before. -/
theorem scan_escaped_idle (str rest : Bytes) (hi : s.Idle) :
    ∃ es s', scan (escaped str ++ 34 :: rest) s = es ++ scan rest s' ∧ quoted es = [] ∧
      (s'.Idle ∧ s'.wantsValue = false ∨
        (∃ k, s' = readQuotedValue k [34]) ∧ (EndsWith str 61 ∨ str = [] ∧ s.wantsValue = true)) := by
  induction str generalizing s with
  | nil =>
    have hscan : scan (34 :: rest) s = s.found 34 ++ scan rest (s.next 34) := scan_quote
    cases hw : s.wantsValue with
    | true =>
      obtain ⟨k, hn, hf⟩ := next_quote hw
      exact ⟨_, _, hscan, by rw [hf]; rfl, Or.inr ⟨⟨k, hn⟩, Or.inr ⟨rfl, rfl⟩⟩⟩
    | false =>
      obtain ⟨hi', hf⟩ := next_idle (c := 34) hi (Or.inr hw)
      have hw' : (s.next 34).wantsValue = false := by
        rw [← Bool.not_eq_true]
        intro hw'
        exact absurd (next_wantsValue hi hw') (by decide)
      exact ⟨_, _, hscan, hf, Or.inl ⟨hi', hw'⟩⟩
  | cons c str ih =>
    cases hq : s.inQuotes with
    | true =>
      cases s with
      | readQuotedKey k =>
        have hscan : scan (escaped (c :: str) ++ 34 :: rest) (readQuotedKey k) = _ := scan_escaped_inQuotes hq
        split at hscan
        · exact ⟨[], _, hscan, rfl, Or.inl ⟨trivial, rfl⟩⟩
        · exact ⟨_, _, hscan, rfl, Or.inl ⟨trivial, rfl⟩⟩
      | readQuotedValue k v => exact hi.elim
      | _ => simp [inQuotes] at hq
    | false =>
      obtain ⟨es, s₁, hscan, hes, hi₁, hw₁⟩ := scan_escapeByte_idle (c := c) (escaped str ++ 34 :: rest) hi hq
      obtain ⟨es', s', hscan', hes', hs'⟩ := ih hi₁
      refine ⟨es ++ es', s', ?_, by rw [quoted_append, hes, hes']; rfl, hs'.imp_right ?_⟩
      · rw [escaped_cons, List.append_assoc, List.append_assoc, hscan, hscan']
      · intro h
        obtain ⟨hk, h | ⟨rfl, hw⟩⟩ := h
        · have hne : str ≠ [] := by
            rintro rfl
            simp [EndsWith] at h
          exact ⟨hk, Or.inl ((endsWith_cons hne).mpr h)⟩
        · exact ⟨hk, Or.inl (congrArg some (hw₁ hw))⟩

end
end Nlutils
