import Nlutils.Escape

/-! # Escaping and unescaping

A string that `nl_escape_string` has escaped comes back from `nl_unescape_string`, with and without quotation
marks around it, as long as the number of its escapes fits the `int` in which both functions count. -/

namespace Nlutils

/-- `nl_unescape_string` with its result; there is none where the `int` that counts the removed characters
    overflows. -/
def nlUnescapeStringInt (str : Bytes) (includeZero : Bool) (mode : UnescapeDequote) : Option (Int × Bytes) :=
  let r := nlUnescapeString str includeZero mode
  if r.2 < 2 ^ 31 then some ((r.2 : Int), r.1) else none

/-- Some character of a kind has no backslash before it that escapes it. -/
def hasBare (p : Byte → Bool) : Bytes → Bool
  | [] => false
  | [c] => p c
  | c :: d :: rest => if c = escapeChar then hasBare p rest else p c || hasBare p (d :: rest)

/-- The tab, the line feed, the vertical tab, the form feed and the carriage return. -/
def lineControls : Bytes := [9, 10, 11, 12, 13]

/-- A text that is the escaped form of a string. -/
structure IsEscaped (str text : Bytes) : Prop where
  length : text.length = str.length + nlCountEscapes str
  control : ∀ c ∈ text, c ∉ lineControls
  bare : hasBare (fun c => c == 58 || c == 34) text = false
  unescape : ∀ includeZero, ∀ mode ∈ [UnescapeDequote.noDequote, .dequote],
    nlUnescapeStringInt text includeZero mode = some ((nlCountEscapes str : Int), str)
  quoted : ∀ includeZero, ∀ mode ∈ [UnescapeDequote.dequote, .ifQuoted],
    nlUnescapeStringInt (34 :: (text ++ [34])) includeZero mode = some ((nlCountEscapes str : Int) + 2, str)

/-- Escaping the string, in a buffer of any size, gives its escaped form. -/
def EscapesBack (str : Bytes) : Prop :=
  ∀ size, ∃ text size', nlEscapeString true true str size = some (0, text, size') ∧ IsEscaped str text

section
variable {c : Byte} {str rest : Bytes} {includeZero : Bool} {mode : UnescapeDequote}

theorem escapeByte_control {d : Byte} (hd : d ∈ escapeByte c) : d ∉ lineControls := by
  intro hl
  by_cases h : getEscape c = 0
  · rw [escapeByte_plain h] at hd
    obtain rfl := List.mem_singleton.mp hd
    have htable : ∀ d ∈ lineControls, getEscape d ≠ 0 := by simp [lineControls, getEscape, escChars]
    exact htable d hl h
  · obtain ⟨-, -, -, hspace, -⟩ := escChars_spec _ (mem_escChars h)
    have hspaces : ∀ d ∈ lineControls, isspace d = true ∧ d ≠ escapeChar := by
      simp [lineControls, isspace, escapeChar]
    rw [escapeByte_escape h, List.mem_cons, List.mem_singleton] at hd
    rcases hd with rfl | rfl
    · exact (hspaces _ hl).2 rfl
    · exact Bool.noConfusion (hspace.symm.trans (hspaces _ hl).1)

theorem hasBare_escapeByte {p : Byte → Bool} (hp : ∀ c, p c = true → getEscape c ≠ 0) :
    hasBare p (escapeByte c ++ rest) = hasBare p rest := by
  by_cases h : getEscape c = 0
  · have hpc : p c = false := by
      rw [← Bool.not_eq_true]
      exact fun hc => hp c hc h
    have hc := (plain_ne h).1
    rw [escapeByte_plain h, List.singleton_append]
    cases rest with
    | nil => simp [hasBare, hpc]
    | cons d rest => simp [hasBare, hc, hpc]
  · simp [escapeByte_escape h, hasBare]

theorem hasBare_escaped {p : Byte → Bool} (hp : ∀ c, p c = true → getEscape c ≠ 0) :
    hasBare p (escaped str) = false := by
  have h := Lib.skip_flatMap (f := hasBare p) (w := escapeByte) str [] fun _ _ _ => hasBare_escapeByte hp
  rw [List.append_nil] at h
  exact h

theorem at_escaped : (escaped str).at 0 ≠ 34 := by
  cases str with
  | nil => decide
  | cons c str =>
    rw [escaped_cons]
    intro h
    have hne : escapeByte c ++ escaped str ≠ [] := by
      rw [← escaped_cons, ← List.length_pos_iff, length_escaped, List.length_cons]
      omega
    obtain ⟨d, ds, hd⟩ := List.exists_cons_of_ne_nil hne
    rw [hd] at h
    refine (head?_escapeByte : (escapeByte c ++ escaped str).head? ≠ some 34) ?_
    rw [hd]
    exact congrArg some h

/-- Without quotation marks around it. -/
theorem unescape_escaped (hm : mode = .noDequote ∨ mode = .dequote) :
    nlUnescapeString (escaped str) includeZero mode = (str, nlCountEscapes str) := by
  have hfrom : unescapeFrom includeZero false (escaped str) = (str, nlCountEscapes str) := by
    have h : unescapeLoop includeZero false (escaped str ++ []) = _ := unescapeLoop_escaped
    rw [List.append_nil] at h
    rw [unescapeFrom_eq, h]
    simp [unescapeLoop, addBytes]
  rcases hm with rfl | rfl
  · rw [nlUnescapeString, if_pos rfl, hfrom]
  · rw [nlUnescapeString, if_neg (by decide), if_neg at_escaped, if_neg (by decide), hfrom]

theorem unescape_escaped_quoted (hm : mode ≠ .noDequote) :
    nlUnescapeString (34 :: (escaped str ++ [34])) includeZero mode = (str, nlCountEscapes str + 2) := by
  rw [unescape_quoted hm, unescapeLoop_quote]
  simp [addBytes]

theorem isEscaped (h : nlCountEscapes str + 2 < 2 ^ 31) : IsEscaped str (escaped str) where
  length := length_escaped
  control c hc := by
    obtain ⟨d, -, hd⟩ := List.mem_flatMap.mp hc
    exact escapeByte_control hd
  bare := by
    refine hasBare_escaped ?_
    intro c hc
    have htable : getEscape 58 ≠ 0 ∧ getEscape 34 ≠ 0 := by decide
    rw [Bool.or_eq_true, beq_iff_eq, beq_iff_eq] at hc
    rcases hc with rfl | rfl
    · exact htable.1
    · exact htable.2
  unescape includeZero mode hm := by
    simp only [List.mem_cons, List.not_mem_nil, or_false] at hm
    have hlt : nlCountEscapes str < 2 ^ 31 := by omega
    simp only [nlUnescapeStringInt, unescape_escaped hm, if_pos hlt]
  quoted includeZero mode hm := by
    have hne : mode ≠ .noDequote := by
      rintro rfl
      simp at hm
    simp only [nlUnescapeStringInt, unescape_escaped_quoted hne, if_pos h]
    rfl

theorem nlEscapeString_escaped (h : nlCountEscapes str < 2 ^ 31) (size : Nat) :
    ∃ size', nlEscapeString true true str size = some (0, escaped str, size') := by
  have hlt : ¬nlCountEscapes str ≥ 2 ^ 31 := by omega
  simp only [nlEscapeString, if_neg hlt]
  simp

theorem lt_of_escapesBack (h : EscapesBack str) : nlCountEscapes str + 2 < 2 ^ 31 := by
  obtain ⟨text, size', htext, E⟩ := h 0
  have hlt : nlCountEscapes str < 2 ^ 31 := by
    by_contra hge
    rw [nlEscapeString, if_pos (Nat.le_of_not_lt hge)] at htext
    cases htext
  obtain ⟨size, hsize⟩ := nlEscapeString_escaped hlt 0
  obtain ⟨rfl, -⟩ : escaped str = text ∧ size = size' := by
    rw [htext] at hsize
    simpa using hsize.symm
  have hq := E.quoted true .dequote (by simp)
  rw [nlUnescapeStringInt, unescape_escaped_quoted (by decide)] at hq
  by_contra hge
  simp only [if_neg hge] at hq
  cases hq

end

/-- A string comes back if and only if its escapes, and the two quotation marks around it, can be counted. -/
theorem escapesBack_iff (str : Bytes) : EscapesBack str ↔ nlCountEscapes str + 2 < 2 ^ 31 := by
  refine ⟨lt_of_escapesBack, ?_⟩
  intro h size
  obtain ⟨size', hsize⟩ := nlEscapeString_escaped (Nat.lt_of_le_of_lt (Nat.le_add_right _ 2) h) size
  exact ⟨escaped str, size', hsize, isEscaped h⟩

theorem nlCountEscapes_tabs (n : Nat) : nlCountEscapes (List.replicate n 9) = n := by
  have htab : (getEscape 9 != 0) = true := rfl
  rw [nlCountEscapes, List.countP_replicate, if_pos htab]

/-- A string of 2^31 tabs has more escapes than an `int` can count. -/
theorem not_escapesBack_tabs : ¬∀ str, EscapesBack str := by
  intro h
  have hlt := lt_of_escapesBack (h (List.replicate (2 ^ 31) 9))
  rw [nlCountEscapes_tabs] at hlt
  omega

end Nlutils
