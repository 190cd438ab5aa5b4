import Nlutils.Escape

/-! # The characters that unescaping removes

A string is made of characters, escapes and, in quotation marks, the last of them. Each character of it is written by
`nl_unescape_string` or removed, and what is removed can be read off the pieces. -/

namespace Nlutils

/-- What a string is made of. -/
inductive Piece
  | char (c : Byte)
  /-- The escape character and one that is in the table. -/
  | standard (c : Byte)
  /-- A hexadecimal escape: its value and the number of its digits. -/
  | hex (value : Byte) (digits : Nat)
  /-- A quotation mark at the end. -/
  | quote
  deriving DecidableEq, Repr

def pieces (dequote : Bool) : Bytes → List Piece
  | [] => []
  | c :: rest =>
    if c = escapeChar ∧ Bytes.at rest 0 = 120 ∧ isxdigit (Bytes.at rest 1) then
      if isxdigit (Bytes.at rest 2) then
        .hex (hexDigit (Bytes.at rest 1) * 16 + hexDigit (Bytes.at rest 2)) 2 :: pieces dequote (rest.drop 3)
      else .hex (hexDigit (Bytes.at rest 1)) 1 :: pieces dequote (rest.drop 2)
    else if c = escapeChar ∧ getOriginal (Bytes.at rest 0) ≠ 0 then
      .standard (Bytes.at rest 0) :: pieces dequote rest.tail
    else if dequote ∧ c = 34 ∧ rest = [] then [.quote]
    else .char c :: pieces dequote rest
termination_by str => str.length
decreasing_by all_goals simp only [List.length_cons, List.length_drop, List.length_tail]; omega

/-- A zero byte that is not to be included is not written. -/
def Piece.removed (includeZero : Bool) : Piece → Nat
  | char _ => 0
  | standard _ => 1
  | hex value digits => if value ≠ 0 ∨ includeZero then digits + 1 else digits + 2
  | quote => 1

/-- The characters of a string that nothing is written for. -/
def removedChars (str : Bytes) (includeZero : Bool) (mode : UnescapeDequote) : Nat :=
  if mode ≠ .noDequote ∧ str.at 0 = 34 then
    1 + ((pieces true str.tail).map (Piece.removed includeZero)).sum
  else if mode = .ifQuoted then 0
  else ((pieces false str).map (Piece.removed includeZero)).sum

section
variable {str rest : Bytes} {includeZero dequote : Bool} {v : Byte} {n : Nat}

theorem addHex_removed {value : Byte} {r : Bytes × Nat} :
    (addHex includeZero value (n + 2) r).2 = Piece.removed includeZero (.hex value n) + r.2 := by
  by_cases hv : value ≠ 0 ∨ includeZero = true
  · rw [addHex, Piece.removed, if_pos hv, if_pos hv]
    rfl
  · rw [addHex, Piece.removed, if_neg hv, if_neg hv]
    rfl

/-- The loop removes what the pieces lose. -/
theorem unescapeLoop_removed (str : Bytes) : (unescapeLoop includeZero dequote str).2 =
    ((pieces dequote str).map (Piece.removed includeZero)).sum := by
  fun_induction pieces dequote str with
  | case1 => rfl
  | case2 c rest h hl ih =>
    obtain ⟨rfl, h120, hh⟩ := h
    obtain ⟨rest, rfl⟩ := eq_cons_of_at h120 (by decide)
    have hh : isxdigit (Bytes.at rest 0) = true := hh
    have hl : isxdigit (Bytes.at rest 1) = true := hl
    rw [unescapeLoop_hexEscape, if_pos hh, if_pos hl, addHex_removed, List.map_cons, List.sum_cons]
    exact congrArg _ ih
  | case3 c rest h hl ih =>
    obtain ⟨rfl, h120, hh⟩ := h
    obtain ⟨rest, rfl⟩ := eq_cons_of_at h120 (by decide)
    have hh : isxdigit (Bytes.at rest 0) = true := hh
    have hl : ¬isxdigit (Bytes.at rest 1) = true := hl
    rw [unescapeLoop_hexEscape, if_pos hh, if_neg hl, addHex_removed, List.map_cons, List.sum_cons]
    exact congrArg _ ih
  | case4 c rest h hs ih =>
    obtain ⟨rfl, ho⟩ := hs
    obtain ⟨d, rest, rfl, hat⟩ := exists_cons_of_at (fun h0 => ho (by rw [h0]; rfl))
    rw [hat] at ho
    have hx : d ≠ 120 := by
      rintro rfl
      exact ho rfl
    rw [unescapeLoop_escape hx ho, List.map_cons, List.sum_cons, hat]
    exact congrArg (1 + ·) ih
  | case5 c rest h hs hq =>
    obtain ⟨rfl, rfl, rfl⟩ := hq
    rfl
  | case6 c rest h hs hq ih =>
    rw [List.map_cons, List.sum_cons, ← ih, Piece.removed, Nat.zero_add]
    have hplain : ∀ {b : Byte} {s : Bytes}, b ≠ escapeChar → (b ≠ 34 ∨ dequote = false ∨ s ≠ []) →
        (unescapeLoop includeZero dequote (b :: s)).2 = (unescapeLoop includeZero dequote s).2 := by
      intro b s hb hquote
      rw [unescapeLoop_plain hb hquote]
      exact Nat.zero_add _
    by_cases hc : c = escapeChar
    · subst hc
      cases rest with
      | nil => rfl
      | cons d rest =>
        have ho : getOriginal d = 0 := not_not.mp fun ho => hs ⟨rfl, ho⟩
        have hd : d ≠ escapeChar ∧ d ≠ 34 := by
          constructor
          · rintro rfl
            cases ho
          · rintro rfl
            cases ho
        rw [hplain hd.1 (Or.inl hd.2)]
        by_cases hx : d = 120
        · subst hx
          have hdigit : ¬isxdigit (Bytes.at rest 0) = true := fun hx => h ⟨rfl, rfl, hx⟩
          rw [unescapeLoop_hexEscape, if_neg hdigit]
          exact Nat.zero_add _
        · rw [unescapeLoop_unknown hx ho]
          exact Nat.zero_add _
    · refine hplain hc ?_
      by_cases hc34 : c = 34
      · by_cases hnil : rest = []
        · exact Or.inr (Or.inl (Bool.not_eq_true _ ▸ fun hdq => hq ⟨hdq, hc34, hnil⟩))
        · exact Or.inr (Or.inr hnil)
      · exact Or.inl hc34

theorem nlUnescapeString_removed (str : Bytes) (includeZero : Bool) (mode : UnescapeDequote) :
    (nlUnescapeString str includeZero mode).2 = removedChars str includeZero mode := by
  unfold nlUnescapeString removedChars
  by_cases hm : mode = .noDequote
  · subst hm
    have hquote : ¬(UnescapeDequote.noDequote ≠ .noDequote ∧ str.at 0 = 34) := fun h => h.1 rfl
    rw [if_pos rfl, if_neg hquote, if_neg (by decide), unescapeFrom_eq, unescapeLoop_removed]
  · by_cases hq : str.at 0 = 34
    · rw [if_neg hm, if_pos hq, if_pos ⟨hm, hq⟩, unescapeFrom_eq, ← unescapeLoop_removed]
      rfl
    · have hquote : ¬(mode ≠ .noDequote ∧ str.at 0 = 34) := fun h => hq h.2
      rw [if_neg hm, if_neg hq, if_neg hquote]
      split
      · rfl
      · rw [unescapeFrom_eq, unescapeLoop_removed]

/-! ### The characters that are left -/

theorem length_addBytes {bs : Bytes} {r : Bytes × Nat} :
    (addBytes bs n r).1.length + (addBytes bs n r).2 = bs.length + n + (r.1.length + r.2) := by
  simp only [addBytes, List.length_append]
  omega

theorem length_addHex {r : Bytes × Nat} : (addHex includeZero v (n + 1) r).1.length +
    (addHex includeZero v (n + 1) r).2 = n + 1 + (r.1.length + r.2) := by
  unfold addHex
  split
  · rw [length_addBytes, List.length_singleton]
    omega
  · rw [length_addBytes, List.length_nil]
    omega

/-- Each character of the string is written or removed. -/
theorem length_unescapeLoop (includeZero dequote : Bool) (str : Bytes) :
    (unescapeLoop includeZero dequote str).1.length + (unescapeLoop includeZero dequote str).2 = str.length := by
  fun_induction unescapeLoop includeZero dequote str with
  | case1 | case2 | case3 | case4 | case5 => rfl
  | case6 => exact length_addHex
  | case7 h hx ih =>
    rw [length_addBytes, ih]
    rfl
  | case8 h l rest hx hy ih | case9 h l rest hx hy ih =>
    rw [length_addHex, ih]
    simp only [List.length_cons]
    omega
  | case10 h l rest hx ih =>
    rw [length_addBytes, ih]
    simp only [List.length_cons, List.length_nil]
    omega
  | case11 d rest hx ho ih | case12 d rest hx ho ih =>
    rw [length_addBytes, ih]
    simp only [List.length_cons, List.length_nil]
    omega
  | case13 c d rest hc ih =>
    rw [length_addBytes, ih]
    simp only [List.length_cons, List.length_nil]
    omega

theorem length_nlUnescapeString (str : Bytes) (includeZero : Bool) (mode : UnescapeDequote) :
    (nlUnescapeString str includeZero mode).1.length + (nlUnescapeString str includeZero mode).2 = str.length := by
  unfold nlUnescapeString
  split
  · rw [unescapeFrom_eq, length_unescapeLoop]
  · split
    · next hq =>
      obtain ⟨rest, rfl⟩ := eq_cons_of_at hq (by decide)
      rw [unescapeFrom_eq, length_addBytes, length_unescapeLoop, List.tail_cons, List.length_cons, List.length_nil]
      omega
    · split
      · rfl
      · rw [unescapeFrom_eq, length_unescapeLoop]

end
end Nlutils
