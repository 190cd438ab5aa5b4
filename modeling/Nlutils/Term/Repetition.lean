import Nlutils.Lib.Overwriting
import Nlutils.Term.Consistency

/-! # Repeated sequences

Whatever the state of the terminal, a string that it is given twice in a row does nothing the second time. -/

namespace Nlutils
open Lib

section
variable {s : TermState} {c : TermColor} {i j : Intensity}

/-- An intensity leaves a colour as it is, or makes it the one of a family that has the intensity. -/
theorem recolor_family (c : TermColor) : ∃ (made : Intensity → Bool) (family : Intensity → TermColor),
    (∀ i, c.recolor i = if made i then family i else c) ∧ ∀ i j, (family i).recolor j = family j := by
  cases htype : c.colorType with
  | default =>
    refine ⟨fun _ => true, defaultForeground, ?_, fun _ _ => recolor_default⟩
    intro i
    rw [TermColor.recolor, htype, if_pos rfl]
  | standard =>
    refine ⟨fun _ => true, fun i => standardColor i c.ansi, ?_, fun _ _ => recolor_standard⟩
    intro i
    rw [TermColor.recolor, htype, if_pos rfl]
  | xterm256 =>
    -- each intensity that makes a standard colour of it makes the same one
    have hk : c.xterm256.toNat % 8 < 8 := Nat.mod_lt _ (by decide)
    refine ⟨fun i => (standardIndex i c.xterm256).isSome, fun i => standardColor i ⟨_, hk⟩, ?_,
      fun _ _ => recolor_standard⟩
    intro i
    rw [recolor_xterm256 htype]
    cases hindex : standardIndex i c.xterm256 with
    | none => simp [hindex]
    | some k =>
      have heq : k = ⟨_, hk⟩ := Fin.ext (standardIndex_val hindex)
      simp [hindex, heq]
  | rgb =>
    refine ⟨fun _ => false, defaultForeground, ?_, fun _ _ => recolor_default⟩
    intro i
    rw [TermColor.recolor, htype, if_neg Bool.false_ne_true]

theorem recolor_again : (c.recolor i).recolor i = c.recolor i := by
  obtain ⟨made, family, hc, hfamily⟩ := recolor_family c
  by_cases hi : made i = true
  · rw [hc, if_pos hi, hfamily]
  · rw [hc, if_neg hi, hc, if_neg hi]

/-- What another intensity has made of a colour before is gone. -/
theorem recolor_absorb : ((c.recolor i).recolor j).recolor i = (c.recolor j).recolor i := by
  obtain ⟨made, family, hc, hfamily⟩ := recolor_family c
  by_cases hi : made i = true
  · have hmade : c.recolor i = family i := (hc i).trans (if_pos hi)
    by_cases hj : made j = true
    · rw [hmade, hfamily, hfamily, hc, if_pos hj, hfamily]
    · rw [hmade, hfamily, hfamily, hc, if_neg hj, hmade]
  · rw [hc i, if_neg hi]

/-- An intensity only adds to what was done with the foreground before. -/
theorem intensity_absorb (s : TermState) (d : Sgr) :
    Sgr.apply (Sgr.apply (Sgr.apply s (.intensity i)) d) (.intensity i) = Sgr.apply (Sgr.apply s d) (.intensity i) := by
  cases d with
  | reset | italic | underline | blink | reverse | strikethrough => simp only [Sgr.apply, recolor_again]
  | intensity j => simp only [Sgr.apply, recolor_absorb]
  | default t => cases t <;> simp only [Sgr.apply, recolor_default, recolor_again]
  | standard t k => cases t <;> simp only [Sgr.apply, recolor_standard, recolor_again]
  | xterm256 t n => cases t <;> simp only [Sgr.apply, setTargetColor, recolor_again]
  | rgb t r g b => cases t <;> simp only [Sgr.apply, setTargetColor, recolor_again]

/-- Every other code sets what it sets. -/
theorem sgr_overwrites : Overwrites Sgr.apply where
  again s a := by
    cases a with
    | intensity i => simp only [Sgr.apply, recolor_again]
    | reset | italic | underline | blink | reverse | strikethrough => rfl
    | default t | standard t k | xterm256 t n | rgb t r g b => cases t <;> rfl
  absorb s a d := by
    cases a with
    | intensity i => exact intensity_absorb s d
    | reset => rfl
    | italic | underline | blink | reverse | strikethrough =>
      cases d with
      | default t | standard t k | xterm256 t n | rgb t r g b => cases t <;> rfl
      | reset | intensity | italic | underline | blink | reverse | strikethrough => rfl
    | default t | standard t k | xterm256 t n | rgb t r g b =>
      cases t <;> cases d with
      | default t | standard t k | xterm256 t n | rgb t r g b => cases t <;> rfl
      | reset | intensity | italic | underline | blink | reverse | strikethrough => rfl

end

/-- A call on the state that the same call has left leaves that state. -/
theorem parse_again (s : Bytes) (state : TermState) :
    ∃ n state', nlTermParseAnsiColor (some s) (some state) = some (n, some state') ∧
      nlTermParseAnsiColor (some s) (some state') = some (n, some state') := by
  rcases parse_cases s state with h | ⟨body, more, rfl, P, hlen⟩
  · exact ⟨0, state, h, h⟩
  · refine ⟨_, _, parse_params P hlen, ?_⟩
    rw [parse_params P hlen]
    have htwice : applyParams (applyParams state body) body = applyParams state body :=
      sgr_overwrites.foldl_foldl _ state
    rw [htwice]

end Nlutils
