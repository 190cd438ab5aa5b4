import Nlutils.Term.Params
import Nlutils.Lib.Machine

/-! # Colours are consistent

Whatever strings a terminal is given, its colours are those that its constants and tables have for them. -/

namespace Nlutils
open Lib

/-- A terminal that is given strings. -/
def terminal : Machine TermState Bytes where
  init := nlDefaultTermState
  step state s := (nlTermParseAnsiColor (some s) (some state)).bind (·.2)

/-- A default colour, a standard colour of an intensity, one of the 256 colours or a 24-bit colour. -/
inductive TermColor.IsConsistent (c dflt : TermColor) (i : Intensity) : Prop
  | default : c.colorType = .default → c = dflt → IsConsistent c dflt i
  | standard : c.colorType = .standard → (nlTermStandardColors i)[c.ansi.val]? = some c → IsConsistent c dflt i
  | xterm256 (entry : TermColor) : c.colorType = .xterm256 →
    ColorParse.xterm256Color c.xterm256.toNat = some entry →
    c.r = entry.r → c.g = entry.g → c.b = entry.b → c.ansi = entry.ansi → IsConsistent c dflt i
  | rgb : c.colorType = .rgb → c.xterm256 = 0 → c.ansi = 0 → IsConsistent c dflt i

/-- Both colours are consistent, and no call looks outside of a table. -/
structure TermState.IsConsistent (state : TermState) : Prop where
  fg : state.fg.IsConsistent (defaultForeground state.intensity) state.intensity
  bg : state.bg.IsConsistent nlTermDefaultBackground .normal
  bounds : ∀ s, ∃ n state', nlTermParseAnsiColor (some s) (some state) = some (n, some state')

section
variable {dflt c : TermColor} {i j : Intensity} {state : TermState}

theorem standardColor_ansi (i : Intensity) (k : Fin 8) :
    (standardColor i k).ansi = k ∧ (standardColor i k).colorType = .standard := by
  have hall : ∀ k : Fin 8, (standardColor i k).ansi = k ∧ (standardColor i k).colorType = .standard := by
    cases i <;> decide
  exact hall k

theorem defaultForeground_type (i : Intensity) : (defaultForeground i).colorType = .default := by cases i <;> rfl

theorem isConsistent_standard (i : Intensity) (k : Fin 8) : (standardColor i k).IsConsistent dflt i := by
  obtain ⟨hansi, htype⟩ := standardColor_ansi i k
  refine .standard htype ?_
  rw [hansi]
  exact standardColor_spec i k

theorem isConsistent_default (i : Intensity) : (defaultForeground i).IsConsistent (defaultForeground i) i :=
  .default (defaultForeground_type i) rfl

theorem paletteColor_spec (n : UInt8) : (paletteColor n).xterm256 = n ∧ (paletteColor n).colorType = .xterm256 := by
  obtain ⟨c, hc, hindex⟩ := xterm256Color_spec n
  rw [paletteColor, hc]
  exact ⟨hindex, rfl⟩

theorem isConsistent_palette (n : UInt8) : (paletteColor n).IsConsistent dflt i := by
  obtain ⟨c, hc, hindex⟩ := xterm256Color_spec n
  have hpalette : paletteColor n = { c with colorType := .xterm256 } := by rw [paletteColor, hc]; rfl
  refine .xterm256 c (by rw [hpalette]) ?_ ?_ ?_ ?_ ?_ <;> rw [hpalette]
  rw [hindex, hc]

theorem standardIndex_val {n : UInt8} {k : Fin 8} (h : standardIndex i n = some k) : k.val = n.toNat % 8 := by
  unfold standardIndex at h
  cases i with
  | normal | intense =>
    obtain ⟨hn, h⟩ := Option.dite_none_right_eq_some.mp h
    obtain rfl := Option.some.inj h
    simp only
    omega
  | faint =>
    simp only at h
    split at h
    · obtain rfl := Option.some.inj h
      simp only
      omega
    · obtain ⟨hn, h⟩ := Option.dite_none_right_eq_some.mp h
      obtain rfl := Option.some.inj h
      simp only
      omega

theorem recolor_default : (defaultForeground i).recolor j = defaultForeground j := by
  rw [TermColor.recolor, defaultForeground_type]

theorem recolor_standard {k : Fin 8} : (standardColor i k).recolor j = standardColor j k := by
  obtain ⟨hansi, htype⟩ := standardColor_ansi i k
  rw [TermColor.recolor, htype, hansi]

theorem recolor_xterm256 (htype : c.colorType = .xterm256) :
    c.recolor i = ((standardIndex i c.xterm256).map (standardColor i)).getD c := by
  rw [TermColor.recolor, htype]

/-- A new intensity makes of a consistent foreground one that is consistent with it. -/
theorem TermColor.IsConsistent.recolor (h : c.IsConsistent dflt i) :
    (c.recolor j).IsConsistent (defaultForeground j) j := by
  unfold TermColor.recolor
  cases h with
  | default htype =>
    rw [htype]
    exact isConsistent_default j
  | standard htype =>
    rw [htype]
    exact isConsistent_standard j c.ansi
  | xterm256 entry htype hentry hr hg hb ha =>
    rw [htype]
    simp only
    cases standardIndex j c.xterm256 with
    | none => exact .xterm256 entry htype hentry hr hg hb ha
    | some k => exact isConsistent_standard j k
  | rgb htype hx ha =>
    rw [htype]
    exact .rgb htype hx ha

/-- The consistency of the colours alone. -/
def ColorsConsistent (state : TermState) : Prop :=
  state.fg.IsConsistent (defaultForeground state.intensity) state.intensity ∧
    state.bg.IsConsistent nlTermDefaultBackground .normal

/-- Setting a colour to one that is consistent whatever the intensity. -/
theorem ColorsConsistent.setTargetColor (h : ColorsConsistent state) (t : TargetColor)
    (hc : ∀ dflt i, c.IsConsistent dflt i) : ColorsConsistent (setTargetColor state t c) := by
  cases t with
  | foreground => exact ⟨hc _ _, h.2⟩
  | background => exact ⟨h.1, hc _ _⟩

theorem ColorsConsistent.apply (h : ColorsConsistent state) (code : Sgr) : ColorsConsistent (Sgr.apply state code) := by
  obtain ⟨hfg, hbg⟩ := h
  cases code with
  | reset => exact ⟨isConsistent_default .normal, .default rfl rfl⟩
  | intensity i => exact ⟨hfg.recolor, hbg⟩
  | italic | underline | blink | reverse | strikethrough => exact ⟨hfg, hbg⟩
  | default t =>
    cases t with
    | foreground => exact ⟨isConsistent_default state.intensity, hbg⟩
    | background => exact ⟨hfg, .default rfl rfl⟩
  | standard t k =>
    cases t with
    | foreground => exact ⟨isConsistent_standard state.intensity k, hbg⟩
    | background => exact ⟨hfg, isConsistent_standard .normal k⟩
  | xterm256 t n => exact ColorsConsistent.setTargetColor ⟨hfg, hbg⟩ t fun _ _ => isConsistent_palette n
  | rgb t r g b => exact ColorsConsistent.setTargetColor ⟨hfg, hbg⟩ t fun _ _ => .rgb rfl rfl rfl

/-- What a call does is what the codes of a sequence do. -/
theorem parse_applies (s : Bytes) (state : TermState) :
    ∃ n state', nlTermParseAnsiColor (some s) (some state) = some (n, some state') ∧
      ∃ cs, state' = Sgr.applyAll state cs := by
  rcases parse_cases s state with h | ⟨body, more, rfl, P, hlen⟩
  · exact ⟨0, state, h, [], rfl⟩
  · exact ⟨_, _, parse_params P hlen, _, rfl⟩

/-- What every code keeps holds in every state of the terminal. -/
theorem terminal_invariant {I : TermState → Prop} (hinit : I nlDefaultTermState)
    (hcode : ∀ state code, I state → I (Sgr.apply state code)) (hr : terminal.Reach Machine.anyStep state) :
    I state := by
  have hall : ∀ cs state, I state → I (Sgr.applyAll state cs) := by
    intro cs
    induction cs with
    | nil => exact fun _ h => h
    | cons c cs ih => exact fun state h => ih _ (hcode state c h)
  refine hr.invariant hinit ?_
  intro state s state' h _ hstep
  obtain ⟨n, u, hparse, cs, hu⟩ := parse_applies s state
  have hsame : some u = some state' := by
    rw [← hstep]
    simp only [terminal, hparse, Option.bind_some]
  rw [← Option.some.inj hsame, hu]
  exact hall cs state h

end

/-- In every state of a terminal the colours are consistent, and the tables are long enough. -/
theorem terminal_isConsistent (state : TermState) (hr : terminal.Reach Machine.anyStep state) : state.IsConsistent := by
  obtain ⟨hfg, hbg⟩ := terminal_invariant (I := ColorsConsistent) ⟨isConsistent_default .normal, .default rfl rfl⟩
    (fun _ code h => h.apply code) hr
  refine ⟨hfg, hbg, ?_⟩
  intro s
  obtain ⟨n, state', hparse, -⟩ := parse_applies s state
  exact ⟨n, state', hparse⟩

/-- After one of the 256 colours has been made bold. -/
theorem terminal_isConsistent_bold : (Sgr.apply (Sgr.apply nlDefaultTermState (.xterm256 .foreground 3))
    (.intensity .intense)).IsConsistent := by
  refine terminal_isConsistent _ (.step (a := 27 :: bytes "[38;5;3;1m") .init trivial ?_)
  decide

end Nlutils
