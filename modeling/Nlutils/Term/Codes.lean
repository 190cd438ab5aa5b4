import Nlutils.Term.Code

/-! # Codes and what they do

The numbers of a sequence are a list of codes, each of which changes the state of the terminal. The parser does with
the numbers what the codes say, and never looks outside of a table. -/

namespace Nlutils

/-- A complete code; those that the parser ignores are none. -/
inductive Sgr
  | reset
  | intensity (i : Intensity)
  | italic (on : Bool)
  | underline (on : Bool)
  | blink (on : Bool)
  | reverse (on : Bool)
  | strikethrough (on : Bool)
  | default (target : TargetColor)
  | standard (target : TargetColor) (k : Fin 8)
  | xterm256 (target : TargetColor) (n : UInt8)
  | rgb (target : TargetColor) (r g b : UInt8)
  deriving DecidableEq, Repr

/-- What has been read of a code of several numbers. -/
inductive Pending
  | none
  | special (target : TargetColor)
  | xterm256 (target : TargetColor)
  | red (target : TargetColor)
  | green (target : TargetColor) (r : UInt8)
  | blue (target : TargetColor) (r g : UInt8)
  deriving DecidableEq, Repr

/-- The component that a number stands for. -/
def component (n : Nat) : UInt8 := (n % 256).toUInt8

/-- A code of one number. -/
def Sgr.single (n : Nat) : Option Sgr :=
  match n with
  | 0 => some .reset
  | 1 => some (.intensity .intense)
  | 2 => some (.intensity .faint)
  | 3 => some (.italic true)
  | 4 => some (.underline true)
  | 5 => some (.blink true)
  | 7 => some (.reverse true)
  | 9 => some (.strikethrough true)
  | 22 => some (.intensity .normal)
  | 23 => some (.italic false)
  | 24 => some (.underline false)
  | 25 => some (.blink false)
  | 27 => some (.reverse false)
  | 29 => some (.strikethrough false)
  | 39 => some (.default .foreground)
  | 49 => some (.default .background)
  | n =>
    if h : n ≥ 30 ∧ n ≤ 37 then some (.standard .foreground ⟨n - 30, by omega⟩)
    else if h : n ≥ 40 ∧ n ≤ 47 then some (.standard .background ⟨n - 40, by omega⟩)
    else none

namespace Pending

/-- What is read of a code after one more number. -/
def next (p : Pending) (n : Nat) : Pending :=
  match p with
  | .none => if n = 38 then .special .foreground else if n = 48 then .special .background else .none
  | .special t => if n = 2 then .red t else if n = 5 then .xterm256 t else .none
  | .xterm256 _ => .none
  | .red t => .green t (component n)
  | .green t r => .blue t r (component n)
  | .blue _ _ _ => .none

/-- The code that a number completes. -/
def code (p : Pending) (n : Nat) : Option Sgr :=
  match p with
  | .none => Sgr.single n
  | .xterm256 t => some (.xterm256 t (component n))
  | .blue t r g => some (.rgb t r g (component n))
  | _ => Option.none

/-- The codes that numbers complete. -/
def codes : Pending → List Nat → List Sgr
  | _, [] => []
  | p, n :: ns => (p.code n).toList ++ (p.next n).codes ns

end Pending

/-- One of the eight standard colours. -/
def standardColor (i : Intensity) (k : Fin 8) : TermColor := (nlTermStandardColors i).getD k nlTermDefaultForeground

def defaultForeground : Intensity → TermColor
  | .normal => nlTermDefaultForeground
  | .intense => nlTermBoldForeground
  | .faint => nlTermFaintForeground

/-- One of the 256 colours. -/
def paletteColor (n : UInt8) : TermColor :=
  { (ColorParse.xterm256Color n.toNat).getD nlTermDefaultForeground with colorType := .xterm256 }

/-- The standard colour that a colour of the 256 becomes. -/
def standardIndex (i : Intensity) (n : UInt8) : Option (Fin 8) :=
  match i with
  | .normal => if h : 8 ≤ n.toNat ∧ n.toNat < 16 then some ⟨n.toNat - 8, by omega⟩ else none
  | .intense => if h : n.toNat < 8 then some ⟨n.toNat, h⟩ else none
  | .faint =>
    if h : n.toNat < 8 then some ⟨n.toNat, h⟩
    else if h : n.toNat < 16 then some ⟨n.toNat - 8, by omega⟩
    else none

/-- The colour with another intensity. -/
def TermColor.recolor (i : Intensity) (c : TermColor) : TermColor :=
  match c.colorType with
  | .default => defaultForeground i
  | .standard => standardColor i c.ansi
  | .xterm256 => ((standardIndex i c.xterm256).map (standardColor i)).getD c
  | .rgb => c

namespace Sgr

/-- What a code does. -/
def apply (s : TermState) : Sgr → TermState
  | .reset => nlDefaultTermState
  | .intensity i => { s with intensity := i, fg := s.fg.recolor i }
  | .italic on => { s with italic := on }
  | .underline on => { s with underline := on }
  | .blink on => { s with blink := on }
  | .reverse on => { s with reverse := on }
  | .strikethrough on => { s with strikethrough := on }
  | .default .foreground => { s with fg := defaultForeground s.intensity }
  | .default .background => { s with bg := nlTermDefaultBackground }
  | .standard .foreground k => { s with fg := standardColor s.intensity k }
  | .standard .background k => { s with bg := standardColor .normal k }
  | .xterm256 t n => setTargetColor s t (paletteColor n)
  | .rgb t r g b => setTargetColor s t (rgbColor r g b)

/-- What codes do one after the other. -/
def applyAll (s : TermState) (cs : List Sgr) : TermState := cs.foldl apply s

end Sgr

/-! ### The parser and the codes -/

section
variable {s : TermState} {c : TermColor} {i : Intensity} {n : Nat}

theorem length_standardColors (i : Intensity) : (nlTermStandardColors i).length = 10 := by cases i <;> rfl

theorem standardColor_spec (i : Intensity) (k : Fin 8) :
    (nlTermStandardColors i)[k.val]? = some (standardColor i k) := by
  have hlen : k.val < (nlTermStandardColors i).length := by
    rw [length_standardColors]
    omega
  rw [standardColor, List.getD_eq_getElem?_getD, List.getElem?_eq_getElem hlen, Option.getD_some]

theorem makeColorFaint_eq (c : TermColor) : makeColorFaint c = some (c.recolor .faint) := by
  unfold makeColorFaint TermColor.recolor standardIndex
  cases c.colorType with
  | default | rgb => rfl
  | standard => exact standardColor_spec .faint c.ansi
  | xterm256 =>
    simp only [UInt8.lt_iff_toNat_lt, UInt8.toNat_ofNat]
    split
    · next h => exact standardColor_spec .faint ⟨_, h⟩
    · split
      · next h => exact standardColor_spec .faint ⟨_, by omega⟩
      · rfl

theorem makeColorIntense_eq (c : TermColor) : makeColorIntense c = some (c.recolor .intense) := by
  unfold makeColorIntense TermColor.recolor standardIndex
  cases c.colorType with
  | default | rgb => rfl
  | standard => exact standardColor_spec .intense c.ansi
  | xterm256 =>
    simp only [UInt8.lt_iff_toNat_lt, UInt8.toNat_ofNat]
    split
    · next h => exact standardColor_spec .intense ⟨_, h⟩
    · rfl

theorem makeColorNormal_eq (c : TermColor) : makeColorNormal c = some (c.recolor .normal) := by
  unfold makeColorNormal TermColor.recolor standardIndex
  cases c.colorType with
  | default | rgb => rfl
  | standard => exact standardColor_spec .normal c.ansi
  | xterm256 =>
    simp only [ge_iff_le, UInt8.le_iff_toNat_le, UInt8.lt_iff_toNat_lt, UInt8.toNat_ofNat]
    split
    · next h => exact standardColor_spec .normal ⟨_, by omega⟩
    · rfl

theorem setColorIntensity_eq (s : TermState) :
    setColorIntensity s = some { s with fg := s.fg.recolor s.intensity } := by
  unfold setColorIntensity
  cases s.intensity with
  | normal => rw [makeColorNormal_eq]; rfl
  | intense => rw [makeColorIntense_eq]; rfl
  | faint => rw [makeColorFaint_eq]; rfl

theorem xterm256Color_spec (n : UInt8) : ∃ c, ColorParse.xterm256Color n.toNat = some c ∧ c.xterm256 = n := by
  have hn := n.toNat_lt
  unfold ColorParse.xterm256Color
  split
  · next h =>
    have hindex : ∀ k : Fin 8, (standardColor .normal k).xterm256 = k.val.toUInt8 := by decide
    refine ⟨_, standardColor_spec .normal ⟨_, h⟩, ?_⟩
    rw [hindex]
    exact UInt8.ofNat_toNat
  · split
    · next h =>
      have hindex : ∀ k : Fin 8, (standardColor .intense k).xterm256 = (k.val + 8).toUInt8 := by decide
      refine ⟨_, standardColor_spec .intense ⟨n.toNat - 8, by omega⟩, ?_⟩
      rw [hindex]
      have hsum : n.toNat - 8 + 8 = n.toNat := by omega
      simp only [hsum]
      exact UInt8.ofNat_toNat
    · split
      · next h =>
        have hrgb : ∀ k, k < 6 → ∃ v, xtermRgbValues[k]? = some v := by
          intro k hk
          exact ⟨_, List.getElem?_eq_getElem hk⟩
        obtain ⟨r, hr⟩ := hrgb ((n.toNat - 16) / 36) (by omega)
        obtain ⟨g, hg⟩ := hrgb ((n.toNat - 16) / 6 % 6) (by omega)
        obtain ⟨b, hb⟩ := hrgb ((n.toNat - 16) % 6) (by omega)
        simp only [hr, hg, hb, Option.bind_eq_bind, Option.bind_some]
        exact ⟨_, rfl, UInt8.ofNat_toNat⟩
      · have hgray : ∀ k, k < 24 → nlTermXtermGrays[k]?.map (·.xterm256) = some (232 + k).toUInt8 := by decide
        obtain ⟨c, hc, hindex⟩ := Option.map_eq_some_iff.mp (hgray (n.toNat - 232) (by omega))
        refine ⟨c, hc, ?_⟩
        have hsum : 232 + (n.toNat - 232) = n.toNat := by omega
        rw [hindex, hsum]
        exact UInt8.ofNat_toNat

/-- The parser, where it expects the next number of a code. -/
def Pending.Follows (p : Pending) (v : ColorParse) : Prop :=
  let isRgb (t : TargetColor) : Prop :=
    v.colorTarget = t ∧ v.parseColor = rgbColor v.parseColor.r v.parseColor.g v.parseColor.b
  match p with
  | .none => v.ps = .expectControl
  | .special t => v.ps = .expect2Or5 ∧ v.colorTarget = t
  | .xterm256 t => v.ps = .expectXterm256 ∧ v.colorTarget = t
  | .red t => v.ps = .expectRed ∧ isRgb t
  | .green t r => v.ps = .expectGreen ∧ isRgb t ∧ v.parseColor.r = r
  | .blue t r g => v.ps = .expectBlue ∧ isRgb t ∧ v.parseColor.r = r ∧ v.parseColor.g = g

/-- The parser after a semicolon. -/
def ColorParse.resume (v : ColorParse) : ColorParse := { v with ps := v.nextPs, nextPs := .expectControl }

/-- The parser after a number. -/
structure AfterNumber (p : Pending) (n : Nat) (v v' : ColorParse) : Prop where
  number : v.number n = some v'
  ps : v'.ps = .expectSemicolon
  follows : (p.next n).Follows v'.resume
  newState : v'.newState = Sgr.applyAll v.newState (p.code n).toList

theorem controlCode_eq (v : ColorParse) (hn : v.nextPs = .expectControl) (n : Nat) : ∃ v', v.controlCode n = some v' ∧
    (Pending.next .none n).Follows v'.resume ∧ v'.newState = Sgr.applyAll v.newState (Sgr.single n).toList := by
  unfold ColorParse.controlCode
  simp only [setColorIntensity_eq, Option.bind_some]
  split
  case h_19 h38 _ h48 _ =>
    have hnext : Pending.next .none n = .none := (if_neg h38).trans (if_neg h48)
    rw [Sgr.single, hnext]
    · by_cases hfg : n ≥ 30 ∧ n ≤ 37
      · have hk : (nlTermStandardColors v.newState.intensity)[n - 30]? = some _ :=
          standardColor_spec v.newState.intensity ⟨n - 30, by omega⟩
        rw [if_pos hfg, dif_pos hfg, hk]
        exact ⟨_, rfl, hn, rfl⟩
      · rw [if_neg hfg, dif_neg hfg]
        by_cases hbg : n ≥ 40 ∧ n ≤ 47
        · have hk : (nlTermStandardColors .normal)[n - 40]? = some _ :=
            standardColor_spec .normal ⟨n - 40, by omega⟩
          rw [if_pos hbg, dif_pos hbg, hk]
          exact ⟨_, rfl, hn, rfl⟩
        · rw [if_neg hbg, dif_neg hbg]
          exact ⟨_, rfl, hn, rfl⟩
    all_goals assumption
  all_goals exact ⟨_, rfl, by first | exact hn | exact ⟨rfl, rfl⟩, rfl⟩

theorem component_toNat (n : Nat) : (component n).toNat = n % 256 := by
  simp [component]

/-- What a number does to the parser, and what code it completes. -/
theorem Pending.Follows.number {p : Pending} {v : ColorParse} (F : p.Follows v) (n : Nat) :
    ∃ v', AfterNumber p n v v' := by
  obtain ⟨ps, nextPs, target, color, s⟩ := v
  cases p with
  | none =>
    obtain rfl : ps = .expectControl := F
    obtain ⟨v', hv', hfollows, hstate⟩ := controlCode_eq ⟨.expectControl, .expectControl, target, color, s⟩ rfl n
    exact ⟨_, congrArg (Option.map _) hv', rfl, hfollows, hstate⟩
  | special t =>
    obtain ⟨rfl, rfl⟩ : ps = .expect2Or5 ∧ target = t := F
    by_cases h2 : n = 2
    · subst h2
      exact ⟨_, rfl, rfl, ⟨rfl, rfl, rfl⟩, rfl⟩
    · by_cases h5 : n = 5
      · subst h5
        exact ⟨_, rfl, rfl, ⟨rfl, rfl⟩, rfl⟩
      · have hnext : (Pending.special target).next n = .none := (if_neg h2).trans (if_neg h5)
        have hignore : ColorParse.expect2Or5 ⟨.expect2Or5, nextPs, target, color, s⟩ n =
            ⟨.expect2Or5, .expectControl, target, color, s⟩ := by
          unfold ColorParse.expect2Or5
          split
          · exact absurd rfl h2
          · exact absurd rfl h5
          · rfl
        exact ⟨_, congrArg (Option.map _ ∘ some) hignore, rfl, hnext ▸ rfl, rfl⟩
  | xterm256 t =>
    obtain ⟨rfl, rfl⟩ : ps = .expectXterm256 ∧ target = t := F
    obtain ⟨c, hc, -⟩ := xterm256Color_spec (component n)
    rw [component_toNat] at hc
    have hcolor : paletteColor (component n) = { c with colorType := .xterm256 } := by
      rw [paletteColor, component_toNat, hc]
      rfl
    refine ⟨_, congrArg (Option.map _) (congrArg (Option.map _) hc), rfl, rfl, ?_⟩
    simp only [Pending.code, Option.toList_some, Sgr.applyAll, List.foldl_cons, List.foldl_nil, Sgr.apply, hcolor]
  | red t =>
    obtain ⟨rfl, ht, hcolor⟩ := F
    have hnew := congrArg (fun c : TermColor => { c with r := (n % 256).toUInt8 }) hcolor
    exact ⟨_, rfl, rfl, ⟨rfl, ⟨ht, hnew⟩, rfl⟩, rfl⟩
  | green t r =>
    obtain ⟨rfl, ⟨ht, hcolor⟩, hr⟩ := F
    have hnew := congrArg (fun c : TermColor => { c with g := (n % 256).toUInt8 }) hcolor
    exact ⟨_, rfl, rfl, ⟨rfl, ⟨ht, hnew⟩, hr, rfl⟩, rfl⟩
  | blue t r g =>
    obtain ⟨rfl, ⟨rfl, hcolor⟩, rfl, rfl⟩ := F
    have hnew := congrArg (fun c : TermColor => { c with b := (n % 256).toUInt8 }) hcolor
    exact ⟨_, rfl, rfl, rfl, congrArg (setTargetColor s target) hnew⟩

theorem Pending.Follows.ps {p : Pending} {v : ColorParse} (F : p.Follows v) : v.ps ≠ .expectSemicolon := by
  intro hps
  cases p with
  | none =>
    have h : v.ps = .expectControl := F
    rw [hps] at h
    cases h
  | special | xterm256 | red | green | blue =>
    have h := F.1
    rw [hps] at h
    cases h

end
end Nlutils
