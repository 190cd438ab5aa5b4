import Nlutils.Strtol

/-! # ANSI colours (`term.c`)

A table is a list, and a look-up outside of it has no result. -/

namespace Nlutils

/-- `enum nl_term_color_type` -/
inductive ColorType
  | default
  | standard
  | xterm256
  | rgb
  deriving DecidableEq, Repr

/-- `struct nl_term_color` -/
structure TermColor where
  r : UInt8
  g : UInt8
  b : UInt8
  xterm256 : UInt8
  ansi : Fin 8
  colorType : ColorType
  deriving DecidableEq, Repr

/-- `enum nl_term_intensity` -/
inductive Intensity
  | normal
  | intense
  | faint
  deriving DecidableEq, Repr

/-- `struct nl_term_state` -/
structure TermState where
  fg : TermColor
  bg : TermColor
  intensity : Intensity
  italic : Bool
  underline : Bool
  blink : Bool
  reverse : Bool
  strikethrough : Bool
  deriving DecidableEq, Repr

def nlTermDefaultForeground : TermColor := ⟨158, 158, 158, 7, 7, .default⟩

def nlTermBoldForeground : TermColor := ⟨234, 234, 234, 15, 7, .default⟩

def nlTermFaintForeground : TermColor := ⟨80, 80, 80, 7, 7, .default⟩

def nlTermDefaultBackground : TermColor := ⟨16, 16, 16, 0, 0, .default⟩

/-- A colour of 24 bits, which is in no table. -/
def rgbColor (r g b : Byte) : TermColor := ⟨r, g, b, 0, 0, .rgb⟩

def nlTermStandardColors : Intensity → List TermColor
  | .normal => [
    ⟨36, 36, 36, 0, 0, .standard⟩,
    ⟨204, 66, 66, 1, 1, .standard⟩,
    ⟨104, 154, 51, 2, 2, .standard⟩,
    ⟨196, 165, 42, 3, 3, .standard⟩,
    ⟨61, 107, 164, 4, 4, .standard⟩,
    ⟨116, 80, 123, 5, 5, .standard⟩,
    ⟨63, 154, 154, 6, 6, .standard⟩,
    ⟨158, 158, 158, 7, 7, .standard⟩,
    nlTermDefaultForeground,
    nlTermDefaultBackground]
  | .intense => [
    ⟨70, 70, 70, 8, 0, .standard⟩,
    ⟨225, 70, 70, 9, 1, .standard⟩,
    ⟨138, 196, 81, 10, 2, .standard⟩,
    ⟨205, 189, 83, 11, 3, .standard⟩,
    ⟨85, 146, 207, 12, 4, .standard⟩,
    ⟨173, 115, 167, 13, 5, .standard⟩,
    ⟨78, 190, 190, 14, 6, .standard⟩,
    ⟨234, 234, 234, 15, 7, .standard⟩,
    nlTermBoldForeground,
    nlTermDefaultBackground]
  | .faint => [
    ⟨24, 24, 24, 0, 0, .standard⟩,
    ⟨140, 41, 41, 1, 1, .standard⟩,
    ⟨70, 100, 41, 2, 2, .standard⟩,
    ⟨100, 87, 40, 3, 3, .standard⟩,
    ⟨39, 78, 125, 4, 4, .standard⟩,
    ⟨95, 65, 100, 5, 5, .standard⟩,
    ⟨35, 80, 80, 6, 6, .standard⟩,
    ⟨80, 80, 80, 7, 7, .standard⟩,
    nlTermBoldForeground,
    nlTermDefaultBackground]

/-- The grays that the initializer of the table of 32 gives; the others are zero. -/
def xtermGrayLevels : List UInt8 :=
  [0x08, 0x12, 0x1c, 0x26, 0x30, 0x3a, 0x44, 0x4e, 0x58, 0x62, 0x6c, 0x76, 0x80, 0x8a, 0x94, 0x9e, 0xa8, 0xb2, 0xbc,
    0xc6, 0xd0, 0xda, 0xe4, 0xee]

def nlTermXtermGrays : List TermColor :=
  (xtermGrayLevels.mapIdx fun i v => ⟨v, v, v, (232 + i).toUInt8, 0, .xterm256⟩) ++
    List.replicate 8 ⟨0, 0, 0, 0, 0, .standard⟩

def xtermRgbValues : List UInt8 := [0, 95, 135, 175, 215, 255]

def nlDefaultTermState : TermState where
  fg := nlTermDefaultForeground
  bg := nlTermDefaultBackground
  intensity := .normal
  italic := false
  underline := false
  blink := false
  reverse := false
  strikethrough := false

def makeColorFaint (c : TermColor) : Option TermColor :=
  match c.colorType with
  | .default => some nlTermFaintForeground
  | .standard => (nlTermStandardColors .faint)[c.ansi.val]?
  | .xterm256 =>
    if c.xterm256 < 8 then (nlTermStandardColors .faint)[c.xterm256.toNat]?
    else if c.xterm256 < 16 then (nlTermStandardColors .faint)[c.xterm256.toNat - 8]?
    else some c
  | .rgb => some c

def makeColorIntense (c : TermColor) : Option TermColor :=
  match c.colorType with
  | .default => some nlTermBoldForeground
  | .standard => (nlTermStandardColors .intense)[c.ansi.val]?
  | .xterm256 => if c.xterm256 < 8 then (nlTermStandardColors .intense)[c.xterm256.toNat]? else some c
  | .rgb => some c

def makeColorNormal (c : TermColor) : Option TermColor :=
  match c.colorType with
  | .default => some nlTermDefaultForeground
  | .standard => (nlTermStandardColors .normal)[c.ansi.val]?
  | .xterm256 =>
    if c.xterm256 ≥ 8 ∧ c.xterm256 < 16 then (nlTermStandardColors .normal)[c.xterm256.toNat - 8]? else some c
  | .rgb => some c

def setColorIntensity (s : TermState) : Option TermState :=
  match s.intensity with
  | .normal => (makeColorNormal s.fg).map fun fg => { s with fg }
  | .intense => (makeColorIntense s.fg).map fun fg => { s with fg }
  | .faint => (makeColorFaint s.fg).map fun fg => { s with fg }

/-- `enum target_color` -/
inductive TargetColor
  | foreground
  | background
  deriving DecidableEq, Repr

/-- `enum color_parse_state` -/
inductive ColorParseState
  | expectControl
  | expectSemicolon
  | expect2Or5
  | expectXterm256
  | expectRed
  | expectGreen
  | expectBlue
  deriving DecidableEq, Repr

def setTargetColor (s : TermState) (target : TargetColor) (c : TermColor) : TermState :=
  match target with
  | .background => { s with bg := c }
  | .foreground => { s with fg := c }

def maxColorParseLength : Nat := 128 * 4

def maxColorParseLoops : Nat := 128 * 2

/-- The variables of the parser, without the position. -/
structure ColorParse where
  ps : ColorParseState := .expectControl
  nextPs : ColorParseState := .expectSemicolon
  colorTarget : TargetColor := .foreground
  parseColor : TermColor := nlTermDefaultForeground
  newState : TermState
  deriving DecidableEq, Repr

namespace ColorParse

/-- The `switch` on a control code. -/
def controlCode (v : ColorParse) (n : Nat) : Option ColorParse :=
  let s := v.newState
  let set (s : TermState) : Option ColorParse := some { v with newState := s }
  let setIntensity (s : TermState) : Option ColorParse := (setColorIntensity s).bind set
  match n with
  | 0 => set nlDefaultTermState
  | 1 => setIntensity { s with intensity := .intense }
  | 2 => setIntensity { s with intensity := .faint }
  | 3 => set { s with italic := true }
  | 4 => set { s with underline := true }
  | 5 => set { s with blink := true }
  | 7 => set { s with reverse := true }
  | 9 => set { s with strikethrough := true }
  | 22 => setIntensity { s with intensity := .normal }
  | 23 => set { s with italic := false }
  | 24 => set { s with underline := false }
  | 25 => set { s with blink := false }
  | 27 => set { s with reverse := false }
  | 29 => set { s with strikethrough := false }
  | 38 => some { v with nextPs := .expect2Or5, colorTarget := .foreground }
  | 39 => setIntensity { s with fg := nlTermDefaultForeground }
  | 48 => some { v with nextPs := .expect2Or5, colorTarget := .background }
  | 49 => set { s with bg := nlTermDefaultBackground }
  | n =>
    if n ≥ 30 ∧ n ≤ 37 then (nlTermStandardColors s.intensity)[n - 30]?.bind fun fg => set { s with fg }
    else if n ≥ 40 ∧ n ≤ 47 then (nlTermStandardColors .normal)[n - 40]?.bind fun bg => set { s with bg }
    else some v

/-- 2 for a 24-bit colour, 5 for one of 256 colours. -/
def expect2Or5 (v : ColorParse) (n : Nat) : ColorParse :=
  match n with
  | 2 =>
    { v with nextPs := .expectRed, parseColor := { v.parseColor with xterm256 := 0, ansi := 0, colorType := .rgb } }
  | 5 => { v with nextPs := .expectXterm256, parseColor := { v.parseColor with ansi := 0, colorType := .xterm256 } }
  | _ => { v with nextPs := .expectControl }

/-- The colour that an index into the 256 colours selects. -/
def xterm256Color (n : Nat) : Option TermColor :=
  if n < 8 then (nlTermStandardColors .normal)[n]?
  else if n < 16 then (nlTermStandardColors .intense)[n - 8]?
  else if n < 232 then do
    let rgb := n - 16
    let r ← xtermRgbValues[rgb / 36]?
    let g ← xtermRgbValues[rgb / 6 % 6]?
    let b ← xtermRgbValues[rgb % 6]?
    some ⟨r, g, b, n.toUInt8, 0, .xterm256⟩
  else nlTermXtermGrays[n - 232]?

def expectXterm256 (v : ColorParse) (n : Nat) : Option ColorParse :=
  (xterm256Color (n % 256)).map fun c =>
    let c := { c with colorType := .xterm256 }
    { v with parseColor := c, newState := setTargetColor v.newState v.colorTarget c, nextPs := .expectControl }

/-- A red, green or blue component. -/
def expectRgb (v : ColorParse) (n : Nat) : ColorParse :=
  let n := (n % 256).toUInt8
  match v.ps with
  | .expectGreen => { v with parseColor := { v.parseColor with g := n }, nextPs := .expectBlue }
  | .expectBlue =>
    let c := { v.parseColor with b := n }
    { v with parseColor := c, newState := setTargetColor v.newState v.colorTarget c, nextPs := .expectControl }
  | _ => { v with parseColor := { v.parseColor with r := n }, nextPs := .expectGreen }

/-- What a number does; a semicolon is expected after it. -/
def number (v : ColorParse) (n : Nat) : Option ColorParse :=
  let after := match v.ps with
    | .expectControl => controlCode { v with nextPs := .expectControl } n
    | .expect2Or5 => some (expect2Or5 v n)
    | .expectXterm256 => expectXterm256 v n
    | _ => some (expectRgb v n)
  after.map fun v => { v with ps := .expectSemicolon }

/-- The loop at `rest`, which is `off` characters into the string: the result and the new state, if the end of the
    sequence is found. The outer `none` is for a table look-up out of bounds, or a loop that does not end in the given
    number of rounds. Nothing counts the `loops`. -/
def loop : Nat → Bytes → Nat → Nat → ColorParse → Option (Option (Nat × TermState))
  | _, [], _, _, _ => some none
  | 0, _ :: _, _, _, _ => none
  | fuel + 1, c :: rest, off, loops, v =>
    if off > maxColorParseLength then some none
    else if loops > maxColorParseLoops then some none
    else if c = 109 then some (some (off + 1, v.newState))
    else if v.ps = .expectSemicolon then
      if c ≠ 59 then some none
      else loop fuel rest (off + 1) loops { v with ps := v.nextPs, nextPs := .expectControl }
    else
      let (n, endptr, _) := strtoul (c :: rest) 10
      if endptr = c :: rest then some none
      else (v.number n).bind (loop fuel endptr (off + ((c :: rest).length - endptr.length)) loops)

end ColorParse

/-- The result and the state, for pointers that may be NULL. -/
def nlTermParseAnsiColor (s : Option Bytes) (state : Option TermState) : Option (Int × Option TermState) :=
  match s, state with
  | some s, some state =>
    if s.at 0 ≠ 0x1b ∨ s.at 1 ≠ 91 then some (0, some state)
    else
      (ColorParse.loop s.length (s.drop 2) 2 0 { newState := state }).map fun
        | none => (0, some state)
        | some (n, newState) => ((n : Int), some newState)
  | _, _ => some (-1, state)

end Nlutils
