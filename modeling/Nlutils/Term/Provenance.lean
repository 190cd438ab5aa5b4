import Nlutils.Term.Consistency

/-! # Where colours come from

The type of a colour is the kind of the last code that has set it, except for a foreground of the 256 colours to
which a later intensity has given a standard colour. -/

namespace Nlutils
open Lib

/-- The codes of a call that has taken a sequence off a string. -/
def callCodes (s : Bytes) (n : Int) : List Sgr :=
  if n > 0 then Pending.codes .none (paramNumbers ((s.drop 2).take (n.toNat - 3))) else []

/-- A terminal that is given strings, and the codes so far. -/
def recorded : Machine (TermState × List Sgr) Bytes where
  init := (nlDefaultTermState, [])
  step r s := do
    let (n, state) ← nlTermParseAnsiColor (some s) (some r.1)
    state.map fun state => (state, r.2 ++ callCodes s n)

/-- The type of the colour that a code sets. -/
def Sgr.kind (target : TargetColor) : Sgr → Option ColorType
  | .reset => some .default
  | .default t => if t = target then some .default else none
  | .standard t _ => if t = target then some .standard else none
  | .xterm256 t _ => if t = target then some .xterm256 else none
  | .rgb t _ _ _ => if t = target then some .rgb else none
  | _ => none

/-- The kind of the last code that has set a colour. -/
def lastKind (target : TargetColor) (codes : List Sgr) : ColorType :=
  (codes.reverse.findSome? (Sgr.kind target)).getD .default

/-- The types of the colours are the kinds of the codes that have set them. -/
def NamesKinds (r : TermState × List Sgr) : Prop :=
  r.1.fg.colorType = lastKind .foreground r.2 ∧ r.1.bg.colorType = lastKind .background r.2

/-- The last code that has set the foreground. -/
def lastForeground (codes : List Sgr) : Option Sgr :=
  codes.reverse.find? fun c => (c.kind .foreground).isSome

/-- The codes after it. -/
def sinceForeground (codes : List Sgr) : List Sgr :=
  codes.reverse.takeWhile fun c => (c.kind .foreground).isNone

/-- The foreground is one of the 256 colours, and an intensity since then makes it a standard colour. -/
def Recolored (codes : List Sgr) : Prop :=
  ∃ n i, lastForeground codes = some (.xterm256 .foreground n) ∧ .intensity i ∈ sinceForeground codes ∧
    (standardIndex i n).isSome = true

/-- What the codes so far say of a state. -/
structure Records (state : TermState) (codes : List Sgr) : Prop where
  recolored : Recolored codes → state.fg.colorType = .standard
  kind : ¬Recolored codes → state.fg.colorType = lastKind .foreground codes
  index : ¬Recolored codes → ∀ n, lastForeground codes = some (.xterm256 .foreground n) → state.fg.xterm256 = n
  bg : state.bg.colorType = lastKind .background codes

section
variable {state : TermState} {codes : List Sgr} {c : Sgr} {target : TargetColor} {n : UInt8}

theorem lastKind_append : lastKind target (codes ++ [c]) = (c.kind target).getD (lastKind target codes) := by
  unfold lastKind
  rw [List.reverse_append, List.reverse_singleton, List.singleton_append, List.findSome?_cons]
  cases c.kind target <;> rfl

theorem lastForeground_append : lastForeground (codes ++ [c]) =
    if (c.kind .foreground).isSome then some c else lastForeground codes := by
  unfold lastForeground
  rw [List.reverse_append, List.reverse_singleton, List.singleton_append, List.find?_cons]
  cases (c.kind .foreground).isSome <;> rfl

theorem sinceForeground_append : sinceForeground (codes ++ [c]) =
    if (c.kind .foreground).isSome then [] else c :: sinceForeground codes := by
  unfold sinceForeground
  rw [List.reverse_append, List.reverse_singleton, List.singleton_append, List.takeWhile_cons]
  cases c.kind .foreground <;> rfl

/-- A code that sets the foreground starts anew. -/
theorem not_recolored_set (hc : (c.kind .foreground).isSome = true) : ¬Recolored (codes ++ [c]) := by
  rintro ⟨n, i, -, hmem, -⟩
  rw [sinceForeground_append, if_pos hc] at hmem
  cases hmem

/-- A code that does not set the foreground changes little. -/
theorem recolored_append (hc : c.kind .foreground = none) : Recolored (codes ++ [c]) ↔ Recolored codes ∨
    ∃ n i, c = .intensity i ∧ lastForeground codes = some (.xterm256 .foreground n) ∧
      (standardIndex i n).isSome = true := by
  have hnone : ¬(c.kind .foreground).isSome = true := by simp [hc]
  unfold Recolored
  rw [lastForeground_append, sinceForeground_append, if_neg hnone, if_neg hnone]
  constructor
  · rintro ⟨n, i, hlast, hmem, hindex⟩
    rcases List.mem_cons.mp hmem with hmem | hmem
    · exact Or.inr ⟨n, i, hmem.symm, hlast, hindex⟩
    · exact Or.inl ⟨n, i, hlast, hmem, hindex⟩
  · rintro (⟨n, i, hlast, hmem, hindex⟩ | ⟨n, i, rfl, hlast, hindex⟩)
    · exact ⟨n, i, hlast, List.mem_cons_of_mem _ hmem, hindex⟩
    · exact ⟨n, i, hlast, List.mem_cons_self, hindex⟩

theorem lastKind_eq :
    lastKind .foreground codes = ((lastForeground codes).bind (Sgr.kind .foreground)).getD .default := by
  unfold lastKind lastForeground
  generalize codes.reverse = cs
  congr 1
  induction cs with
  | nil => rfl
  | cons c cs ih =>
    rw [List.findSome?_cons, List.find?_cons]
    cases hc : c.kind .foreground with
    | none => exact ih
    | some t => exact hc.symm

/-- The kind of one of the 256 colours is that of the code that has set it. -/
theorem exists_of_lastKind (h : lastKind .foreground codes = .xterm256) :
    ∃ n, lastForeground codes = some (.xterm256 .foreground n) := by
  rw [lastKind_eq] at h
  cases hlast : lastForeground codes with
  | none =>
    rw [hlast] at h
    cases h
  | some c =>
    rw [hlast] at h
    cases c with
    | reset | intensity | italic | underline | blink | reverse | strikethrough => cases h
    | default t | standard t _ | rgb t _ _ _ => cases t <;> cases h
    | xterm256 t n =>
      cases t with
      | foreground => exact ⟨n, rfl⟩
      | background => cases h

theorem lastKind_of_recolored (h : Recolored codes) : lastKind .foreground codes = .xterm256 := by
  obtain ⟨n, i, hlast, -⟩ := h
  rw [lastKind_eq, hlast]
  rfl

/-- A code that leaves the foreground alone. -/
theorem Records.keep (R : Records state codes) {state' : TermState} (hc : c.kind .foreground = none)
    (hi : ∀ i, c ≠ .intensity i) (hfg : state'.fg = state.fg)
    (hbg : state'.bg.colorType = (c.kind .background).getD state.bg.colorType) : Records state' (codes ++ [c]) := by
  have hnone : ¬(c.kind .foreground).isSome = true := by simp [hc]
  have hrec : Recolored (codes ++ [c]) ↔ Recolored codes := by
    rw [recolored_append hc]
    refine or_iff_left ?_
    rintro ⟨n, i, rfl, -⟩
    exact hi i rfl
  constructor
  · rw [hrec, hfg]
    exact R.recolored
  · rw [hrec, hfg, lastKind_append, hc]
    exact R.kind
  · rw [hrec, hfg, lastForeground_append, if_neg hnone]
    exact R.index
  · rw [hbg, lastKind_append, R.bg]

/-- A code that sets the foreground. -/
theorem Records.set (R : Records state codes) {state' : TermState} (hc : c.kind .foreground = some state'.fg.colorType)
    (hindex : ∀ n, c = .xterm256 .foreground n → state'.fg.xterm256 = n)
    (hbg : state'.bg.colorType = (c.kind .background).getD state.bg.colorType) : Records state' (codes ++ [c]) := by
  have hsome : (c.kind .foreground).isSome = true := by simp [hc]
  constructor
  · exact fun h => absurd h (not_recolored_set hsome)
  · rw [lastKind_append, hc]
    exact fun _ => rfl
  · intro _ n hn
    rw [lastForeground_append, if_pos hsome, Option.some.injEq] at hn
    exact hindex n hn
  · rw [hbg, lastKind_append, R.bg]

theorem recolor_type {color : TermColor} {i : Intensity} (hne : color.colorType ≠ .xterm256) :
    (color.recolor i).colorType = color.colorType := by
  unfold TermColor.recolor
  cases htype : color.colorType with
  | default => exact defaultForeground_type i
  | standard => exact (standardColor_ansi i color.ansi).2
  | xterm256 => exact absurd htype hne
  | rgb => exact htype

/-- An intensity makes a standard colour of a foreground of the 256 colours, or leaves the type alone. -/
theorem Records.intensity (R : Records state codes) (i : Intensity) :
    Records (Sgr.apply state (.intensity i)) (codes ++ [.intensity i]) := by
  have hnone : Sgr.kind .foreground (.intensity i) = none := rfl
  have hkind : lastKind .foreground (codes ++ [.intensity i]) = lastKind .foreground codes := lastKind_append
  have hlast : lastForeground (codes ++ [.intensity i]) = lastForeground codes := lastForeground_append
  have hkept : lastKind .background (codes ++ [.intensity i]) = lastKind .background codes := lastKind_append
  have hbg : state.bg.colorType = lastKind .background (codes ++ [.intensity i]) := R.bg.trans hkept.symm
  have hrec : Recolored (codes ++ [.intensity i]) ↔ _ := recolored_append hnone
  by_cases hR : Recolored codes
  · have hold := R.recolored hR
    have hne : state.fg.colorType ≠ .xterm256 := by
      rw [hold]
      nofun
    have hnew := hrec.mpr (Or.inl hR)
    exact ⟨fun _ => (recolor_type hne).trans hold, fun h => absurd hnew h, fun h => absurd hnew h, hbg⟩
  · have hk := R.kind hR
    by_cases hx : state.fg.colorType = .xterm256
    · obtain ⟨n, hn⟩ := exists_of_lastKind (hk.symm.trans hx)
      have hindex := R.index hR n hn
      cases hs : standardIndex i n with
      | some k =>
        have hnew := hrec.mpr (Or.inr ⟨n, i, rfl, hn, by rw [hs]; rfl⟩)
        refine ⟨fun _ => ?_, fun h => absurd hnew h, fun h => absurd hnew h, hbg⟩
        have hcolor : state.fg.recolor i = standardColor i k := by
          unfold TermColor.recolor
          rw [hx, hindex, hs]
          rfl
        exact (congrArg TermColor.colorType hcolor).trans (standardColor_ansi i k).2
      | none =>
        have hcolor : state.fg.recolor i = state.fg := by
          unfold TermColor.recolor
          rw [hx, hindex, hs]
          rfl
        have hold : ¬Recolored (codes ++ [.intensity i]) := by
          rw [hrec]
          rintro (h | ⟨m, j, hj, hm, hsome⟩)
          · exact hR h
          · obtain rfl := Sgr.intensity.inj hj
            rw [hn, Option.some.injEq, Sgr.xterm256.injEq] at hm
            rw [← hm.2, hs] at hsome
            cases hsome
        refine ⟨fun h => absurd h hold, fun _ => ?_, fun _ m hm => ?_, hbg⟩
        · exact (congrArg TermColor.colorType hcolor).trans (hk.trans hkind.symm)
        · exact (congrArg TermColor.xterm256 hcolor).trans (R.index hR m (hlast.symm.trans hm))
    · have hno : ∀ n, lastForeground codes ≠ some (.xterm256 .foreground n) := by
        intro n hn
        refine hx (hk.trans ?_)
        rw [lastKind_eq, hn]
        rfl
      have hold : ¬Recolored (codes ++ [.intensity i]) := by
        rw [hrec]
        rintro (h | ⟨m, j, -, hm, -⟩)
        · exact hR h
        · exact hno m hm
      exact ⟨fun h => absurd h hold, fun _ => (recolor_type hx).trans (hk.trans hkind.symm),
        fun _ m hm => absurd (hlast.symm.trans hm) (hno m), hbg⟩

theorem Records.apply (R : Records state codes) (c : Sgr) : Records (Sgr.apply state c) (codes ++ [c]) := by
  cases c with
  | reset => exact R.set rfl nofun rfl
  | intensity i => exact R.intensity i
  | italic | underline | blink | reverse | strikethrough => exact R.keep rfl nofun rfl rfl
  | default t =>
    cases t with
    | foreground => exact R.set (congrArg some (defaultForeground_type state.intensity).symm) nofun rfl
    | background => exact R.keep rfl nofun rfl rfl
  | standard t k =>
    cases t with
    | foreground => exact R.set (congrArg some (standardColor_ansi state.intensity k).2.symm) nofun rfl
    | background => exact R.keep rfl nofun rfl (standardColor_ansi .normal k).2
  | xterm256 t n =>
    cases t with
    | foreground =>
      refine R.set (congrArg some (paletteColor_spec n).2.symm) ?_ rfl
      rintro m ⟨⟩
      exact (paletteColor_spec n).1
    | background => exact R.keep rfl nofun rfl (paletteColor_spec n).2
  | rgb t r g b =>
    cases t with
    | foreground => exact R.set rfl nofun rfl
    | background => exact R.keep rfl nofun rfl rfl

theorem Records.applyAll (R : Records state codes) (cs : List Sgr) :
    Records (Sgr.applyAll state cs) (codes ++ cs) := by
  induction cs generalizing state codes with
  | nil =>
    rw [List.append_nil]
    exact R
  | cons c cs ih =>
    have h := ih (R.apply c)
    rw [List.append_assoc] at h
    exact h

/-- The codes of a call are what it does. -/
theorem parse_callCodes (s : Bytes) (state : TermState) :
    ∃ n, nlTermParseAnsiColor (some s) (some state) = some (n, some (Sgr.applyAll state (callCodes s n))) := by
  rcases parse_cases s state with h | ⟨body, more, rfl, P, hlen⟩
  · exact ⟨0, h⟩
  · refine ⟨(body.length : Int) + 3, ?_⟩
    have hbody : ((0x1b :: 91 :: (body ++ 109 :: more) : Bytes).drop 2).take (((body.length : Int) + 3).toNat - 3) =
        body := by
      have hn : ((body.length : Int) + 3).toNat - 3 = body.length := by omega
      rw [hn]
      simp
    have hpos : (body.length : Int) + 3 > 0 := by omega
    rw [parse_params P hlen, callCodes, if_pos hpos, hbody]
    rfl

/-- Every recorded state agrees with the codes so far. -/
theorem records {r : TermState × List Sgr} (hr : recorded.Reach Machine.anyStep r) : Records r.1 r.2 := by
  refine hr.invariant (I := fun r => Records r.1 r.2) ?_ ?_
  · have hnot : ¬Recolored [] := by
      rintro ⟨n, i, h, -⟩
      cases h
    exact ⟨fun h => absurd h hnot, fun _ => rfl, nofun, rfl⟩
  · rintro ⟨state, codes⟩ s r R _ hstep
    obtain ⟨n, hn⟩ := parse_callCodes s state
    simp only [recorded, hn, Option.bind_eq_bind, Option.bind_some, Option.map_some, Option.some.injEq] at hstep
    rw [← hstep]
    exact R.applyAll _

theorem namesKinds {r : TermState × List Sgr} (R : Records r.1 r.2) (h : ¬Recolored r.2) : NamesKinds r :=
  ⟨R.kind h, R.bg⟩

theorem not_recolored {r : TermState × List Sgr} (R : Records r.1 r.2) (h : NamesKinds r) : ¬Recolored r.2 := by
  intro hrec
  have htype := h.1
  rw [R.recolored hrec, lastKind_of_recolored hrec] at htype
  cases htype

end

/-- In every run, the types name the codes that have set the colours if and only if no intensity has since given a
    foreground of the 256 colours a standard colour. -/
theorem namesKinds_iff (r : TermState × List Sgr) (hr : recorded.Reach Machine.anyStep r) :
    NamesKinds r ↔ ¬Recolored r.2 :=
  ⟨not_recolored (records hr), namesKinds (records hr)⟩

/-- Colour 200 stays what it is when it is made bold. -/
theorem namesKinds_bold : NamesKinds (Sgr.apply (Sgr.apply nlDefaultTermState (.xterm256 .foreground 200))
      (.intensity .intense), [.xterm256 .foreground 200, .intensity .intense]) ↔
    ¬Recolored [.xterm256 .foreground 200, .intensity .intense] := by
  refine namesKinds_iff _ (.step (a := 27 :: bytes "[38;5;200;1m") .init trivial ?_)
  decide

/-- Colour 3 becomes a standard colour when it is made bold. -/
theorem not_namesKinds_bold : ¬∀ r, recorded.Reach Machine.anyStep r → NamesKinds r := by
  intro hall
  have hr : recorded.Reach Machine.anyStep (Sgr.apply (Sgr.apply nlDefaultTermState (.xterm256 .foreground 3))
      (.intensity .intense), [.xterm256 .foreground 3, .intensity .intense]) := by
    refine .step (a := 27 :: bytes "[38;5;3;1m") .init trivial ?_
    decide
  exact absurd (hall _ hr).1 (by decide)

end Nlutils
