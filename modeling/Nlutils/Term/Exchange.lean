import Nlutils.Term.Provenance
import Nlutils.Term.Splitting

/-! # Intensities and foregrounds

An intensity and a foreground can change places, except that one of the 256 colours takes no notice of an intensity
that stands in front of it. -/

namespace Nlutils
open ColorParse Lib

/-- The number that the code of an intensity has. -/
def Intensity.number : Intensity → Nat
  | .normal => 22
  | .intense => 1
  | .faint => 2

/-- The numbers of a code that sets the foreground. -/
inductive IsForegroundCode : List Nat → Sgr → Prop
  | standard (k : Fin 8) : IsForegroundCode [30 + k.val] (.standard .foreground k)
  | default : IsForegroundCode [39] (.default .foreground)
  | xterm256 (n : Nat) : IsForegroundCode [38, 5, n] (.xterm256 .foreground (component n))
  | rgb (r g b : Nat) : IsForegroundCode [38, 2, r, g, b] (.rgb .foreground (component r) (component g) (component b))

/-- The text of some numbers. -/
def IsNumbers (text : Bytes) (ns : List Nat) : Prop :=
  ∃ ds : List Bytes, ds ≠ [] ∧ (∀ d ∈ ds, IsLooseNumber d) ∧ text = [59].intercalate ds ∧
    ds.map (fun d => (strtoul d 10).1) = ns

/-- The whole of the text is an accepted sequence. -/
def Accepts (state : TermState) (body : Bytes) : Prop :=
  ∃ s, nlTermParseAnsiColor (some (sequenceText body [])) (some state) = some ((body.length : Int) + 3, some s)

/-- Whatever the foreground was before, one of the 256 colours or what an intensity makes of it. -/
def Settles (n : UInt8) (code : Sgr) : Prop :=
  (code.kind .foreground).isSome = true ∨ ∃ j, code = .intensity j ∧ (standardIndex j n).isSome = true

/-- The code sets one of the 256 colours of which the intensity makes a standard colour, and that is not settled
    later. -/
def Clashes (i : Intensity) (c : Sgr) (later : List Sgr) : Prop :=
  ∃ n, c = .xterm256 .foreground n ∧ (standardIndex i n).isSome = true ∧ ∀ code ∈ later, ¬Settles n code

/-- The states that differ in whether an intensity has made a standard colour of the foreground. -/
structure Blends (n : UInt8) (k : Fin 8) (s₁ s₂ : TermState) : Prop where
  fg : s₁.fg = paletteColor n
  same : s₂ = { s₁ with fg := standardColor s₁.intensity k }

section
variable {state s s₁ s₂ : TermState} {i : Intensity} {c : Sgr} {ns : List Nat} {p q x y body : Bytes} {n : UInt8}
  {k : Fin 8} {codes : List Sgr}

/-! ### The states -/

theorem exchange_states (hc : IsForegroundCode ns c)
    (h : ∀ n, c = .xterm256 .foreground n → standardIndex i n = none) (s : TermState) :
    Sgr.apply (Sgr.apply s (.intensity i)) c = Sgr.apply (Sgr.apply s c) (.intensity i) := by
  cases hc with
  | standard k => simp only [Sgr.apply, recolor_standard]
  | default => simp only [Sgr.apply, recolor_default]
  | xterm256 n =>
    obtain ⟨hindex, htype⟩ := paletteColor_spec (component n)
    simp only [Sgr.apply, setTargetColor, recolor_xterm256 htype, hindex, h _ rfl, Option.map_none, Option.getD_none]
  | rgb r g b => rfl

theorem blends_start (hk : standardIndex i n = some k) (s : TermState) :
    Blends n k (Sgr.apply (Sgr.apply s (.intensity i)) (.xterm256 .foreground n))
      (Sgr.apply (Sgr.apply s (.xterm256 .foreground n)) (.intensity i)) := by
  obtain ⟨hindex, htype⟩ := paletteColor_spec n
  refine ⟨rfl, ?_⟩
  simp only [Sgr.apply, setTargetColor, recolor_xterm256 htype, hindex, hk, Option.map_some, Option.getD_some]

theorem Blends.ne (B : Blends n k s₁ s₂) : s₁ ≠ s₂ := by
  intro heq
  have hfg := congrArg (fun s => s.fg.colorType) (heq.trans B.same)
  simp only [B.fg, (paletteColor_spec n).2, (standardColor_ansi s₁.intensity k).2] at hfg
  cases hfg

theorem Blends.settle (B : Blends n k s₁ s₂) (hk : k.val = n.toNat % 8) {code : Sgr} (h : Settles n code) :
    Sgr.apply s₁ code = Sgr.apply s₂ code := by
  obtain ⟨hfg, rfl⟩ := B
  rcases h with h | ⟨j, rfl, hj⟩
  · cases code with
    | reset => rfl
    | intensity | italic | underline | blink | reverse | strikethrough => cases h
    | default t | standard t | xterm256 t | rgb t =>
      cases t with
      | foreground => rfl
      | background => cases h
  · obtain ⟨hindex, htype⟩ := paletteColor_spec n
    obtain ⟨m, hm⟩ := Option.isSome_iff_exists.mp hj
    obtain rfl : m = k := Fin.ext ((standardIndex_val hm).trans hk.symm)
    simp only [Sgr.apply, hfg, recolor_xterm256 htype, hindex, hm, recolor_standard, Option.map_some, Option.getD_some]

theorem Blends.keep (B : Blends n k s₁ s₂) {code : Sgr} (h : ¬Settles n code) :
    Blends n k (Sgr.apply s₁ code) (Sgr.apply s₂ code) := by
  obtain ⟨hfg, rfl⟩ := B
  obtain ⟨hkind, hintensity⟩ := not_or.mp h
  cases code with
  | reset => exact absurd rfl hkind
  | intensity j =>
    obtain ⟨hindex, htype⟩ := paletteColor_spec n
    have hj : standardIndex j n = none := by
      by_contra hne
      exact hintensity ⟨j, rfl, Option.isSome_iff_ne_none.mpr hne⟩
    refine ⟨?_, ?_⟩
    · simp only [Sgr.apply, hfg, recolor_xterm256 htype, hindex, hj, Option.map_none, Option.getD_none]
    · simp only [Sgr.apply, recolor_standard]
  | italic | underline | blink | reverse | strikethrough => exact ⟨hfg, rfl⟩
  | default t | standard t | xterm256 t | rgb t =>
    cases t with
    | foreground => exact absurd rfl hkind
    | background => exact ⟨hfg, rfl⟩

/-- The states become equal when a code settles the foreground, and stay equal. -/
theorem Blends.applyAll (B : Blends n k s₁ s₂) (hk : k.val = n.toNat % 8) (codes : List Sgr) :
    Sgr.applyAll s₁ codes = Sgr.applyAll s₂ codes ↔ ∃ code ∈ codes, Settles n code := by
  induction codes generalizing s₁ s₂ with
  | nil =>
    refine ⟨fun h => absurd h B.ne, ?_⟩
    rintro ⟨code, hcode, -⟩
    cases hcode
  | cons code codes ih =>
    simp only [List.mem_cons, exists_eq_or_imp]
    by_cases h : Settles n code
    · have heq : Sgr.applyAll s₁ (code :: codes) = Sgr.applyAll s₂ (code :: codes) :=
        congrArg (fun s => Sgr.applyAll s codes) (B.settle hk h)
      exact iff_of_true heq (Or.inl h)
    · rw [or_iff_right h]
      exact ih (B.keep h)

theorem exchange_applyAll (hc : IsForegroundCode ns c) (i : Intensity) (s : TermState) (codes : List Sgr) :
    Sgr.applyAll (Sgr.apply (Sgr.apply s (.intensity i)) c) codes =
      Sgr.applyAll (Sgr.apply (Sgr.apply s c) (.intensity i)) codes ↔ ¬Clashes i c codes := by
  by_cases h : ∃ n, c = .xterm256 .foreground n ∧ (standardIndex i n).isSome = true
  · obtain ⟨n, rfl, hindex⟩ := h
    obtain ⟨k, hk⟩ := Option.isSome_iff_exists.mp hindex
    rw [(blends_start hk s).applyAll (standardIndex_val hk)]
    constructor
    · rintro ⟨code, hcode, hsettles⟩ ⟨m, heq, -, hnone⟩
      obtain ⟨-, rfl⟩ := Sgr.xterm256.inj heq
      exact hnone code hcode hsettles
    · intro hclash
      by_contra hnone
      refine hclash ⟨n, rfl, hindex, ?_⟩
      exact fun code hcode hsettles => hnone ⟨code, hcode, hsettles⟩
  · have hnone : ∀ n, c = .xterm256 .foreground n → standardIndex i n = none := by
      intro n hn
      by_contra hne
      exact h ⟨n, hn, Option.isSome_iff_ne_none.mpr hne⟩
    rw [exchange_states hc hnone]
    refine iff_of_true rfl ?_
    rintro ⟨n, hn, hindex, -⟩
    exact h ⟨n, hn, hindex⟩

/-! ### The texts -/

theorem isNumbers_digits (ds : List Bytes) (hne : ds ≠ []) (hds : ∀ d ∈ ds, IsNumber d) :
    IsNumbers ([59].intercalate ds) (ds.map fun d => (strtoul d 10).1) :=
  ⟨ds, hne, fun d hd => (hds d hd).loose, rfl, rfl⟩

theorem codes_intensity (i : Intensity) :
    Pending.none.codes [i.number] = [.intensity i] ∧ Pending.none.after [i.number] = .none := by
  cases i <;> exact ⟨rfl, rfl⟩

theorem codes_foreground (hc : IsForegroundCode ns c) :
    Pending.none.codes ns = [c] ∧ Pending.none.after ns = .none := by
  cases hc with
  | standard k =>
    have hall : ∀ k : Fin 8, Pending.none.codes [30 + k.val] = [.standard .foreground k] ∧
        Pending.none.after [30 + k.val] = .none := by decide
    exact hall k
  | default | xterm256 | rgb => exact ⟨rfl, rfl⟩

theorem IsNumbers.numbers_eq (h : IsNumbers x ns) : paramNumbers x = ns := by
  obtain ⟨ds, hne, hds, rfl, rfl⟩ := h
  have hsemicolon : ∀ d ∈ ds, (59 : Byte) ∉ d := fun d hd hc => ((hds d hd).mem 59 hc).1 rfl
  have hfilter : ds.filter (fun d => d ≠ []) = ds := by
    rw [List.filter_eq_self]
    intro d hd
    simpa using (hds d hd).ne_nil
  rw [paramNumbers, List.splitOn_intercalate 59 hsemicolon hne, hfilter]

/-- Numbers in front of what can stand behind them. -/
theorem IsNumbers.params (h : IsNumbers x ns) (hq : IsTail q) :
    Params IsLooseNumber (x ++ q) ↔ Params IsLooseNumber q.tail := by
  obtain ⟨ds, hne, hds, rfl, -⟩ := h
  clear ns
  induction ds with
  | nil => exact absurd rfl hne
  | cons d ds ih =>
    have hd := hds d List.mem_cons_self
    by_cases hnil : ds = []
    · subst hnil
      rw [List.intercalate_singleton]
      rcases hq with rfl | ⟨u, rfl⟩
      · rw [List.append_nil]
        exact iff_of_true (.last hd) .nil
      · exact ⟨fun P => P.split.2, fun P => .cons hd P⟩
    · rw [List.intercalate_cons_of_ne_nil hnil, List.append_assoc, List.append_assoc,
        ← ih hnil fun d h => hds d (List.mem_cons_of_mem _ h)]
      exact ⟨fun P => P.split.2, fun P => .cons hd P⟩

/-- A code in front of what can stand behind it. -/
theorem IsNumbers.apply_eq (h : IsNumbers x ns) (hns : Pending.none.codes ns = [c] ∧ Pending.none.after ns = .none)
    (hq : IsTail q) (s : TermState) : applyParams s (x ++ q) = applyParams (Sgr.apply s c) q := by
  have hafter : Pending.none.after (paramNumbers x) = .none := by rw [h.numbers_eq, hns.2]
  have hcode : applyParams s x = Sgr.apply s c := by
    rw [applyParams, h.numbers_eq, hns.1]
    rfl
  rw [applyParams_append hafter hq, hcode]

/-- Two codes after a text. -/
theorem applyParams_pair {ms ns : List Nat} {c d : Sgr} (hp : ExpectsCode state p) (hx : IsNumbers x ms)
    (hms : Pending.none.codes ms = [c] ∧ Pending.none.after ms = .none) (hy : IsNumbers y ns)
    (hns : Pending.none.codes ns = [d] ∧ Pending.none.after ns = .none) (hq : IsTail q) (s : TermState) :
    applyParams s (p ++ (x ++ 59 :: (y ++ q))) = applyParams (Sgr.apply (Sgr.apply (applyParams s p) c) d) q := by
  rw [(hp.append _).1, hx.apply_eq hms (Or.inr ⟨_, rfl⟩), applyParams, paramNumbers_semicolon]
  exact hy.apply_eq hns hq _

theorem params_pair {ms ns : List Nat} (hp : ExpectsCode state p) (hx : IsNumbers x ms) (hy : IsNumbers y ns)
    (hq : IsTail q) : Params IsLooseNumber (p ++ (x ++ 59 :: (y ++ q))) ↔ Params IsLooseNumber q.tail := by
  rw [(hp.append _).2, hx.params (Or.inr ⟨_, rfl⟩)]
  exact hy.params hq

theorem Accepts.params (h : Accepts state body) : Params IsLooseNumber body ∧ body.length + 2 ≤ 512 := by
  obtain ⟨s, hs⟩ := h
  rcases parse_cases (sequenceText body []) state with h | ⟨body', more, hbody, P, hlen⟩
  · rw [h, Option.some.injEq, Prod.mk.injEq] at hs
    omega
  · have hparse : nlTermParseAnsiColor (some (sequenceText body [])) (some state) = _ := hbody ▸ parse_params P hlen
    rw [hs, Option.some.injEq, Prod.mk.injEq] at hparse
    have hlength : body.length = body'.length := by omega
    have heq : body ++ [109] = body' ++ 109 :: more := (List.cons.inj (List.cons.inj hbody).2).2
    obtain rfl := (List.append_inj heq hlength).1
    exact ⟨P, hlen⟩

end

/-- In an accepted sequence, an intensity and a code that sets the foreground can change places if and only if the
    code does not set one of the 256 colours of which the intensity makes a standard colour, or that is settled
    later. -/
theorem exchange_iff (state : TermState) (i : Intensity) (c : Sgr) (ns : List Nat) (p x y q : Bytes)
    (hp : ExpectsCode state p) (hx : IsNumbers x [i.number]) (hc : IsForegroundCode ns c) (hy : IsNumbers y ns)
    (hq : IsTail q) (haccepts : Accepts state (p ++ (x ++ 59 :: (y ++ q))) ∨
      Accepts state (p ++ (y ++ 59 :: (x ++ q)))) :
    ∃ n s₁ s₂, n > 0 ∧
      nlTermParseAnsiColor (some (sequenceText (p ++ (x ++ 59 :: (y ++ q))) [])) (some state) = some (n, some s₁) ∧
      nlTermParseAnsiColor (some (sequenceText (p ++ (y ++ 59 :: (x ++ q))) [])) (some state) = some (n, some s₂) ∧
      (s₁ = s₂ ↔ ¬Clashes i c (Pending.none.codes (paramNumbers q))) := by
  have hlength : (p ++ (y ++ 59 :: (x ++ q))).length = (p ++ (x ++ 59 :: (y ++ q))).length := by
    simp only [List.length_append, List.length_cons]
    omega
  have htail : Params IsLooseNumber q.tail ∧ (p ++ (x ++ 59 :: (y ++ q))).length + 2 ≤ 512 := by
    rcases haccepts with h | h
    · exact ⟨(params_pair hp hx hy hq).mp h.params.1, h.params.2⟩
    · exact ⟨(params_pair hp hy hx hq).mp h.params.1, hlength ▸ h.params.2⟩
  obtain ⟨hparams, hlen⟩ := htail
  have hsecond : nlTermParseAnsiColor (some (sequenceText (p ++ (y ++ 59 :: (x ++ q))) [])) (some state) = _ :=
    parse_params ((params_pair hp hy hx hq).mpr hparams) (hlength ▸ hlen)
  rw [hlength] at hsecond
  refine ⟨_, _, _, ?_, parse_params ((params_pair hp hx hy hq).mpr hparams) hlen, hsecond, ?_⟩
  · omega
  · rw [applyParams_pair hp hx (codes_intensity i) hy (codes_foreground hc) hq,
      applyParams_pair hp hy (codes_foreground hc) hx (codes_intensity i) hq]
    exact exchange_applyAll hc i _ _

/-- Bold, and a colour of the 256 that has no standard colour. -/
theorem exchange_iff_bold : ∃ n s₁ s₂, n > 0 ∧
    nlTermParseAnsiColor (some (sequenceText ([] ++ ([49] ++ 59 :: ([51, 56, 59, 53, 59, 57] ++ []))) []))
      (some nlDefaultTermState) = some (n, some s₁) ∧
    nlTermParseAnsiColor (some (sequenceText ([] ++ ([51, 56, 59, 53, 59, 57] ++ 59 :: ([49] ++ []))) []))
      (some nlDefaultTermState) = some (n, some s₂) ∧
    (s₁ = s₂ ↔ ¬Clashes .intense (.xterm256 .foreground 9) (Pending.none.codes (paramNumbers []))) :=
  exchange_iff nlDefaultTermState .intense (.xterm256 .foreground 9) [38, 5, 9] [] [49] [51, 56, 59, 53, 59, 57] []
    ⟨_, .nil, rfl⟩ (isNumbers_digits [[49]] (by simp) (by simp [IsNumber, isdigit])) (.xterm256 9)
    (isNumbers_digits [[51, 56], [53], [57]] (by simp) (by simp [IsNumber, isdigit])) (Or.inl rfl) (Or.inl ⟨_, rfl⟩)

/-- Bold, and colour 3. -/
theorem not_exchange : ¬∀ (state : TermState) (i : Intensity) (c : Sgr) (ns : List Nat) (p x y q : Bytes),
    terminal.Reach Machine.anyStep state → ExpectsCode state p → IsNumbers x [i.number] → IsForegroundCode ns c →
    IsNumbers y ns → IsTail q → Accepts state (p ++ (x ++ 59 :: (y ++ q))) →
    (nlTermParseAnsiColor (some (sequenceText (p ++ (x ++ 59 :: (y ++ q))) [])) (some state)).bind (·.2) =
      (nlTermParseAnsiColor (some (sequenceText (p ++ (y ++ 59 :: (x ++ q))) [])) (some state)).bind (·.2) := by
  intro hall
  have hsame := hall nlDefaultTermState .intense _ [38, 5, 3] [] [49] [51, 56, 59, 53, 59, 51] [] .init ⟨_, .nil, rfl⟩
    (isNumbers_digits [[49]] (by simp) (by simp [IsNumber, isdigit])) (.xterm256 3)
    (isNumbers_digits [[51, 56], [53], [51]] (by simp) (by simp [IsNumber, isdigit])) (Or.inl rfl) ⟨_, rfl⟩
  exact absurd hsame (by decide)

end Nlutils
