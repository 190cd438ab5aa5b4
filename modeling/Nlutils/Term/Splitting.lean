import Nlutils.Term.Params

/-! # Sequences in parts

Nothing but the state of the terminal passes from the codes of a sequence to those that follow them, so a sequence
can be given to the terminal in parts. -/

namespace Nlutils
open ColorParse

/-- A string that starts with a sequence of these codes. -/
def sequenceText (body more : Bytes) : Bytes := 0x1b :: 91 :: (body ++ 109 :: more)

/-- Rounds of the loop that read a text, and the variables of the parser before and after them. -/
inductive ColorParse.Reads : ColorParse → Bytes → ColorParse → Prop
  | nil {v : ColorParse} : Reads v [] v
  | semicolon {v v' : ColorParse} {rest : Bytes} : v.ps = .expectSemicolon → Reads v.resume rest v' →
    Reads v (59 :: rest) v'
  | number {v v₁ v' : ColorParse} {text rest : Bytes} {n : Nat} {range : Bool} : v.ps ≠ .expectSemicolon →
    strtoul text 10 = (n, rest, range) → rest ≠ text → v.number n = some v₁ → Reads v₁ rest v' → Reads v text v'

/-- After the text, the parser expects a control code. -/
def ExpectsCode (state : TermState) (text : Bytes) : Prop :=
  ∃ v, Reads { newState := state } text v ∧ v.ps = .expectControl

namespace Pending

/-- What is read of a code after more numbers. -/
def after (p : Pending) (ns : List Nat) : Pending := ns.foldl next p

end Pending

section
variable {p q body more d rest text : Bytes} {state : TermState} {v v' : ColorParse} {r : Pending} {ms ns : List Nat}

theorem codes_append : r.codes (ms ++ ns) = r.codes ms ++ (r.after ms).codes ns := by
  induction ms generalizing r with
  | nil => rfl
  | cons m ms ih => simp only [List.cons_append, Pending.codes, ih, List.append_assoc, Pending.after, List.foldl_cons]

theorem paramNumbers_append (p q : Bytes) : paramNumbers (p ++ 59 :: q) = paramNumbers p ++ paramNumbers q := by
  simp only [paramNumbers, List.splitOn_append_cons_self, List.filter_append, List.map_append]

theorem paramNumbers_semicolon (q : Bytes) : paramNumbers (59 :: q) = paramNumbers q := paramNumbers_append [] q

/-- Nothing, or a semicolon and more. -/
def IsTail (q : Bytes) : Prop := q = [] ∨ ∃ u, q = 59 :: u

theorem paramNumbers_tail (p : Bytes) (hq : IsTail q) : paramNumbers (p ++ q) = paramNumbers p ++ paramNumbers q := by
  rcases hq with rfl | ⟨u, rfl⟩
  · rw [List.append_nil]
    exact (List.append_nil _).symm
  · rw [paramNumbers_append, paramNumbers_semicolon]

/-- A number that the parser has taken off a text. -/
theorem paramNumbers_number (hd : IsLooseNumber d) (hrest : IsTail rest) :
    paramNumbers (d ++ rest) = (strtoul d 10).1 :: paramNumbers rest := by
  rw [paramNumbers_tail d hrest, paramNumbers_last hd, List.singleton_append]

/-- What the codes of a text do is what its parts do one after the other. -/
theorem applyParams_append (h : Pending.none.after (paramNumbers p) = .none) (hq : IsTail q) (state : TermState) :
    applyParams state (p ++ q) = applyParams (applyParams state p) q := by
  simp only [applyParams, paramNumbers_tail p hq, codes_append, h, Sgr.applyAll, List.foldl_append]

theorem Params.split (P : Params IsLooseNumber (p ++ 59 :: q)) :
    Params IsLooseNumber p ∧ Params IsLooseNumber q := by
  generalize hbody : p ++ 59 :: q = body at P
  induction P generalizing p with
  | nil => simp at hbody
  | last hd => exact absurd rfl (hd.mem 59 (hbody ▸ by simp)).1
  | @cons d body hd P ih =>
    rcases List.append_eq_append_iff.mp hbody with ⟨u, rfl, h⟩ | ⟨u, rfl, h⟩
    · cases u with
      | nil =>
        obtain rfl := (List.cons.inj h).2
        rw [List.append_nil] at hd
        exact ⟨.last hd, P⟩
      | cons c u =>
        obtain ⟨rfl, -⟩ := List.cons.inj h
        exact absurd rfl (hd.mem 59 (by simp)).1
    · cases u with
      | nil =>
        obtain rfl := (List.cons.inj h).2
        rw [List.append_nil]
        exact ⟨.last hd, P⟩
      | cons c u =>
        obtain ⟨rfl, htail⟩ := List.cons.inj h
        obtain ⟨hp, hq⟩ := ih htail.symm
        exact ⟨.cons hd hp, hq⟩

/-- The letter that ends a sequence is in none of its numbers. -/
theorem Params.not_mem (P : Params IsLooseNumber body) : 109 ∉ body := by
  have hne : ∀ c ∈ body, c ≠ 109 := P.forall_mem (fun _ hd c hc => (hd.mem c hc).2) (by decide)
  exact fun hc => hne 109 hc rfl

/-- The parser takes a number off a text, and then goes on with the rest. -/
theorem ColorParse.Reads.number_cases {n : Nat} {range : Bool} {v₁ : ColorParse} (F : r.Follows v)
    (hread : strtoul text 10 = (n, rest, range)) (hne : rest ≠ text) (hnumber : v.number n = some v₁)
    (R : Reads v₁ rest v') : ∃ d, text = d ++ rest ∧ IsLooseNumber d ∧ (strtoul d 10).1 = n ∧ AfterNumber r n v v₁ ∧
      IsTail rest := by
  obtain ⟨d, more, rfl, hd, hmore⟩ := exists_loose_of_strtoul (s := text) (by rw [hread]; exact hne)
  rw [strtoul_loose hd hmore] at hread
  obtain ⟨hn, hread⟩ := Prod.mk.inj hread
  obtain ⟨rfl, -⟩ := Prod.mk.inj hread
  obtain ⟨v₂, A⟩ := F.number n
  obtain rfl : v₁ = v₂ := Option.some.inj (hnumber.symm.trans A.number)
  refine ⟨d, rfl, hd, hn, A, ?_⟩
  cases R with
  | nil => exact Or.inl rfl
  | semicolon _ _ => exact Or.inr ⟨_, rfl⟩
  | number hps => exact absurd A.ps hps

/-- The numbers of a text take the parser from one place in a code to another. -/
theorem ColorParse.Reads.isAt (R : Reads v text v') (F : r.IsAt v) : (r.after (paramNumbers text)).IsAt v' := by
  induction R generalizing r with
  | nil => exact F
  | semicolon hps R ih =>
    rw [paramNumbers_semicolon]
    exact ih (Or.inl (F.resume hps))
  | number hps hread hne hnumber R ih =>
    obtain ⟨d, rfl, hd, hn, A, hrest⟩ := Reads.number_cases (F.follows hps) hread hne hnumber R
    rw [paramNumbers_number hd hrest, hn]
    exact ih (Or.inr ⟨A.ps, A.follows⟩)

/-- A text that the parser has read, with a semicolon at its end, can be followed by whatever is a text of its own. -/
theorem ColorParse.Reads.append (R : Reads v text v') (F : r.IsAt v) (hps' : v'.ps ≠ .expectSemicolon) (q : Bytes) :
    paramNumbers (text ++ q) = paramNumbers text ++ paramNumbers q ∧
      (Expected v (text ++ q) ↔ Params IsLooseNumber q) := by
  induction R generalizing r with
  | nil =>
    refine ⟨rfl, ?_⟩
    rw [Expected, if_neg hps']
    rfl
  | @semicolon v v' rest hps R ih =>
    have F' := F.resume hps
    obtain ⟨hnumbers, hexpected⟩ := ih (Or.inl F') hps'
    rw [Expected, if_neg F'.ps] at hexpected
    rw [List.cons_append, paramNumbers_semicolon, paramNumbers_semicolon, Expected, if_pos hps, ← hexpected]
    refine ⟨hnumbers, ?_⟩
    constructor
    · rintro (h | ⟨body, h, P⟩)
      · cases h
      · rw [(List.cons.inj h).2]
        exact P
    · exact fun P => Or.inr ⟨_, rfl, P⟩
  | number hps hread hne hnumber R ih =>
    obtain ⟨d, rfl, hd, hn, A, hrest⟩ := Reads.number_cases (F.follows hps) hread hne hnumber R
    obtain ⟨hnumbers, hexpected⟩ := ih (Or.inr ⟨A.ps, A.follows⟩) hps'
    rcases hrest with rfl | ⟨rest, rfl⟩
    · cases R with
      | nil => exact absurd A.ps hps'
      | number hps₁ => exact absurd A.ps hps₁
    · rw [Expected, if_pos A.ps] at hexpected
      rw [List.append_assoc, List.cons_append, Expected, if_neg hps, ← hexpected]
      rw [List.cons_append] at hnumbers
      rw [paramNumbers_number hd (Or.inr ⟨_, rfl⟩), paramNumbers_number hd (Or.inr ⟨_, rfl⟩), hnumbers]
      refine ⟨rfl, ?_⟩
      constructor
      · exact fun P => Or.inr ⟨_, rfl, P.split.2⟩
      · rintro (h | ⟨body, h, P⟩)
        · cases h
        · rw [← (List.cons.inj h).2] at P
          exact .cons hd P

/-- Where a control code is expected, nothing has been read of another. -/
theorem ExpectsCode.after (h : ExpectsCode state text) : Pending.none.after (paramNumbers text) = .none := by
  obtain ⟨v, R, hps⟩ := h
  have hv : v.ps ≠ .expectSemicolon := by
    rw [hps]
    nofun
  have F := (R.isAt (r := .none) (Or.inl rfl)).follows hv
  cases hafter : Pending.none.after (paramNumbers text) with
  | none => rfl
  | special | xterm256 | red | green | blue =>
    rw [hafter] at F
    have hno := F.1
    rw [hps] at hno
    cases hno

theorem ExpectsCode.append (h : ExpectsCode state text) (q : Bytes) :
    (∀ s, applyParams s (text ++ q) = applyParams (applyParams s text) q) ∧
      (Params IsLooseNumber (text ++ q) ↔ Params IsLooseNumber q) := by
  have hafter := h.after
  obtain ⟨v, R, hps⟩ := h
  have hv : v.ps ≠ .expectSemicolon := by
    rw [hps]
    nofun
  obtain ⟨hnumbers, hexpected⟩ := R.append (r := .none) (Or.inl rfl) hv q
  refine ⟨?_, hexpected⟩
  intro s
  simp only [applyParams, hnumbers, codes_append, hafter, Sgr.applyAll, List.foldl_append]

/-- A sequence goes to the first letter that ends one. -/
theorem sequenceText_inj {more' : Bytes} (hp : 109 ∉ p) (hq : 109 ∉ q)
    (h : sequenceText p more = sequenceText q more') : p = q := by
  have heq : p ++ 109 :: more = q ++ 109 :: more' := (List.cons.inj (List.cons.inj h).2).2
  have hsplit := congrArg (List.splitOn 109) heq
  rw [List.splitOn_append_cons_self_of_not_mem hp, List.splitOn_append_cons_self_of_not_mem hq] at hsplit
  exact (List.cons.inj hsplit).1

/-- A text without the letter that ends a sequence is the whole of an accepted sequence. -/
theorem params_of_accepted (hm : 109 ∉ text) {n : Int} {s : TermState}
    (hparse : nlTermParseAnsiColor (some (sequenceText text more)) (some state) = some (n, some s)) (hn : n > 0) :
    Params IsLooseNumber text ∧ text.length + 2 ≤ 512 := by
  rcases parse_cases (sequenceText text more) state with h | ⟨body, more', hbody, P, hlen⟩
  · rw [h, Option.some.injEq, Prod.mk.injEq] at hparse
    omega
  · obtain rfl := sequenceText_inj hm P.not_mem hbody
    exact ⟨P, hlen⟩

end

/-- A sequence that is given to the terminal in two parts leaves the state that it leaves as a whole. -/
theorem parse_split (p q more : Bytes) (state s : TermState) (n : Int)
    (hchars : ∀ c ∈ p ++ 59 :: q, isdigit c = true ∨ c = 59)
    (hparse : nlTermParseAnsiColor (some (sequenceText (p ++ 59 :: q) more)) (some state) = some (n, some s))
    (hn : n > 0) (hp : ExpectsCode state (p ++ [59])) : ∃ s₁,
    nlTermParseAnsiColor (some (sequenceText p more)) (some state) = some ((p.length : Int) + 3, some s₁) ∧
      nlTermParseAnsiColor (some (sequenceText q more)) (some s₁) = some ((q.length : Int) + 3, some s) := by
  have hm : (109 : Byte) ∉ p ++ 59 :: q := by
    intro hc
    rcases hchars 109 hc with h | h <;> cases h
  obtain ⟨P, hlen⟩ := params_of_accepted hm hparse hn
  obtain ⟨hP, hQ⟩ := P.split
  have hwhole : nlTermParseAnsiColor (some (sequenceText (p ++ 59 :: q) more)) (some state) = _ := parse_params P hlen
  rw [hparse, Option.some.injEq, Prod.mk.injEq, Option.some.injEq] at hwhole
  rw [List.length_append, List.length_cons] at hlen
  refine ⟨applyParams state p, parse_params hP (by omega), ?_⟩
  have hnumbers : paramNumbers (p ++ [59]) = paramNumbers p := by
    rw [paramNumbers_append]
    exact List.append_nil _
  have hafter := hp.after
  rw [hnumbers] at hafter
  rw [hwhole.2, applyParams_append hafter (Or.inr ⟨q, rfl⟩)]
  exact parse_params hQ (by omega)

/-- A background of the 256 colours, and bold. -/
theorem parse_split_background : ∃ s₁,
    nlTermParseAnsiColor (some (sequenceText (bytes "48;5;3") [])) (some nlDefaultTermState) = some (9, some s₁) ∧
      nlTermParseAnsiColor (some (sequenceText (bytes "1") [])) (some s₁) =
        some (4, some (applyParams nlDefaultTermState (bytes "48;5;3;1"))) := by
  refine parse_split (bytes "48;5;3") (bytes "1") [] nlDefaultTermState _ 11 (by simp [bytes, isdigit]) (by decide)
    (by decide) ?_
  exact ⟨_, .number (by decide) rfl (by decide) rfl (.semicolon rfl (.number (by decide) rfl (by decide) rfl
    (.semicolon rfl (.number (by decide) rfl (by decide) rfl (.semicolon rfl .nil))))), rfl⟩

end Nlutils
