import Nlutils.Lib.Machine
import Nlutils.Term.Codes

/-! # Rounds of the parser

A round of the loop takes a number or a semicolon off the string, or the function returns in it. -/

namespace Nlutils

/-- The loop at the start of a round, and the number of tokens that it has processed. -/
structure ColorRun where
  rest : Bytes
  off : Nat
  loops : Nat := 0
  parse : ColorParse
  tokens : Nat := 0

namespace ColorRun

/-- The loop from here on. -/
def loop (r : ColorRun) (fuel : Nat) : Option (Option (Nat × TermState)) :=
  ColorParse.loop fuel r.rest r.off r.loops r.parse

/-- After a token of so many characters. -/
def advance (r : ColorRun) (n : Nat) (rest : Bytes) (parse : ColorParse) : ColorRun :=
  { r with rest, off := r.off + n, parse, tokens := r.tokens + 1 }

/-- A round that processes a token. There is none where the function returns. -/
def round (r : ColorRun) : Option ColorRun :=
  match r.rest with
  | [] => none
  | c :: rest =>
    if r.off > maxColorParseLength then none
    else if r.loops > maxColorParseLoops then none
    else if c = 109 then none
    else if r.parse.ps = .expectSemicolon then
      if c ≠ 59 then none else some (r.advance 1 rest r.parse.resume)
    else
      let (n, endptr, _) := strtoul (c :: rest) 10
      if endptr = c :: rest then none
      else (r.parse.number n).map (r.advance ((c :: rest).length - endptr.length) endptr)

end ColorRun

/-- The parser where it expects the next number, or the semicolon in front of it. -/
def Pending.IsAt (p : Pending) (v : ColorParse) : Prop := p.Follows v ∨ v.ps = .expectSemicolon ∧ p.Follows v.resume

/-- The rounds of a call. -/
def colorRun (s : Bytes) (state : TermState) : Lib.Machine ColorRun Unit where
  init := { rest := s.drop 2, off := 2, parse := { newState := state } }
  step r _ := r.round

section
variable {r r' : ColorRun} {d more : Bytes} {p : Pending} {v : ColorParse} {n fuel : Nat}

@[simp] theorem advance_rest : (r.advance n more v).rest = more := rfl

@[simp] theorem advance_off : (r.advance n more v).off = r.off + n := rfl

@[simp] theorem advance_tokens : (r.advance n more v).tokens = r.tokens + 1 := rfl

theorem Pending.IsAt.follows (F : p.IsAt v) (hps : v.ps ≠ .expectSemicolon) : p.Follows v :=
  F.resolve_right fun h => hps h.1

theorem Pending.IsAt.resume (F : p.IsAt v) (hps : v.ps = .expectSemicolon) : p.Follows v.resume :=
  (F.resolve_left fun F => F.ps hps).2

theorem IsLooseNumber.ne_nil (hd : IsLooseNumber d) : d ≠ [] := by
  obtain ⟨ws, sign, ds, rfl, -, -, hne, -⟩ := hd
  simp [hne]

/-- A number has no semicolon and no letter. -/
theorem IsLooseNumber.mem (hd : IsLooseNumber d) : ∀ c ∈ d, c ≠ 59 ∧ c ≠ 109 := by
  obtain ⟨ws, sign, ds, rfl, hws, hsign, -, hds⟩ := hd
  intro c hc
  have hne : ∀ {q : Byte → Bool}, q c = true → q 59 = false → q 109 = false → c ≠ 59 ∧ c ≠ 109 := by
    intro q hq h59 h109
    constructor
    · rintro rfl
      exact Bool.noConfusion (hq.symm.trans h59)
    · rintro rfl
      exact Bool.noConfusion (hq.symm.trans h109)
  rw [List.mem_append, List.mem_append] at hc
  rcases hc with hc | hc | hc
  · exact hne (hws c hc) rfl rfl
  · simp only [List.mem_cons, List.not_mem_nil, or_false] at hsign
    rcases hsign with rfl | rfl | rfl
    · cases hc
    · rw [List.mem_singleton.mp hc]
      decide
    · rw [List.mem_singleton.mp hc]
      decide
  · exact hne (hds c hc) rfl rfl

/-- A round is one of the loop, and the function returns where there is none. -/
theorem loop_eq (r : ColorRun) (fuel : Nat) : r.loop (fuel + 1) = (r.round.map (·.loop fuel)).getD (r.loop 1) := by
  obtain ⟨rest, off, loops, v, k⟩ := r
  cases rest with
  | nil => simp only [ColorRun.loop, ColorRun.round, ColorParse.loop, Option.map_none, Option.getD_none]
  | cons c rest =>
    simp only [ColorRun.loop, ColorRun.round, ColorParse.loop]
    split_ifs with hoff hloops hm hps hc hstop
    · rfl
    · rfl
    · rfl
    · rfl
    · rfl
    · rfl
    · cases v.number (strtoul (c :: rest) 10).1 with
      | none => rfl
      | some v' => rfl

/-- What a round does is what the loop does in it. -/
theorem loop_of_round (h : r.round = some r') : r.loop (fuel + 1) = r'.loop fuel := by
  rw [loop_eq, h]
  rfl

/-- A round that the guards let pass. -/
theorem round_of_guards {c : Byte} {rest : Bytes} (hrest : r.rest = c :: rest) (hoff : r.off ≤ maxColorParseLength)
    (hloops : r.loops ≤ maxColorParseLoops) (hm : c ≠ 109) : r.round =
      if r.parse.ps = .expectSemicolon then
        if c ≠ 59 then none else some (r.advance 1 rest r.parse.resume)
      else if (strtoul (c :: rest) 10).2.1 = c :: rest then none
      else (r.parse.number (strtoul (c :: rest) 10).1).map
        (r.advance ((c :: rest).length - (strtoul (c :: rest) 10).2.1.length) (strtoul (c :: rest) 10).2.1) := by
  simp only [ColorRun.round, hrest]
  rw [if_neg (Nat.not_lt.mpr hoff), if_neg (Nat.not_lt.mpr hloops), if_neg hm]

theorem round_semicolon (hps : r.parse.ps = .expectSemicolon) (hrest : r.rest = 59 :: more)
    (hoff : r.off ≤ maxColorParseLength) (hloops : r.loops ≤ maxColorParseLoops) :
    r.round = some (r.advance 1 more r.parse.resume) := by
  rw [round_of_guards hrest hoff hloops (by decide), if_pos hps, if_neg (by decide)]

theorem round_number (F : p.Follows r.parse) (hd : IsLooseNumber d) (hmore : NoDigit more) (hrest : r.rest = d ++ more)
    (hoff : r.off ≤ maxColorParseLength) (hloops : r.loops ≤ maxColorParseLoops) :
    ∃ v, AfterNumber p (strtoul d 10).1 r.parse v ∧ r.round = some (r.advance d.length more v) := by
  obtain ⟨v, A⟩ := F.number (strtoul d 10).1
  refine ⟨v, A, ?_⟩
  have hread := strtoul_loose hd hmore
  have hlen : (d ++ more).length - more.length = d.length := by rw [List.length_append, Nat.add_sub_cancel]
  have hne : more ≠ d ++ more := fun heq => hd.ne_nil (List.self_eq_append_left.mp heq)
  obtain ⟨c, d', hcons⟩ := List.exists_cons_of_ne_nil hd.ne_nil
  have hm := (hd.mem c (hcons ▸ List.mem_cons_self)).2
  have hcons' : d ++ more = c :: (d' ++ more) := by rw [hcons, List.cons_append]
  rw [hcons'] at hread hlen hne hrest
  rw [round_of_guards hrest hoff hloops hm, if_neg F.ps]
  simp only [hread, if_neg hne, A.number, Option.map_some, hlen]

/-- The guards that have let a round pass, and the token that it has taken off the string. -/
theorem round_cases (h : r.round = some r') : r.off ≤ maxColorParseLength ∧ r.loops ≤ maxColorParseLoops ∧
    ((r.parse.ps = .expectSemicolon ∧ ∃ more, r.rest = 59 :: more ∧ r' = r.advance 1 more r.parse.resume) ∨
      (r.parse.ps ≠ .expectSemicolon ∧ ∃ d more v, r.rest = d ++ more ∧ IsLooseNumber d ∧
        r.parse.number (strtoul d 10).1 = some v ∧ r' = r.advance d.length more v)) := by
  cases hrest : r.rest with
  | nil =>
    simp only [ColorRun.round, hrest] at h
    cases h
  | cons c rest =>
    simp only [ColorRun.round, hrest] at h
    split_ifs at h with hoff hloops hm hps hc hstop
    · refine ⟨Nat.not_lt.mp hoff, Nat.not_lt.mp hloops, Or.inl ⟨hps, rest, by rw [not_not.mp hc], ?_⟩⟩
      exact (Option.some.inj h).symm
    · refine ⟨Nat.not_lt.mp hoff, Nat.not_lt.mp hloops, Or.inr ⟨hps, ?_⟩⟩
      obtain ⟨d, more, hsplit, hd, hmore⟩ := exists_loose_of_strtoul hstop
      obtain ⟨v, hv, rfl⟩ := Option.map_eq_some_iff.mp h
      rw [hsplit, strtoul_loose hd hmore] at hv ⊢
      refine ⟨d, more, v, rfl, hd, hv, ?_⟩
      rw [List.length_append, Nat.add_sub_cancel]

/-- What a round does to the code that the parser is at. -/
theorem round_isAt (F : p.IsAt r.parse) (h : r.round = some r') : r.off ≤ maxColorParseLength ∧
    ((r.parse.ps = .expectSemicolon ∧ p.Follows r.parse.resume ∧
        ∃ more, r.rest = 59 :: more ∧ r' = r.advance 1 more r.parse.resume) ∨
      (r.parse.ps ≠ .expectSemicolon ∧ ∃ d more v, r.rest = d ++ more ∧ IsLooseNumber d ∧
        AfterNumber p (strtoul d 10).1 r.parse v ∧ r' = r.advance d.length more v)) := by
  obtain ⟨hoff, -, ⟨hps, more, hrest, rfl⟩ | ⟨hps, d, more, v, hrest, hd, hv, rfl⟩⟩ := round_cases h
  · exact ⟨hoff, Or.inl ⟨hps, F.resume hps, more, hrest, rfl⟩⟩
  · obtain ⟨v', A⟩ := (F.follows hps).number (strtoul d 10).1
    obtain rfl : v = v' := Option.some.inj (hv.symm.trans A.number)
    exact ⟨hoff, Or.inr ⟨hps, d, more, v, hrest, hd, A, rfl⟩⟩

/-- The function returns at the end of the sequence, or because it does not parse. -/
theorem loop_of_no_round (F : p.IsAt r.parse) (h : r.round = none) :
    r.loop 1 = some none ∨ ∃ more, r.rest = 109 :: more ∧ r.off ≤ maxColorParseLength := by
  obtain ⟨rest, off, loops, v, k⟩ := r
  cases rest with
  | nil => exact Or.inl rfl
  | cons c rest =>
    simp only [ColorRun.round] at h
    simp only [ColorRun.loop, ColorParse.loop]
    split_ifs at h ⊢ with hoff hloops hm hps hc hstop
    · exact Or.inl rfl
    · exact Or.inl rfl
    · exact Or.inr ⟨rest, by rw [hm], Nat.not_lt.mp hoff⟩
    · exact Or.inl rfl
    · exact Or.inl rfl
    · obtain ⟨v', A⟩ := (F.follows hps).number (strtoul (c :: rest) 10).1
      have hnumber := Option.map_eq_none_iff.mp h
      rw [A.number] at hnumber
      cases hnumber

theorem length_of_round (h : r.round = some r') : r'.rest.length < r.rest.length := by
  obtain ⟨-, -, ⟨-, more, hrest, rfl⟩ | ⟨-, d, more, v, hrest, hd, -, rfl⟩⟩ := round_cases h
  · rw [hrest]
    exact Nat.lt_succ_self _
  · have hpos := List.length_pos_iff.mpr hd.ne_nil
    rw [hrest, List.length_append]
    exact Nat.lt_add_of_pos_left hpos

/-- The rounds come to an end, where the function returns. -/
theorem exists_last_round {s : Bytes} {state : TermState} (hr : (colorRun s state).Reach Lib.Machine.anyStep r)
    (hfuel : r.rest.length ≤ fuel) :
    ∃ r', (colorRun s state).Reach Lib.Machine.anyStep r' ∧ r'.round = none ∧ r.loop (fuel + 1) = r'.loop 1 := by
  let P : ColorRun → Prop := fun r' => ∃ k, r'.rest.length ≤ k ∧ r.loop (fuel + 1) = r'.loop (k + 1)
  have hround : ∀ r₁ r₂ : ColorRun, P r₁ → r₁.round = some r₂ → P r₂ ∧ r₂.rest.length < r₁.rest.length := by
    rintro r₁ r₂ ⟨k, hk, hloop⟩ hround
    have hlt := length_of_round hround
    obtain ⟨k, rfl⟩ : ∃ j, k = j + 1 := ⟨k - 1, by omega⟩
    exact ⟨⟨k, by omega, hloop.trans (loop_of_round hround)⟩, hlt⟩
  obtain ⟨r', hr', hnone, k, -, hloop⟩ := hr.exists_last P (·.rest.length) hround ⟨fuel, hfuel, rfl⟩
  have hnone' : r'.round = none := hnone
  refine ⟨r', hr', hnone', ?_⟩
  rw [hloop, loop_eq, hnone']
  rfl

theorem exists_of_starts {s : Bytes} (h0 : s.at 0 = 0x1b) (h1 : s.at 1 = 91) : ∃ rest, s = 0x1b :: 91 :: rest := by
  rcases s with _ | ⟨c, _ | ⟨d, rest⟩⟩
  · exact absurd h0 (by decide)
  · exact absurd h1 (show (0 : Byte) ≠ 91 by decide)
  · exact ⟨rest, by rw [← h0, ← h1]; rfl⟩

/-- A call gives what the loop gives in the last of its rounds. -/
theorem parse_rounds {s : Bytes} {state : TermState} (h0 : s.at 0 = 0x1b) (h1 : s.at 1 = 91) :
    ∃ r, (colorRun s state).Reach Lib.Machine.anyStep r ∧ r.round = none ∧
      nlTermParseAnsiColor (some s) (some state) = (r.loop 1).map fun
        | none => (0, some state)
        | some (n, newState) => ((n : Int), some newState) := by
  obtain ⟨rest, rfl⟩ := exists_of_starts h0 h1
  obtain ⟨r, hr, hround, hloop⟩ := exists_last_round
    (.init : (colorRun (0x1b :: 91 :: rest) state).Reach Lib.Machine.anyStep _) (Nat.le_succ rest.length)
  refine ⟨r, hr, hround, ?_⟩
  have hstart : ¬(Bytes.at (0x1b :: 91 :: rest) 0 ≠ 0x1b ∨ Bytes.at (0x1b :: 91 :: rest) 1 ≠ 91) := by
    rintro (h | h) <;> exact h rfl
  rw [← hloop, nlTermParseAnsiColor]
  simp only [if_neg hstart]
  rfl

end
end Nlutils
