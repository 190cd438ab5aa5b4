import Nlutils.Term.Rounds

/-! # The text of a sequence

The parser accepts what `strtoul` takes for numbers, between single semicolons. It takes numbers with white space and
a sign in front of them, too. -/

namespace Nlutils
open ColorParse

/-- Numbers separated by semicolons, and perhaps one more semicolon at the end. -/
inductive Params (num : Bytes → Prop) : Bytes → Prop
  | nil : Params num []
  | last {d : Bytes} : num d → Params num d
  | cons {d body : Bytes} : num d → Params num body → Params num (d ++ 59 :: body)

/-- A run of digits. -/
def IsNumber (d : Bytes) : Prop := d ≠ [] ∧ ∀ c ∈ d, isdigit c = true

/-- The numbers that the text is made of. -/
def paramNumbers (body : Bytes) : List Nat :=
  ((body.splitOn 59).filter fun d => d ≠ []).map fun d => (strtoul d 10).1

/-- The runs of digits and the semicolons. -/
def paramTokens (body : Bytes) : Nat := (paramNumbers body).length + body.count 59

/-- A whole sequence. -/
def IsSequence (text : Bytes) : Prop :=
  ∃ body, text = 0x1b :: 91 :: (body ++ [109]) ∧ Params IsNumber body ∧ body.length + 2 ≤ 512

/-- What the codes in the text of a sequence do. -/
def applyParams (state : TermState) (body : Bytes) : TermState :=
  Sgr.applyAll state (Pending.codes .none (paramNumbers body))

section
variable {body more d rest : Bytes} {v v' : ColorParse} {p : Pending} {fuel off : Nat} {s : Bytes} {state : TermState}

theorem Params.mono {num num' : Bytes → Prop} (h : ∀ d, num d → num' d) (P : Params num body) : Params num' body := by
  induction P with
  | nil => exact .nil
  | last hd => exact .last (h _ hd)
  | cons hd _ ih => exact .cons (h _ hd) ih

/-- What holds of the characters of numbers and of semicolons holds of all. -/
theorem Params.forall_mem {num : Bytes → Prop} {q : Byte → Prop} (P : Params num body)
    (hnum : ∀ d, num d → ∀ c ∈ d, q c) (hq : q 59) : ∀ c ∈ body, q c := by
  induction P with
  | nil => nofun
  | last hd => exact hnum _ hd
  | cons hd _ ih =>
    intro c hc
    rw [List.mem_append, List.mem_cons] at hc
    rcases hc with hc | rfl | hc
    · exact hnum _ hd c hc
    · exact hq
    · exact ih c hc

theorem IsNumber.loose (hd : IsNumber d) : IsLooseNumber d := ⟨[], [], d, rfl, nofun, by simp, hd⟩

theorem paramNumbers_last (hd : IsLooseNumber d) : paramNumbers d = [(strtoul d 10).1] := by
  have hsplit : d.splitOn 59 = [d] := by
    refine List.splitOnP_eq_singleton ?_
    intro c hc
    simpa using (hd.mem c hc).1
  simp [paramNumbers, hsplit, hd.ne_nil]

theorem paramNumbers_cons (hd : IsLooseNumber d) :
    paramNumbers (d ++ 59 :: body) = (strtoul d 10).1 :: paramNumbers body := by
  have hsplit : (d ++ 59 :: body).splitOn 59 = d :: body.splitOn 59 := by
    refine List.splitOnP_append_cons_of_forall_mem ?_ 59 rfl body
    intro c hc
    simpa using (hd.mem c hc).1
  simp [paramNumbers, hsplit, hd.ne_nil]

/-! ### Rounds of the loop -/

theorem loop_end (hoff : off ≤ 512) : loop (fuel + 1) (109 :: more) off 0 v = some (some (off + 1, v.newState)) := by
  have hlength : ¬off > maxColorParseLength := Nat.not_lt.mpr hoff
  have hloops : ¬0 > maxColorParseLoops := Nat.not_lt_zero _
  rw [loop, if_neg hlength, if_neg hloops, if_pos rfl]

theorem loop_semicolon (hps : v.ps = .expectSemicolon) (hoff : off ≤ 512) :
    loop (fuel + 1) (59 :: more) off 0 v = loop fuel more (off + 1) 0 v.resume :=
  loop_of_round (r := ⟨59 :: more, off, 0, v, 0⟩) (round_semicolon hps rfl hoff (Nat.zero_le _))

theorem loop_number (fuel off : Nat) (F : p.Follows v) (hd : IsLooseNumber d) (hmore : NoDigit more)
    (hoff : off ≤ 512) :
    ∃ v', AfterNumber p (strtoul d 10).1 v v' ∧
      loop (fuel + 1) (d ++ more) off 0 v = loop fuel more (off + d.length) 0 v' := by
  let r : ColorRun := ⟨d ++ more, off, 0, v, 0⟩
  have F' : p.Follows r.parse := F
  obtain ⟨v', A, hround⟩ := round_number F' hd hmore rfl hoff (Nat.zero_le _)
  exact ⟨v', A, loop_of_round hround⟩

/-! ### Sequences -/

/-- The parser accepts numbers and semicolons. -/
theorem loop_params (P : Params IsLooseNumber body) (F : p.Follows v) (hoff : off + body.length ≤ 512)
    (hfuel : (body ++ 109 :: more).length ≤ fuel) : loop fuel (body ++ 109 :: more) off 0 v =
      some (some (off + body.length + 1, Sgr.applyAll v.newState (p.codes (paramNumbers body)))) := by
  induction P generalizing p v off fuel with
  | nil =>
    obtain ⟨fuel, rfl⟩ : ∃ k, fuel = k + 1 := ⟨fuel - 1, by simp at hfuel; omega⟩
    exact loop_end (Nat.le_trans (Nat.le_add_right _ _) hoff)
  | @last d hd =>
    have hpos := List.length_pos_iff.mpr hd.ne_nil
    rw [List.length_append, List.length_cons] at hfuel
    obtain ⟨fuel, rfl⟩ : ∃ k, fuel = k + 2 := ⟨fuel - 2, by omega⟩
    obtain ⟨v', A, hloop⟩ := loop_number (fuel + 1) off F hd
      (show NoDigit (109 :: more) from fun c hc => Option.some.inj hc ▸ rfl) (Nat.le_trans (Nat.le_add_right _ _) hoff)
    rw [hloop, loop_end hoff, paramNumbers_last hd, A.newState]
    simp [Pending.codes]
  | @cons d body hd P ih =>
    have hpos := List.length_pos_iff.mpr hd.ne_nil
    simp only [List.length_append, List.length_cons] at hfuel hoff
    obtain ⟨fuel, rfl⟩ : ∃ k, fuel = k + 2 := ⟨fuel - 2, by omega⟩
    obtain ⟨v', A, hloop⟩ := loop_number (fuel + 1) off F hd
      (show NoDigit (59 :: (body ++ 109 :: more)) from fun c hc => Option.some.inj hc ▸ rfl) (by omega)
    have hrest : loop fuel (body ++ 109 :: more) (off + d.length + 1) 0 v'.resume = _ := ih A.follows (by omega)
      (by simp only [List.length_append, List.length_cons]; omega)
    have hnew : v'.resume.newState = v'.newState := rfl
    rw [List.append_assoc, List.cons_append, hloop, loop_semicolon A.ps (by omega), hrest, paramNumbers_cons hd, hnew,
      A.newState]
    simp only [Pending.codes, Sgr.applyAll, List.foldl_append, List.length_append, List.length_cons]
    have hsum : off + d.length + 1 + body.length + 1 = off + (d.length + (body.length + 1)) + 1 := by omega
    rw [hsum]

/-- What the text is where the parser expects a number, and where it expects a semicolon. -/
def Expected (v : ColorParse) (body : Bytes) : Prop :=
  if v.ps = .expectSemicolon then body = [] ∨ ∃ body', body = 59 :: body' ∧ Params IsLooseNumber body'
  else Params IsLooseNumber body

/-- The parser accepts nothing else, and never fails to answer. -/
theorem loop_expected (hv : p.IsAt v) (hfuel : rest.length ≤ fuel) :
    loop fuel rest off 0 v = some none ∨
      ∃ body more, rest = body ++ 109 :: more ∧ Expected v body ∧ off + body.length ≤ 512 := by
  induction fuel generalizing rest off v p with
  | zero =>
    obtain rfl := List.length_eq_zero_iff.mp (Nat.le_zero.mp hfuel)
    exact Or.inl rfl
  | succ fuel ih =>
    let r : ColorRun := ⟨rest, off, 0, v, 0⟩
    cases hround : r.round with
    | none =>
      have hlast : loop (fuel + 1) rest off 0 v = r.loop 1 := (loop_eq r fuel).trans (by rw [hround]; rfl)
      have F : p.IsAt r.parse := hv
      rw [hlast]
      refine (loop_of_no_round F hround).imp_right ?_
      rintro ⟨more, hrest, hoff⟩
      refine ⟨[], more, hrest, ?_, hoff⟩
      unfold Expected
      split
      · exact Or.inl rfl
      · exact .nil
    | some r' =>
      have hloop : loop (fuel + 1) rest off 0 v = r'.loop fuel := loop_of_round hround
      have hlt : r'.rest.length < rest.length := length_of_round hround
      have F : p.IsAt r.parse := hv
      rw [hloop]
      obtain ⟨hoff, ⟨hps, F, more, hrest, rfl⟩ | ⟨hps, d, more, v', hrest, hd, A, rfl⟩⟩ := round_isAt F hround
      · refine (ih (Or.inl F) (by omega)).imp_right ?_
        rintro ⟨body, more', rfl, E, hlen⟩
        have hlen' : off + 1 + body.length ≤ 512 := hlen
        rw [Expected, if_neg F.ps] at E
        refine ⟨59 :: body, more', hrest, ?_, ?_⟩
        · rw [Expected, if_pos hps]
          exact Or.inr ⟨body, rfl, E⟩
        · rw [List.length_cons]
          omega
      · refine (ih (Or.inr ⟨A.ps, A.follows⟩) (by omega)).imp_right ?_
        rintro ⟨body, more', rfl, E, hlen⟩
        have hlen' : off + d.length + body.length ≤ 512 := hlen
        rw [Expected, if_pos A.ps] at E
        have hbody : Params IsLooseNumber (d ++ body) := by
          rcases E with rfl | ⟨body, rfl, P⟩
          · rw [List.append_nil]
            exact .last hd
          · exact .cons hd P
        refine ⟨d ++ body, more', by rw [List.append_assoc]; exact hrest, ?_, ?_⟩
        · rw [Expected, if_neg hps]
          exact hbody
        · rw [List.length_append]
          omega

theorem parse_params (P : Params IsLooseNumber body) (hlen : body.length + 2 ≤ 512) :
    nlTermParseAnsiColor (some (0x1b :: 91 :: (body ++ 109 :: more))) (some state) =
      some ((body.length : Int) + 3, some (applyParams state body)) := by
  have F : Pending.none.Follows { newState := state } := rfl
  have hloop : loop (0x1b :: 91 :: (body ++ 109 :: more)).length (body ++ 109 :: more) 2 0 { newState := state } = _ :=
    loop_params P F (by omega) (by simp only [List.length_cons]; omega)
  have hstart : ¬(Bytes.at (0x1b :: 91 :: (body ++ 109 :: more)) 0 ≠ 0x1b ∨
      Bytes.at (0x1b :: 91 :: (body ++ 109 :: more)) 1 ≠ 91) := by
    rintro (h | h) <;> exact h rfl
  rw [nlTermParseAnsiColor]
  simp only [if_neg hstart, List.drop_succ_cons, List.drop_zero, hloop, Option.map_some]
  have hsum : ((2 + body.length + 1 : Nat) : Int) = body.length + 3 := by omega
  rw [hsum]
  rfl

/-- The call takes a sequence off the string, or it leaves the state as it is. -/
theorem parse_cases (s : Bytes) (state : TermState) :
    nlTermParseAnsiColor (some s) (some state) = some (0, some state) ∨
      ∃ body more, s = 0x1b :: 91 :: (body ++ 109 :: more) ∧ Params IsLooseNumber body ∧ body.length + 2 ≤ 512 := by
  by_cases hstart : s.at 0 ≠ 0x1b ∨ s.at 1 ≠ 91
  · refine Or.inl ?_
    rw [nlTermParseAnsiColor]
    simp only [if_pos hstart]
  · have F : Pending.none.Follows { newState := state } := rfl
    obtain ⟨h0, h1⟩ := not_or.mp hstart
    obtain ⟨rest, rfl⟩ := exists_of_starts (not_not.mp h0) (not_not.mp h1)
    have hrest : loop (0x1b :: 91 :: rest).length rest 2 0 { newState := state } = some none ∨ _ :=
      loop_expected (Or.inl F) (by simp only [List.length_cons]; omega)
    rcases hrest with h | ⟨body, more, rfl, E, hlen⟩
    · refine Or.inl ?_
      rw [nlTermParseAnsiColor]
      simp only [if_neg hstart, List.drop_succ_cons, List.drop_zero, h, Option.map_some]
    · rw [Expected, if_neg F.ps] at E
      exact Or.inr ⟨body, more, rfl, E, by omega⟩

end
end Nlutils
