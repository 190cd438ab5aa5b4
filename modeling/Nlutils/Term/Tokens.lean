import Nlutils.Term.Splitting

/-! # The tokens of a call

The loop is to give up after so many rounds, but nothing counts them. All that bounds the tokens of a call is the
length of the string, of which a number with a semicolon behind it may take as few as two characters. -/

namespace Nlutils
open Lib

/-- What the guard of the loop is there for. -/
structure GuardWorks (s : Bytes) (state : TermState) : Prop where
  bounds : s.at 0 = 0x1b → s.at 1 = 91 →
    ∀ r, (colorRun s state).Reach Machine.anyStep r → r.tokens ≤ maxColorParseLoops + 1
  rejects : ∀ body more, s = sequenceText body more → 109 ∉ body → maxColorParseLoops + 1 < paramTokens body →
    nlTermParseAnsiColor (some s) (some state) = some (0, some state)

/-- Numbers, each of them with a semicolon behind it. -/
def numberPairs (ds : List Bytes) : Bytes := ds.flatMap fun d => d ++ [59]

/-- The string starts with more numbers, each of them with a semicolon behind it, than the guard is to let pass, and
    no semicolon is too far into the string. -/
def StartsLong (s : Bytes) : Prop :=
  ∃ ds more, s = 0x1b :: 91 :: (numberPairs ds ++ more) ∧ (∀ d ∈ ds, IsLooseNumber d) ∧
    maxColorParseLoops + 1 < 2 * ds.length ∧ (numberPairs ds).length + 1 ≤ maxColorParseLength

/-- What the rounds so far have read: numbers with their semicolons, and perhaps one more number. -/
structure ColorRun.HasRead (s : Bytes) (ds : List Bytes) (d : Bytes) (r : ColorRun) : Prop where
  text : s = 0x1b :: 91 :: (numberPairs ds ++ (d ++ r.rest))
  off : r.off = (numberPairs ds).length + d.length + 2
  within : ds ≠ [] → (numberPairs ds).length + 1 ≤ maxColorParseLength
  loose : ∀ d ∈ ds, IsLooseNumber d
  isAt : ∃ p : Pending, p.IsAt r.parse
  number : r.parse.ps ≠ .expectSemicolon → d = [] ∧ r.tokens = 2 * ds.length
  semicolon : r.parse.ps = .expectSemicolon → IsLooseNumber d ∧ r.tokens = 2 * ds.length + 1

section
variable {s d body more : Bytes} {ds : List Bytes} {state : TermState} {r r' : ColorRun} {p : Pending}

theorem numberPairs_cons (d : Bytes) (ds : List Bytes) : numberPairs (d :: ds) = d ++ 59 :: numberPairs ds := by
  simp [numberPairs]

theorem numberPairs_concat (ds : List Bytes) (d : Bytes) : numberPairs (ds ++ [d]) = numberPairs ds ++ (d ++ [59]) := by
  simp [numberPairs]

/-- A semicolon completes a pair, and a number starts one. -/
theorem ColorRun.HasRead.step (R : r.HasRead s ds d) (h : r.round = some r') : ∃ ds' d', r'.HasRead s ds' d' := by
  obtain ⟨p, F⟩ := R.isAt
  obtain ⟨hoff, ⟨hps, F', more, hrest, rfl⟩ | ⟨hps, n, more, v, hrest, hn, A, rfl⟩⟩ := round_isAt F h
  · obtain ⟨hd, htokens⟩ := R.semicolon hps
    have hlen : (numberPairs (ds ++ [d])).length = (numberPairs ds).length + d.length + 1 := by
      simp only [numberPairs_concat, List.length_append, List.length_singleton, Nat.add_assoc]
    have hoff' := R.off
    refine ⟨ds ++ [d], [], ?_, ?_, ?_, ?_, ⟨p, Or.inl F'⟩, ?_, fun hps' => absurd hps' F'.ps⟩
    · rw [R.text, hrest, numberPairs_concat]
      simp
    · rw [advance_off, hlen, hoff', List.length_nil]
    · intro _
      omega
    · intro e he
      rcases List.mem_append.mp he with he | he
      · exact R.loose e he
      · rwa [List.mem_singleton.mp he]
    · intro _
      refine ⟨rfl, ?_⟩
      rw [advance_tokens, htokens, List.length_append, List.length_singleton]
      omega
  · obtain ⟨rfl, htokens⟩ := R.number hps
    refine ⟨ds, n, ?_, ?_, R.within, R.loose, ⟨_, Or.inr ⟨A.ps, A.follows⟩⟩, fun hps' => absurd A.ps hps', ?_⟩
    · rw [R.text, hrest, List.nil_append, advance_rest]
    · rw [advance_off, R.off, List.length_nil]
      omega
    · intro _
      exact ⟨hn, by rw [advance_tokens, htokens]⟩

/-- In every round the string is what has been read and what is left. -/
theorem exists_hasRead (h0 : s.at 0 = 0x1b) (h1 : s.at 1 = 91) (hr : (colorRun s state).Reach Machine.anyStep r) :
    ∃ ds d, r.HasRead s ds d := by
  refine hr.invariant (I := fun r => ∃ ds d, r.HasRead s ds d) ?_ ?_
  · obtain ⟨rest, rfl⟩ := exists_of_starts h0 h1
    exact ⟨[], [], rfl, rfl, fun h => absurd rfl h, nofun, ⟨.none, Or.inl rfl⟩, fun _ => ⟨rfl, rfl⟩, nofun⟩
  · rintro r _ r' ⟨ds, d, R⟩ - hround
    exact R.step hround

theorem ColorRun.HasRead.startsLong (R : r.HasRead s ds d) (h : maxColorParseLoops + 1 < r.tokens) : StartsLong s := by
  have hlong : maxColorParseLoops + 1 < 2 * ds.length := by
    by_cases hps : r.parse.ps = .expectSemicolon
    · have htokens := (R.semicolon hps).2
      unfold maxColorParseLoops at h ⊢
      omega
    · rw [← (R.number hps).2]
      exact h
  refine ⟨ds, d ++ r.rest, R.text, R.loose, hlong, R.within ?_⟩
  rintro rfl
  exact absurd hlong (by decide)

/-- Nothing stops the loop at numbers with semicolons behind them but the length of the string. -/
theorem exists_tokens (hr : (colorRun s state).Reach Machine.anyStep r) (F : p.Follows r.parse) (hloops : r.loops = 0)
    (hrest : r.rest = numberPairs ds ++ more) (hds : ∀ d ∈ ds, IsLooseNumber d)
    (hoff : r.off + (numberPairs ds).length ≤ maxColorParseLength + 1) :
    ∃ r', (colorRun s state).Reach Machine.anyStep r' ∧ r'.tokens = r.tokens + 2 * ds.length := by
  induction ds generalizing r p with
  | nil => exact ⟨r, hr, rfl⟩
  | cons d ds ih =>
    have hd := hds d List.mem_cons_self
    have hguard : r.loops ≤ maxColorParseLoops := hloops ▸ Nat.zero_le _
    rw [numberPairs_cons, List.append_assoc, List.cons_append] at hrest
    rw [numberPairs_cons, List.length_append, List.length_cons] at hoff
    obtain ⟨v, A, hnumber⟩ := round_number F hd (show NoDigit (59 :: (numberPairs ds ++ more)) from
      fun c hc => Option.some.inj hc ▸ rfl) hrest (by omega) hguard
    have hoff₁ : r.off + d.length ≤ maxColorParseLength := by omega
    have hsemicolon : (r.advance d.length (59 :: (numberPairs ds ++ more)) v).round = _ :=
      round_semicolon A.ps rfl hoff₁ hguard
    have hr₁ : (colorRun s state).Reach Machine.anyStep _ := hr.step (a := ()) trivial hnumber
    have hr₂ : (colorRun s state).Reach Machine.anyStep _ := hr₁.step (a := ()) trivial hsemicolon
    obtain ⟨r', hr', htokens⟩ := ih hr₂ A.follows hloops rfl (fun e he => hds e (List.mem_cons_of_mem _ he))
      (by simp only [advance_off]; omega)
    refine ⟨r', hr', ?_⟩
    simp only [htokens, advance_tokens, List.length_cons]
    omega

theorem not_guardWorks (h : StartsLong s) (state : TermState) : ¬GuardWorks s state := by
  obtain ⟨ds, more, rfl, hds, hlong, hlen⟩ := h
  intro G
  have F : Pending.none.Follows { newState := state } := rfl
  let r₀ : ColorRun := { rest := numberPairs ds ++ more, off := 2, parse := { newState := state } }
  have hr₀ : (colorRun (0x1b :: 91 :: (numberPairs ds ++ more)) state).Reach Machine.anyStep r₀ := .init
  have hoff : r₀.off + (numberPairs ds).length ≤ maxColorParseLength + 1 := by
    simp only [r₀]
    omega
  obtain ⟨r, hr, htokens⟩ := exists_tokens hr₀ F rfl rfl hds hoff
  have hle := G.bounds rfl rfl r hr
  have hstart : r.tokens = 2 * ds.length := htokens.trans (Nat.zero_add _)
  omega

theorem IsLooseNumber.count (hd : IsLooseNumber d) : d.count 59 = 0 :=
  List.count_eq_zero.mpr fun hc => (hd.mem 59 hc).1 rfl

theorem paramTokens_last (hd : IsLooseNumber d) : paramTokens d = 1 := by
  rw [paramTokens, paramNumbers_last hd, hd.count]
  rfl

theorem paramTokens_cons (hd : IsLooseNumber d) : paramTokens (d ++ 59 :: body) = paramTokens body + 2 := by
  rw [paramTokens, paramNumbers_cons hd, List.count_append, hd.count, List.count_cons_self, List.length_cons,
    paramTokens]
  omega

/-- A sequence of many tokens starts with many pairs. -/
theorem Params.exists_pairs (P : Params IsLooseNumber body) {k : Nat} (h : 2 * k ≤ paramTokens body) :
    ∃ ds more, body = numberPairs ds ++ more ∧ (∀ d ∈ ds, IsLooseNumber d) ∧ ds.length = k := by
  induction P generalizing k with
  | nil =>
    obtain rfl : k = 0 := by
      have hnil : paramTokens [] = 0 := rfl
      omega
    exact ⟨[], [], rfl, nofun, rfl⟩
  | @last d hd =>
    obtain rfl : k = 0 := by
      rw [paramTokens_last hd] at h
      omega
    exact ⟨[], d, rfl, nofun, rfl⟩
  | @cons d body hd P ih =>
    cases k with
    | zero => exact ⟨[], _, rfl, nofun, rfl⟩
    | succ k =>
      rw [paramTokens_cons hd] at h
      obtain ⟨ds, more, hbody, hds, hlen⟩ := ih (k := k) (by omega)
      refine ⟨d :: ds, more, ?_, ?_, by rw [List.length_cons, hlen]⟩
      · rw [hbody, numberPairs_cons, List.append_assoc, List.cons_append]
      · rintro e he
        rcases List.mem_cons.mp he with rfl | he
        · exact hd
        · exact hds e he

theorem length_numberPairs_replicate {k : Nat} :
    (numberPairs (List.replicate k d)).length = k * (d.length + 1) := by
  induction k with
  | zero => exact (Nat.zero_mul _).symm
  | succ k ih =>
    rw [List.replicate_succ, numberPairs_cons, List.length_append, List.length_cons, ih, Nat.succ_mul]
    omega

theorem params_numberPairs (hds : ∀ d ∈ ds, IsLooseNumber d) : Params IsLooseNumber (numberPairs ds) := by
  induction ds with
  | nil => exact .nil
  | cons d ds ih =>
    rw [numberPairs_cons]
    exact .cons (hds d List.mem_cons_self) (ih fun e he => hds e (List.mem_cons_of_mem _ he))

end

/-- The guard works as long as the string does not start with that many numbers. -/
theorem guardWorks_iff (s : Bytes) (state : TermState) : GuardWorks s state ↔ ¬StartsLong s := by
  constructor
  · exact fun G h => not_guardWorks h state G
  · intro hshort
    refine ⟨?_, ?_⟩
    · intro h0 h1 r hr
      obtain ⟨ds, d, R⟩ := exists_hasRead h0 h1 hr
      exact Nat.not_lt.mp fun h => hshort (R.startsLong h)
    · rintro body more rfl hm hlong
      refine (parse_cases _ state).resolve_right ?_
      rintro ⟨body', more', htext, P, hlen⟩
      obtain rfl := sequenceText_inj hm P.not_mem htext
      obtain ⟨ds, rest, rfl, hds, hk⟩ := P.exists_pairs (k := maxColorParseLoops / 2 + 1) (by
        unfold maxColorParseLoops at hlong ⊢
        omega)
      refine hshort ⟨ds, rest ++ 109 :: more, ?_, hds, ?_, ?_⟩
      · rw [sequenceText, List.append_assoc]
      · rw [hk]
        decide
      · rw [List.length_append] at hlen
        unfold maxColorParseLength
        omega

/-- Bold, 129 times over. -/
theorem parse_many_tokens :
    ¬GuardWorks (sequenceText (numberPairs (List.replicate 129 [49])) []) nlDefaultTermState ∧
      ∃ state', nlTermParseAnsiColor (some (sequenceText (numberPairs (List.replicate 129 [49])) []))
        (some nlDefaultTermState) = some (261, some state') := by
  have hds : ∀ d ∈ List.replicate 129 ([49] : Bytes), IsLooseNumber d := by
    intro d hd
    rw [List.eq_of_mem_replicate hd]
    exact IsNumber.loose ⟨by simp, by simp [isdigit]⟩
  have hlen : (numberPairs (List.replicate 129 [49])).length = 258 := length_numberPairs_replicate
  have hparse : nlTermParseAnsiColor (some (sequenceText (numberPairs (List.replicate 129 [49])) []))
      (some nlDefaultTermState) = _ := parse_params (params_numberPairs hds) (by rw [hlen]; decide)
  rw [hlen] at hparse
  refine ⟨not_guardWorks ⟨_, [109], rfl, hds, ?_, ?_⟩ _, _, hparse⟩
  · rw [List.length_replicate]
    decide
  · rw [hlen]
    decide

end Nlutils
