import Nlutils.Term.Params

/-! # Accepted sequences

What the parser accepts is a sequence, except where a number has white space or a sign in front of it. -/

namespace Nlutils

/-- What is to hold of a call on a string. -/
structure AcceptsSequences (s : Bytes) (state : TermState) : Prop where
  accepts_only : ∀ n state', nlTermParseAnsiColor (some s) (some state) = some (n, some state') → n > 0 →
    IsSequence (s.take n.toNat) ∧ ∀ s' : Bytes, s'.take n.toNat = s.take n.toNat →
      nlTermParseAnsiColor (some s') (some state) = some (n, some state')
  accepts : ∀ body more, s = 0x1b :: 91 :: (body ++ 109 :: more) → Params IsNumber body → body.length + 2 ≤ 512 →
    paramTokens body ≤ 256 →
    ∃ state', nlTermParseAnsiColor (some s) (some state) = some ((body.length : Int) + 3, some state')
  answers : ∃ n state', nlTermParseAnsiColor (some s) (some state) = some (n, some state') ∧ n ≥ 0
  unchanged : ∀ state', nlTermParseAnsiColor (some s) (some state) = some (0, state') → state' = some state

/-- The string starts with a sequence but for a number with white space or a sign in front of it. -/
def StartsLoosely (s : Bytes) : Prop :=
  ∃ body more, s = 0x1b :: 91 :: (body ++ 109 :: more) ∧ Params IsLooseNumber body ∧ ¬Params IsNumber body ∧
    body.length + 2 ≤ 512

section
variable {s body more : Bytes} {state : TermState}

theorem take_sequence :
    (0x1b :: 91 :: (body ++ 109 :: more)).take (body.length + 3) = 0x1b :: 91 :: (body ++ [109]) := by
  have hsplit : (0x1b :: 91 :: (body ++ 109 :: more) : Bytes) = 0x1b :: 91 :: (body ++ [109]) ++ more := by simp
  have hlen : (0x1b :: 91 :: (body ++ [109]) : Bytes).length = body.length + 3 := by simp
  rw [hsplit, ← hlen, List.take_left]

/-- A sequence is made of digits and semicolons. -/
theorem Params.mem (P : Params IsNumber body) : ∀ c ∈ body, isdigit c = true ∨ c = 59 :=
  P.forall_mem (fun _ hd c hc => Or.inl (hd.2 c hc)) (Or.inr rfl)

theorem acceptsSequences (hs : ¬StartsLoosely s) : AcceptsSequences s state := by
  rcases parse_cases s state with h | ⟨body, more, rfl, P, hlen⟩
  · refine ⟨?_, ?_, ⟨0, state, h, Int.le_refl 0⟩, ?_⟩
    · intro n state' hn hpos
      rw [h, Option.some.injEq, Prod.mk.injEq] at hn
      omega
    · rintro body more rfl P hlen -
      exact ⟨_, parse_params (P.mono fun _ => IsNumber.loose) hlen⟩
    · intro state' h'
      rw [h, Option.some.injEq, Prod.mk.injEq] at h'
      exact h'.2.symm
  · have hparse : nlTermParseAnsiColor (some (0x1b :: 91 :: (body ++ 109 :: more))) (some state) = _ :=
      parse_params P hlen
    have hnumbers : Params IsNumber body := by
      by_contra hnot
      exact hs ⟨body, more, rfl, P, hnot, hlen⟩
    have hn : ((body.length : Int) + 3).toNat = body.length + 3 := by omega
    refine ⟨?_, ?_, ⟨_, _, hparse, by omega⟩, ?_⟩
    · intro n state' hcall hpos
      rw [hparse, Option.some.injEq, Prod.mk.injEq, Option.some.injEq] at hcall
      obtain ⟨rfl, rfl⟩ := hcall
      rw [hn, take_sequence]
      refine ⟨⟨body, rfl, hnumbers, hlen⟩, ?_⟩
      intro s' hs'
      have hsplit : s' = 0x1b :: 91 :: (body ++ 109 :: s'.drop (body.length + 3)) := by
        rw [← List.take_append_drop (body.length + 3) s', hs']
        simp
      rw [hsplit]
      exact parse_params P hlen
    · rintro body more heq P hlen -
      rw [heq]
      exact ⟨_, parse_params (P.mono fun _ => IsNumber.loose) hlen⟩
    · intro state' h'
      rw [hparse, Option.some.injEq, Prod.mk.injEq] at h'
      omega

theorem not_startsLoosely (A : AcceptsSequences s state) : ¬StartsLoosely s := by
  rintro ⟨body, more, rfl, P, hnot, hlen⟩
  obtain ⟨⟨body', htext, P', -⟩, -⟩ := A.accepts_only _ _ (parse_params P hlen) (by omega)
  have hn : ((body.length : Int) + 3).toNat = body.length + 3 := by omega
  rw [hn, take_sequence] at htext
  simp only [List.cons.injEq, true_and, List.append_cancel_right_eq] at htext
  exact hnot (htext ▸ P')

end

/-- A call keeps to sequences if and only if the string does not start with a number that is not one. -/
theorem acceptsSequences_iff (s : Bytes) (state : TermState) : AcceptsSequences s state ↔ ¬StartsLoosely s :=
  ⟨not_startsLoosely, acceptsSequences⟩

/-- A space in front of the number. -/
theorem not_acceptsSequences_space : ¬∀ s state, AcceptsSequences s state := by
  intro hall
  have hloose : IsLooseNumber (bytes " 1") :=
    ⟨[32], [], [49], rfl, by simp [isspace], by simp, by simp, by simp [isdigit]⟩
  refine not_startsLoosely (hall (0x1b :: 91 :: (bytes " 1" ++ 109 :: [])) nlDefaultTermState)
    ⟨bytes " 1", [], rfl, .last hloose, ?_, by decide⟩
  intro P
  exact absurd (P.mem 32 (by decide)) (by decide)

end Nlutils
