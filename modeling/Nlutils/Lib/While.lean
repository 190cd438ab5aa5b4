import Nlutils.Lib.Machine

/-! # While loops

A loop runs for at most a given number of rounds. A measure that every round brings down is a number of rounds
that is enough. -/

namespace Lib
variable {σ : Type} {cond : σ → Bool} {body body' : σ → Option σ} {s t : σ} {n : Nat}

/-- `while (cond) body`; there is no result where the body has none, or when the condition still holds after the
    given number of rounds. -/
def whileLoop (cond : σ → Bool) (body : σ → Option σ) : Nat → σ → Option σ
  | 0, s => if cond s then none else some s
  | n + 1, s => if cond s then (body s).bind (whileLoop cond body n) else some s

/-- The states that a loop goes through. -/
def rounds (cond : σ → Bool) (body : σ → Option σ) (s : σ) : Machine σ Unit where
  init := s
  step t _ := if cond t then body t else none

theorem whileLoop_done (h : cond s = false) : whileLoop cond body n s = some s := by
  cases n <;> simp [whileLoop, h]

/-- What every round keeps holds at the end, and the end is reached when every round brings the measure down. -/
theorem whileLoop_spec (I : σ → Prop) (m : σ → Nat)
    (hround : ∀ s, I s → cond s = true → ∃ t, body s = some t ∧ I t ∧ m t < m s) (hI : I s) (hn : m s ≤ n) :
    ∃ t, whileLoop cond body n s = some t ∧ cond t = false ∧ I t := by
  induction n generalizing s with
  | zero =>
    have hc : ¬cond s = true := by
      intro hc
      obtain ⟨t, -, -, hlt⟩ := hround s hI hc
      omega
    exact ⟨s, by rw [whileLoop, if_neg hc], Bool.not_eq_true _ ▸ hc, hI⟩
  | succ n ih =>
    rw [whileLoop]
    split
    · next hc =>
      obtain ⟨t, ht, hbody, hlt⟩ := hround s hI hc
      rw [ht, Option.bind_some]
      exact ih hbody (by omega)
    · next hc => exact ⟨s, rfl, Bool.not_eq_true _ ▸ hc, hI⟩

/-- What every round keeps holds at the end of a loop that has come to one. -/
theorem whileLoop_invariant (I : σ → Prop) (hround : ∀ s t, I s → cond s = true → body s = some t → I t)
    (hI : I s) (h : whileLoop cond body n s = some t) : I t := by
  induction n generalizing s with
  | zero =>
    rw [whileLoop, Option.ite_none_left_eq_some] at h
    exact Option.some.inj h.2 ▸ hI
  | succ n ih =>
    rw [whileLoop] at h
    split at h
    · next hc =>
      obtain ⟨u, hu, h⟩ := Option.bind_eq_some_iff.mp h
      exact ih (hround s u hI hc hu) h
    · exact Option.some.inj h ▸ hI

/-- Two loops go through the same states when their rounds are the same in all of them. -/
theorem whileLoop_congr (I : σ → Prop)
    (hround : ∀ s, I s → cond s = true → body s = body' s ∧ ∀ t, body' s = some t → I t) (hI : I s) :
    whileLoop cond body n s = whileLoop cond body' n s := by
  induction n generalizing s with
  | zero => rfl
  | succ n ih =>
    rw [whileLoop, whileLoop]
    split
    · next hc =>
      obtain ⟨hbody, hkeep⟩ := hround s hI hc
      rw [hbody]
      cases hs : body' s with
      | none => rfl
      | some t => exact ih (hkeep t hs)
    · rfl

/-- What every round keeps holds in all states of the loop. -/
theorem rounds_invariant (I : σ → Prop) (hround : ∀ s, I s → cond s = true → ∃ t, body s = some t ∧ I t) (hI : I s)
    (h : (rounds cond body s).Reach Machine.anyStep t) : I t := by
  refine h.invariant hI ?_
  intro u _ v hu _ hstep
  simp only [rounds] at hstep
  split at hstep
  · next hc =>
    obtain ⟨v', hv', hI'⟩ := hround u hu hc
    obtain rfl := Option.some.inj (hstep.symm.trans hv')
    exact hI'
  · cases hstep

/-- A round of a state of the loop leads to one. -/
theorem rounds_step (hs : (rounds cond body s).Reach Machine.anyStep t) {u : σ} (hc : cond t = true)
    (hu : body t = some u) :
    (rounds cond body s).Reach Machine.anyStep u := by
  refine hs.step (a := ()) trivial ?_
  rw [← hu]
  exact if_pos hc

end Lib
