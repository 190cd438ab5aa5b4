import Mathlib.Algebra.Ring.Nat

/-! # Machines and their runs

A machine steps from state to state by actions and refuses an action where it has no step. A run may be
restricted: `Reach ok` holds the states of the runs whose every step meets `ok`, a condition on the state
before the step and on the action. -/

namespace Lib

/-- A machine: where its runs start, and the step of an action (`none` where the action cannot happen). -/
structure Machine (σ α : Type) where
  init : σ
  step : σ → α → Option σ

namespace Machine
variable {σ α : Type} {M : Machine σ α} {ok ok' : σ → α → Prop}

/-- The states of the runs whose every step meets `ok`. -/
inductive Reach (M : Machine σ α) (ok : σ → α → Prop) : σ → Prop
  | init : Reach M ok M.init
  | step {s t : σ} {a : α} : Reach M ok s → ok s a → M.step s a = some t → Reach M ok t

/-- Any step may be taken. -/
def anyStep : σ → α → Prop := fun _ _ => True

theorem Reach.mono (h : ∀ s a, ok s a → ok' s a) {s : σ} (hr : M.Reach ok s) : M.Reach ok' s := by
  induction hr with
  | init => exact .init
  | step _ ho hs ih => exact .step ih (h _ _ ho) hs

theorem Reach.any {s : σ} (hr : M.Reach ok s) : M.Reach anyStep s := hr.mono fun _ _ _ => trivial

/-- What holds at the start and is kept by every step that meets `ok` holds in every state of the run. -/
theorem Reach.invariant {I : σ → Prop} (h0 : I M.init)
    (hs : ∀ s a t, I s → ok s a → M.step s a = some t → I t) {s : σ} (hr : M.Reach ok s) : I s := by
  induction hr with
  | init => exact h0
  | step _ ho h ih => exact hs _ _ _ ih ho h

/-- An invariant whose step uses one already known of the states of these runs. -/
theorem Reach.invariant_with {J I : σ → Prop} (hJ : ∀ s, M.Reach ok s → J s) (h0 : I M.init)
    (hs : ∀ s a t, J s → I s → ok s a → M.step s a = some t → I t) {s : σ} (hr : M.Reach ok s) : I s := by
  induction hr with
  | init => exact h0
  | step h ho h' ih => exact hs _ _ _ (hJ _ h) ih ho h'

/-- An invariant whose step uses one already known of every reachable state. -/
theorem Reach.invariant_of {J I : σ → Prop} (hJ : ∀ s, M.Reach anyStep s → J s) (h0 : I M.init)
    (hs : ∀ s a t, J s → I s → ok s a → M.step s a = some t → I t) {s : σ} (hr : M.Reach ok s) : I s :=
  hr.invariant_with (fun _ h => hJ _ h.any) h0 hs

/-- Steps that bring a measure down come to a state that has none, and what they keep holds there. -/
theorem Reach.exists_last {M : Machine σ Unit} (P : σ → Prop) (m : σ → Nat)
    (hs : ∀ s t, P s → M.step s () = some t → P t ∧ m t < m s) {s : σ} (hr : M.Reach anyStep s) (hP : P s) :
    ∃ t, M.Reach anyStep t ∧ M.step t () = none ∧ P t := by
  induction hn : m s using Nat.strongRecOn generalizing s with
  | ind n ih =>
    cases hstep : M.step s () with
    | none => exact ⟨s, hr, hstep, hP⟩
    | some t =>
      obtain ⟨hPt, hlt⟩ := hs s t hP hstep
      exact ih (m t) (hn ▸ hlt) (hr.step trivial hstep) hPt rfl

/-- The state after a list of actions, if each can happen in turn and passes a check. -/
def run (M : Machine σ α) (check : σ → α → Bool) : σ → List α → Option σ
  | s, [] => some s
  | s, a :: as => if check s a then (M.step s a).bind fun t => M.run check t as else none

theorem reach_of_run {check : σ → α → Bool} (hc : ∀ s a, check s a = true → ok s a) :
    ∀ {as : List α} {s t : σ}, M.Reach ok s → M.run check s as = some t → M.Reach ok t
  | [], s, t, hs, h => by
    simp only [run, Option.some.injEq] at h
    exact h ▸ hs
  | a :: as, s, t, hs, h => by
    unfold run at h
    split at h
    · next ha =>
      obtain ⟨u, hu, h⟩ := Option.bind_eq_some_iff.mp h
      exact reach_of_run hc (hs.step (hc s a ha) hu) h
    · cases h

/-- A list of actions whose last state passes a test reaches a state that passes it. -/
theorem exists_reach_of_run (check : σ → α → Bool) (as : List α) (p : σ → Bool)
    (hc : ∀ s a, check s a = true → ok s a) (h : (M.run check M.init as).any p = true) :
    ∃ s, M.Reach ok s ∧ p s = true := by
  cases hr : M.run check M.init as with
  | none => simp [hr] at h
  | some s => exact ⟨s, reach_of_run hc .init hr, by simpa [hr] using h⟩

end Machine
end Lib
