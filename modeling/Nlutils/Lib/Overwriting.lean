import Mathlib.Data.List.Induction

/-! # Actions that overwrite

An action is overwritten by the next time it is done, whatever has been done in between. Where all actions are like
that, doing a list of them twice is doing it once. -/

namespace Lib
variable {σ α : Type} {act : σ → α → σ} {s t : σ} {a b : α}

structure Overwrites (act : σ → α → σ) : Prop where
  again : ∀ s a, act (act s a) a = act s a
  absorb : ∀ s a b, act (act (act s a) b) a = act (act s b) a

/-- States that an action makes equal stay states that it makes equal. -/
theorem Overwrites.congr (O : Overwrites act) (h : act s a = act t a) : act (act s b) a = act (act t b) a := by
  rw [← O.absorb s a b, h, O.absorb]

theorem Overwrites.congr_foldl (O : Overwrites act) {as : List α} (h : act s a = act t a) :
    act (as.foldl act s) a = act (as.foldl act t) a := by
  induction as generalizing s t with
  | nil => exact h
  | cons b as ih => exact ih (O.congr h)

/-- The last action of the list takes back what doing it before has changed. -/
theorem Overwrites.foldl_foldl (O : Overwrites act) (as : List α) (s : σ) :
    as.foldl act (as.foldl act s) = as.foldl act s := by
  induction as using List.reverseRecOn generalizing s with
  | nil => rfl
  | append_singleton as a ih =>
    simp only [List.foldl_append, List.foldl_cons, List.foldl_nil]
    rw [O.congr_foldl (O.again _ a), ih]

end Lib
