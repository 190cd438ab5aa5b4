import Mathlib.Algebra.Ring.Nat
import Mathlib.Data.List.Basic

/-! # Codes that replace each symbol by a word

The code of a list is the words of its symbols, one after the other. What a reader does with one word, it does with
each of them in turn. -/

namespace Lib
variable {α β γ : Type} {w : α → List β} {xs : List α}

/-- A reader that does something with each word and goes on with the rest. -/
theorem read_flatMap {f : List β → γ} {act : α → γ → γ} (xs : List α) (rest : List β)
    (h : ∀ c ∈ xs, ∀ rest, f (w c ++ rest) = act c (f rest)) : f (xs.flatMap w ++ rest) = xs.foldr act (f rest) := by
  induction xs with
  | nil => rfl
  | cons c xs ih =>
    have hxs := ih fun c hc => h c (List.mem_cons_of_mem _ hc)
    rw [List.flatMap_cons, List.append_assoc, h c List.mem_cons_self, hxs]
    rfl

/-- A reader that passes over each word. -/
theorem skip_flatMap {f : List β → γ} (xs : List α) (rest : List β)
    (h : ∀ c ∈ xs, ∀ rest, f (w c ++ rest) = f rest) : f (xs.flatMap w ++ rest) = f rest := by
  have hread : f (xs.flatMap w ++ rest) = xs.foldr (fun _ r => r) (f rest) := read_flatMap xs rest h
  rw [hread, List.foldr_fixed]

/-- Two readings of a list that are of the same length symbol by symbol. -/
theorem flatMap_inj {f g : α → List β} (hlen : ∀ a ∈ xs, (f a).length = (g a).length)
    (h : xs.flatMap f = xs.flatMap g) : ∀ a ∈ xs, f a = g a := by
  induction xs with
  | nil => nofun
  | cons a xs ih =>
    rw [List.flatMap_cons, List.flatMap_cons] at h
    obtain ⟨ha, hxs⟩ := List.append_inj h (hlen a List.mem_cons_self)
    have hrest := ih (fun b hb => hlen b (List.mem_cons_of_mem _ hb)) hxs
    exact List.forall_mem_cons.mpr ⟨ha, hrest⟩

end Lib
