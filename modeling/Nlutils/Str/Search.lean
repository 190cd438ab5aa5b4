import Nlutils.Bytes

/-! # Bounded search (`nl_strnpbrk` of `str.c`)

The memory that may be read is given by its bytes, and there is no result where the code reads past the last of them. -/

namespace Nlutils

/-- The inner loop of `nl_strnpbrk`, over the rest of `accept`. -/
def acceptLoop (c : Byte) : Bytes → Bool
  | [] => false
  | a :: accept => if c = a then true else acceptLoop c accept

/-- The loop of `nl_strnpbrk`, with the memory from `str + count` on. -/
def strnpbrkLoop (accept : Bytes) (size : Nat) : Bytes → Nat → Option (Option Nat)
  | [], _ => none
  | c :: mem, count =>
    -- The byte is read before the count is looked at.
    if c ≠ 0 ∧ count < size then
      if acceptLoop c accept then some (some count) else strnpbrkLoop accept size mem (count + 1)
    else some none

/-- The offset of the pointer that is returned, or `none` for NULL. -/
def nlStrnpbrk (str accept : Bytes) (size : Nat) : Option (Option Nat) := strnpbrkLoop accept size str 0

/-- The first position before the first zero byte whose byte is in `accept`. -/
def firstAccepted (buf accept : Bytes) : Option Nat := (buf.takeWhile (· ≠ 0)).findIdx? (· ∈ accept)

section
variable {buf more accept : Bytes} {c : Byte} {size count : Nat}

theorem acceptLoop_eq : acceptLoop c accept = decide (c ∈ accept) := by
  induction accept with
  | nil => simp [acceptLoop]
  | cons a accept ih =>
    rw [acceptLoop, ih]
    by_cases h : c = a <;> simp [h]

/-- The loop on a buffer with more memory behind it: it needs that memory if nothing in the buffer stops it. -/
theorem strnpbrkLoop_eq (hsize : size = count + buf.length) : strnpbrkLoop accept size (buf ++ more) count =
    if (∃ c ∈ buf, c = 0 ∨ c ∈ accept) ∨ more ≠ [] then some ((firstAccepted buf accept).map (· + count))
    else none := by
  induction buf generalizing count with
  | nil =>
    cases more with
    | nil => rfl
    | cons c more => simp [strnpbrkLoop, hsize, firstAccepted]
  | cons c buf ih =>
    have hlt : count < size := by
      rw [hsize, List.length_cons]
      omega
    rw [List.cons_append, strnpbrkLoop, acceptLoop_eq]
    by_cases hz : c = 0
    · simp [hz, firstAccepted]
    · by_cases ha : c ∈ accept
      · simp [hz, ha, hlt, firstAccepted, List.findIdx?_cons]
      · have hsize' : size = count + 1 + buf.length := by
          rw [hsize, List.length_cons]
          omega
        have hrest := ih hsize'
        have hfirst : firstAccepted (c :: buf) accept = (firstAccepted buf accept).map (· + 1) := by
          simp [firstAccepted, hz, ha, List.findIdx?_cons]
        have hadd : ((· + count) ∘ (· + 1) : Nat → Nat) = (· + (count + 1)) := by
          funext n
          exact Nat.add_right_comm n 1 count
        simp only [hz, ha, hlt, ne_eq, not_false_eq_true, and_self, if_true, decide_false, Bool.false_eq_true, if_false,
          hrest, hfirst, Option.map_map, hadd, List.mem_cons, exists_eq_or_imp, or_self, false_or]

end

/-- On a buffer of exactly `size` bytes, the result is the first position if and only if some byte of the buffer is zero
    or in `accept`; otherwise the code reads the byte behind the buffer. -/
theorem nlStrnpbrk_iff (buf accept : Bytes) :
    nlStrnpbrk buf accept buf.length = some (firstAccepted buf accept) ↔ ∃ c ∈ buf, c = 0 ∨ c ∈ accept := by
  have hloop : strnpbrkLoop accept buf.length (buf ++ []) 0 = _ := strnpbrkLoop_eq (Nat.zero_add _).symm
  rw [List.append_nil] at hloop
  have hzero : (fun n => n + 0 : Nat → Nat) = id := rfl
  rw [nlStrnpbrk, hloop, hzero, Option.map_id_fun, id]
  by_cases h : ∃ c ∈ buf, c = 0 ∨ c ∈ accept
  · simp only [h, true_or, if_true]
  · simp [h]

/-- An empty buffer. -/
theorem not_nlStrnpbrk : ¬∀ buf accept : Bytes, nlStrnpbrk buf accept buf.length = some (firstAccepted buf accept) := by
  intro hall
  cases hall [] [97]

/-- With one more byte behind the buffer there always is a result. -/
theorem nlStrnpbrk_behind (buf accept more : Bytes) (c : Byte) :
    nlStrnpbrk (buf ++ c :: more) accept buf.length = some (firstAccepted buf accept) := by
  rw [nlStrnpbrk, strnpbrkLoop_eq (Nat.zero_add _).symm, if_pos (Or.inr (List.cons_ne_nil _ _))]
  exact congrArg some Option.map_id'

end Nlutils
