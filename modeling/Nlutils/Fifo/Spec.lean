import Mathlib.Algebra.Ring.Nat

/-! # The queue that a fifo stands for

`struct nl_fifo` keeps a sequence of data pointers. These are the operations of `fifo.c` on that sequence,
with the results the C functions give: the number of elements is an `unsigned int` that insertions return
as an `int`. -/

namespace Nlutils.FifoSpec
variable {α : Type}

/-- The `int` that an `unsigned int` converts to. -/
def toInt (n : UInt32) : Int := n.toBitVec.toInt

/-- The `count` field of a fifo that holds these elements. -/
def count (xs : List α) : UInt32 := UInt32.ofNat xs.length

def put (mallocOk : Bool) (xs : List α) (x : α) : Int × List α :=
  if mallocOk then (toInt (count (xs ++ [x])), xs ++ [x]) else (-1, xs)

def prepend (mallocOk : Bool) (xs : List α) (x : α) : Int × List α :=
  if mallocOk then (toInt (count (x :: xs)), x :: xs) else (-1, xs)

def get : List α → Option α × List α
  | [] => (none, [])
  | x :: xs => (some x, xs)

def peek (xs : List α) : Option α := xs.head?

def peekLast (xs : List α) : Option α := xs.getLast?

/-- Element `i` from the front, or from the back for a negative `i` (`-1` is the last). -/
def peekIndex (xs : List α) (i : Int) : Option α :=
  let j := if i < 0 then i + xs.length else i
  if j < 0 then none else xs[j.toNat]?

/-- Removes the first occurrence. -/
def remove [DecidableEq α] (xs : List α) (x : α) : Int × List α :=
  if x ∈ xs then (0, xs.erase x) else (-1, xs)

/-- Removes the first `n` elements; they are also what the callback is called with. -/
def removeStart (xs : List α) (n : UInt32) : UInt32 × List α × List α :=
  (count (xs.drop n.toNat), xs.take n.toNat, xs.drop n.toNat)

/-- Removes the last `n` elements; they are also what the callback is called with. -/
def removeEnd (xs : List α) (n : UInt32) : UInt32 × List α × List α :=
  (count (xs.take (xs.length - n.toNat)), xs.drop (xs.length - n.toNat), xs.take (xs.length - n.toNat))

section Counts
variable {xs : List α} {x : α}

theorem toNat_count (h : xs.length < 2 ^ 32) : (count xs).toNat = xs.length := by
  simp only [count, UInt32.toNat_ofNat']
  omega

theorem count_eq_zero_iff (h : xs.length < 2 ^ 32) : count xs = 0 ↔ xs = [] := by
  rw [← UInt32.toNat_inj, toNat_count h, UInt32.toNat_zero, List.length_eq_zero_iff]

/-- Below the sign bit the `int` is the number of elements. -/
theorem toInt_count (h : xs.length < 2 ^ 31) : toInt (count xs) = xs.length := by
  have : (count xs).toBitVec.toNat = xs.length := toNat_count (by omega)
  rw [toInt, BitVec.toInt_eq_toNat_of_lt (by omega), this]

/-- From 2^31 elements up to the end of the range, the `int` is negative. -/
theorem toInt_count_neg (h : 2 ^ 31 ≤ xs.length) (h' : xs.length < 2 ^ 32) : toInt (count xs) < 0 := by
  have : (count xs).toBitVec.toNat = xs.length := toNat_count h'
  rw [toInt, BitVec.toInt_eq_toNat_cond, this]
  split <;> omega

end Counts
end Nlutils.FifoSpec
