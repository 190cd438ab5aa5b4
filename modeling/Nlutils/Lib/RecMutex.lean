import Mathlib.Algebra.Ring.Nat

/-! # Recursive mutexes

A recursive mutex is free or held by one thread, which may lock it again; it is free again after as many
unlocks as locks. A thread waits while another one holds the mutex (`canLock`). -/

namespace Lib

/-- A recursive mutex: free, or locked `extra + 1` times by its owner. -/
inductive RecMutex (τ : Type)
  | free
  | held (owner : τ) (extra : Nat)
  deriving DecidableEq, Repr

namespace RecMutex
variable {τ : Type} [DecidableEq τ]

/-- The thread need not wait: the mutex is free or its own. -/
def canLock : RecMutex τ → τ → Bool
  | free, _ => true
  | held o _, t => o = t

/-- The mutex after a thread that need not wait has locked it. -/
def lock : RecMutex τ → τ → RecMutex τ
  | free, t => held t 0
  | held o n, _ => held o (n + 1)

/-- The mutex after its owner has unlocked it once. -/
def unlock : RecMutex τ → RecMutex τ
  | free => free
  | held _ 0 => free
  | held o (n + 1) => held o n

/-- How many times a thread holds the mutex. -/
def depth : RecMutex τ → τ → Nat
  | free, _ => 0
  | held o n, t => if o = t then n + 1 else 0

variable {m : RecMutex τ} {t u : τ}

omit [DecidableEq τ] in
@[simp] theorem unlock_lock : (m.lock t).unlock = m := by cases m <;> rfl

/-- A lock raises the depth of its thread by one. -/
theorem depth_lock_self (h : m.canLock t = true) : (m.lock t).depth t = m.depth t + 1 := by
  cases m with
  | free => simp [lock, depth]
  | held o n =>
    have ho : o = t := by simpa [canLock] using h
    simp [lock, depth, ho]

/-- A lock of one thread leaves the depth of another at zero, as it was. -/
theorem depth_lock_ne (h : m.canLock t = true) (hne : t ≠ u) : (m.lock t).depth u = m.depth u := by
  cases m with
  | free => simp [lock, depth, hne]
  | held o n =>
    have ho : o = t := by simpa [canLock] using h
    simp [lock, depth, ho, hne]

end RecMutex
end Lib
