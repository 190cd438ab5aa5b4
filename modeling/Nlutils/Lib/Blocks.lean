import Mathlib.Data.Nat.Notation

/-! # Streams cut into blocks

A state takes in whole blocks of a fixed size. What has come since the last whole block waits until its block is full,
so how a stream is cut into pieces on its way does not matter. -/

namespace Lib

/-- What a state becomes with one more block. -/
structure Absorber (σ α : Type) where
  size : Nat
  pos : 0 < size
  compress : σ → List α → σ

/-- The state after the whole blocks so far, and the elements behind them. -/
structure Absorber.Stream {σ α : Type} (A : Absorber σ α) where
  state : σ
  pending : List α
  short : pending.length < A.size

/-- The blocks of `n` elements at the beginning of a list, `k` of them. -/
def blocks {α : Type} (n : Nat) : Nat → List α → List (List α)
  | 0, _ => []
  | k + 1, xs => xs.take n :: blocks n k (xs.drop n)

section
variable {σ α : Type} {A : Absorber σ α} {s : A.Stream} {xs ys : List α} {n k : Nat}

theorem blocks_flatten : (blocks n k xs).flatten = xs.take (n * k) := by
  induction k generalizing xs with
  | zero => rfl
  | succ k ih =>
    rw [blocks, List.flatten_cons, ih, Nat.mul_succ, Nat.add_comm, List.take_add]

theorem length_of_mem_blocks (hlen : n * k ≤ xs.length) {b : List α} (hb : b ∈ blocks n k xs) : b.length = n := by
  induction k generalizing xs with
  | zero => cases hb
  | succ k ih =>
    rw [Nat.mul_succ] at hlen
    rcases List.mem_cons.mp hb with rfl | hb
    · exact List.length_take_of_le (by omega)
    · exact ih (by rw [List.length_drop]; omega) hb

/-- Blocks that are replaced by others of their size. -/
theorem length_flatMap_blocks {f : List α → List α} (hf : ∀ b, (f b).length = n) :
    ((blocks n k xs).flatMap f).length = n * k := by
  induction k generalizing xs with
  | zero => rfl
  | succ k ih =>
    rw [blocks, List.flatMap_cons, List.length_append, ih, hf, Nat.mul_succ, Nat.add_comm]

theorem flatMap_blocks_at {f : List α → List α} (hf : ∀ b, (f b).length = n) {i : Nat} (hi : i < k) :
    (((blocks n k xs).flatMap f).drop (n * i)).take n = f ((xs.drop (n * i)).take n) := by
  induction i generalizing xs k with
  | zero =>
    obtain ⟨k, rfl⟩ : ∃ m, k = m + 1 := ⟨k - 1, by omega⟩
    rw [blocks, List.flatMap_cons, Nat.mul_zero, List.drop_zero, List.drop_zero, List.take_left' (hf _)]
  | succ i ih =>
    obtain ⟨k, rfl⟩ : ∃ m, k = m + 1 := ⟨k - 1, by omega⟩
    rw [blocks, List.flatMap_cons, Nat.mul_succ, Nat.add_comm (n * i), ← List.drop_drop, List.drop_left' (hf _),
      ih (by omega), List.drop_drop]

namespace Absorber

/-- Nothing has come yet. -/
def start (A : Absorber σ α) (init : σ) : A.Stream := ⟨init, [], A.pos⟩

def push (s : A.Stream) (x : α) : A.Stream :=
  if h : s.pending.length + 1 < A.size then ⟨s.state, s.pending ++ [x], by simpa using h⟩
  else ⟨A.compress s.state (s.pending ++ [x]), [], A.pos⟩

def feed (s : A.Stream) (xs : List α) : A.Stream := xs.foldl push s

/-- It does not matter where a stream is cut. -/
theorem feed_append : feed s (xs ++ ys) = feed (feed s xs) ys := List.foldl_append ..

/-- Elements that do not fill a block wait. -/
theorem feed_short (h : s.pending.length + xs.length < A.size) :
    (feed s xs).state = s.state ∧ (feed s xs).pending = s.pending ++ xs := by
  induction xs generalizing s with
  | nil => exact ⟨rfl, (List.append_nil _).symm⟩
  | cons x xs ih =>
    rw [List.length_cons] at h
    have hpush : (push s x).state = s.state ∧ (push s x).pending = s.pending ++ [x] := by
      rw [push, dif_pos (by omega)]
      exact ⟨rfl, rfl⟩
    have hroom : (push s x).pending.length + xs.length < A.size := by
      rw [hpush.2, List.length_append, List.length_singleton]
      omega
    obtain ⟨hstate, hpending⟩ := ih hroom
    rw [hpush.1] at hstate
    rw [hpush.2, List.append_assoc] at hpending
    exact ⟨hstate, hpending⟩

/-- Elements that fill the block that is waiting. -/
theorem feed_full (h : s.pending.length + xs.length = A.size) :
    feed s xs = A.start (A.compress s.state (s.pending ++ xs)) := by
  have hs := s.short
  obtain ⟨ys, x, rfl⟩ : ∃ ys x, xs = ys ++ [x] := by
    rcases List.eq_nil_or_concat xs with rfl | ⟨ys, x, rfl⟩
    · simp at h
      omega
    · exact ⟨ys, x, List.concat_eq_append⟩
  rw [List.length_append, List.length_singleton] at h
  have hroom : s.pending.length + ys.length < A.size := by omega
  obtain ⟨hstate, hpending⟩ := feed_short hroom
  have hlast : ¬(feed s ys).pending.length + 1 < A.size := by
    rw [hpending, List.length_append]
    omega
  rw [feed_append]
  show push (feed s ys) x = _
  rw [push, dif_neg hlast, hstate, hpending, List.append_assoc]
  rfl

/-- Whole blocks are taken in one after another. -/
theorem feed_blocks {init : σ} {bs : List (List α)} (hbs : ∀ b ∈ bs, b.length = A.size) :
    feed (A.start init) bs.flatten = A.start (bs.foldl A.compress init) := by
  induction bs generalizing init with
  | nil => rfl
  | cons b bs ih =>
    have hb := hbs b (List.mem_cons_self ..)
    have hfull : feed (A.start init) b = A.start (A.compress init b) := feed_full ((Nat.zero_add _).trans hb)
    rw [List.flatten_cons, feed_append, hfull, ih fun c hc => hbs c (List.mem_cons_of_mem _ hc)]
    rfl

theorem length_pending (xs : List α) : (feed s xs).pending.length = (s.pending.length + xs.length) % A.size := by
  induction xs generalizing s with
  | nil => exact (Nat.mod_eq_of_lt s.short).symm
  | cons x xs ih =>
    have hpush : (push s x).pending.length = (s.pending.length + 1) % A.size := by
      have hs := s.short
      rw [push]
      split
      · next h =>
        rw [Nat.mod_eq_of_lt h]
        exact List.length_append
      · next h =>
        have hsize : s.pending.length + 1 = A.size := by omega
        rw [hsize, Nat.mod_self]
        rfl
    show (feed (push s x) xs).pending.length = _
    rw [ih, hpush, Nat.mod_add_mod, List.length_cons, Nat.add_assoc, Nat.add_comm 1]

end Absorber
end

end Lib
