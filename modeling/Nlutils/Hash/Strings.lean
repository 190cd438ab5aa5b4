import Nlutils.Hash.Code

/-! # The strings that a hash stores

Whatever the memory is like, the only strings that storing a pair adds to it are the key and the value. -/

namespace Nlutils
open Lib

/-- The strings of the new memory are those of the old one and some of `ss`. -/
def AddsOnly (ss : List Bytes) (m m' : HashMem) : Prop :=
  ∀ a s, m'.strings.get a = some s → m.strings.get a = some s ∨ s ∈ ss

section
variable {ss : List Bytes} {m m' m'' : HashMem} {alloc : Nat → Bool} {s : Bytes} {a : Addr} {p : Option Addr}

theorem AddsOnly.of_eq (h : m'.strings = m.strings) : AddsOnly ss m m' := fun _ _ hs => Or.inl (h ▸ hs)

theorem AddsOnly.trans (A : AddsOnly ss m m') (A' : AddsOnly ss m' m'') : AddsOnly ss m m'' := by
  intro a s hs
  rcases A' a s hs with hs | hs
  · exact A a s hs
  · exact Or.inr hs

theorem strdup_addsOnly (hs : s ∈ ss) : AddsOnly ss m (m.strdup alloc s).2 := by
  unfold HashMem.strdup
  split
  · intro a t ht
    by_cases ha : a = (m.strings.alloc s).1
    · rw [ha] at ht
      have hst := Heap.get_alloc_self.symm.trans ht
      exact Or.inr (Option.some.inj hst ▸ hs)
    · exact Or.inl ((Heap.get_alloc_ne ha).symm.trans ht)
  · exact .of_eq rfl

theorem mallocEntry_addsOnly : AddsOnly ss m (m.mallocEntry alloc).2 := by
  unfold HashMem.mallocEntry
  split <;> exact .of_eq rfl

theorem setEntry_addsOnly {e : HashEntry} (h : m.setEntry a e = some m') : AddsOnly ss m m' := by
  obtain ⟨entries, -, rfl⟩ := Option.map_eq_some_iff.mp h
  exact .of_eq rfl

theorem freeEntry_addsOnly (h : m.freeEntry a = some m') : AddsOnly ss m m' := by
  obtain ⟨entries, -, rfl⟩ := Option.map_eq_some_iff.mp h
  exact .of_eq rfl

theorem setHash_addsOnly {e : Hash} (h : m.setHash a e = some m') : AddsOnly ss m m' := by
  obtain ⟨hashes, -, rfl⟩ := Option.map_eq_some_iff.mp h
  exact .of_eq rfl

theorem freeString_addsOnly (h : m.freeString p = some m') : AddsOnly ss m m' := by
  cases p with
  | none => exact .of_eq (Option.some.inj h ▸ rfl)
  | some a =>
    obtain ⟨strings, hfree, rfl⟩ := Option.map_eq_some_iff.mp h
    obtain ⟨v, hv, -⟩ := Option.map_eq_some_iff.mp hfree
    obtain ⟨strings', hfree', hnone, hkeep, -⟩ := Heap.free_eq_some hv
    obtain rfl : strings = strings' := Option.some.inj (hfree.symm.trans hfree')
    intro b t ht
    by_cases hb : b = a
    · rw [hb, hnone] at ht
      cases ht
    · exact Or.inl ((hkeep b hb).symm.trans ht)

variable {r : Int} {h : Addr} {key value : Bytes}

theorem hashAdd_addsOnly (hadd : nlHashAdd alloc h key value m = some (r, m')) : AddsOnly [key, value] m m' := by
  have hmalloc : AddsOnly [key, value] m (m.mallocEntry alloc).2 := mallocEntry_addsOnly
  unfold nlHashAdd at hadd
  rcases hentry : m.mallocEntry alloc with ⟨entry, m₁⟩
  rw [hentry] at hadd hmalloc
  cases entry with
  | none =>
    cases hadd
    exact hmalloc
  | some entry =>
    have hkey : AddsOnly [key, value] m (m₁.strdup alloc key).2 := hmalloc.trans (strdup_addsOnly (by simp))
    rcases hk : m₁.strdup alloc key with ⟨k, m₂⟩
    simp only [hk] at hadd hkey
    cases k with
    | none =>
      obtain ⟨m₃, hfree, heq⟩ := Option.bind_eq_some_iff.mp hadd
      cases heq
      exact hkey.trans (freeEntry_addsOnly hfree)
    | some k =>
      obtain ⟨m₃, hset, hadd⟩ := Option.bind_eq_some_iff.mp hadd
      have hvalue : AddsOnly [key, value] m (m₃.strdup alloc value).2 :=
        (hkey.trans (setEntry_addsOnly hset)).trans (strdup_addsOnly (by simp))
      rcases hv : m₃.strdup alloc value with ⟨v, m₄⟩
      simp only [hv] at hadd hvalue
      cases v with
      | none =>
        obtain ⟨m₅, hfree, hadd⟩ := Option.bind_eq_some_iff.mp hadd
        obtain ⟨m₆, hfree', heq⟩ := Option.bind_eq_some_iff.mp hadd
        cases heq
        exact (hvalue.trans (freeString_addsOnly hfree)).trans (freeEntry_addsOnly hfree')
      | some v =>
        obtain ⟨m₅, hset', hadd⟩ := Option.bind_eq_some_iff.mp hadd
        obtain ⟨hash, -, hadd⟩ := Option.bind_eq_some_iff.mp hadd
        obtain ⟨⟨n, fifo⟩, -, hadd⟩ := Option.bind_eq_some_iff.mp hadd
        have hput : AddsOnly [key, value] m { m₅ with fifo := fifo, allocs := m₅.allocs + 1 } :=
          (hvalue.trans (setEntry_addsOnly hset')).trans (.of_eq rfl)
        simp only at hadd
        split at hadd
        · obtain ⟨m₆, hfree, hadd⟩ := Option.bind_eq_some_iff.mp hadd
          obtain ⟨m₇, hfree', hadd⟩ := Option.bind_eq_some_iff.mp hadd
          obtain ⟨m₈, hfree'', heq⟩ := Option.bind_eq_some_iff.mp hadd
          cases heq
          exact ((hput.trans (freeString_addsOnly hfree)).trans (freeString_addsOnly hfree')).trans
            (freeEntry_addsOnly hfree'')
        · obtain ⟨m₆, hcount, heq⟩ := Option.bind_eq_some_iff.mp hadd
          cases heq
          exact hput.trans (setHash_addsOnly hcount)

theorem hashSet_addsOnly (hset : nlHashSet alloc (some h) (some key) (some value) m = some (r, m')) :
    AddsOnly [key, value] m m' := by
  unfold nlHashSet at hset
  obtain ⟨found, -, hset⟩ := Option.bind_eq_some_iff.mp hset
  cases found with
  | none => exact hashAdd_addsOnly hset
  | some entry =>
    have hvalue : AddsOnly [key, value] m (m.strdup alloc value).2 := strdup_addsOnly (by simp)
    rcases hv : m.strdup alloc value with ⟨v, m₁⟩
    simp only [hv] at hset hvalue
    cases v with
    | none =>
      cases hset
      exact hvalue
    | some v =>
      obtain ⟨e, -, hset⟩ := Option.bind_eq_some_iff.mp hset
      obtain ⟨m₂, hentry, hset⟩ := Option.bind_eq_some_iff.mp hset
      obtain ⟨m₃, hfree, heq⟩ := Option.bind_eq_some_iff.mp hset
      cases heq
      exact (hvalue.trans (setEntry_addsOnly hentry)).trans (freeString_addsOnly hfree)

end
end Nlutils
