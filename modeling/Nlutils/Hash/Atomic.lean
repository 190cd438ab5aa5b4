import Nlutils.Hash.Refinement
import Nlutils.Lib.Machine

/-! # All or nothing

Any number of hashes are made, changed, copied and destroyed, while the allocations fail in any pattern. -/

namespace Nlutils
open Lib

/-- A call on the `i`-th of the hashes that there are, and on `NULL` if there is none. `nl_hash_parse` calls
    `nl_hash_set`. -/
inductive HashCall
  | create
  | set (i : Nat) (key value : Bytes)
  | remove (i : Nat) (key : Bytes)
  | clear (i : Nat)
  | clone (i : Nat)
  | destroy (i : Nat)

/-- The call of the C function. -/
def HashCall.step (alloc : Nat → Bool) (s : Hashes) : HashCall → Option Hashes
  | create => (nlHashCreate alloc s.mem).map fun r => ⟨s.ptrs ++ r.1.toList, r.2⟩
  | set i k v => (nlHashSet alloc s.ptrs[i]? (some k) (some v) s.mem).map fun r => ⟨s.ptrs, r.2⟩
  | remove i k => (nlHashRemove s.ptrs[i]? (some k) s.mem).map fun r => ⟨s.ptrs, r.2⟩
  | clear i => (nlHashClear s.ptrs[i]? s.mem).map fun r => ⟨s.ptrs, r⟩
  | clone i => (nlHashClone alloc s.ptrs[i]? s.mem).map fun r => ⟨s.ptrs ++ r.1.toList, r.2⟩
  | destroy i => (nlHashDestroy s.ptrs[i]? s.mem).map fun r => ⟨s.ptrs.eraseIdx i, r⟩

def hashCalls (alloc : Nat → Bool) : Machine Hashes HashCall := ⟨{}, HashCall.step alloc⟩

/-- The hash at `p` has 2^31 - 1 entries, none of them with this key, and there is memory for one more. -/
structure Overfills (alloc : Nat → Bool) (m : HashMem) (p : Addr) (key : Bytes) : Prop where
  full : ∃ h, m.hashes.get p = some h ∧ h.count = 2 ^ 31 - 1
  new : nlHashGet (some p) (some key) m = some none
  memory : Allocates alloc m 4

/-- The call adds no entry to a hash with 2^31 - 1 entries. -/
def HashCall.Fits (alloc : Nat → Bool) (s : Hashes) (call : HashCall) : Prop :=
  ∀ i key value p, call = .set i key value → s.ptrs[i]? = some p → ¬Overfills alloc s.mem p key

/-- `nl_hash_set` sets the key in the `i`-th hash, or everything stays as it was. -/
def SetAtomic (alloc : Nat → Bool) (s : Hashes) (σ : List History) (i : Nat) (key value : Bytes) : Prop :=
  ∃ r m', nlHashSet alloc s.ptrs[i]? (some key) (some value) s.mem = some (r, m') ∧
    (r = 0 ∧ AllBehave ⟨s.ptrs, m'⟩ (σ.modify i (· ++ [.set key value])) ∨
      r = -1 ∧ AllBehave ⟨s.ptrs, m'⟩ σ ∧ SameCells s.mem m')

/-- `nl_hash_clone` makes another hash with the map of the `i`-th one, or everything stays as it was. -/
def CloneAtomic (alloc : Nat → Bool) (s : Hashes) (σ : List History) (i : Nat) : Prop :=
  ∃ r m', nlHashClone alloc s.ptrs[i]? s.mem = some (r, m') ∧
    ((∃ p, r = some p ∧ AllBehave ⟨s.ptrs ++ [p], m'⟩ (σ ++ [historyAt σ i])) ∨
      r = none ∧ AllBehave ⟨s.ptrs, m'⟩ σ ∧ SameCells s.mem m')

/-- From the maps that the hashes are, each of the two calls leads to those that it is to lead to, or to the same. -/
def HashAtomic (alloc : Nat → Bool) (s : Hashes) (i : Nat) (key value : Bytes) : Prop :=
  ∃ σ, AllBehave s σ ∧ SetAtomic alloc s σ i key value ∧ CloneAtomic alloc s σ i

section
variable {alloc : Nat → Bool} {s s' : Hashes} {m' : HashMem} {σ : List History} {hs : List HashAt} {a : HashAt}
  {i : Nat} {p : Addr} {key value : Bytes} {call : HashCall}

theorem HashesRep.same (S : HashesRep s σ hs) (C : SameCells s.mem m') : HashesRep ⟨s.ptrs, m'⟩ σ hs where
  ptrs := S.ptrs
  length := S.length
  each j b es hb hes :=
    have I := S.each j b es hb hes
    ⟨I.rep.same C, I.map, I.small⟩
  apart := S.apart

theorem HashesRep.lt_of_ptr (S : HashesRep s σ hs) (hp : s.ptrs[i]? = some p) : i < σ.length := by
  by_contra hi
  rw [S.ptr_none hi] at hp
  cases hp

/-- Where the `j`-th element was before the `i`-th one was taken out. -/
theorem getElem?_eraseIdx_eq {α : Type} (l : List α) (i j : Nat) :
    (l.eraseIdx i)[j]? = l[if j < i then j else j + 1]? := by
  rw [List.getElem?_eraseIdx]
  split <;> rfl

/-- One hash is gone. -/
theorem HashesRep.erase (S : HashesRep s σ hs) (ha : hs[i]? = some a) (C : Changes a.h a.t a.slots [] s.mem m') :
    HashesRep ⟨s.ptrs.eraseIdx i, m'⟩ (σ.eraseIdx i) (hs.eraseIdx i) := by
  have hne : ∀ j, i ≠ if j < i then j else j + 1 := by
    intro j
    split <;> omega
  refine ⟨?_, ?_, ?_, ?_⟩
  · rw [S.ptrs, List.eraseIdx_map]
  · rw [List.length_eraseIdx, List.length_eraseIdx, S.length]
  · intro j b es hb hes
    rw [getElem?_eraseIdx_eq] at hb hes
    exact (S.each _ b es hb hes).frame C (S.apart i _ a b (hne j) ha hb)
  · intro j k b c hjk hb hc
    rw [getElem?_eraseIdx_eq] at hb hc
    refine S.apart _ _ b c ?_ hb hc
    split <;> split <;> omega

/-! ### What the calls do -/

theorem set_spec (value : Bytes) (S : HashesRep s σ hs) (hi : i < σ.length)
    (hfit : ∀ p, s.ptrs[i]? = some p → ¬Overfills alloc s.mem p key) :
    ∃ r m', nlHashSet alloc s.ptrs[i]? (some key) (some value) s.mem = some (r, m') ∧
      ((r = 0 ∧ ∃ hs', HashesRep ⟨s.ptrs, m'⟩ (σ.modify i (· ++ [.set key value])) hs') ∨
        r = -1 ∧ SameCells s.mem m') := by
  obtain ⟨a, ha, hptr, -, I⟩ := S.get hi
  rw [hptr]
  have hroom : key ∉ (OrderedMap.ofEdits (historyAt σ i)).keys →
      (OrderedMap.ofEdits (historyAt σ i)).size + 1 < 2 ^ 31 ∨ ¬Allocates alloc s.mem 4 := by
    intro hkey
    by_cases hsize : (OrderedMap.ofEdits (historyAt σ i)).size + 1 < 2 ^ 31
    · exact Or.inl hsize
    · have hfull : a.slots.length = 2 ^ 31 - 1 := by
        have hsmall := I.small
        rw [I.map.size] at hsize
        omega
      refine Or.inr fun hmem => hfit a.h hptr ⟨⟨_, I.rep.hash, hfull⟩, ?_, hmem⟩
      rw [hashGet_rep I.rep I.map (lt_uint I.small), OrderedMap.get_eq_none.mpr hkey]
  rcases hashSet_cases value I.rep I.map I.small hroom with ⟨m', xs, hset, R, hmap, hsmall, C⟩ | ⟨m', hset, C⟩
  · refine ⟨0, m', hset, Or.inl ⟨rfl, _, S.change ha C ⟨R, ?_, hsmall⟩⟩⟩
    rw [OrderedMap.ofEdits_append]
    exact hmap
  · exact ⟨-1, m', hset, Or.inr ⟨rfl, C⟩⟩

theorem clone_spec (alloc : Nat → Bool) (S : HashesRep s σ hs) (hi : i < σ.length) :
    ∃ r m', nlHashClone alloc s.ptrs[i]? s.mem = some (r, m') ∧
      ((∃ p hs', r = some p ∧ HashesRep ⟨s.ptrs ++ [p], m'⟩ (σ ++ [historyAt σ i]) hs') ∨
        r = none ∧ SameCells s.mem m') := by
  obtain ⟨a, ha, hptr, -, I⟩ := S.get hi
  rw [hptr]
  rcases hashClone_cases alloc I.rep I.map I.small with
    ⟨h, t, m', xs, hclone, R, hmap, C, hapart, -⟩ | ⟨-, m', hclone, C⟩
  · have hsmall : xs.length < 2 ^ 31 := by
      rw [← hmap.size, I.map.size]
      exact I.small
    exact ⟨some h, m', hclone, Or.inl ⟨h, _, rfl, S.add C hapart ⟨R, hmap, hsmall⟩⟩⟩
  · exact ⟨none, m', hclone, Or.inr ⟨rfl, C⟩⟩

/-- Each call keeps every hash a map, if it fits. -/
theorem hashCall_step_rep (S : HashesRep s σ hs) (hfit : call.Fits alloc s) (hstep : call.step alloc s = some s') :
    ∃ σ' hs', HashesRep s' σ' hs' := by
  cases call with
  | create =>
    obtain ⟨⟨r, m'⟩, hcreate, rfl⟩ := Option.map_eq_some_iff.mp hstep
    rcases hashCreate_cases alloc s.mem with ⟨-, hmade⟩ | ⟨-, m'', hfail, C⟩
    · obtain ⟨h, t, m'', hcreate', R, C, hapart⟩ := hashCreate_rep s.mem
      obtain ⟨rfl, rfl⟩ : r = some h ∧ m' = m'' := by simpa using hcreate.symm.trans (hmade.trans hcreate')
      have I : HashIs m' ⟨h, t, []⟩ [] := ⟨R, rfl, Nat.zero_lt_succ _⟩
      exact ⟨_, _, S.add C hapart I⟩
    · obtain ⟨rfl, rfl⟩ : r = none ∧ m' = m'' := by simpa using hcreate.symm.trans hfail
      exact ⟨σ, hs, by simpa using S.same C⟩
  | set i k v =>
    obtain ⟨⟨r, m'⟩, hset, rfl⟩ := Option.map_eq_some_iff.mp hstep
    by_cases hi : i < σ.length
    · obtain ⟨r', m'', hset', hcases⟩ := set_spec v S hi fun p => hfit i k v p rfl
      obtain ⟨rfl, rfl⟩ : r = r' ∧ m' = m'' := by simpa using hset.symm.trans hset'
      rcases hcases with ⟨-, hs', S'⟩ | ⟨-, C⟩
      · exact ⟨_, hs', S'⟩
      · exact ⟨σ, hs, S.same C⟩
    · obtain ⟨-, rfl⟩ : -1 = r ∧ s.mem = m' := by simpa [S.ptr_none hi, nlHashSet] using hset
      exact ⟨σ, hs, S⟩
  | remove i k =>
    obtain ⟨⟨r, m'⟩, hremove, rfl⟩ := Option.map_eq_some_iff.mp hstep
    obtain ⟨m'', hs', hremove', S'⟩ := S.remove i k
    obtain ⟨-, rfl⟩ := Prod.mk.inj (Option.some.inj (hremove.symm.trans hremove'))
    exact ⟨_, hs', S'⟩
  | clear i =>
    obtain ⟨m', hclear, rfl⟩ := Option.map_eq_some_iff.mp hstep
    obtain ⟨m'', hs', hclear', S'⟩ := S.clear i
    obtain rfl := Option.some.inj (hclear.symm.trans hclear')
    exact ⟨_, hs', S'⟩
  | clone i =>
    obtain ⟨⟨r, m'⟩, hclone, rfl⟩ := Option.map_eq_some_iff.mp hstep
    by_cases hi : i < σ.length
    · obtain ⟨r', m'', hclone', hcases⟩ := clone_spec alloc S hi
      obtain ⟨rfl, rfl⟩ : r = r' ∧ m' = m'' := by simpa using hclone.symm.trans hclone'
      rcases hcases with ⟨p, hs', rfl, S'⟩ | ⟨rfl, C⟩
      · exact ⟨_, hs', S'⟩
      · exact ⟨σ, hs, by simpa using S.same C⟩
    · obtain ⟨rfl, rfl⟩ : none = r ∧ s.mem = m' := by simpa [S.ptr_none hi, nlHashClone] using hclone
      exact ⟨σ, hs, by simpa using S⟩
  | destroy i =>
    obtain ⟨m', hdestroy, rfl⟩ := Option.map_eq_some_iff.mp hstep
    by_cases hi : i < σ.length
    · obtain ⟨a, ha, hptr, -, I⟩ := S.get hi
      obtain ⟨m'', hdestroy', C, -⟩ := hashDestroy_rep I.rep (lt_uint I.small)
      rw [hptr] at hdestroy
      obtain rfl := Option.some.inj (hdestroy.symm.trans hdestroy')
      exact ⟨_, _, S.erase ha C⟩
    · have hptr := S.ptr_none hi
      obtain rfl : s.mem = m' := by simpa [hptr, nlHashDestroy] using hdestroy
      rw [List.eraseIdx_of_length_le (List.getElem?_eq_none_iff.mp hptr)]
      exact ⟨σ, hs, S⟩

theorem rep_of_reach (hr : (hashCalls alloc).Reach (HashCall.Fits alloc) s) : ∃ σ hs, HashesRep s σ hs := by
  refine hr.invariant (I := fun s => ∃ σ hs, HashesRep s σ hs) ⟨[], [], .init⟩ ?_
  rintro s call s' ⟨σ, hs, S⟩ hfit hstep
  exact hashCall_step_rep S hfit hstep

/-- The new entry stays in the table, although the result is -1. -/
theorem not_setAtomic (value : Bytes) (S : HashesRep s σ hs) (hp : s.ptrs[i]? = some p)
    (ho : Overfills alloc s.mem p key) (σ' : List History) : ¬SetAtomic alloc s σ' i key value := by
  obtain ⟨a, -, hptr, -, I⟩ := S.get (S.lt_of_ptr hp)
  obtain rfl : a.h = p := Option.some.inj (hptr.symm.trans hp)
  have hfull : a.slots.length = 2 ^ 31 - 1 := by
    obtain ⟨h, hh, hcount⟩ := ho.full
    obtain rfl := Option.some.inj (I.rep.hash.symm.trans hh)
    exact hcount
  have hkey : key ∉ a.slots.map (·.key) := by
    have hget := (hashGet_rep I.rep I.map (lt_uint I.small)).symm.trans ho.new
    rw [← I.map.keys]
    exact OrderedMap.get_eq_none.mp (Option.some.inj hget)
  obtain ⟨m', hset, -, R, -⟩ := hashSet_full value ho.memory I.rep (by omega) (by omega) hkey
  rw [← hptr] at hset
  rintro ⟨r, m'', hset', hcases⟩
  obtain ⟨rfl, rfl⟩ : -1 = r ∧ m' = m'' := by simpa using hset.symm.trans hset'
  rcases hcases with ⟨hr, -⟩ | ⟨-, -, C⟩
  · cases hr
  · -- The table has one entry more than before.
    have hfifo := R.fifo
    rw [C.fifos, I.rep.table.fifo] at hfifo
    have hcount : FifoSpec.count (a.slots.map Slot.node) = _ := (Fifo.mk.inj (Option.some.inj hfifo)).2.2
    have hlen := congrArg UInt32.toNat hcount
    rw [FifoSpec.toNat_count (by rw [List.length_map]; omega), FifoSpec.toNat_count (by simp [hfull])] at hlen
    simp at hlen

end

/-- In a run in which no call adds an entry to a hash with 2^31 - 1 entries, setting a key is all or nothing unless it
    would be such a call, and copying always is. -/
theorem hashAtomic_iff (alloc : Nat → Bool) (s : Hashes) (hr : (hashCalls alloc).Reach (HashCall.Fits alloc) s)
    (i : Nat) (p : Addr) (hp : s.ptrs[i]? = some p) (key value : Bytes) :
    HashAtomic alloc s i key value ↔ ¬Overfills alloc s.mem p key := by
  obtain ⟨σ, hs, S⟩ := rep_of_reach hr
  have hi := S.lt_of_ptr hp
  constructor
  · rintro ⟨σ', -, hset, -⟩ ho
    exact not_setAtomic value S hp ho σ' hset
  · intro hfit
    have hfit' : ∀ q, s.ptrs[i]? = some q → ¬Overfills alloc s.mem q key := by
      intro q hq
      rwa [← Option.some.inj (hp.symm.trans hq)]
    refine ⟨σ, S.allBehave, ?_, ?_⟩
    · obtain ⟨r, m', hset, hcases⟩ := set_spec value S hi hfit'
      refine ⟨r, m', hset, ?_⟩
      rcases hcases with ⟨hr, hs', S'⟩ | ⟨hr, C⟩
      · exact Or.inl ⟨hr, S'.allBehave⟩
      · exact Or.inr ⟨hr, (S.same C).allBehave, C⟩
    · obtain ⟨r, m', hclone, hcases⟩ := clone_spec alloc S hi
      refine ⟨r, m', hclone, ?_⟩
      rcases hcases with ⟨q, hs', hr, S'⟩ | ⟨hr, C⟩
      · exact Or.inl ⟨q, hr, S'.allBehave⟩
      · exact Or.inr ⟨hr, (S.same C).allBehave, C⟩

/-- There is memory for an empty hash, an entry and its key, and for no value. -/
theorem hashAtomic_iff_empty : ∃ s, (hashCalls (· < 4)).Reach (HashCall.Fits (· < 4)) s ∧ s.ptrs[0]? = some 0 ∧
    (HashAtomic (· < 4) s 0 [97] [49] ↔ ¬Overfills (· < 4) s.mem 0 [97]) := by
  have hr : (hashCalls (· < 4)).Reach (HashCall.Fits (· < 4)) ⟨[0], HashMem.withHash {}⟩ :=
    .step (a := .create) .init (fun _ _ _ _ h => by cases h) rfl
  exact ⟨_, hr, rfl, hashAtomic_iff (· < 4) _ hr 0 0 rfl [97] [49]⟩

/-! ### A hash with 2^31 - 1 entries -/

theorem fillHistory_succ {n : Nat} : fillHistory (n + 1) = fillHistory n ++ [.set (keyOf n) [49]] := by
  rw [fillHistory, List.range_succ, List.map_append, List.map_append]
  rfl

/-- A hash that is filled with the keys of the first `n` numbers. -/
theorem reach_fill {n : Nat} (hn : n ≤ 2 ^ 31 - 1) :
    ∃ s hs, (hashCalls allocated).Reach (HashCall.Fits allocated) s ∧ HashesRep s [fillHistory n] hs := by
  induction n with
  | zero =>
    obtain ⟨h, t, m, hcreate, R, C, hapart⟩ := hashCreate_rep {}
    have I : HashIs m ⟨h, t, []⟩ (fillHistory 0) := ⟨R, rfl, Nat.zero_lt_succ _⟩
    refine ⟨⟨[h], m⟩, _, .step (a := .create) .init (fun _ _ _ _ h => by cases h) ?_, HashesRep.init.add C hapart I⟩
    simp [hashCalls, HashCall.step, hcreate]
  | succ n ih =>
    obtain ⟨s, hs, hr, S⟩ := ih (Nat.le_of_succ_le hn)
    obtain ⟨a, ha, hptr, -, I⟩ := S.get (i := 0) Nat.one_pos
    have hhist : historyAt [fillHistory n] 0 = fillHistory n := rfl
    rw [hhist] at I
    have hsize := size_fillHistory (n := n) (by omega)
    have hnew := keyOf_not_mem (n := n) (by omega)
    have hlen : ((OrderedMap.ofEdits (fillHistory n)).set (keyOf n) [49]).size < 2 ^ 31 := by
      rw [OrderedMap.size_set_new hnew, hsize]
      omega
    obtain ⟨m, xs, hset, R, hmap, C⟩ := hashSet_rep I.rep I.map hlen
    have hsmall : xs.length < 2 ^ 31 := hmap.size ▸ hlen
    rw [← hhist] at hmap
    have I' : HashIs m ⟨a.h, a.t, xs⟩ (historyAt [fillHistory n] 0 ++ [.set (keyOf n) [49]]) := by
      refine ⟨R, ?_, hsmall⟩
      rw [OrderedMap.ofEdits_append]
      exact hmap
    have S' := S.change ha C I'
    have hmod : [fillHistory n].modify 0 (· ++ [.set (keyOf n) [49]]) = [fillHistory (n + 1)] := by
      rw [fillHistory_succ]
      rfl
    rw [hmod] at S'
    refine ⟨⟨s.ptrs, m⟩, _, .step (a := .set 0 (keyOf n) [49]) hr ?_ ?_, S'⟩
    · -- There are only `n` entries.
      rintro i key value p hcall hp ho
      cases hcall
      obtain rfl : a.h = p := Option.some.inj (hptr.symm.trans hp)
      obtain ⟨h, hh, hcount⟩ := ho.full
      obtain rfl := Option.some.inj (I.rep.hash.symm.trans hh)
      have hslots : a.slots.length = n := I.map.size ▸ hsize
      simp only [hslots] at hcount
      omega
    · simp [hashCalls, HashCall.step, hptr, hset]

theorem fill_notAtomic {n : Nat} (hn : n = 2 ^ 31 - 1) :
    ∃ s p h, (hashCalls allocated).Reach (HashCall.Fits allocated) s ∧ s.ptrs[0]? = some p ∧
      s.mem.hashes.get p = some h ∧ h.count < 2 ^ 31 ∧ ¬HashAtomic allocated s 0 (keyOf n) [49] := by
  obtain ⟨s, hs, hr, S⟩ := reach_fill (Nat.le_of_eq hn)
  obtain ⟨a, -, hptr, -, I⟩ := S.get (i := 0) Nat.one_pos
  have hhist : historyAt [fillHistory n] 0 = fillHistory n := rfl
  rw [hhist] at I
  have hslots : a.slots.length = n := I.map.size ▸ size_fillHistory (by omega)
  have ho : Overfills allocated s.mem a.h (keyOf n) := by
    refine ⟨⟨_, I.rep.hash, hslots.trans hn⟩, ?_, fun _ _ => rfl⟩
    rw [hashGet_rep I.rep I.map (lt_uint I.small), OrderedMap.get_eq_none.mpr (keyOf_not_mem (by omega))]
  refine ⟨s, a.h, _, hr, hptr, I.rep.hash, I.small, ?_⟩
  rintro ⟨σ, -, hset, -⟩
  exact not_setAtomic [49] S hptr ho σ hset

/-- After 2^31 - 1 of the keys, with memory for all, the next one is refused and yet in the table. -/
theorem not_hashAtomic_fill : ∃ s p h, (hashCalls allocated).Reach (HashCall.Fits allocated) s ∧
    s.ptrs[0]? = some p ∧ s.mem.hashes.get p = some h ∧ h.count < 2 ^ 31 ∧
    ¬HashAtomic allocated s 0 (keyOf (2 ^ 31 - 1)) [49] := fill_notAtomic rfl

end Nlutils
