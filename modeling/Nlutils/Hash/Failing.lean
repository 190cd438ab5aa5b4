import Nlutils.Hash.Footprint

/-! # When memory runs out

A call for which some allocation fails leaves all cells as they were, so that every hash is still what it was. A call
for which none fails is the one of the modules before. -/

namespace Nlutils
open Lib

section
variable {alloc : Nat → Bool} {m m' : HashMem} {h t h' t' : Addr} {xs as bs ys : List Slot} {s : Slot}
  {key value : Bytes} {M : OrderedMap Bytes Bytes} {n : Nat}

/-! ### `nl_hash_set` -/

theorem strdup_false (ha : alloc m.allocs = false) :
    m.strdup alloc value = (none, { m with allocs := m.allocs + 1 }) := by simp [HashMem.strdup, ha]

theorem mallocEntry_false (ha : alloc m.allocs = false) :
    m.mallocEntry alloc = (none, { m with allocs := m.allocs + 1 }) := by simp [HashMem.mallocEntry, ha]

theorem hashAdd_failed (hh : m.hashes.get h = some ⟨some t, n⟩) (ha : ¬Allocates alloc m 4) :
    ∃ m', nlHashAdd alloc h key value m = some (-1, m') ∧ SameCells m m' := by
  rcases h0 : alloc m.allocs with _ | _
  · refine ⟨{ m with allocs := m.allocs + 1 }, ?_, rfl, rfl, rfl, rfl, rfl⟩
    simp [nlHashAdd, mallocEntry_false h0]
  rcases h1 : alloc (m.allocs + 1) with _ | _
  · obtain ⟨entries, hentry, hentries⟩ := free_alloc m.entries {}
    refine ⟨{ m with entries := entries, allocs := m.allocs + 2 }, ?_, rfl, rfl, rfl, hentries, rfl⟩
    simp [nlHashAdd, mallocEntry_true h0, strdup_false, h1, HashMem.freeEntry, hentry]
  rcases h2 : alloc (m.allocs + 2) with _ | _
  · obtain ⟨entries, hentry, hentries⟩ := free_alloc m.entries ⟨some m.strings.cells.length, none⟩
    obtain ⟨strings, hkey, hstrings⟩ := free_alloc m.strings key
    refine ⟨{ m with strings := strings, entries := entries, allocs := m.allocs + 3 }, ?_, rfl, rfl, hstrings, hentries,
      rfl⟩
    simp [nlHashAdd, mallocEntry_true h0, strdup_true, strdup_false, h1, h2, HashMem.setEntry, Heap.set_alloc_self,
      HashMem.freeString, HashMem.freeEntry, hkey, hentry]
  have hmade : Allocates alloc m 3 := by
    intro i hi
    have hi : i = 0 ∨ i = 1 ∨ i = 2 := by omega
    rcases hi with rfl | rfl | rfl
    · exact h0
    · exact h1
    · exact h2
  -- Only the element of the table is missing.
  have h3 : alloc (m.allocs + 3) = false := by
    refine Bool.eq_false_iff.mpr fun h3 => ha ?_
    intro i hi
    rcases Nat.lt_or_eq_of_le (Nat.le_of_lt_succ hi) with hi | rfl
    · exact hmade i hi
    · exact h3
  obtain ⟨m₁, m₂, m', hvalue, hkey, hentry, hfifo, hhashes, hstrings, hentries⟩ :=
    free_withEntry m key value m.fifo (m.allocs + 4)
  refine ⟨m', ?_, hfifo ▸ rfl, hfifo ▸ rfl, hstrings, hentries, hhashes ▸ rfl⟩
  rw [hashAdd_made hmade hh, h3, nlFifoPut_failed, Option.bind_some]
  simp [hvalue, hkey, hentry]

theorem freeString_allocs {p : Option Addr} (hf : m.freeString p = some m') : m'.allocs = m.allocs := by
  cases p with
  | none =>
    obtain rfl := Option.some.inj hf
    rfl
  | some a =>
    obtain ⟨strings, -, rfl⟩ := Option.map_eq_some_iff.mp hf
    rfl

theorem freeEntry_allocs {a : Addr} (hf : m.freeEntry a = some m') : m'.allocs = m.allocs := by
  obtain ⟨entries, -, rfl⟩ := Option.map_eq_some_iff.mp hf
  rfl

/-- Memory is asked for four times. -/
theorem hashAdd_allocs {r : Int} (ha : Allocates alloc m 4) (hh : m.hashes.get h = some ⟨some t, n⟩)
    (hadd : nlHashAdd alloc h key value m = some (r, m')) : m'.allocs = m.allocs + 4 := by
  rw [hashAdd_eq ha hh] at hadd
  obtain ⟨⟨k, fifo⟩, -, hadd⟩ := Option.bind_eq_some_iff.mp hadd
  simp only at hadd
  split at hadd
  · obtain ⟨m₁, h₁, hadd⟩ := Option.bind_eq_some_iff.mp hadd
    obtain ⟨m₂, h₂, hadd⟩ := Option.bind_eq_some_iff.mp hadd
    obtain ⟨m₃, h₃, heq⟩ := Option.bind_eq_some_iff.mp hadd
    cases heq
    rw [freeEntry_allocs h₃, freeString_allocs h₂, freeString_allocs h₁]
  · obtain ⟨m₁, hset, heq⟩ := Option.bind_eq_some_iff.mp hadd
    cases heq
    obtain ⟨hashes, -, rfl⟩ := Option.map_eq_some_iff.mp hset
    rfl

/-- A key that is not in the hash goes last, or nothing changes. -/
theorem hashSet_new (alloc : Nat → Bool) (value : Bytes) (R : HashRep m h t xs) (hkey : key ∉ xs.map (·.key))
    (hlen : xs.length < 2 ^ 32) (hroom : xs.length + 1 < 2 ^ 31 ∨ ¬Allocates alloc m 4) :
    (∃ m', nlHashSet alloc (some h) (some key) (some value) m = some (0, m') ∧ xs.length + 1 < 2 ^ 31 ∧
      (Allocates alloc m 4 ∧ m'.allocs = m.allocs + 4) ∧
      HashRep m' h t (xs ++ [newSlot m m.fifo.elems.cells.length key value]) ∧
      Changes h t xs (xs ++ [newSlot m m.fifo.elems.cells.length key value]) m m' ∧
      OnlyChanges h t xs (xs ++ [newSlot m m.fifo.elems.cells.length key value]) m m') ∨
    ¬Allocates alloc m 4 ∧
      ∃ m', nlHashSet alloc (some h) (some key) (some value) m = some (-1, m') ∧ SameCells m m' := by
  have hfind := nlHashFind_rep key R hlen
  have hnone : xs.find? (·.key = key) = none := find?_none.mpr hkey
  rw [hnone] at hfind
  rw [hashSet_add hfind]
  by_cases ha : Allocates alloc m 4
  · have hroom := hroom.resolve_right (not_not_intro ha)
    obtain ⟨m', hadd, R', C⟩ := hashAdd_rep value ha R hroom hkey
    exact Or.inl ⟨m', hadd, hroom, ⟨ha, hashAdd_allocs ha R.hash hadd⟩, R', C, hashAdd_only ha R hroom hadd⟩
  · exact Or.inr ⟨ha, hashAdd_failed R.hash ha⟩

/-- The value of a key is replaced, or nothing changes. -/
theorem hashSet_old (value : Bytes) (R : HashRep m h t (as ++ s :: bs))
    (hfind : nlHashFind h s.key m = some (some s.entry)) :
    (∃ m', nlHashSet alloc (some h) (some s.key) (some value) m = some (0, m') ∧
      HashRep m' h t (as ++ s.withValue m.strings.cells.length value :: bs) ∧
      Changes h t (as ++ s :: bs) (as ++ s.withValue m.strings.cells.length value :: bs) m m') ∨
    ∃ m', nlHashSet alloc (some h) (some s.key) (some value) m = some (-1, m') ∧ SameCells m m' := by
  rcases ha : alloc m.allocs with _ | _
  · refine Or.inr ⟨{ m with allocs := m.allocs + 1 }, ?_, rfl, rfl, rfl, rfl, rfl⟩
    simp [nlHashSet, hfind, strdup_false ha]
  · exact Or.inl (hashSet_found value ha R hfind)

/-- `nl_hash_set` sets the key, or nothing changes. -/
theorem hashSet_cases (value : Bytes) (R : HashRep m h t xs) (I : IsMap xs M) (hlen : xs.length < 2 ^ 31)
    (hroom : key ∉ M.keys → M.size + 1 < 2 ^ 31 ∨ ¬Allocates alloc m 4) :
    (∃ m' xs', nlHashSet alloc (some h) (some key) (some value) m = some (0, m') ∧ HashRep m' h t xs' ∧
      IsMap xs' (M.set key value) ∧ xs'.length < 2 ^ 31 ∧ Changes h t xs xs' m m') ∨
    ∃ m', nlHashSet alloc (some h) (some key) (some value) m = some (-1, m') ∧ SameCells m m' := by
  rw [I.keys, I.size] at hroom
  cases hs : xs.find? (·.key = key) with
  | none =>
    have hkey := find?_none.mp hs
    rcases hashSet_new alloc value R hkey (lt_uint hlen) (hroom hkey) with
      ⟨m', hset, hroom, -, R', C, -⟩ | ⟨-, hfail⟩
    · refine Or.inl ⟨m', _, hset, R', ?_, by simpa using hroom, C⟩
      rw [IsMap, OrderedMap.pairs_set_new (I.keys.symm ▸ hkey), I, List.map_append]
      rfl
    · exact Or.inr hfail
  | some s =>
    have hfind := nlHashFind_rep key R (lt_uint hlen)
    obtain ⟨as, bs, rfl, rfl⟩ := find?_some hs
    rw [hs] at hfind
    rcases hashSet_old value R hfind with ⟨m', hset, R', C⟩ | hfail
    · refine Or.inl ⟨m', _, hset, R', ?_, by simpa using hlen, C⟩
      rw [IsMap, OrderedMap.pairs_set_split I.split, List.map_append, List.map_cons]
      rfl
    · exact Or.inr hfail

/-! ### `nl_hash_create` and `nl_hash_clone` -/

/-- The memory with a new hash differs in that hash and its table, which were not there. -/
theorem withHash_only : OnlyChanges m.hashes.cells.length m.fifo.fifos.cells.length [] [] m m.withHash ∧
    m.hashes.get m.hashes.cells.length = none ∧ m.fifo.fifos.get m.fifo.fifos.cells.length = none :=
  ⟨⟨fun _ ha => Heap.get_alloc_ne ha, fun _ ha => Heap.get_alloc_ne ha, rfl, rfl, rfl⟩, by simp [Heap.get],
    by simp [Heap.get]⟩

/-- There is a new hash, or nothing changes. -/
theorem hashCreate_cases (alloc : Nat → Bool) (m : HashMem) :
    Allocates alloc m 2 ∧ nlHashCreate alloc m = nlHashCreate allocated m ∨
    ¬Allocates alloc m 2 ∧ ∃ m', nlHashCreate alloc m = some (none, m') ∧ SameCells m m' := by
  rcases h0 : alloc m.allocs with _ | _
  · have hfail : ¬Allocates alloc m 2 := fun h => Bool.eq_false_iff.mp h0 (h 0 Nat.two_pos)
    exact Or.inr ⟨hfail, { m with allocs := m.allocs + 1 }, by simp [nlHashCreate, h0], rfl, rfl, rfl, rfl, rfl⟩
  rcases h1 : alloc (m.allocs + 1) with _ | _
  · obtain ⟨hashes, hfree, hhashes⟩ := free_alloc m.hashes {}
    have hnew : (m.hashes.alloc {}).1 = m.hashes.cells.length := rfl
    have hfail : ¬Allocates alloc m 2 := fun h => Bool.eq_false_iff.mp h1 (h 1 Nat.one_lt_two)
    refine Or.inr ⟨hfail, { m with hashes := hashes, allocs := m.allocs + 2 }, ?_, rfl, rfl, rfl, rfl, hhashes⟩
    simp [nlHashCreate, h0, h1, nlFifoCreate, HashMem.freeHash, hnew, hfree]
  · refine Or.inl ⟨?_, by simp [nlHashCreate, h0, h1, allocated]⟩
    intro i hi
    have hi : i = 0 ∨ i = 1 := by omega
    rcases hi with rfl | rfl
    · exact h0
    · exact h1

/-- What gets memory one after the other. -/
theorem allocates_add {k : Nat} (hm : m'.allocs = m.allocs + n) :
    Allocates alloc m (n + k) ↔ Allocates alloc m n ∧ Allocates alloc m' k := by
  constructor
  · intro ha
    refine ⟨fun i hi => ha i (Nat.lt_of_lt_of_le hi (Nat.le_add_right n k)), fun i hi => ?_⟩
    rw [hm, Nat.add_assoc]
    exact ha (n + i) (Nat.add_lt_add_left hi n)
  · rintro ⟨ha, ha'⟩ i hi
    by_cases hin : i < n
    · exact ha i hin
    · have hi' := ha' (i - n) (by omega)
      rwa [hm, Nat.add_assoc, Nat.add_sub_cancel' (Nat.not_lt.mp hin)] at hi'

/-- The copying stops at the first pair that cannot be copied, with fewer entries than in the original. -/
theorem cloneEntries_cases {fuel : Nat} (R : HashRep m h t (as ++ bs)) (R' : HashRep m h' t' ys)
    (A : Apart ⟨h', t', ys⟩ ⟨h, t, as ++ bs⟩) (hpairs : ys.map Slot.pair = as.map Slot.pair)
    (hlen : (as ++ bs).length < 2 ^ 31) (hfuel : bs.length < fuel) :
    ∃ m' ys', iterateEntries (some t) (hashCloneCallback alloc) fuel (.ofPtr (lastOf (as.map Slot.node))) h' m =
        some (h', m') ∧
      HashRep m' h' t' ys' ∧ HashRep m' h t (as ++ bs) ∧ OnlyChanges h' t' ys ys' m m' ∧
      (¬Allocates alloc m (4 * bs.length) ∧ ys'.length < (as ++ bs).length ∨
        (Allocates alloc m (4 * bs.length) ∧ m'.allocs = m.allocs + 4 * bs.length) ∧
          ys'.map Slot.pair = (as ++ bs).map Slot.pair ∧ Changes h' t' ys ys' m m') := by
  induction bs generalizing m as ys fuel with
  | nil =>
    obtain ⟨fuel, rfl⟩ := exists_fuel hfuel
    rw [List.append_nil] at R hlen ⊢
    exact ⟨m, ys, iterateEntries_nil R.toTableRep (lt_uint hlen), R', R, SameCells.refl.onlyChanges,
      Or.inr ⟨⟨fun _ hi => absurd hi (Nat.not_lt_zero _), rfl⟩, hpairs, .refl⟩⟩
  | cons b bs ih =>
    obtain ⟨fuel, rfl⟩ := exists_fuel hfuel
    rw [iterateEntries_cons R.toTableRep (lt_uint hlen)]
    have hys : ys.length = as.length := by simpa using congrArg List.length hpairs
    have hkeys : ys.map (·.key) = as.map (·.key) := by
      have hmap := congrArg (List.map Prod.fst) hpairs
      rwa [List.map_map, List.map_map] at hmap
    have hnew : b.key ∉ ys.map (·.key) := by
      have hnd := R.keys
      rw [List.map_append, List.map_cons] at hnd
      rw [hkeys]
      exact fun hm => (List.nodup_append.mp hnd).2.2 _ hm _ List.mem_cons_self rfl
    have hlt : ys.length < (as ++ b :: bs).length := by simp [hys]
    have hroom : ys.length + 1 < 2 ^ 31 := Nat.lt_of_le_of_lt hlt hlen
    rcases hashSet_new alloc b.value R' hnew (lt_uint (Nat.lt_of_succ_lt hroom)) (Or.inl hroom) with
      ⟨m₁, hcall, -, ⟨ha, hallocs⟩, R₁, C₁, O₁⟩ | ⟨hfail, m₁, hcall, S⟩
    · have happ : as ++ b :: bs = (as ++ [b]) ++ bs := List.append_cons ..
      have hpairs₁ : (ys ++ [newSlot m m.fifo.elems.cells.length b.key b.value]).map Slot.pair =
          (as ++ [b]).map Slot.pair := by
        rw [List.map_append, hpairs, List.map_append]
        rfl
      have RS := R.frame C₁ A
      have A₁ := A.change R C₁
      rw [happ] at RS A₁ hlen ⊢
      obtain ⟨m', ys', hloop, R'', RS', O', hcases⟩ := ih RS R₁ A₁ hpairs₁ hlen (Nat.lt_of_succ_lt_succ hfuel)
      have hfour : 4 * (b :: bs).length = 4 + 4 * bs.length := by simp [Nat.mul_add, Nat.add_comm]
      refine ⟨m', ys', ?_, R'', RS', O₁.trans O', ?_⟩
      · simp only [hashCloneCallback, hcall, Option.bind_eq_bind, Option.bind_some]
        exact hloop
      · rw [hfour, allocates_add hallocs]
        rcases hcases with ⟨hfail, hshort⟩ | ⟨⟨ha', hallocs'⟩, hp, C'⟩
        · exact Or.inl ⟨fun h => hfail h.2, hshort⟩
        · exact Or.inr ⟨⟨⟨ha, ha'⟩, by rw [hallocs', hallocs, Nat.add_assoc]⟩, hp, C₁.trans C'⟩
    · have hmore : ¬Allocates alloc m (4 * (b :: bs).length) := fun h =>
        hfail fun i hi => h i (Nat.lt_of_lt_of_le hi (by simp [Nat.mul_add]))
      refine ⟨m₁, ys, ?_, R'.same S, R.same S, S.onlyChanges, Or.inl ⟨hmore, hlt⟩⟩
      simp only [hashCloneCallback, hcall, Option.bind_eq_bind, Option.bind_some]
      rfl

/-- A clone holds the same map, or nothing changes. -/
theorem hashClone_cases (alloc : Nat → Bool) (R : HashRep m h t xs) (I : IsMap xs M) (hlen : xs.length < 2 ^ 31) :
    (∃ h' t' m' ys, nlHashClone alloc (some h) m = some (some h', m') ∧ HashRep m' h' t' ys ∧ IsMap ys M ∧
      Changes h' t' [] ys m m' ∧ (∀ k u zs, HashRep m k u zs → Apart ⟨h', t', []⟩ ⟨k, u, zs⟩) ∧
      Allocates alloc m (2 + 4 * xs.length) ∧ m'.allocs = m.allocs + (2 + 4 * xs.length)) ∨
    ¬Allocates alloc m (2 + 4 * xs.length) ∧
      ∃ m', nlHashClone alloc (some h) m = some (none, m') ∧ SameCells m m' := by
  rw [allocates_add (rfl : m.withHash.allocs = m.allocs + 2)]
  rcases hashCreate_cases alloc m with ⟨ha, hmade⟩ | ⟨hno, m', hfail, S⟩
  · obtain ⟨h', t', m₁, hcreate, R₁, C₁, hapart⟩ := hashCreate_rep m
    rw [hcreate] at hmade
    obtain ⟨rfl, rfl⟩ : m.hashes.cells.length = h' ∧ m.withHash = m₁ := by simpa using hashCreate_eq.symm.trans hcreate
    obtain rfl : m.fifo.fifos.cells.length = t' := by
      have hhash : m.withHash.hashes.get m.hashes.cells.length = some ⟨some m.fifo.fifos.cells.length, 0⟩ :=
        Heap.get_alloc_self
      simpa using hhash.symm.trans R₁.hash
    obtain ⟨O₁, hnoneh, hnonet⟩ := withHash_only (m := m)
    have A := hapart h t xs R
    have RS : HashRep m.withHash h t ([] ++ xs) := R.frame C₁ A
    obtain ⟨m', ys, hloop, R', RS', O', hcases⟩ := cloneEntries_cases RS R₁ A rfl hlen RS.length_lt_bound
    have hiter : nlHashIterate (some h) (hashCloneCallback alloc) m.hashes.cells.length m.withHash =
        some (m.hashes.cells.length, m') := by
      simp only [nlHashIterate, RS.hash, Option.bind_eq_bind, Option.bind_some]
      exact hloop
    rcases hcases with ⟨hno, hshort⟩ | ⟨⟨ha', hallocs⟩, hpairs, C'⟩
    · -- The counts differ, and what has been copied is destroyed.
      have hlen' : ys.length < 2 ^ 32 := lt_uint (Nat.lt_trans hshort hlen)
      obtain ⟨m'', hdestroy, -, O'', hh, ht⟩ := hashDestroy_rep R' hlen'
      refine Or.inr ⟨fun h => hno h.2, m'', ?_,
        (O₁.trans (O'.trans O'')).sameCells (hh.trans hnoneh.symm) (ht.trans hnonet.symm)⟩
      have hne : xs.length ≠ ys.length := Nat.ne_of_gt hshort
      simp [nlHashClone, hmade, hiter, RS'.hash, R'.hash, hne, hdestroy]
    · have hys : ys.length = xs.length := by simpa using congrArg List.length hpairs
      refine Or.inl ⟨_, _, m', ys, ?_, R', ?_, C₁.trans C', hapart, ⟨ha, ha'⟩, by rw [hallocs, ← Nat.add_assoc]; rfl⟩
      · simp [nlHashClone, hmade, hiter, RS'.hash, R'.hash, hys]
      · rw [IsMap, I, hpairs]
        rfl
  · exact Or.inr ⟨fun h => hno h.1, m', by simp [nlHashClone, hfail], S⟩

/-- A clone holds the same map, in parts of its own. -/
theorem hashClone_rep (R : HashRep m h t xs) (I : IsMap xs M) (hlen : xs.length < 2 ^ 31) :
    ∃ h' t' m' ys, nlHashClone allocated (some h) m = some (some h', m') ∧ HashRep m' h' t' ys ∧ IsMap ys M ∧
      Changes h' t' [] ys m m' ∧ ∀ k u zs, HashRep m k u zs → Apart ⟨h', t', []⟩ ⟨k, u, zs⟩ := by
  rcases hashClone_cases allocated R I hlen with ⟨h', t', m', ys, hclone, R', I', C, hapart, -⟩ | ⟨hno, -⟩
  · exact ⟨h', t', m', ys, hclone, R', I', C, hapart⟩
  · exact absurd allocates_allocated hno

end
end Nlutils
