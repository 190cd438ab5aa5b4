import Nlutils.Hash.Clone

/-! # What belongs to a hash

A function of `hash.c` frees what its hash no longer uses: outside the cells of the entries the memory is as before
(`OnlyChanges`). Destroying a hash frees all of it. -/

namespace Nlutils
open Lib

def elemsOf (xs : List Slot) : List Addr := xs.map (·.elem)

/-- The same cells with the same contents. -/
structure SameCells (m m' : HashMem) : Prop where
  fifos : m'.fifo.fifos.get = m.fifo.fifos.get
  elems : m'.fifo.elems.get = m.fifo.elems.get
  strings : m'.strings.get = m.strings.get
  entries : m'.entries.get = m.entries.get
  hashes : m'.hashes.get = m.hashes.get

/-- The hash at `h` goes from the entries `xs` to `xs'`, and no other cell is changed, made or freed. -/
structure OnlyChanges (h t : Addr) (xs xs' : List Slot) (m m' : HashMem) : Prop where
  fifos : ∀ a, a ≠ t → m'.fifo.fifos.get a = m.fifo.fifos.get a
  hashes : ∀ a, a ≠ h → m'.hashes.get a = m.hashes.get a
  elems : m'.fifo.elems.outside (elemsOf xs') = m.fifo.elems.outside (elemsOf xs)
  entries : m'.entries.outside (entriesOf xs') = m.entries.outside (entriesOf xs)
  strings : m'.strings.outside (stringsOf xs') = m.strings.outside (stringsOf xs)

section
variable {alloc : Nat → Bool} {m m' m'' : HashMem} {h t : Addr} {xs xs' xs'' : List Slot} {s : Slot} {key value : Bytes}

theorem SameCells.refl : SameCells m m := ⟨rfl, rfl, rfl, rfl, rfl⟩

theorem OnlyChanges.trans (C : OnlyChanges h t xs xs' m m') (C' : OnlyChanges h t xs' xs'' m' m'') :
    OnlyChanges h t xs xs'' m m'' :=
  ⟨fun a ha => (C'.fifos a ha).trans (C.fifos a ha), fun a ha => (C'.hashes a ha).trans (C.hashes a ha),
    C'.elems.trans C.elems, C'.entries.trans C.entries, C'.strings.trans C.strings⟩

theorem SameCells.onlyChanges (S : SameCells m m') : OnlyChanges h t xs xs m m' :=
  ⟨fun _ _ => S.fifos ▸ rfl, fun _ _ => S.hashes ▸ rfl, Heap.outside_of_get S.elems, Heap.outside_of_get S.entries,
    Heap.outside_of_get S.strings⟩

/-- A hash that was not there and is not there any more has left nothing behind. -/
theorem OnlyChanges.sameCells (C : OnlyChanges h t [] [] m m') (hh : m'.hashes.get h = m.hashes.get h)
    (ht : m'.fifo.fifos.get t = m.fifo.fifos.get t) : SameCells m m' where
  fifos := funext fun a => if ha : a = t then ha ▸ ht else C.fifos a ha
  hashes := funext fun a => if ha : a = h then ha ▸ hh else C.hashes a ha
  elems := by
    rw [← Heap.outside_nil, ← Heap.outside_nil]
    exact C.elems
  entries := by
    rw [← Heap.outside_nil, ← Heap.outside_nil]
    exact C.entries
  strings := by
    rw [← Heap.outside_nil, ← Heap.outside_nil]
    exact C.strings

/-- What a hash holds is in its cells. -/
theorem HashRep.same (R : HashRep m h t xs) (S : SameCells m m') : HashRep m' h t xs where
  hash := S.hashes ▸ R.hash
  table := ⟨S.fifos ▸ R.table.fifo, R.table.chain.congr fun _ _ => S.elems ▸ rfl⟩
  stored s hs :=
    have T := R.stored s hs
    ⟨S.entries ▸ T.entry, S.strings ▸ T.key, S.strings ▸ T.value⟩
  entries := R.entries
  strings := R.strings
  keys := R.keys

theorem map_fst_node : (xs.map Slot.node).map (·.1) = elemsOf xs := by
  rw [List.map_map]
  rfl

/-! ### A new entry -/

/-- The cells of the entry that has been made are the only new ones. -/
theorem withEntry_outside (m : HashMem) (key value : Bytes) (xs : List Slot) (a : Addr) :
    (m.withEntry key value).entries.outside (entriesOf (xs ++ [newSlot m a key value])) =
        m.entries.outside (entriesOf xs) ∧
      (m.withEntry key value).strings.outside (stringsOf (xs ++ [newSlot m a key value])) =
        m.strings.outside (stringsOf xs) := by
  constructor
  · have hent : (m.withEntry key value).entries.outside (m.entries.cells.length :: entriesOf xs) =
        m.entries.outside (entriesOf xs) := Heap.outside_alloc
    rw [← hent]
    refine Heap.outside_congr ?_
    intro a
    simp [entriesOf, newSlot, or_comm]
  · have hlen : (m.strings.alloc key).2.cells.length = m.strings.cells.length + 1 := by simp [Heap.alloc]
    have hone : (m.strings.alloc key).2.outside (m.strings.cells.length :: stringsOf xs) =
        m.strings.outside (stringsOf xs) := Heap.outside_alloc
    have htwo : (m.withEntry key value).strings.outside
        ((m.strings.cells.length + 1) :: m.strings.cells.length :: stringsOf xs) = _ :=
      (hlen ▸ Heap.outside_alloc).trans hone
    rw [← htwo]
    refine Heap.outside_congr ?_
    intro a
    simp only [stringsOf, newSlot, Slot.strs, List.flatMap_append, List.flatMap_singleton, List.mem_append,
      List.mem_cons, List.not_mem_nil, or_false]
    constructor
    · rintro (ha | rfl | rfl)
      · exact Or.inr (Or.inr ha)
      · exact Or.inr (Or.inl rfl)
      · exact Or.inl rfl
    · rintro (rfl | rfl | ha)
      · exact Or.inr (Or.inr rfl)
      · exact Or.inr (Or.inl rfl)
      · exact Or.inl ha

theorem hashAdd_only (ha : Allocates alloc m 4) (R : HashRep m h t xs) (hlen : xs.length + 1 < 2 ^ 31)
    (hadd : nlHashAdd alloc h key value m = some (0, m')) :
    OnlyChanges h t xs (xs ++ [newSlot m m.fifo.elems.cells.length key value]) m m' := by
  rw [hashAdd_eq ha R.hash] at hadd
  obtain ⟨⟨r, fifo⟩, hput, hadd⟩ := Option.bind_eq_some_iff.mp hadd
  have hframe : Frame [t] m.fifo fifo := by
    obtain ⟨fifo', hput', -, hF⟩ := put_rep (x := m.entries.cells.length) R.table (by rw [List.length_map]; omega)
    cases Option.some.inj (hput.symm.trans hput')
    exact hF
  have houtside := put_outside R.table hput
  rw [map_fst_node] at houtside
  simp only at hadd
  split at hadd
  · obtain ⟨m₁, -, hadd⟩ := Option.bind_eq_some_iff.mp hadd
    obtain ⟨m₂, -, hadd⟩ := Option.bind_eq_some_iff.mp hadd
    obtain ⟨m₃, -, heq⟩ := Option.bind_eq_some_iff.mp hadd
    cases heq
  · obtain ⟨m₁, hset, heq⟩ := Option.bind_eq_some_iff.mp hadd
    cases heq
    obtain ⟨hashes, hwrite, rfl⟩ := Option.map_eq_some_iff.mp hset
    have hhash : (m.withEntry key value).hashes.get h = some ⟨some t, xs.length⟩ := R.hash
    obtain ⟨hashes', hwrite', -, hother, -⟩ := Heap.set_eq_some (v := (⟨some t, xs.length + 1⟩ : Hash)) hhash
    obtain rfl := Option.some.inj (hwrite.symm.trans hwrite')
    obtain ⟨hentries, hstrings⟩ := withEntry_outside m key value xs m.fifo.elems.cells.length
    refine ⟨fun a ha => hframe.fifos a (by simpa using ha), hother, ?_, hentries, hstrings⟩
    rw [← houtside]
    refine Heap.outside_congr ?_
    intro a
    simp [elemsOf, newSlot, or_comm]

/-! ### Clearing and destroying -/

theorem freeString_strings {a : Addr} (hf : m.freeString (some a) = some m') :
    m.strings.free a = some m'.strings ∧ m'.fifo = m.fifo ∧ m'.entries = m.entries ∧ m'.hashes = m.hashes := by
  obtain ⟨strings, hfree, rfl⟩ := Option.map_eq_some_iff.mp hf
  exact ⟨hfree, rfl, rfl, rfl⟩

theorem freeEntry_entries {a : Addr} (hf : m.freeEntry a = some m') :
    m.entries.free a = some m'.entries ∧ m'.fifo = m.fifo ∧ m'.strings = m.strings ∧ m'.hashes = m.hashes := by
  obtain ⟨entries, hfree, rfl⟩ := Option.map_eq_some_iff.mp hf
  exact ⟨hfree, rfl, rfl, rfl⟩

theorem destroyEntry_outside (xs : List Slot) (S : Stored m s) (hd : nlHashDestroyEntry s.entry m = some m') :
    m'.entries.outside (entriesOf xs) = m.entries.outside (entriesOf (s :: xs)) ∧
      m'.strings.outside (stringsOf xs) = m.strings.outside (stringsOf (s :: xs)) := by
  simp only [nlHashDestroyEntry, S.entry, Option.bind_eq_bind, Option.bind_some] at hd
  obtain ⟨m₁, hkey, hd⟩ := Option.bind_eq_some_iff.mp hd
  obtain ⟨m₂, hvalue, hd⟩ := Option.bind_eq_some_iff.mp hd
  obtain ⟨hkey, -, hentries₁, -⟩ := freeString_strings hkey
  obtain ⟨hvalue, -, hentries₂, -⟩ := freeString_strings hvalue
  obtain ⟨hentry, -, hstrings, -⟩ := freeEntry_entries hd
  constructor
  · rw [Heap.outside_free hentry, hentries₂, hentries₁]
    rfl
  · rw [hstrings, Heap.outside_free hvalue, Heap.outside_free hkey]
    rfl

theorem clearEntries_only {fuel : Nat} (T : TableRep m t xs) (hlen : xs.length < 2 ^ 32)
    (hclear : clearEntries (some t) fuel m = some m') :
    m'.fifo.elems.outside [] = m.fifo.elems.outside (elemsOf xs) ∧
      m'.entries.outside [] = m.entries.outside (entriesOf xs) ∧
      m'.strings.outside [] = m.strings.outside (stringsOf xs) := by
  induction xs generalizing m fuel with
  | nil =>
    cases fuel with
    | zero => cases hclear
    | succ fuel =>
      simp only [clearEntries, get_nil T.table, Option.bind_eq_bind, Option.bind_some] at hclear
      cases hclear
      exact ⟨rfl, rfl, rfl⟩
  | cons s xs ih =>
    cases fuel with
    | zero => cases hclear
    | succ fuel =>
      have Tt : Rep m.fifo t (s.node :: xs.map Slot.node) := T.table
      have hlen' : (s.node :: xs.map Slot.node).length < 2 ^ 32 := by simpa using hlen
      obtain ⟨fifo, hget, Rf, hF⟩ := get_cons Tt hlen'
      have T₀ : TableRep m t ([] ++ s :: xs) := T
      obtain ⟨m₁, hdestroy, T₁, -, -, hfifo⟩ := T₀.drop t Rf hF
      have hentry : s.node.2 = s.entry := rfl
      simp only [clearEntries, hget, hentry, hdestroy, Option.bind_eq_bind, Option.bind_some] at hclear
      obtain ⟨helems, hentries, hstrings⟩ := ih T₁ (Nat.lt_of_succ_lt hlen) hclear
      have S : Stored { m with fifo := fifo } s := (T.stored s List.mem_cons_self).congr rfl rfl
      obtain ⟨hent, hstr⟩ := destroyEntry_outside xs S hdestroy
      have hout := get_outside Tt hlen' hget
      rw [map_fst_node] at hout
      refine ⟨helems.trans ?_, hentries.trans hent, hstrings.trans hstr⟩
      rw [hfifo]
      exact hout.trans (by rw [← List.map_cons, map_fst_node])

/-- The whole hash is freed, and nothing else. -/
theorem hashDestroy_rep (R : HashRep m h t xs) (hlen : xs.length < 2 ^ 32) :
    ∃ m', nlHashDestroy (some h) m = some m' ∧ Changes h t xs [] m m' ∧ OnlyChanges h t xs [] m m' ∧
      m'.hashes.get h = none ∧ m'.fifo.fifos.get t = none := by
  obtain ⟨m₁, hclear, T, C, hhashes⟩ := clearEntries_rep h R.toTableRep hlen R.length_lt_bound
  obtain ⟨helems, hentries, hstrings⟩ := clearEntries_only R.toTableRep hlen hclear
  have hhash : m₁.hashes.get h = some ⟨some t, xs.length⟩ := hhashes ▸ R.hash
  obtain ⟨hashes₂, hset, hself, hother₂, -⟩ := Heap.set_eq_some (v := (⟨some t, 0⟩ : Hash)) hhash
  obtain ⟨hashes₃, hfree, hgone, hother₃, -⟩ := Heap.free_eq_some hself
  obtain ⟨fifos, hfifos, hnone, hotherf, -⟩ := Heap.free_eq_some T.table.fifo
  have hhashes' : ∀ a, a ≠ h → hashes₃.get a = m.hashes.get a := by
    intro a ha
    rw [hother₃ a ha, hother₂ a ha, hhashes]
  have hframe : Frame [t] m₁.fifo { m₁.fifo with fifos := fifos } :=
    ⟨fun a ha => hotherf a (by simpa using ha), fun _ _ he _ => he, Nat.le_refl _⟩
  refine ⟨{ m₁ with fifo := { m₁.fifo with fifos := fifos }, hashes := hashes₃ }, ?_,
    ⟨C.fifo.trans hframe, hhashes', C.entries, C.strings⟩, ⟨?_, hhashes', helems, hentries, hstrings⟩, hgone, hnone⟩
  · have hloop : destroyElems m₁.fifo.bound none m₁.fifo = some m₁.fifo := by simp [destroyElems]
    simp [nlHashDestroy, nlHashClear, R.hash, hclear, hhash, HashMem.setHash, hset, hself, nlFifoDestroy, T.table.fifo,
      hloop, hfifos, HashMem.freeHash, hfree]
  · intro a ha
    have hne : a ∉ [t] := by simpa using ha
    exact (hotherf a ha).trans (C.fifo.fifos a hne)

end
end Nlutils
