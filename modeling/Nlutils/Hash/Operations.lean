import Nlutils.Fifo.Removal
import Nlutils.Hash.Represents

/-! # What the functions of `hash.c` do to the map

Each function on one hash, when its allocations do not fail: its result, and the entries of the hash afterwards. -/

namespace Nlutils
open Lib

/-- No allocation fails. -/
def allocated : Nat → Bool := fun _ => true

/-- The next `n` allocations get memory. -/
def Allocates (alloc : Nat → Bool) (m : HashMem) (n : Nat) : Prop := ∀ i < n, alloc (m.allocs + i) = true

instance {alloc : Nat → Bool} {m : HashMem} {n : Nat} : Decidable (Allocates alloc m n) :=
  inferInstanceAs (Decidable (∀ i < n, alloc (m.allocs + i) = true))

section
variable {alloc : Nat → Bool} {m m' : HashMem} {h t : Addr} {xs as bs : List Slot} {s : Slot} {key value : Bytes}
  {M : OrderedMap Bytes Bytes} {n : Nat}

/-! ### Finding an entry -/

theorem TableRep.table_append (R : TableRep m t (as ++ bs)) : Rep m.fifo t (as.map Slot.node ++ bs.map Slot.node) :=
  List.map_append ▸ R.table

theorem next_entry (R : TableRep m t (as ++ bs)) (hlen : (as ++ bs).length < 2 ^ 32) :
    nlFifoNext (some t) (.ofPtr (lastOf (as.map Slot.node))) m.fifo =
      some (bs.head?.map (·.entry), .ofPtr (firstOf (bs.map Slot.node))) := by
  have hnext := next_at R.table_append (by simpa using hlen)
  rw [hnext]
  cases bs <;> rfl

/-- The element passed last. -/
theorem lastOf_passed : lastOf ((as ++ [s]).map Slot.node) = some s.elem := by
  rw [List.map_append]
  exact lastOf_snoc

theorem findEntry_rep {fuel : Nat} (key : Bytes) (R : TableRep m t (as ++ bs)) (hlen : (as ++ bs).length < 2 ^ 32)
    (hfuel : bs.length < fuel) : findEntry (some t) key m fuel (.ofPtr (lastOf (as.map Slot.node))) =
      some ((bs.find? (·.key = key)).map (·.entry)) := by
  induction bs generalizing as fuel with
  | nil =>
    obtain ⟨fuel, rfl⟩ := exists_fuel hfuel
    simp [findEntry, next_entry R hlen]
  | cons b bs ih =>
    obtain ⟨fuel, rfl⟩ := exists_fuel hfuel
    have S := R.stored b (List.mem_append_right _ List.mem_cons_self)
    have hnext := next_entry R hlen
    have happ : as ++ b :: bs = (as ++ [b]) ++ bs := List.append_cons ..
    rw [happ] at R hlen
    have hrec := ih R hlen (Nat.lt_of_succ_lt_succ hfuel)
    rw [lastOf_passed] at hrec
    have hstep : findEntry (some t) key m (fuel + 1) (.ofPtr (lastOf (as.map Slot.node))) =
        if b.key = key then some (some b.entry) else findEntry (some t) key m fuel (.ofPtr (some b.elem)) := by
      simp [findEntry, hnext, S.entry, S.key, Slot.node]
    rw [hstep]
    by_cases hk : b.key = key
    · simp [hk]
    · simp [hk, hrec]

theorem nlHashFind_rep (key : Bytes) (R : HashRep m h t xs) (hlen : xs.length < 2 ^ 32) :
    nlHashFind h key m = some ((xs.find? (·.key = key)).map (·.entry)) := by
  have R' : TableRep m t ([] ++ xs) := R.toTableRep
  have hfind := findEntry_rep key R' hlen R.length_lt_bound
  simp only [nlHashFind, R.hash, Option.bind_eq_bind, Option.bind_some]
  exact hfind

/-- A key that is in the map, with its entry and those before and after it. -/
theorem find?_some (hs : xs.find? (·.key = key) = some s) : ∃ as bs, xs = as ++ s :: bs ∧ s.key = key :=
  have ⟨hk, as, bs, hxs, _⟩ := List.find?_eq_some_iff_append.mp hs
  ⟨as, bs, hxs, of_decide_eq_true hk⟩

theorem find?_none : xs.find? (·.key = key) = none ↔ key ∉ xs.map (·.key) := by
  simp only [List.find?_eq_none, List.mem_map, not_exists, not_and, decide_eq_true_eq]

/-! ### `nl_hash_get` -/

theorem hashGet_rep (R : HashRep m h t xs) (I : IsMap xs M) (hlen : xs.length < 2 ^ 32) :
    nlHashGet (some h) (some key) m = some (M.get key) := by
  have hget : M.get key = (xs.find? (·.key = key)).map (·.value) := by
    rw [OrderedMap.get, I, List.find?_map, Option.map_map]
    rfl
  simp only [nlHashGet, nlHashFind_rep key R hlen, Option.bind_eq_bind, Option.bind_some]
  rw [hget]
  cases hs : xs.find? (·.key = key) with
  | none => rfl
  | some s =>
    have S := R.stored s (List.mem_of_find?_eq_some hs)
    simp [S.entry, S.value]

/-! ### `nl_hash_set` -/

theorem allocates_allocated : Allocates allocated m n := fun _ _ => rfl

theorem strdup_true (ha : alloc m.allocs = true) : m.strdup alloc value =
    (some m.strings.cells.length, { m with strings := (m.strings.alloc value).2, allocs := m.allocs + 1 }) := by
  rw [HashMem.strdup, if_pos ha]
  rfl

theorem mallocEntry_true (ha : alloc m.allocs = true) : m.mallocEntry alloc =
    (some m.entries.cells.length, { m with entries := (m.entries.alloc {}).2, allocs := m.allocs + 1 }) := by
  rw [HashMem.mallocEntry, if_pos ha]
  rfl

/-- The entry with another value, in a new string. -/
def Slot.withValue (s : Slot) (a : Addr) (value : Bytes) : Slot := { s with valueAt := a, value := value }

theorem hashSet_found (value : Bytes) (ha : alloc m.allocs = true) (R : HashRep m h t (as ++ s :: bs))
    (hfind : nlHashFind h key m = some (some s.entry)) :
    ∃ m', nlHashSet alloc (some h) (some key) (some value) m = some (0, m') ∧
      HashRep m' h t (as ++ s.withValue m.strings.cells.length value :: bs) ∧
      Changes h t (as ++ s :: bs) (as ++ s.withValue m.strings.cells.length value :: bs) m m' := by
  obtain ⟨A, hes, hss⟩ := R.alone
  have hs : s ∈ as ++ s :: bs := List.mem_append_right _ List.mem_cons_self
  have S := R.stored s hs
  obtain ⟨entries, hset, hself, hother, hlen⟩ :=
    Heap.set_eq_some (v := (⟨some s.keyAt, some m.strings.cells.length⟩ : HashEntry)) S.entry
  have hold := Heap.get_alloc (v := value) S.value
  obtain ⟨strings, hfree, -, hother', hlen'⟩ := Heap.free_eq_some hold
  refine ⟨{ m with strings := strings, entries := entries, allocs := m.allocs + 1 }, ?_, ?_, ?_⟩
  · simp [nlHashSet, hfind, strdup_true ha, S.entry, HashMem.setEntry, hset, HashMem.freeString, hfree]
  · have hnew : m.strings.cells.length ∉ stringsOf (as ++ s :: bs) := fun hm => Nat.lt_irrefl _ (R.ne_string _ hm)
    have hnew' : m.strings.cells.length ∉ stringsOf (as ++ bs) := fun hm =>
      hnew (stringsOf_perm.mem_iff.mpr (List.mem_append_right _ hm))
    have hkey : s.keyAt ≠ m.strings.cells.length := Nat.ne_of_lt (R.ne_string _ (keyAt_mem hs))
    have A' : Alone (s.withValue m.strings.cells.length value) (as ++ bs) := ⟨A.entry, A.key, hnew', hkey⟩
    obtain ⟨hent, hstr⟩ := A'.nodup hes hss
    refine ⟨⟨?_, ?_, hent, hstr, ?_⟩, ?_⟩
    · have hnodes : (as ++ s.withValue m.strings.cells.length value :: bs).map Slot.node =
          (as ++ s :: bs).map Slot.node := by simp [Slot.node, Slot.withValue]
      exact hnodes ▸ R.table
    · intro x hx
      rcases mem_middle.mp hx with rfl | hx
      · refine ⟨hself, ?_, ?_⟩
        · exact (hother' _ A.ne).trans (Heap.get_alloc S.key)
        · exact (hother' _ (Nat.ne_of_gt (R.ne_string _ (valueAt_mem hs)))).trans Heap.get_alloc_self
      · obtain ⟨he, -, hk, -, hv⟩ := A.not_mem hx
        have X := R.stored x (mem_middle.mpr (Or.inr hx))
        exact ⟨(hother _ he).trans X.entry, (hother' _ hk).trans (Heap.get_alloc X.key),
          (hother' _ hv).trans (Heap.get_alloc X.value)⟩
    · have hkeys : (as ++ s.withValue m.strings.cells.length value :: bs).map (·.key) =
          (as ++ s :: bs).map (·.key) := by simp [Slot.withValue]
      exact hkeys ▸ R.keys
    · rw [R.hash]
      simp
  · refine ⟨.refl, fun _ _ => rfl, (Heap.Updates.of_ne (mem_entriesOf hs) hother hlen).weaken ?_, ?_⟩
    · intro a ha
      simpa [entriesOf, Slot.withValue] using ha
    · have hmem : s.valueAt ∈ stringsOf (as ++ s :: bs) ++ [m.strings.cells.length] :=
        List.mem_append_left _ (valueAt_mem hs)
      have hfreed := Heap.Updates.of_ne hmem hother' hlen'
      refine (Heap.Updates.alloc.trans hfreed).weaken ?_
      intro a ha
      rcases List.mem_append.mp (stringsOf_perm.mem_iff.mp ha) with ha | ha
      · rcases List.mem_cons.mp ha with rfl | ha
        · have hk : s.keyAt ∈ stringsOf (as ++ s :: bs) := keyAt_mem hs
          exact List.mem_append_left _ hk
        · exact List.mem_append_right _ ha
      · exact List.mem_append_left _ (stringsOf_perm.mem_iff.mpr (List.mem_append_right _ ha))

/-- The memory in which `nl_hash_add` has made an entry that is not in the table yet. -/
def HashMem.withEntry (m : HashMem) (key value : Bytes) : HashMem :=
  { m with
    entries := (m.entries.alloc ⟨some m.strings.cells.length, some (m.strings.cells.length + 1)⟩).2
    strings := ((m.strings.alloc key).2.alloc value).2
    allocs := m.allocs + 3 }

/-- The new entry, when its element is at `a`. -/
def newSlot (m : HashMem) (a : Addr) (key value : Bytes) : Slot :=
  ⟨a, m.entries.cells.length, m.strings.cells.length, m.strings.cells.length + 1, key, value⟩

/-- When there is memory for the entry and its strings, only the element of the table may be missing. -/
theorem hashAdd_made (ha : Allocates alloc m 3) (hh : m.hashes.get h = some ⟨some t, n⟩) :
    nlHashAdd alloc h key value m =
      (nlFifoPut (alloc (m.allocs + 3)) (some t) (some m.entries.cells.length) m.fifo).bind fun r =>
        let m' := { m.withEntry key value with fifo := r.2, allocs := m.allocs + 4 }
        if r.1 < 0 then do
          let m' ← m'.freeString (some (m.strings.cells.length + 1))
          let m' ← m'.freeString (some m.strings.cells.length)
          return (-1, ← m'.freeEntry m.entries.cells.length)
        else do
          let m' ← m'.setHash h ⟨some t, n + 1⟩
          return (0, m') := by
  have h0 : alloc m.allocs = true := ha 0 (by decide)
  have h1 : alloc (m.allocs + 1) = true := ha 1 (by decide)
  have h2 : alloc (m.allocs + 1 + 1) = true := ha 2 (by decide)
  have hlen : (m.strings.alloc key).2.cells.length = m.strings.cells.length + 1 := by simp [Heap.alloc]
  simp only [nlHashAdd, mallocEntry_true h0, strdup_true, h1, h2, HashMem.setEntry, Heap.set_alloc_self, hh,
    Option.bind_eq_bind, Option.map_some, Option.bind_some, hlen]
  rfl

theorem hashAdd_eq (ha : Allocates alloc m 4) (hh : m.hashes.get h = some ⟨some t, n⟩) :
    nlHashAdd alloc h key value m =
      (nlFifoPut true (some t) (some m.entries.cells.length) m.fifo).bind fun r =>
        let m' := { m.withEntry key value with fifo := r.2, allocs := m.allocs + 4 }
        if r.1 < 0 then do
          let m' ← m'.freeString (some (m.strings.cells.length + 1))
          let m' ← m'.freeString (some m.strings.cells.length)
          return (-1, ← m'.freeEntry m.entries.cells.length)
        else do
          let m' ← m'.setHash h ⟨some t, n + 1⟩
          return (0, m') := by
  have h3 : alloc (m.allocs + 3) = true := ha 3 (by decide)
  rw [hashAdd_made (fun i hi => ha i (Nat.lt_succ_of_lt hi)) hh, h3]

/-- The entry that has been made. -/
theorem withEntry_stored (m : HashMem) (a : Addr) : Stored (m.withEntry key value) (newSlot m a key value) where
  entry := Heap.get_alloc_self
  key := Heap.get_alloc Heap.get_alloc_self
  value := by
    have hlen : (m.strings.alloc key).2.cells.length = m.strings.cells.length + 1 := by simp [Heap.alloc]
    have hget : ((m.strings.alloc key).2.alloc value).2.get (m.strings.cells.length + 1) = some value := by
      rw [← hlen]
      exact Heap.get_alloc_self
    exact hget

theorem Stored.withEntry (S : Stored m s) : Stored (m.withEntry key value) s :=
  ⟨Heap.get_alloc S.entry, Heap.get_alloc (Heap.get_alloc S.key), Heap.get_alloc (Heap.get_alloc S.value)⟩

theorem hashAdd_rep (value : Bytes) (ha : Allocates alloc m 4) (R : HashRep m h t xs)
    (hlen : xs.length + 1 < 2 ^ 31) (hkey : key ∉ xs.map (·.key)) :
    ∃ m', nlHashAdd alloc h key value m = some (0, m') ∧
      HashRep m' h t (xs ++ [newSlot m m.fifo.elems.cells.length key value]) ∧
      Changes h t xs (xs ++ [newSlot m m.fifo.elems.cells.length key value]) m m' := by
  obtain ⟨fifo, hput, Rf, hF⟩ := put_rep (x := m.entries.cells.length) R.table (by rw [List.length_map]; omega)
  rw [← count_concat (y := (newSlot m m.fifo.elems.cells.length key value).node), ← List.map_singleton,
    ← List.map_append, FifoSpec.toInt_count (by simpa using hlen)] at hput
  have hneg : ¬(((xs ++ [newSlot m m.fifo.elems.cells.length key value]).map Slot.node).length : Int) < 0 := by omega
  obtain ⟨hashes, hset, hself, hother, -⟩ := Heap.set_eq_some (v := (⟨some t, xs.length + 1⟩ : Hash)) R.hash
  refine ⟨{ m.withEntry key value with fifo := fifo, allocs := m.allocs + 4, hashes := hashes }, ?_, ?_, ?_⟩
  · rw [hashAdd_eq ha R.hash, hput, Option.bind_some]
    simp only [if_neg hneg]
    have hhashes : (m.withEntry key value).hashes = m.hashes := rfl
    simp [HashMem.setHash, hhashes, hset]
  · have A : Alone (newSlot m m.fifo.elems.cells.length key value) (xs ++ []) := by
      rw [List.append_nil]
      refine ⟨fun hm => Nat.lt_irrefl _ (R.ne_entry _ hm), fun hm => Nat.lt_irrefl _ (R.ne_string _ hm), ?_, ?_⟩
      · intro hm
        exact absurd (R.ne_string _ hm) (Nat.not_lt.mpr (Nat.le_succ _))
      · exact Nat.ne_of_lt (Nat.lt_succ_self _)
    obtain ⟨hent, hstr⟩ := A.nodup ((List.append_nil xs).symm ▸ R.entries) ((List.append_nil xs).symm ▸ R.strings)
    refine ⟨⟨?_, ?_, hent, hstr, ?_⟩, by simpa using hself⟩
    · rw [List.map_append]
      exact Rf
    · intro s hs
      rcases List.mem_append.mp hs with hs | hs
      · exact (R.stored s hs).withEntry.congr (m := m.withEntry key value) rfl rfl
      · obtain rfl := List.mem_singleton.mp hs
        exact (withEntry_stored m _).congr rfl rfl
    · rw [List.map_append, List.map_singleton, ← List.concat_eq_append]
      exact R.keys.concat hkey
  · refine ⟨hF, hother, ?_, ?_⟩
    · refine Heap.Updates.alloc.weaken ?_
      intro a ha
      simpa [entriesOf, newSlot] using ha
    · refine (Heap.Updates.alloc.trans Heap.Updates.alloc).weaken ?_
      intro a ha
      simpa [stringsOf, newSlot, Slot.strs, Heap.alloc] using ha

theorem hashSet_rep (R : HashRep m h t xs) (I : IsMap xs M) (hlen : (M.set key value).size < 2 ^ 31) :
    ∃ m' xs', nlHashSet allocated (some h) (some key) (some value) m = some (0, m') ∧
      HashRep m' h t xs' ∧ IsMap xs' (M.set key value) ∧ Changes h t xs xs' m m' := by
  have hxs : xs.length < 2 ^ 31 := I.size ▸ Nat.lt_of_le_of_lt OrderedMap.size_le_set hlen
  have hfind := nlHashFind_rep key R (lt_uint hxs)
  cases hs : xs.find? (·.key = key) with
  | none =>
    have hkey := find?_none.mp hs
    have hpairs := OrderedMap.pairs_set_new (v := value) (I.keys.symm ▸ hkey)
    have hlen' : xs.length + 1 < 2 ^ 31 := by
      rw [OrderedMap.size, hpairs, I] at hlen
      simpa using hlen
    obtain ⟨m', hadd, R', C⟩ := hashAdd_rep value allocates_allocated R hlen' hkey
    refine ⟨m', _, ?_, R', ?_, C⟩
    · rw [hs] at hfind
      simpa [nlHashSet, hfind] using hadd
    · rw [IsMap, hpairs, I, List.map_append]
      rfl
  | some s =>
    obtain ⟨as, bs, rfl, hk⟩ := find?_some hs
    rw [hs] at hfind
    obtain ⟨m', hset, R', C⟩ := hashSet_found value (rfl : allocated m.allocs = true) R hfind
    refine ⟨m', _, hset, R', ?_, C⟩
    have hsplit := hk ▸ I.split
    rw [IsMap, OrderedMap.pairs_set_split hsplit, List.map_append, List.map_cons, ← hk]
    rfl

/-! ### `nl_hash_remove` and `nl_hash_clear` -/

theorem freeString_eq {a : Addr} {v : Bytes} (hg : m.strings.get a = some v) :
    ∃ strings, m.freeString (some a) = some { m with strings := strings } ∧
      (∀ b, b ≠ a → strings.get b = m.strings.get b) ∧ strings.cells.length = m.strings.cells.length := by
  obtain ⟨strings, hf, -, hne, hlen⟩ := Heap.free_eq_some hg
  exact ⟨strings, by simp [HashMem.freeString, hf], hne, hlen⟩

/-- An entry that is in no table any more is freed with its strings. -/
theorem destroyEntry_eq (S : Stored m s) (hne : s.keyAt ≠ s.valueAt) :
    ∃ strings entries, nlHashDestroyEntry s.entry m = some { m with strings := strings, entries := entries } ∧
      (∀ a, a ≠ s.keyAt → a ≠ s.valueAt → strings.get a = m.strings.get a) ∧
      (∀ a, a ≠ s.entry → entries.get a = m.entries.get a) ∧
      strings.cells.length = m.strings.cells.length ∧ entries.cells.length = m.entries.cells.length := by
  obtain ⟨strings₁, hf₁, hne₁, hlen₁⟩ := freeString_eq S.key
  have hv : ({ m with strings := strings₁ } : HashMem).strings.get s.valueAt = some s.value :=
    (hne₁ _ hne.symm).trans S.value
  obtain ⟨strings₂, hf₂, hne₂, hlen₂⟩ := freeString_eq hv
  obtain ⟨entries, hfe, -, hnee, hlene⟩ := Heap.free_eq_some S.entry
  refine ⟨strings₂, entries, ?_, fun a hk hv => (hne₂ a hv).trans (hne₁ a hk), hnee, hlen₂.trans hlen₁, hlene⟩
  simp [nlHashDestroyEntry, S.entry, hf₁, hf₂, HashMem.freeEntry, hfe]

/-- An entry that has left the table is destroyed. -/
theorem TableRep.drop (h : Addr) (T : TableRep m t (as ++ s :: bs)) {fifo : FifoMem Addr}
    (Rf : Rep fifo t ((as ++ bs).map Slot.node)) (hF : Frame [t] m.fifo fifo) :
    ∃ m', nlHashDestroyEntry s.entry { m with fifo := fifo } = some m' ∧ TableRep m' t (as ++ bs) ∧
      Changes h t (as ++ s :: bs) (as ++ bs) m m' ∧ m'.hashes = m.hashes ∧ m'.fifo = fifo := by
  obtain ⟨A, hes, hss⟩ := T.alone
  have hs : s ∈ as ++ s :: bs := mem_middle.mpr (Or.inl rfl)
  have S : Stored { m with fifo := fifo } s := (T.stored s hs).congr rfl rfl
  obtain ⟨strings, entries, hdestroy, hstr, hent, hlens, hlene⟩ := destroyEntry_eq S A.ne
  refine ⟨{ m with fifo := fifo, strings := strings, entries := entries }, hdestroy, ?_, ?_, rfl, rfl⟩
  · refine ⟨Rf, ?_, hes, hss, ?_⟩
    · intro x hx
      obtain ⟨he, hkk, hkv, hvk, hvv⟩ := A.not_mem hx
      have X := T.stored x (mem_middle.mpr (Or.inr hx))
      exact ⟨(hent _ he).trans X.entry, (hstr _ hkk hkv).trans X.key, (hstr _ hvk hvv).trans X.value⟩
    · have hsub : (as ++ bs).Sublist (as ++ s :: bs) := (List.Sublist.refl as).append (List.sublist_cons_self s bs)
      exact T.keys.sublist (hsub.map _)
  · refine ⟨hF, fun _ _ => rfl, ?_, ?_⟩
    · refine (Heap.Updates.of_ne (mem_entriesOf hs) hent hlene).weaken ?_
      intro a ha
      exact entriesOf_perm.mem_iff.mpr (List.mem_cons_of_mem _ ha)
    · refine ⟨?_, Nat.le_of_eq hlens.symm, fun a ha => Or.inl ?_⟩
      · intro a v ha hfp
        exact (hstr a (fun hk => hfp (hk ▸ keyAt_mem hs)) fun hv => hfp (hv ▸ valueAt_mem hs)).trans ha
      · exact stringsOf_perm.mem_iff.mpr (List.mem_append_right _ ha)

/-- The element of an entry is the first one with that entry. -/
theorem eraseP_entry (A : Alone s (as ++ bs)) :
    ((as ++ s :: bs).map Slot.node).eraseP (·.2 == s.entry) = (as ++ bs).map Slot.node := by
  have hno : ∀ b ∈ as.map Slot.node, ¬(b.2 == s.entry) = true := by
    intro b hb
    obtain ⟨x, hx, rfl⟩ := List.mem_map.mp hb
    simpa [Slot.node] using (A.not_mem (List.mem_append_left _ hx)).1
  rw [List.map_append, List.eraseP_append_right _ hno, List.map_append]
  simp [Slot.node]

theorem hashRemove_rep (key : Bytes) (R : HashRep m h t xs) (I : IsMap xs M) (hlen : xs.length < 2 ^ 32) :
    ∃ m' xs', nlHashRemove (some h) (some key) m = some (0, m') ∧
      HashRep m' h t xs' ∧ IsMap xs' (M.remove key) ∧ Changes h t xs xs' m m' := by
  have hfind := nlHashFind_rep key R hlen
  cases hs : xs.find? (·.key = key) with
  | none =>
    rw [hs] at hfind
    refine ⟨m, xs, by simp [nlHashRemove, hfind], R, ?_, .refl⟩
    rw [IsMap, OrderedMap.pairs_remove_of_not_mem (I.keys.symm ▸ find?_none.mp hs), I]
  | some s =>
    obtain ⟨as, bs, rfl, hk⟩ := find?_some hs
    rw [hs] at hfind
    obtain ⟨A, -, -⟩ := R.alone
    obtain ⟨fifo, hremove, Rf, hF⟩ := remove_rep (x := s.entry) R.table (by rwa [List.length_map])
    have hmem : s.entry ∈ ((as ++ s :: bs).map Slot.node).map (·.2) := by simp [Slot.node]
    rw [if_pos hmem] at hremove
    rw [eraseP_entry A] at Rf
    obtain ⟨m₁, hdestroy, T, C, hhashes, -⟩ := R.drop h Rf hF
    have hhash : m₁.hashes.get h = some ⟨some t, (as ++ s :: bs).length⟩ := hhashes ▸ R.hash
    obtain ⟨hashes, hset, hself, hother, -⟩ :=
      Heap.set_eq_some (v := (⟨some t, (as ++ s :: bs).length - 1⟩ : Hash)) hhash
    refine ⟨{ m₁ with hashes := hashes }, as ++ bs, ?_, ⟨⟨T.table, fun x hx => (T.stored x hx).congr rfl rfl, T.entries,
      T.strings, T.keys⟩, ?_⟩, ?_, ⟨C.fifo, ?_, C.entries, C.strings⟩⟩
    · simp only [nlHashRemove, hfind, R.hash, hremove, hdestroy, hhash, hset, HashMem.setHash, Option.bind_eq_bind,
        Option.bind_some, Option.map_some, ne_eq, not_true_eq_false, if_false]
      rfl
    · rw [hself]
      simp
    · rw [IsMap, OrderedMap.pairs_remove_split (hk ▸ I.split), List.map_append]
    · intro a ha
      exact (hother a ha).trans (C.hashes a ha)

theorem clearEntries_rep {fuel : Nat} (h : Addr) (T : TableRep m t xs) (hlen : xs.length < 2 ^ 32)
    (hfuel : xs.length < fuel) : ∃ m', clearEntries (some t) fuel m = some m' ∧ TableRep m' t [] ∧
      Changes h t xs [] m m' ∧ m'.hashes = m.hashes := by
  induction xs generalizing m fuel with
  | nil =>
    obtain ⟨fuel, rfl⟩ := exists_fuel hfuel
    refine ⟨m, ?_, T, .refl, rfl⟩
    simp [clearEntries, get_nil T.table]
  | cons s xs ih =>
    obtain ⟨fuel, rfl⟩ := exists_fuel hfuel
    have Tt : Rep m.fifo t (s.node :: xs.map Slot.node) := T.table
    obtain ⟨fifo, hget, Rf, hF⟩ := get_cons Tt (by simpa using hlen)
    have T₀ : TableRep m t ([] ++ s :: xs) := T
    obtain ⟨m₁, hdestroy, T₁, C₁, hhashes₁, -⟩ := T₀.drop h Rf hF
    obtain ⟨m', hclear, T', C', hhashes'⟩ := ih T₁ (Nat.lt_of_succ_lt hlen) (Nat.lt_of_succ_lt_succ hfuel)
    have hentry : s.node.2 = s.entry := rfl
    refine ⟨m', ?_, T', C₁.trans C', hhashes'.trans hhashes₁⟩
    simp [clearEntries, hget, hentry, hdestroy, hclear]

theorem hashClear_rep (R : HashRep m h t xs) (hlen : xs.length < 2 ^ 32) :
    ∃ m', nlHashClear (some h) m = some m' ∧ HashRep m' h t [] ∧ Changes h t xs [] m m' := by
  obtain ⟨m₁, hclear, T, C, hhashes⟩ := clearEntries_rep h R.toTableRep hlen R.length_lt_bound
  have hhash : m₁.hashes.get h = some ⟨some t, xs.length⟩ := hhashes ▸ R.hash
  obtain ⟨hashes, hset, hself, hother, -⟩ := Heap.set_eq_some (v := (⟨some t, 0⟩ : Hash)) hhash
  refine ⟨{ m₁ with hashes := hashes }, ?_, ⟨⟨T.table, nofun, T.entries, T.strings, T.keys⟩, hself⟩,
    ⟨C.fifo, fun a ha => (hother a ha).trans (C.hashes a ha), C.entries, C.strings⟩⟩
  simp [nlHashClear, R.hash, hclear, hhash, HashMem.setHash, hset]

/-! ### A table that is too long for an `int` -/

/-- A new cell can be freed again, and then the others are as before. -/
theorem free_alloc {α : Type} (heap : Heap α) (v : α) :
    ∃ heap', (heap.alloc v).2.free heap.cells.length = some heap' ∧ heap'.get = heap.get := by
  obtain ⟨heap', hfree, -⟩ := Heap.free_eq_some (Heap.get_alloc_self (h := heap) (v := v))
  exact ⟨heap', hfree, Heap.get_free_alloc hfree⟩

/-- The entry and its strings are freed, the last one first. -/
theorem free_withEntry (m : HashMem) (key value : Bytes) (fifo : FifoMem Addr) (k : Nat) :
    ∃ m₁ m₂ m₃, { m.withEntry key value with fifo := fifo, allocs := k }.freeString
        (some (m.strings.cells.length + 1)) = some m₁ ∧
      m₁.freeString (some m.strings.cells.length) = some m₂ ∧ m₂.freeEntry m.entries.cells.length = some m₃ ∧
      m₃.fifo = fifo ∧ m₃.hashes = m.hashes ∧ m₃.strings.get = m.strings.get ∧ m₃.entries.get = m.entries.get := by
  have hlen : (m.strings.alloc key).2.cells.length = m.strings.cells.length + 1 := by simp [Heap.alloc]
  obtain ⟨strings₁, hvalue, hstrings₁⟩ := free_alloc (m.strings.alloc key).2 value
  rw [hlen] at hvalue
  have hkey : strings₁.get m.strings.cells.length = some key := by
    rw [hstrings₁]
    exact Heap.get_alloc_self
  obtain ⟨strings₂, hkey, -⟩ := Heap.free_eq_some hkey
  have hstrings₂ : strings₂.get = m.strings.get := by
    rw [← Heap.outside_nil, Heap.outside_free hkey, Heap.outside_of_get hstrings₁, Heap.outside_alloc, Heap.outside_nil]
  obtain ⟨entries, hentry, hentries⟩ :=
    free_alloc m.entries ⟨some m.strings.cells.length, some (m.strings.cells.length + 1)⟩
  refine ⟨{ m.withEntry key value with fifo := fifo, allocs := k, strings := strings₁ },
    { m.withEntry key value with fifo := fifo, allocs := k, strings := strings₂ },
    { m with fifo := fifo, allocs := k, strings := strings₂, entries := entries }, ?_, ?_, ?_, rfl, rfl, hstrings₂,
    hentries⟩
  · simp [HashMem.withEntry, HashMem.freeString, hvalue]
  · simp [HashMem.withEntry, HashMem.freeString, hkey]
  · simp [HashMem.withEntry, HashMem.freeEntry, hentry]

theorem hashSet_add (hfind : nlHashFind h key m = some none) :
    nlHashSet alloc (some h) (some key) (some value) m = nlHashAdd alloc h key value m := by simp [nlHashSet, hfind]

/-- The `int` that `nl_fifo_put` returns is negative. `nl_hash_add` takes that for a failure, frees the entry and does
    not count it, but the table has it. -/
theorem hashSet_full (value : Bytes) (ha : Allocates alloc m 4) (R : HashRep m h t xs)
    (hfull : 2 ^ 31 ≤ xs.length + 1) (hlen : xs.length + 1 < 2 ^ 32) (hkey : key ∉ xs.map (·.key)) :
    ∃ m', nlHashSet alloc (some h) (some key) (some value) m = some (-1, m') ∧ m'.hashes = m.hashes ∧
      Rep m'.fifo t ((xs ++ [newSlot m m.fifo.elems.cells.length key value]).map Slot.node) ∧
      m'.entries.get m.entries.cells.length = none := by
  have hfind := nlHashFind_rep key R (Nat.lt_of_succ_lt hlen)
  have hnone : xs.find? (·.key = key) = none := find?_none.mpr hkey
  rw [hnone] at hfind
  obtain ⟨fifo, hput, Rf, -⟩ := put_rep (x := m.entries.cells.length) R.table
    (by rw [List.length_map]; exact Nat.lt_of_succ_lt hlen)
  rw [← count_concat (y := (newSlot m m.fifo.elems.cells.length key value).node)] at hput
  obtain ⟨r, hput, hneg⟩ : ∃ r, nlFifoPut true (some t) (some m.entries.cells.length) m.fifo = some (r, fifo) ∧ r < 0 :=
    ⟨_, hput, FifoSpec.toInt_count_neg (by simpa using hfull) (by simpa using hlen)⟩
  obtain ⟨m₁, m₂, m', hvalue, hkey, hentry, hfifo, hhashes, -, hentries⟩ :=
    free_withEntry m key value fifo (m.allocs + 4)
  refine ⟨m', ?_, hhashes, ?_, ?_⟩
  · rw [hashSet_add hfind, hashAdd_eq ha R.hash, hput, Option.bind_some]
    simp only [if_pos hneg]
    simp [hvalue, hkey, hentry]
  · rw [hfifo, List.map_append]
    exact Rf
  · rw [hentries]
    simp [Heap.get]

/-! ### `nl_hash_iterate` -/

/-- A callback that leaves the memory alone. -/
def pureCallback {σ : Type} (f : σ → Bytes → Bytes → Int × σ) : HashCallback σ := fun d k v m =>
  some ((f d k v).1, (f d k v).2, m)

/-- The first steps of a loop over the entries, up to the callback. -/
theorem iterateEntries_cons {σ : Type} {callback : HashCallback σ} {fuel : Nat} {d : σ}
    (T : TableRep m t (as ++ s :: bs)) (hlen : (as ++ s :: bs).length < 2 ^ 32) :
    iterateEntries (some t) callback (fuel + 1) (.ofPtr (lastOf (as.map Slot.node))) d m =
      (callback d s.key s.value m).bind fun r =>
        if r.1 ≠ 0 then some r.2
        else iterateEntries (some t) callback fuel (.ofPtr (lastOf ((as ++ [s]).map Slot.node))) r.2.1 r.2.2 := by
  have S := T.stored s (mem_middle.mpr (Or.inl rfl))
  simp only [iterateEntries, next_entry T hlen, lastOf_passed, List.head?_cons, Option.map_some, S.entry, S.key,
    S.value, Heap.deref_some, Option.bind_eq_bind, Option.bind_some]
  rfl

theorem iterateEntries_nil {σ : Type} {callback : HashCallback σ} {fuel : Nat} {d : σ}
    (T : TableRep m t as) (hlen : as.length < 2 ^ 32) :
    iterateEntries (some t) callback (fuel + 1) (.ofPtr (lastOf (as.map Slot.node))) d m = some (d, m) := by
  have T' : TableRep m t (as ++ []) := (List.append_nil as).symm ▸ T
  have hlen' : (as ++ []).length < 2 ^ 32 := (List.append_nil as).symm ▸ hlen
  simp [iterateEntries, next_entry T' hlen']

theorem iterateEntries_pure {σ : Type} {f : σ → Bytes → Bytes → Int × σ} {fuel : Nat} {d : σ}
    (T : TableRep m t (as ++ bs)) (hlen : (as ++ bs).length < 2 ^ 32) (hfuel : bs.length < fuel) :
    iterateEntries (some t) (pureCallback f) fuel (.ofPtr (lastOf (as.map Slot.node))) d m =
      some (OrderedMap.visit f (bs.map Slot.pair) d, m) := by
  induction bs generalizing as fuel d with
  | nil =>
    obtain ⟨fuel, rfl⟩ := exists_fuel hfuel
    rw [List.append_nil] at T hlen
    exact iterateEntries_nil T hlen
  | cons b bs ih =>
    obtain ⟨fuel, rfl⟩ := exists_fuel hfuel
    rw [iterateEntries_cons T hlen, pureCallback, Option.bind_some]
    have happ : as ++ b :: bs = (as ++ [b]) ++ bs := List.append_cons ..
    rw [happ] at T hlen
    have hrec := ih (d := (f d b.key b.value).2) T hlen (Nat.lt_of_succ_lt_succ hfuel)
    by_cases hz : (f d b.key b.value).1 = 0
    · rw [if_neg (not_not_intro hz)]
      simp only [hrec, List.map_cons, Slot.pair, OrderedMap.visit, if_pos hz]
    · rw [if_pos hz]
      simp only [List.map_cons, Slot.pair, OrderedMap.visit, if_neg hz]

theorem hashIterate_rep {σ : Type} (f : σ → Bytes → Bytes → Int × σ) (d : σ) (R : HashRep m h t xs) (I : IsMap xs M)
    (hlen : xs.length < 2 ^ 32) :
    nlHashIterate (some h) (pureCallback f) d m = some (OrderedMap.visit f M.pairs d, m) := by
  have T : TableRep m t ([] ++ xs) := R.toTableRep
  have hiter := iterateEntries_pure (f := f) (d := d) T hlen R.length_lt_bound
  simp only [nlHashIterate, R.hash, Option.bind_eq_bind, Option.bind_some]
  rw [I]
  exact hiter

end
end Nlutils
