import Nlutils.Fifo.Operations
import Nlutils.Hash.Code
import Nlutils.Lib.OrderedMap

/-! # The map that a hash holds

`TableRep m t xs`: the table at `t` has the entries `xs`, each with the addresses of all its parts; `HashRep` adds
the hash. A function of `hash.c` on one hash changes nothing that another one owns (`Changes`). -/

namespace Nlutils
open Lib

/-- An entry of a hash: the element of its table, the entry, the two strings, and what is in them. -/
structure Slot where
  elem : Addr
  entry : Addr
  keyAt : Addr
  valueAt : Addr
  key : Bytes
  value : Bytes

namespace Slot

def node (s : Slot) : Addr × Addr := (s.elem, s.entry)

def pair (s : Slot) : Bytes × Bytes := (s.key, s.value)

def strs (s : Slot) : List Addr := [s.keyAt, s.valueAt]

end Slot

def entriesOf (xs : List Slot) : List Addr := xs.map (·.entry)

def stringsOf (xs : List Slot) : List Addr := xs.flatMap Slot.strs

structure Stored (m : HashMem) (s : Slot) : Prop where
  entry : m.entries.get s.entry = some ⟨some s.keyAt, some s.valueAt⟩
  key : m.strings.get s.keyAt = some s.key
  value : m.strings.get s.valueAt = some s.value

structure TableRep (m : HashMem) (t : Addr) (xs : List Slot) : Prop where
  table : Rep m.fifo t (xs.map Slot.node)
  stored : ∀ s ∈ xs, Stored m s
  entries : (entriesOf xs).Nodup
  strings : (stringsOf xs).Nodup
  keys : (xs.map (·.key)).Nodup

structure HashRep (m : HashMem) (h t : Addr) (xs : List Slot) : Prop extends TableRep m t xs where
  hash : m.hashes.get h = some ⟨some t, xs.length⟩

/-- The hash at `h` goes from the entries `xs` to `xs'`, and nothing else changes. -/
structure Changes (h t : Addr) (xs xs' : List Slot) (m m' : HashMem) : Prop where
  fifo : Frame [t] m.fifo m'.fifo
  hashes : ∀ a, a ≠ h → m'.hashes.get a = m.hashes.get a
  entries : m.entries.Updates (entriesOf xs) (entriesOf xs') m'.entries
  strings : m.strings.Updates (stringsOf xs) (stringsOf xs') m'.strings

/-- A hash and what it owns. -/
structure HashAt where
  h : Addr
  t : Addr
  slots : List Slot

structure Apart (a b : HashAt) : Prop where
  hash : a.h ≠ b.h
  table : a.t ≠ b.t
  entries : ∀ e ∈ entriesOf a.slots, e ∉ entriesOf b.slots
  strings : ∀ e ∈ stringsOf a.slots, e ∉ stringsOf b.slots

section
variable {m m' m'' : HashMem} {h t h' t' : Addr} {xs xs' xs'' ys : List Slot} {s : Slot}

theorem Apart.symm {a b : HashAt} (A : Apart a b) : Apart b a :=
  ⟨A.hash.symm, A.table.symm, fun e he he' => A.entries e he' he, fun e he he' => A.strings e he' he⟩

theorem Changes.refl : Changes h t xs xs m m :=
  ⟨.refl, fun _ _ => rfl, .refl fun _ ha => ha, .refl fun _ ha => ha⟩

theorem Changes.trans (C : Changes h t xs xs' m m') (C' : Changes h t xs' xs'' m' m'') : Changes h t xs xs'' m m'' :=
  ⟨C.fifo.trans C'.fifo, fun a ha => (C'.hashes a ha).trans (C.hashes a ha), C.entries.trans C'.entries,
    C.strings.trans C'.strings⟩

theorem mem_entriesOf (hs : s ∈ xs) : s.entry ∈ entriesOf xs := List.mem_map_of_mem hs

theorem keyAt_mem (hs : s ∈ xs) : s.keyAt ∈ stringsOf xs := List.mem_flatMap.mpr ⟨s, hs, List.mem_cons_self⟩

theorem valueAt_mem (hs : s ∈ xs) : s.valueAt ∈ stringsOf xs :=
  List.mem_flatMap.mpr ⟨s, hs, List.mem_cons_of_mem _ List.mem_cons_self⟩

theorem TableRep.get_entry (R : TableRep m t xs) : ∀ a ∈ entriesOf xs, ∃ e, m.entries.get a = some e := by
  intro a ha
  obtain ⟨s, hs, rfl⟩ := List.mem_map.mp ha
  exact ⟨_, (R.stored s hs).entry⟩

theorem TableRep.get_string (R : TableRep m t xs) : ∀ a ∈ stringsOf xs, ∃ e, m.strings.get a = some e := by
  intro a ha
  obtain ⟨s, hs, ha⟩ := List.mem_flatMap.mp ha
  rcases List.mem_cons.mp ha with rfl | ha
  · exact ⟨_, (R.stored s hs).key⟩
  · obtain rfl := List.mem_singleton.mp ha
    exact ⟨_, (R.stored s hs).value⟩

/-- An entry whose parts are not among those that may change. -/
theorem Stored.keep (S : Stored m s) {fp fp' gp gp' : List Addr} (E : m.entries.Updates fp fp' m'.entries)
    (U : m.strings.Updates gp gp' m'.strings) (he : s.entry ∉ fp) (hk : s.keyAt ∉ gp) (hv : s.valueAt ∉ gp) :
    Stored m' s :=
  ⟨E.keeps _ _ S.entry he, U.keeps _ _ S.key hk, U.keeps _ _ S.value hv⟩

theorem Stored.congr (S : Stored m s) (he : m'.entries = m.entries) (hs : m'.strings = m.strings) : Stored m' s :=
  ⟨he ▸ S.entry, hs ▸ S.key, hs ▸ S.value⟩

/-- A hash that is apart from the one that changes. -/
theorem HashRep.frame (R : HashRep m h' t' ys) (C : Changes h t xs xs' m m') (A : Apart ⟨h, t, xs⟩ ⟨h', t', ys⟩) :
    HashRep m' h' t' ys where
  hash := (C.hashes h' A.hash.symm).trans R.hash
  table := R.table.frame C.fifo (by simpa using A.table.symm)
  stored s hs := (R.stored s hs).keep C.entries C.strings (fun he => A.entries _ he (mem_entriesOf hs))
    (fun hk => A.strings _ hk (keyAt_mem hs)) fun hv => A.strings _ hv (valueAt_mem hs)
  entries := R.entries
  strings := R.strings
  keys := R.keys

/-- It stays apart. -/
theorem Apart.change (A : Apart ⟨h, t, xs⟩ ⟨h', t', ys⟩) (R : HashRep m h' t' ys) (C : Changes h t xs xs' m m') :
    Apart ⟨h, t, xs'⟩ ⟨h', t', ys⟩ :=
  ⟨A.hash, A.table, C.entries.disjoint R.get_entry A.entries, C.strings.disjoint R.get_string A.strings⟩

theorem TableRep.length_lt_bound (R : TableRep m t xs) : xs.length < m.fifo.bound := by
  have hlt := R.table.length_lt_bound
  rwa [List.length_map] at hlt

/-! ### Numbers of entries -/

theorem lt_uint {n : Nat} (h : n < 2 ^ 31) : n < 2 ^ 32 := Nat.lt_trans h (by decide)

theorem lt_int {n : Nat} (h : n ≤ 2 ^ 31 - 1) : n < 2 ^ 31 := Nat.lt_of_le_pred (by decide) h

/-- A loop over `n` entries that can make more than `n` turns can make one. -/
theorem exists_fuel {n fuel : Nat} (h : n < fuel) : ∃ k, fuel = k + 1 :=
  Nat.exists_eq_succ_of_ne_zero (Nat.ne_of_gt (Nat.lt_of_le_of_lt (Nat.zero_le n) h))

/-! ### One entry among the others -/

theorem entriesOf_perm {as bs : List Slot} : (entriesOf (as ++ s :: bs)).Perm (s.entry :: entriesOf (as ++ bs)) :=
  List.perm_middle.map _

theorem stringsOf_perm {as bs : List Slot} : (stringsOf (as ++ s :: bs)).Perm (s.strs ++ stringsOf (as ++ bs)) :=
  List.perm_middle.flatMap_right _

/-- The addresses of one entry are not those of the others. -/
structure Alone (s : Slot) (xs : List Slot) : Prop where
  entry : s.entry ∉ entriesOf xs
  key : s.keyAt ∉ stringsOf xs
  value : s.valueAt ∉ stringsOf xs
  ne : s.keyAt ≠ s.valueAt

theorem TableRep.alone {as bs : List Slot} (R : TableRep m t (as ++ s :: bs)) :
    Alone s (as ++ bs) ∧ (entriesOf (as ++ bs)).Nodup ∧ (stringsOf (as ++ bs)).Nodup := by
  obtain ⟨he, hes⟩ := List.nodup_cons.mp (entriesOf_perm.nodup_iff.mp R.entries)
  obtain ⟨hs, hss, hd⟩ := List.nodup_append.mp (stringsOf_perm.nodup_iff.mp R.strings)
  refine ⟨⟨he, ?_, ?_, ?_⟩, hes, hss⟩
  · intro hk
    exact hd _ List.mem_cons_self _ hk rfl
  · intro hv
    exact hd _ (List.mem_cons_of_mem _ List.mem_cons_self) _ hv rfl
  · intro hne
    exact (List.nodup_cons.mp hs).1 (List.mem_singleton.mpr hne)

theorem Alone.nodup {as bs : List Slot} (A : Alone s (as ++ bs)) (he : (entriesOf (as ++ bs)).Nodup)
    (hs : (stringsOf (as ++ bs)).Nodup) : (entriesOf (as ++ s :: bs)).Nodup ∧ (stringsOf (as ++ s :: bs)).Nodup := by
  refine ⟨entriesOf_perm.nodup_iff.mpr (List.nodup_cons.mpr ⟨A.entry, he⟩), stringsOf_perm.nodup_iff.mpr ?_⟩
  refine List.nodup_cons.mpr ⟨?_, List.nodup_cons.mpr ⟨A.value, hs⟩⟩
  intro hk
  rcases List.mem_cons.mp hk with hk | hk
  · exact A.ne hk
  · exact A.key hk

/-- The other entries have other parts. -/
theorem Alone.not_mem {x : Slot} (A : Alone s xs) (hx : x ∈ xs) :
    x.entry ≠ s.entry ∧ x.keyAt ≠ s.keyAt ∧ x.keyAt ≠ s.valueAt ∧ x.valueAt ≠ s.keyAt ∧ x.valueAt ≠ s.valueAt :=
  ⟨fun he => A.entry (he ▸ mem_entriesOf hx), fun he => A.key (he ▸ keyAt_mem hx),
    fun he => A.value (he ▸ keyAt_mem hx), fun he => A.key (he ▸ valueAt_mem hx),
    fun he => A.value (he ▸ valueAt_mem hx)⟩

theorem mem_middle {α : Type} {x a : α} {as bs : List α} : x ∈ as ++ a :: bs ↔ x = a ∨ x ∈ as ++ bs := by
  rw [List.perm_middle.mem_iff, List.mem_cons]

/-- A new address is not that of a string of the hash. -/
theorem TableRep.ne_string (R : TableRep m t xs) : ∀ a ∈ stringsOf xs, a < m.strings.cells.length := by
  intro a ha
  obtain ⟨v, hv⟩ := R.get_string a ha
  exact Heap.lt_of_get hv

theorem TableRep.ne_entry (R : TableRep m t xs) : ∀ a ∈ entriesOf xs, a < m.entries.cells.length := by
  intro a ha
  obtain ⟨v, hv⟩ := R.get_entry a ha
  exact Heap.lt_of_get hv

/-! ### The map -/

/-- The entries are those of a map, in its order. -/
def IsMap (xs : List Slot) (M : OrderedMap Bytes Bytes) : Prop := M.pairs = xs.map Slot.pair

section
variable {M : OrderedMap Bytes Bytes}

theorem IsMap.keys (I : IsMap xs M) : M.keys = xs.map (·.key) := by
  rw [OrderedMap.keys, I, List.map_map]
  rfl

theorem IsMap.split {as bs : List Slot} (I : IsMap (as ++ s :: bs) M) :
    M.pairs = as.map Slot.pair ++ (s.key, s.value) :: bs.map Slot.pair := by
  rw [I, List.map_append]
  rfl

theorem IsMap.size (I : IsMap xs M) : M.size = xs.length := by rw [OrderedMap.size, I, List.length_map]

end

end
end Nlutils
