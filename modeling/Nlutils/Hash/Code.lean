import Nlutils.Fifo.Code
import Nlutils.Kvp.Code

/-! # The functions of `hash.c`

The table of a hash is a fifo of its entries. Strings that a caller passes are given by their bytes; those that the
hash owns are cells of a heap. `alloc` says which of the allocations get memory. -/

namespace Nlutils
open Lib

/-- `struct nl_hash_entry`, without its unused field `hash`. -/
structure HashEntry where
  key : Option Addr := none
  value : Option Addr := none
  deriving DecidableEq, Repr

/-- `struct nl_hash` -/
structure Hash where
  table : Option Addr := none
  count : Nat := 0
  deriving DecidableEq, Repr

structure HashMem where
  fifo : FifoMem Addr := {}
  strings : Heap Bytes := {}
  entries : Heap HashEntry := {}
  hashes : Heap Hash := {}
  /-- How often memory has been asked for. -/
  allocs : Nat := 0
  deriving DecidableEq, Repr

namespace HashMem

def strdup (alloc : Nat → Bool) (s : Bytes) (m : HashMem) : Option Addr × HashMem :=
  let new := m.strings.alloc s
  if alloc m.allocs then (some new.1, { m with strings := new.2, allocs := m.allocs + 1 })
  else (none, { m with allocs := m.allocs + 1 })

def mallocEntry (alloc : Nat → Bool) (m : HashMem) : Option Addr × HashMem :=
  let new := m.entries.alloc {}
  if alloc m.allocs then (some new.1, { m with entries := new.2, allocs := m.allocs + 1 })
  else (none, { m with allocs := m.allocs + 1 })

def setEntry (a : Addr) (e : HashEntry) (m : HashMem) : Option HashMem :=
  (m.entries.set a e).map fun entries => { m with entries := entries }

def freeEntry (a : Addr) (m : HashMem) : Option HashMem :=
  (m.entries.free a).map fun entries => { m with entries := entries }

def freeString (p : Option Addr) (m : HashMem) : Option HashMem :=
  match p with
  | none => some m
  | some a => (m.strings.free a).map fun strings => { m with strings := strings }

def setHash (a : Addr) (h : Hash) (m : HashMem) : Option HashMem :=
  (m.hashes.set a h).map fun hashes => { m with hashes := hashes }

def freeHash (a : Addr) (m : HashMem) : Option HashMem :=
  (m.hashes.free a).map fun hashes => { m with hashes := hashes }

end HashMem

/-- The loop of `nl_hash_find`. -/
def findEntry (table : Option Addr) (key : Bytes) (m : HashMem) : Nat → FifoIter → Option (Option Addr)
  | 0, _ => none
  | fuel + 1, iter => do
    let (entry, iter) ← nlFifoNext table iter m.fifo
    match entry with
    | none => return none
    | some a =>
      let e ← m.entries.get a
      let k ← m.strings.deref e.key
      if k = key then return some a else findEntry table key m fuel iter

def nlHashFind (hash : Addr) (key : Bytes) (m : HashMem) : Option (Option Addr) := do
  let h ← m.hashes.get hash
  findEntry h.table key m m.fifo.bound .null

/-- The string that `nl_hash_get` returns. -/
def nlHashGet (hash : Option Addr) (key : Option Bytes) (m : HashMem) : Option (Option Bytes) :=
  match hash, key with
  | some hash, some key => do
    match ← nlHashFind hash key m with
    | none => return none
    | some a =>
      let e ← m.entries.get a
      return some (← m.strings.deref e.value)
  | _, _ => some none

def nlHashAdd (alloc : Nat → Bool) (hash : Addr) (key value : Bytes) (m : HashMem) : Option (Int × HashMem) :=
  match m.mallocEntry alloc with
  | (none, m) => some (-1, m)
  | (some entry, m) =>
    match m.strdup alloc key with
    | (none, m) => do return (-1, ← m.freeEntry entry)
    | (some k, m) => do
      let m ← m.setEntry entry { key := some k }
      match m.strdup alloc value with
      | (none, m) =>
        let m ← m.freeString (some k)
        return (-1, ← m.freeEntry entry)
      | (some v, m) =>
        let m ← m.setEntry entry { key := some k, value := some v }
        let h ← m.hashes.get hash
        let (r, fifo) ← nlFifoPut (alloc m.allocs) h.table (some entry) m.fifo
        let m := { m with fifo := fifo, allocs := m.allocs + 1 }
        if r < 0 then
          let m ← m.freeString (some v)
          let m ← m.freeString (some k)
          return (-1, ← m.freeEntry entry)
        let m ← m.setHash hash { h with count := h.count + 1 }
        return (0, m)

def nlHashSet (alloc : Nat → Bool) (hash : Option Addr) (key value : Option Bytes) (m : HashMem) :
    Option (Int × HashMem) :=
  match hash, key, value with
  | some hash, some key, some value => do
    match ← nlHashFind hash key m with
    | some entry =>
      match m.strdup alloc value with
      | (none, m) => return (-1, m)
      | (some newval, m) =>
        let e ← m.entries.get entry
        let m ← m.setEntry entry { e with value := some newval }
        return (0, ← m.freeString e.value)
    | none => nlHashAdd alloc hash key value m
  | _, _, _ => some (-1, m)

def nlHashDestroyEntry (entry : Addr) (m : HashMem) : Option HashMem := do
  let e ← m.entries.get entry
  let m ← m.freeString e.key
  let m ← m.freeString e.value
  m.freeEntry entry

def nlHashRemove (hash : Option Addr) (key : Option Bytes) (m : HashMem) : Option (Int × HashMem) :=
  match hash, key with
  | some hash, some key => do
    match ← nlHashFind hash key m with
    | none => return (0, m)
    | some entry =>
      let h ← m.hashes.get hash
      let (r, fifo) ← nlFifoRemove h.table (some entry) m.fifo
      let m := { m with fifo := fifo }
      if r ≠ 0 then return (-1, m)
      let m ← nlHashDestroyEntry entry m
      let h ← m.hashes.get hash
      let m ← m.setHash hash { h with count := h.count - 1 }
      return (0, m)
  | _, _ => some (-1, m)

/-- A callback for `nl_hash_iterate`: what it returns, and what it makes of its data and of the memory. -/
abbrev HashCallback (σ : Type) := σ → Bytes → Bytes → HashMem → Option (Int × σ × HashMem)

/-- The loop of `nl_hash_iterate`. -/
def iterateEntries {σ : Type} (table : Option Addr) (callback : HashCallback σ) :
    Nat → FifoIter → σ → HashMem → Option (σ × HashMem)
  | 0, _, _, _ => none
  | fuel + 1, iter, data, m => do
    let (entry, iter) ← nlFifoNext table iter m.fifo
    match entry with
    | none => return (data, m)
    | some a =>
      let e ← m.entries.get a
      let k ← m.strings.deref e.key
      let v ← m.strings.deref e.value
      let (r, data, m) ← callback data k v m
      if r ≠ 0 then return (data, m) else iterateEntries table callback fuel iter data m

def nlHashIterate {σ : Type} (hash : Option Addr) (callback : HashCallback σ) (data : σ) (m : HashMem) :
    Option (σ × HashMem) :=
  match hash with
  | none => some (data, m)
  | some hash => do
    let h ← m.hashes.get hash
    iterateEntries h.table callback m.fifo.bound .null data m

def nlHashCreate (alloc : Nat → Bool) (m : HashMem) : Option (Option Addr × HashMem) :=
  if !alloc m.allocs then some (none, { m with allocs := m.allocs + 1 })
  else
    let new := m.hashes.alloc {}
    let (table, fifo) := nlFifoCreate (alloc (m.allocs + 1)) m.fifo
    let m := { m with hashes := new.2, fifo := fifo, allocs := m.allocs + 2 }
    match table with
    | none => do return (none, ← m.freeHash new.1)
    | some t => do return (some new.1, ← m.setHash new.1 { table := some t })

def hashCloneCallback (alloc : Nat → Bool) : HashCallback Addr := fun hash key value m => do
  let (r, m) ← nlHashSet alloc (some hash) (some key) (some value) m
  return (r, hash, m)

/-- The loop of `nl_hash_clear`. -/
def clearEntries (table : Option Addr) : Nat → HashMem → Option HashMem
  | 0, _ => none
  | fuel + 1, m => do
    let (entry, fifo) ← nlFifoGet table m.fifo
    let m := { m with fifo := fifo }
    match entry with
    | none => return m
    | some a => clearEntries table fuel (← nlHashDestroyEntry a m)

def nlHashClear (hash : Option Addr) (m : HashMem) : Option HashMem :=
  match hash with
  | none => some m
  | some hash => do
    let h ← m.hashes.get hash
    let m ← clearEntries h.table m.fifo.bound m
    let h ← m.hashes.get hash
    m.setHash hash { h with count := 0 }

def nlHashDestroy (hash : Option Addr) (m : HashMem) : Option HashMem :=
  match hash with
  | none => some m
  | some hash => do
    let m ← nlHashClear (some hash) m
    let h ← m.hashes.get hash
    let fifo ← nlFifoDestroy h.table m.fifo
    { m with fifo := fifo }.freeHash hash

def nlHashClone (alloc : Nat → Bool) (hash : Option Addr) (m : HashMem) : Option (Option Addr × HashMem) :=
  match hash with
  | none => some (none, m)
  | some hash => do
    match ← nlHashCreate alloc m with
    | (none, m) => return (none, m)
    | (some new, m) =>
      let (_, m) ← nlHashIterate (some hash) (hashCloneCallback alloc) new m
      let h ← m.hashes.get hash
      let h' ← m.hashes.get new
      if h.count ≠ h'.count then return (none, ← nlHashDestroy (some new) m)
      return (some new, m)

/-- The calls of `nl_build_hash_cb` that `nl_parse_kvp` makes. -/
def buildHash (alloc : Nat → Bool) (hash : Addr) : List KvpCall → HashMem → Option HashMem
  | [], m => some m
  | (key, value, _) :: calls, m => do
    let (_, m) ← nlHashSet alloc (some hash) (some key) (some value) m
    buildHash alloc hash calls m

/-- `nl_hash_parse` (`kvp.c`); `dup` is for the copies that `nl_parse_kvp` makes. -/
def nlHashParse (alloc dup : Nat → Bool) (hash : Option Addr) (kvp : Option Bytes) (m : HashMem) : Option HashMem :=
  match hash, kvp with
  | some hash, some kvp => buildHash alloc hash (nlParseKvp dup (some kvp)) m
  | _, _ => some m

end Nlutils
