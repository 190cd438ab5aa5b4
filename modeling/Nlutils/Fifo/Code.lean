import Nlutils.Lib.Heap
import Nlutils.Fifo.Spec

/-! # The functions of `fifo.c`

They act on a memory of fifos and elements. An access to memory that is not there has no result, and neither
has a loop that has followed more links than there are elements. A function that allocates takes as its first
argument whether that succeeds, and one that takes a callback gives the data it is called with. -/

namespace Nlutils
open Lib

/-- `struct nl_fifo_element`; data is never NULL. -/
structure FifoElement (D : Type) where
  next : Option Addr
  data : D
  l : Addr
  deriving DecidableEq, Repr

/-- `struct nl_fifo`. -/
structure Fifo where
  first : Option Addr := none
  last : Option Addr := none
  count : UInt32 := 0
  deriving DecidableEq, Repr

structure FifoMem (D : Type) where
  fifos : Heap Fifo := {}
  elems : Heap (FifoElement D) := {}
  deriving DecidableEq, Repr

/-- What the iterator of `nl_fifo_next` points to. -/
inductive FifoIter
  | null
  | node (a : Addr)
  /-- `nl_fifo_error` -/
  | error
  deriving DecidableEq, Repr

def FifoIter.ofPtr : Option Addr → FifoIter
  | none => .null
  | some a => .node a

namespace FifoMem
variable {D : Type}

def setFifo (m : FifoMem D) (l : Addr) (f : Fifo) : Option (FifoMem D) :=
  (m.fifos.set l f).map fun fifos => { m with fifos := fifos }

def setElem (m : FifoMem D) (a : Addr) (e : FifoElement D) : Option (FifoMem D) :=
  (m.elems.set a e).map fun elems => { m with elems := elems }

def freeElem (m : FifoMem D) (a : Addr) : Option (FifoMem D) :=
  (m.elems.free a).map fun elems => { m with elems := elems }

/-- More steps than any chain of elements takes. -/
def bound (m : FifoMem D) : Nat := m.elems.cells.length + 1

end FifoMem

variable {D : Type}

def nlFifoCreate (callocOk : Bool) (m : FifoMem D) : Option Addr × FifoMem D :=
  if callocOk then
    let new := m.fifos.alloc {}
    (some new.1, { m with fifos := new.2 })
  else (none, m)

/-- The loop of `nl_fifo_destroy`. -/
def destroyElems : Nat → Option Addr → FifoMem D → Option (FifoMem D)
  | _, none, m => some m
  | 0, some _, _ => none
  | fuel + 1, some cur, m => do
    let e ← m.elems.get cur
    destroyElems fuel e.next (← m.freeElem cur)

def nlFifoDestroy (l : Option Addr) (m : FifoMem D) : Option (FifoMem D) :=
  match l with
  | none => some m
  | some l => do
    let f ← m.fifos.get l
    let m ← destroyElems m.bound f.first m
    (m.fifos.free l).map fun fifos => { m with fifos := fifos }

def nlFifoAllocateNewElement (mallocOk : Bool) (l : Option Addr) (data : Option D) (m : FifoMem D) :
    Option Addr × FifoMem D :=
  match l, data with
  | some l, some data =>
    if mallocOk then
      let new := m.elems.alloc ⟨none, data, l⟩
      (some new.1, { m with elems := new.2 })
    else (none, m)
  | _, _ => (none, m)

def nlFifoPut (mallocOk : Bool) (l : Option Addr) (data : Option D) (m : FifoMem D) : Option (Int × FifoMem D) :=
  match nlFifoAllocateNewElement mallocOk l data m, l with
  | (some e, m), some l => do
    let f ← m.fifos.get l
    if f.count = 0 then
      let m ← m.setFifo l { first := some e, last := some e, count := f.count + 1 }
      return (FifoSpec.toInt (f.count + 1), m)
    else
      let a ← f.last
      let last ← m.elems.get a
      let m ← m.setElem a { last with next := some e }
      let m ← m.setFifo l { f with last := some e, count := f.count + 1 }
      return (FifoSpec.toInt (f.count + 1), m)
  | (_, m), _ => some (-1, m)

def nlFifoPrepend (mallocOk : Bool) (l : Option Addr) (data : Option D) (m : FifoMem D) : Option (Int × FifoMem D) :=
  match nlFifoAllocateNewElement mallocOk l data m, l with
  | (some e, m), some l => do
    let f ← m.fifos.get l
    if f.count = 0 then
      let m ← m.setFifo l { first := some e, last := some e, count := f.count + 1 }
      return (FifoSpec.toInt (f.count + 1), m)
    else
      let new ← m.elems.get e
      let m ← m.setElem e { new with next := f.first }
      let m ← m.setFifo l { f with first := some e, count := f.count + 1 }
      return (FifoSpec.toInt (f.count + 1), m)
  | (_, m), _ => some (-1, m)

def nlFifoGet (l : Option Addr) (m : FifoMem D) : Option (Option D × FifoMem D) :=
  match l with
  | none => some (none, m)
  | some l => do
    let f ← m.fifos.get l
    if f.count = 0 then return (none, m)
    let a ← f.first
    let e ← m.elems.get a
    let m ← m.freeElem a
    let m ← m.setFifo l { first := e.next, last := if e.next = none then none else f.last, count := f.count - 1 }
    return (some e.data, m)

def nlFifoPeek (l : Option Addr) (m : FifoMem D) : Option (Option D) :=
  match l with
  | none => some none
  | some l => do
    let f ← m.fifos.get l
    if f.count = 0 then return none
    let e ← m.elems.deref f.first
    return some e.data

def nlFifoPeekLast (l : Option Addr) (m : FifoMem D) : Option (Option D) :=
  match l with
  | none => some none
  | some l => do
    let f ← m.fifos.get l
    if f.count = 0 then return none
    let e ← m.elems.deref f.last
    return some e.data

/-- What `nl_fifo_next` returns, and the iterator afterwards. -/
def nlFifoNext (l : Option Addr) (iter : FifoIter) (m : FifoMem D) : Option (Option D × FifoIter) :=
  match l, iter with
  | none, _ => some (none, .error)
  | some _, .error => some (none, .error)
  | some l, .null => do
    let f ← m.fifos.get l
    if f.count = 0 then return (none, .null)
    match f.first with
    | none => return (none, .null)
    | some a => return (some (← m.elems.get a).data, .node a)
  | some l, .node a => do
    let e ← m.elems.get a
    if e.l ≠ l then return (none, .error)
    let f ← m.fifos.get l
    if f.count = 0 then return (none, .node a)
    match e.next with
    | none => return (none, .null)
    | some b => return (some (← m.elems.get b).data, .node b)

/-- The loop of `nl_fifo_peek_index`. -/
def skipElems (l : Addr) (m : FifoMem D) : Nat → FifoIter → Option FifoIter
  | 0, iter => some iter
  | n + 1, iter => do skipElems l m n (← nlFifoNext (some l) iter m).2

def nlFifoPeekIndex (l : Option Addr) (index : Int) (m : FifoMem D) : Option (Option D) :=
  match l with
  | none => some none
  | some l => do
    let f ← m.fifos.get l
    if f.count = 0 then return none
    let normalized := if index < 0 then index + f.count.toNat else index
    if normalized < 0 ∨ normalized ≥ f.count.toNat then return none
    let iter ← skipElems l m normalized.toNat .null
    return (← nlFifoNext (some l) iter m).1

/-- The loop of `nl_fifo_remove` on fifo `f`, which is at `l`. -/
def removeElem [DecidableEq D] (l : Addr) (f : Fifo) (data : D) :
    Nat → Option Addr → Option Addr → FifoMem D → Option (Int × FifoMem D)
  | _, _, none, m => some (-1, m)
  | 0, _, some _, _ => none
  | fuel + 1, prev, some cur, m => do
    let e ← m.elems.get cur
    if e.data = data then
      let last := if f.last = some cur then prev else f.last
      match prev with
      | some p =>
        let pe ← m.elems.get p
        let m ← m.setElem p { pe with next := e.next }
        let m ← m.setFifo l { f with last := last, count := f.count - 1 }
        return (0, ← m.freeElem cur)
      | none =>
        let m ← m.setFifo l { first := e.next, last := last, count := f.count - 1 }
        return (0, ← m.freeElem cur)
    else removeElem l f data fuel (some cur) e.next m

def nlFifoRemove [DecidableEq D] (l : Option Addr) (data : Option D) (m : FifoMem D) : Option (Int × FifoMem D) :=
  match l, data with
  | some l, some data => do
    let f ← m.fifos.get l
    if f.count = 0 then return (-1, m)
    removeElem l f data m.bound none f.first m
  | _, _ => some (-1, m)

/-- The loop that frees up to `n` elements from `cur` on: the element after them, the data that the callback is
    called with, how many there were, and the memory. -/
def freeElems : Nat → Option Addr → FifoMem D → Option (Option Addr × List D × UInt32 × FifoMem D)
  | 0, cur, m => some (cur, [], 0, m)
  | _ + 1, none, m => some (none, [], 0, m)
  | n + 1, some cur, m => do
    let e ← m.elems.get cur
    let (end_, calls, freed, m) ← freeElems n e.next (← m.freeElem cur)
    return (end_, e.data :: calls, freed + 1, m)

def nlFifoRemoveStart (l : Option Addr) (count : UInt32) (m : FifoMem D) : Option (UInt32 × List D × FifoMem D) :=
  match l with
  | none => some (0, [], m)
  | some l => do
    let f ← m.fifos.get l
    let (cur, calls, freed, m) ← freeElems count.toNat f.first m
    let m ← m.setFifo l { first := cur, last := if cur = none then none else f.last, count := f.count - freed }
    return (f.count - freed, calls, m)

def nlFifoClearCb (l : Option Addr) (m : FifoMem D) : Option (List D × FifoMem D) :=
  match l with
  | none => some ([], m)
  | some l => do
    let f ← m.fifos.get l
    let (_, calls, m) ← nlFifoRemoveStart (some l) f.count m
    return (calls, m)

def nlFifoClear (l : Option Addr) (m : FifoMem D) : Option (FifoMem D) := do
  return (← nlFifoClearCb l m).2

/-- The first loop of `nl_fifo_remove_end`: `prev` and `cur` after `n` links. -/
def walkElems (m : FifoMem D) : Nat → Option Addr → Option Addr → Option (Option Addr × Option Addr)
  | 0, prev, cur => some (prev, cur)
  | n + 1, _, cur => do
    let e ← m.elems.deref cur
    walkElems m n cur e.next

/-- The result is missing where the C function aborts. -/
def nlFifoRemoveEnd (l : Option Addr) (count : UInt32) (m : FifoMem D) : Option (UInt32 × List D × FifoMem D) :=
  match l with
  | none => some (0, [], m)
  | some l => do
    let f ← m.fifos.get l
    if count ≥ f.count then
      let (calls, m) ← nlFifoClearCb (some l) m
      return (0, calls, m)
    let (prev, cur) ← walkElems m (f.count - count).toNat none f.first
    let p ← prev
    let (_, calls, freed, m) ← freeElems count.toNat cur m
    let pe ← m.elems.get p
    let m ← m.setFifo l { f with last := prev, count := f.count - freed }
    let m ← m.setElem p { pe with next := none }
    return (f.count - freed, calls, m)

/-- The loop of `nl_fifo_concat_start` and `nl_fifo_concat_end`: the elements from `cur` on now belong to `dest`. -/
def moveElems (dest : Addr) : Nat → Option Addr → FifoMem D → Option (FifoMem D)
  | _, none, m => some m
  | 0, some _, _ => none
  | fuel + 1, some cur, m => do
    let e ← m.elems.get cur
    moveElems dest fuel e.next (← m.setElem cur { e with l := dest })

/-- What both functions begin with: the elements leave `src`. The result has the old fields of `src`. -/
def takeElems (src dest : Addr) (m : FifoMem D) : Option (Fifo × FifoMem D) := do
  let s ← m.fifos.get src
  let m ← m.setFifo src { s with first := none, last := none }
  return (s, ← moveElems dest m.bound s.first m)

/-- What both functions end with. -/
def moveCount (src dest : Addr) (m : FifoMem D) : Option (UInt32 × FifoMem D) := do
  let s ← m.fifos.get src
  let d ← m.fifos.get dest
  let m ← m.setFifo dest { d with count := d.count + s.count }
  let s ← m.fifos.get src
  let m ← m.setFifo src { s with count := 0 }
  return ((← m.fifos.get dest).count, m)

def nlFifoConcatStart (src dest : Option Addr) (m : FifoMem D) : Option (UInt32 × FifoMem D) :=
  match src, dest with
  | some src, some dest => do
    let (s, m) ← takeElems src dest m
    if s.count > 0 then
      let d ← m.fifos.get dest
      let a ← s.last
      let e ← m.elems.get a
      let m ← m.setElem a { e with next := d.first }
      let m ← m.setFifo dest { d with first := s.first, last := if d.count = 0 then s.last else d.last }
      moveCount src dest m
    else moveCount src dest m
  | none, some dest => do return ((← m.fifos.get dest).count, m)
  | _, none => some (0, m)

def nlFifoConcatEnd (src dest : Option Addr) (m : FifoMem D) : Option (UInt32 × FifoMem D) :=
  match src, dest with
  | some src, some dest => do
    let (s, m) ← takeElems src dest m
    if s.count > 0 then
      let d ← m.fifos.get dest
      match d.last with
      | some a =>
        let e ← m.elems.get a
        let m ← m.setElem a { e with next := s.first }
        let m ← m.setFifo dest { d with last := s.last }
        moveCount src dest m
      | none =>
        let m ← m.setFifo dest { d with first := s.first, last := s.last }
        moveCount src dest m
    else moveCount src dest m
  | none, some dest => do return ((← m.fifos.get dest).count, m)
  | _, none => some (0, m)

end Nlutils
