import Nlutils.Lib.Heap
import Nlutils.Lib.Machine

/-! # Thread contexts (`thread.c`)

A context lists the threads that have been created in it. The calls that look at the list do so under the lock of the
context, so what they do there is one step; `nl_join_thread` waits for the thread and frees its info after it has
unlocked. `nl_destroy_thread_context` keeps the lock from its beginning to its end. There is no result where memory is
used that has been freed. -/

namespace Nlutils.Thread
open Lib

/-- `struct nl_thread`, with the `pthread_t`. -/
structure Info where
  thread : Nat
  next : Option Addr
  deriving DecidableEq, Repr

/-- The memory of a context: the infos, and `ctx->threads`. -/
structure Ctx where
  infos : Heap Info := {}
  threads : Option Addr := none
  deriving DecidableEq, Repr

/-- How `nl_create_thread` goes: `calloc` fails, or `pthread_create` fails, or it gives a thread. -/
inductive Creation
  | noMemory
  | fails (err : Nat)
  | starts (thread : Nat)
  deriving DecidableEq, Repr

def enomem : Nat := 12

/-- `nl_create_thread`, between locking and unlocking: what it returns, what it stores in `*info`, and the memory. -/
def nlCreateThread (c : Creation) (ctx : Ctx) : Option (Nat × Option Addr × Ctx) :=
  match c with
  | .noMemory => some (enomem, none, ctx)
  | .fails err =>
    let (a, infos) := ctx.infos.alloc ⟨0, none⟩
    (infos.free a).map fun infos => (err, none, { ctx with infos := infos })
  | .starts thread =>
    let (a, infos) := ctx.infos.alloc ⟨0, none⟩
    (infos.set a ⟨thread, ctx.threads⟩).map fun infos => (0, some a, ⟨infos, some a⟩)

/-- The loop of `nl_join_thread` that unlinks an info. -/
def unlinkLoop (info : Addr) : Nat → Option Addr → Option Addr → Ctx → Option Ctx
  | 0, _, _, _ => none
  | _ + 1, _, none, ctx => some ctx
  | n + 1, prev, some cur, ctx =>
    (ctx.infos.get cur).bind fun i =>
      if cur = info then
        match prev with
        | none => some { ctx with threads := i.next }
        | some prev =>
          (ctx.infos.get prev).bind fun p =>
            (ctx.infos.set prev { p with next := i.next }).map fun infos => { ctx with infos := infos }
      else unlinkLoop info n (some cur) i.next ctx

/-- `nl_join_thread` up to where it unlocks; it finds the lock in the info. -/
def joinLocked (info : Addr) (ctx : Ctx) : Option Ctx :=
  (ctx.infos.get info).bind fun _ => unlinkLoop info (ctx.infos.cells.length + 1) none ctx.threads ctx

/-- The rest of `nl_join_thread`: the thread that it waits for, and the memory. -/
def joinUnlocked (info : Addr) (ctx : Ctx) : Option (Nat × Ctx) :=
  (ctx.infos.get info).bind fun i => (ctx.infos.free info).map fun infos => (i.thread, { ctx with infos := infos })

/-- The loop of `nl_iterate_threads`: the infos that the callback is given. -/
def iterateLoop (infos : Heap Info) : Nat → Option Addr → Option (List Addr)
  | 0, _ => none
  | _ + 1, none => some []
  | n + 1, some t => (infos.get t).bind fun i => (iterateLoop infos n i.next).map fun ts => t :: ts

def nlIterateThreads (ctx : Ctx) : Option (List Addr) :=
  iterateLoop ctx.infos (ctx.infos.cells.length + 1) ctx.threads

/-! ### The calls in any order -/

/-- Where `nl_destroy_thread_context` is. -/
inductive Destroying
  | no
  /-- At the condition of its loop, with the lock. -/
  | looping
  /-- In `nl_join_thread` for an info that it has unlinked, with the lock. -/
  | waiting (info : Addr)
  | done
  deriving DecidableEq, Repr

def Destroying.isWaiting : Destroying → Bool
  | .waiting _ => true
  | _ => false

inductive Action
  | create (c : Creation)
  | iterate
  /-- A call of `nl_join_thread` unlinks the info. -/
  | unlink (info : Addr)
  /-- A call of `nl_join_thread` has joined the thread and frees the info. -/
  | join (info : Addr)
  | destroyBegin
  /-- The loop of `nl_destroy_thread_context` unlinks the first info. -/
  | destroyUnlink
  /-- It has joined the thread and frees the info. -/
  | destroyJoin
  | destroyEnd
  deriving DecidableEq, Repr

/-- The memory and the calls that are going on, and what has happened: the infos with their threads that have been
    created, last first; those that a call of `nl_join_thread` was for; the threads that have been joined; the infos
    that have been freed; what was visited last; the threads that were left when the context was destroyed, and those
    of them that this has joined. -/
structure State where
  ctx : Ctx := {}
  waiting : List Addr := []
  destroying : Destroying := .no
  created : List (Addr × Nat) := []
  unlinked : List Addr := []
  joined : List (Addr × Nat) := []
  freed : List Addr := []
  visited : List Addr := []
  left : List (Addr × Nat) := []
  joinedLeft : List (Addr × Nat) := []
  deriving DecidableEq, Repr

/-- The lock can be taken. -/
def State.unlocked (s : State) : Bool := s.destroying == .no

def step (s : State) : Action → Option State
  | .create c =>
    (nlCreateThread c s.ctx).map fun r =>
      { s with
        ctx := r.2.2
        created := match c, r.2.1 with
          | .starts thread, some a => (a, thread) :: s.created
          | _, _ => s.created
        freed := match c with
          | .fails _ => s.freed ++ [s.ctx.infos.cells.length]
          | _ => s.freed }
  | .iterate => (nlIterateThreads s.ctx).map fun visited => { s with visited := visited }
  | .unlink info =>
    (joinLocked info s.ctx).map fun ctx =>
      { s with ctx := ctx, waiting := info :: s.waiting, unlinked := info :: s.unlinked }
  | .join info =>
    (joinUnlocked info s.ctx).map fun (thread, ctx) =>
      { s with
        ctx := ctx
        waiting := s.waiting.erase info
        joined := s.joined ++ [(info, thread)]
        freed := s.freed ++ [info] }
  | .destroyBegin => some { s with destroying := .looping, left := s.created.filter fun p => p.1 ∉ s.unlinked }
  | .destroyUnlink =>
    s.ctx.threads.bind fun info =>
      -- The name is copied for a message.
      (s.ctx.infos.get info).bind fun _ =>
        (joinLocked info s.ctx).map fun ctx =>
          { s with ctx := ctx, destroying := .waiting info, unlinked := info :: s.unlinked }
  | .destroyJoin =>
    match s.destroying with
    | .waiting info =>
      (joinUnlocked info s.ctx).map fun (thread, ctx) =>
        { s with
          ctx := ctx
          destroying := .looping
          joined := s.joined ++ [(info, thread)]
          joinedLeft := s.joinedLeft ++ [(info, thread)]
          freed := s.freed ++ [info] }
    | _ => none
  | .destroyEnd => some { s with destroying := .done }

/-- When an action can happen: the lock is not held by another, the program is at this place, and only an info that has
    been created is joined, and that once. -/
def ok (s : State) : Action → Prop
  | .create _ => s.unlocked = true
  | .iterate => s.unlocked = true
  | .unlink info => s.unlocked = true ∧ info ∈ s.created.map (·.1) ∧ info ∉ s.unlinked
  | .join info => info ∈ s.waiting
  | .destroyBegin => s.unlocked = true
  | .destroyUnlink => s.destroying = .looping ∧ s.ctx.threads ≠ none
  | .destroyJoin => s.destroying.isWaiting = true
  | .destroyEnd => s.destroying = .looping ∧ s.ctx.threads = none

instance (s : State) : DecidablePred (ok s)
  | .create _ => inferInstanceAs (Decidable (s.unlocked = true))
  | .iterate => inferInstanceAs (Decidable (s.unlocked = true))
  | .unlink info =>
    inferInstanceAs (Decidable (s.unlocked = true ∧ info ∈ s.created.map (·.1) ∧ info ∉ s.unlinked))
  | .join info => inferInstanceAs (Decidable (info ∈ s.waiting))
  | .destroyBegin => inferInstanceAs (Decidable (s.unlocked = true))
  | .destroyUnlink => inferInstanceAs (Decidable (s.destroying = .looping ∧ s.ctx.threads ≠ none))
  | .destroyJoin => inferInstanceAs (Decidable (s.destroying.isWaiting = true))
  | .destroyEnd => inferInstanceAs (Decidable (s.destroying = .looping ∧ s.ctx.threads = none))

def context : Machine State Action := ⟨{}, step⟩

/-- The loop of `nl_destroy_thread_context`, when no other call goes on meanwhile. -/
def destroyLoop : Nat → State → Option State
  | 0, _ => none
  | n + 1, s =>
    if s.ctx.threads = none then step s .destroyEnd
    else (step s .destroyUnlink).bind fun s => (step s .destroyJoin).bind (destroyLoop n)

end Nlutils.Thread
