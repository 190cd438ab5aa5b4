import Nlutils.Bytes
import Nlutils.Lib.Framing

/-! # The bytes of the control pipe (`url_req.c`)

`nl_url_req_add` and `nl_url_req_shutdown` write a pointer into the control pipe, in one piece, and
`control_pipe_handler` reads it with any number of calls of `read`. For the rest of the context the pipe is a queue of
requests. It is one as long as `read` does not fail between the bytes of a pointer. -/

namespace Nlutils.UrlReq
open Lib

/-- A `struct nl_url_req *` as it is in memory. -/
structure Pointer where
  bytes : Bytes
  length_eq : bytes.length = 8
  deriving DecidableEq

/-- The bytes in the pipe; the bytes that the handler has read into `rip`, if it is in its loop; the pointers that have
    been written; and the `rip.req` of the calls of the handler that have read one. -/
structure ControlPipe where
  pipe : Bytes := []
  rip : Option Bytes := none
  written : List Pointer := []
  handled : List Bytes := []

/-- The body of the loop of `control_pipe_handler` and its condition. The parameter is what `read` answers, or that it
    fails. -/
def readPointer (rip : Bytes) (answer : Option Bytes) : Bytes × Bool :=
  match answer with
  | none => (rip, false)
  | some chunk => (rip ++ chunk, chunk.length > 0 ∧ (rip ++ chunk).length < 8)

/-- What follows: the loop goes on, or the handler returns, or it has its pointer. -/
def ControlPipe.proceed (s : ControlPipe) (r : Bytes × Bool) : ControlPipe :=
  if r.2 then { s with rip := some r.1 }
  else if r.1.length < 8 then { s with rip := none }
  else { s with rip := none, handled := s.handled ++ [r.1] }

inductive PipeAction
  | write (p : Pointer)
  /-- `control_pipe_handler` is called. -/
  | call
  /-- `read` gives so many bytes; none are the end of the file. -/
  | read (k : Nat)
  | readFails
  deriving DecidableEq

def controlPipeStep (s : ControlPipe) : PipeAction → Option ControlPipe
  | .write p => some { s with pipe := s.pipe ++ p.bytes, written := s.written ++ [p] }
  | .call => some { s with rip := some [] }
  | .read k =>
    s.rip.map fun rip => { s with pipe := s.pipe.drop k }.proceed (readPointer rip (some (s.pipe.take k)))
  | .readFails => s.rip.map fun rip => s.proceed (readPointer rip none)

/-- What `read` may answer, and when the handler is called. -/
def PipeOk (s : ControlPipe) : PipeAction → Prop
  | .write _ => True
  | .call => s.rip = none
  | .read k => ∃ rip ∈ s.rip, k ≤ 8 - rip.length ∧ k ≤ s.pipe.length
  | .readFails => s.rip ≠ none

/-- There is an error, or the end of the file. -/
def PipeAction.stops : PipeAction → Bool
  | .read k => k == 0
  | .readFails => true
  | _ => false

/-- `read` does not fail between the bytes of a pointer. -/
def PipeWhole (s : ControlPipe) (a : PipeAction) : Prop := PipeOk s a ∧ (a.stops = true → s.rip = some [])

/-- `read` gives as many bytes as there are and as it is asked for. -/
def PipeFull (s : ControlPipe) (a : PipeAction) : Prop :=
  PipeOk s a ∧ ∀ k rip, a = .read k → s.rip = some rip → k = min (8 - rip.length) s.pipe.length

instance (s : ControlPipe) : DecidablePred (PipeOk s)
  | .write _ => inferInstanceAs (Decidable True)
  | .call => inferInstanceAs (Decidable (s.rip = none))
  | .read k => inferInstanceAs (Decidable (∃ rip ∈ s.rip, k ≤ 8 - rip.length ∧ k ≤ s.pipe.length))
  | .readFails => inferInstanceAs (Decidable (s.rip ≠ none))

instance (s : ControlPipe) : DecidablePred (PipeWhole s) :=
  fun a => inferInstanceAs (Decidable (PipeOk s a ∧ (a.stops = true → s.rip = some [])))

def controlPipe : Machine ControlPipe PipeAction := ⟨{}, controlPipeStep⟩

/-- The pointers that have been written and not yet read. -/
def ControlPipe.queue (s : ControlPipe) : List Pointer := s.written.drop s.handled.length

/-! ### Messages of eight bytes -/

def pointers : Framing Pointer Byte where
  enc := Pointer.bytes
  size := 8
  pos := by decide
  length_enc := Pointer.length_eq

def ControlPipe.framed (s : ControlPipe) : Framed Pointer Byte := ⟨s.pipe, s.rip, s.written, s.handled⟩

def PipeAction.frame : PipeAction → FrameAction Pointer
  | .write p => .send p
  | .call => .start
  | .read k => if k = 0 then .fail else .read k
  | .readFails => .fail

section
variable {s t : ControlPipe} {a : PipeAction} {rip : Bytes}

/-- The handler has less than a pointer while it is in its loop. -/
def ControlPipe.Short (s : ControlPipe) : Prop := ∀ rip ∈ s.rip, rip.length < 8

theorem short_of_none (h : s.rip = none) : s.Short := fun rip hrip => by
  rw [h] at hrip
  cases hrip

/-- Without bytes the handler returns. -/
theorem proceed_stops (h : rip.length < 8) : s.proceed (rip, false) = { s with rip := none } := by
  simp [ControlPipe.proceed, h]

/-- The handler does what the reader of the messages does. -/
theorem framed_step (hshort : s.Short) (hok : PipeOk s a) (hstep : controlPipeStep s a = some t) :
    pointers.step s.framed a.frame = some t.framed ∧ t.Short := by
  cases a with
  | write p =>
    cases hstep
    exact ⟨rfl, hshort⟩
  | call =>
    cases hstep
    refine ⟨rfl, fun rip hrip => ?_⟩
    rw [← Option.some.inj hrip]
    decide
  | readFails =>
    obtain ⟨rip, hrip, rfl⟩ := Option.map_eq_some_iff.mp hstep
    rw [readPointer, proceed_stops (hshort rip hrip)]
    exact ⟨rfl, short_of_none rfl⟩
  | read k =>
    obtain ⟨rip, hrip, rfl⟩ := Option.map_eq_some_iff.mp hstep
    obtain ⟨rip', hrip', -, hk⟩ := hok
    obtain rfl : rip' = rip := Option.some.inj (hrip'.symm.trans hrip)
    have hlen : (s.pipe.take k).length = k := List.length_take_of_le hk
    by_cases hzero : k = 0
    · subst hzero
      have hread : readPointer rip' (some (s.pipe.take 0)) = (rip', false) := by simp [readPointer]
      rw [hread, proceed_stops (hshort rip' hrip)]
      exact ⟨rfl, short_of_none rfl⟩
    · have hpos : 0 < k := Nat.pos_of_ne_zero hzero
      have hframe : pointers.step s.framed (.read k) = some (if (rip' ++ s.pipe.take k).length < 8 then
          { s.framed with stream := s.pipe.drop k, part := some (rip' ++ s.pipe.take k) }
          else { s.framed with
            stream := s.pipe.drop k, part := none, got := s.handled ++ [rip' ++ s.pipe.take k] }) := by
        simp only [Framing.step, ControlPipe.framed, hrip, Option.map_some, pointers]
      rw [PipeAction.frame, if_neg hzero, hframe]
      by_cases hless : (rip' ++ s.pipe.take k).length < 8
      · have hread : readPointer rip' (some (s.pipe.take k)) = (rip' ++ s.pipe.take k, true) := by
          simp only [readPointer, hlen, hpos, hless, and_self, decide_true]
        rw [hread, if_pos hless]
        refine ⟨rfl, fun rip hrip => ?_⟩
        rw [← Option.some.inj hrip]
        exact hless
      · have hread : readPointer rip' (some (s.pipe.take k)) = (rip' ++ s.pipe.take k, false) := by
          simp only [readPointer, hless, and_false, decide_false]
        rw [hread, if_neg hless, ControlPipe.proceed, if_neg Bool.false_ne_true, if_neg hless]
        exact ⟨rfl, short_of_none rfl⟩

/-- A run of the pipe is a run of the messages. -/
theorem framed_reach {ok : ControlPipe → PipeAction → Prop} {ok' : Framed Pointer Byte → FrameAction Pointer → Prop}
    (hok : ∀ s a, ok s a → PipeOk s a) (hsame : ∀ s a, s.Short → ok s a → ok' s.framed a.frame)
    (h : controlPipe.Reach ok s) : pointers.machine.Reach ok' s.framed ∧ s.Short := by
  refine h.invariant (I := fun s => pointers.machine.Reach ok' s.framed ∧ s.Short) ⟨.init, short_of_none rfl⟩ ?_
  rintro s a t ⟨hreach, hshort⟩ ha hstep
  obtain ⟨hframed, hshort'⟩ := framed_step hshort (hok s a ha) hstep
  exact ⟨hreach.step (hsame s a hshort ha) hframed, hshort'⟩

theorem framed_allows (hshort : s.Short) (h : PipeOk s a) : pointers.Allows s.framed a.frame := by
  cases a with
  | write p => trivial
  | call => exact h
  | readFails => exact h
  | read k =>
    obtain ⟨rip, hrip, hroom, hk⟩ := h
    have hless := hshort rip hrip
    rw [PipeAction.frame]
    split
    · exact fun hnone => nomatch hrip.symm.trans hnone
    · next hne => exact ⟨rip, hrip, Nat.pos_of_ne_zero hne, by show rip.length + k ≤ 8; omega, hk⟩

theorem framed_lossless (hshort : s.Short) (h : PipeWhole s a) : pointers.Lossless s.framed a.frame := by
  refine ⟨framed_allows hshort h.1, fun hfail => h.2 ?_⟩
  cases a with
  | write p => cases hfail
  | call => cases hfail
  | readFails => rfl
  | read k =>
    rw [PipeAction.frame] at hfail
    split at hfail
    · next hzero => exact beq_iff_eq.mpr hzero
    · cases hfail

theorem framed_greedy (hshort : s.Short) (h : PipeFull s a) : pointers.Greedy s.framed a.frame := by
  refine ⟨framed_allows hshort h.1, ?_⟩
  intro k rip hread hrip
  cases a with
  | write p => cases hread
  | call => cases hread
  | readFails => cases hread
  | read n =>
    rw [PipeAction.frame] at hread
    split at hread
    · cases hread
    · obtain rfl := FrameAction.read.inj hread
      exact h.2 n rip rfl hrip

/-- Where `read` has always given as many bytes as there are, it fails only between two pointers. -/
theorem framed_reach_full (h : controlPipe.Reach PipeFull s) : pointers.machine.Reach pointers.Lossless s.framed ∧
    s.Short ∧ ∀ a, PipeFull s a → PipeWhole s a := by
  obtain ⟨hframed, hshort⟩ := framed_reach (fun _ _ h => h.1) (fun _ _ => framed_greedy) h
  obtain ⟨hlossless, hempty⟩ := Framing.greedy_lossless hframed
  refine ⟨hlossless, hshort, fun a hok => ⟨hok.1, fun hstops => ?_⟩⟩
  obtain ⟨rip, hrip⟩ : ∃ rip, s.rip = some rip := by
    cases a with
    | write p => cases hstops
    | call => cases hstops
    | readFails => exact Option.ne_none_iff_exists'.mp hok.1
    | read k =>
      obtain ⟨rip, hrip, -⟩ := hok.1
      exact ⟨rip, hrip⟩
  rw [hrip, hempty rip hrip]

end

/-- What the rest of the context relies on: `control_pipe_handler` has got the pointers that have been written first, in
    their order and each of them once, the bytes of the others are what it has read of one and what is in the pipe, and
    every step does to them what it does to a queue. -/
structure IsQueue (ok : ControlPipe → PipeAction → Prop) (s : ControlPipe) : Prop where
  handled : s.handled = (s.written.take s.handled.length).map Pointer.bytes
  bytes : s.rip.getD [] ++ s.pipe = s.queue.flatMap Pointer.bytes
  writes : ∀ p t, controlPipeStep s (.write p) = some t → t.queue = s.queue ++ [p] ∧ t.handled = s.handled
  reads : ∀ a t, ok s a → controlPipeStep s a = some t → (∀ p, a ≠ .write p) →
    t.queue = s.queue ∧ t.handled = s.handled ∨ ∃ p, s.queue = p :: t.queue ∧ t.handled = s.handled ++ [p.bytes]

theorem isQueue_of_framed {ok : ControlPipe → PipeAction → Prop} {s : ControlPipe}
    (h : pointers.machine.Reach pointers.Lossless s.framed) (hshort : s.Short)
    (hok : ∀ a, ok s a → PipeWhole s a) : IsQueue ok s := by
  have I := Framing.reach_inOrder h
  have hqueues : ∀ a t, PipeWhole s a → controlPipeStep s a = some t → pointers.Queues s.framed t.framed a.frame :=
    fun a t hok hstep => (I.step (framed_lossless hshort hok) (framed_step hshort hok.1 hstep).1).2
  refine ⟨I.got, I.rest, fun p t hstep => hqueues (.write p) t ⟨trivial, nofun⟩ hstep, fun a t ha hstep hnot => ?_⟩
  have hstepped := hqueues a t (hok a ha) hstep
  cases a with
  | write p => exact absurd rfl (hnot p)
  | call => exact Or.inl hstepped
  | readFails => exact Or.inl hstepped
  | read k =>
    rw [PipeAction.frame] at hstepped
    split at hstepped
    · exact Or.inl hstepped
    · exact hstepped

/-- However `read` splits the pointers, as long as it does not fail between the bytes of one; and if it always gives as
    many bytes as there are, also wherever it fails. -/
theorem controlPipe_queue (s : ControlPipe) : (controlPipe.Reach PipeWhole s → IsQueue PipeWhole s) ∧
    (controlPipe.Reach PipeFull s → IsQueue PipeFull s ∧ IsQueue PipeWhole s) := by
  constructor
  · intro h
    obtain ⟨hframed, hshort⟩ := framed_reach (fun _ _ h => h.1) (fun _ _ => framed_lossless) h
    exact isQueue_of_framed hframed hshort fun _ h => h
  · intro h
    obtain ⟨hframed, hshort, hwhole⟩ := framed_reach_full h
    exact ⟨isQueue_of_framed hframed hshort hwhole, isQueue_of_framed hframed hshort fun _ h => h⟩

def pointerA : Pointer := ⟨[1, 2, 3, 4, 5, 6, 7, 8], rfl⟩
def pointerB : Pointer := ⟨[17, 18, 19, 20, 21, 22, 23, 24], rfl⟩

/-- The second pointer is written while the first is read in two pieces. -/
theorem controlPipe_queue_split : ∃ s, controlPipe.Reach PipeWhole s ∧ s.handled = [pointerA.bytes] ∧
    s.queue = [pointerB] ∧ IsQueue PipeWhole s := by
  obtain ⟨s, hreach, hs⟩ := Machine.exists_reach_of_run (M := controlPipe) (fun s a => decide (PipeWhole s a))
    [.write pointerA, .call, .read 3, .write pointerB, .read 5]
    (fun s => decide (s.handled = [pointerA.bytes] ∧ s.queue = [pointerB])) (fun _ _ => of_decide_eq_true) (by decide)
  obtain ⟨hhandled, hqueue⟩ := of_decide_eq_true hs
  exact ⟨s, hreach, hhandled, hqueue, (controlPipe_queue s).1 hreach⟩

/-- `read` fails after three bytes, and the next call of the handler gets a pointer that nobody has written. -/
theorem controlPipe_torn : ∃ s, controlPipe.Reach PipeOk s ∧ ∃ rip ∈ s.handled, ∀ p ∈ s.written, p.bytes ≠ rip := by
  obtain ⟨s, hreach, hs⟩ := Machine.exists_reach_of_run (M := controlPipe) (fun s a => decide (PipeOk s a))
    [.write pointerA, .write pointerB, .call, .read 3, .readFails, .call, .read 8]
    (fun s => decide (∃ rip ∈ s.handled, ∀ p ∈ s.written, p.bytes ≠ rip)) (fun _ _ => of_decide_eq_true) (by decide)
  exact ⟨s, hreach, of_decide_eq_true hs⟩

end Nlutils.UrlReq
