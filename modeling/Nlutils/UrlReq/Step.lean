import Nlutils.Lib.Machine
import Nlutils.UrlReq.Code

/-! # The steps of a request context

The steps of the calling threads, of the event thread and of `nl_url_req_deinit`. A step that locks the
context waits until the lock is free or its own. A call of `nl_url_req_deinit` starts when no other call is
running and is the last one, since it frees the context. -/

namespace Nlutils.UrlReq
open Lib

inductive Action
  /-- A thread calls `nl_url_req_add`: the admission test and the allocation. -/
  | addBegin (t : Nat) (cb : Bool) (p : Params) (callocOk : Bool)
  /-- It locks, enqueues the request, writes to the pipe and returns. -/
  | addFinish (t : Nat) (f : AddFails)
  | shutdown (t : Nat) (writeOk : Bool)
  /-- `nl_url_req_wait`, once the event thread has ended. -/
  | wait
  /-- The control pipe is readable: `control_pipe_handler` reads a message. -/
  | pipeRead (ok : Bool)
  /-- It handles the message under the lock. -/
  | dispatch (writeOk : Bool)
  | startCurl (fails : StartCall → Bool) (io : Popen)
  /-- `start_curl` frees the request and returns an error, which its caller reports. -/
  | startAbandon
  | register (fails : RegisterCall → Bool)
  /-- `control_pipe_handler` frees the request at its `error` label. -/
  | giveUp
  /-- `bufev_error` for a bufferevent of a request, and `check_process` up to the callback. -/
  | bufevError (r : ReqId) (buf : Buf) (errcode : Errcode) (ret : Int) (bufOk : Bool)
  | callback
  | release
  | recheck (writeOk : Bool)
  /-- `event_base_dispatch` returns, and the event thread ends. -/
  | loopExit
  | deinitBegin (t : Nat) (writeOk : Bool)
  /-- The event thread has been joined. -/
  | deinitJoined
  /-- The remaining requests are freed and `nl_url_req_deinit` returns. -/
  | deinitFree

namespace State

/-- Callers may start a call: no `nl_url_req_deinit` is running, and the thread is in no other call. -/
def mayCall (s : State) (t : Nat) : Bool := s.deinit.isNone && s.adding.all (·.thread != t)

/-- A call of the thread returns, having started at lock depth `base`. -/
def ret (s : State) (t : Tid) (c : Call) (base : Nat) : State :=
  s.record (.returned t c base (s.lock.depth t))

/-- The handler of an event returns to the event loop. -/
def handled (s : State) (c : Call) : State := { s.ret .event c s.evBase with ev := .idle }

end State

namespace Step

def addBegin (s : State) (t : Nat) (cb : Bool) (p : Params) (callocOk : Bool) : Option State :=
  if s.mayCall t then
    if addCheck s p ≠ 0 ∨ !callocOk then some (s.ret (.caller t) (.add none) (s.lock.depth (.caller t)))
    else some { s with
      reqs := s.reqs ++ [{}]
      adding := ⟨t, s.reqs.length, cb, p, s.lock.depth (.caller t)⟩ :: s.adding }
  else none

def addFinish (s : State) (t : Nat) (f : AddFails) : Option State :=
  match s.adding.find? (·.thread == t) with
  | none => none
  | some a =>
    if s.lock.canLock (.caller t) then
      let done := addUnderLock f a { s with adding := s.adding.erase a }
      let u := if done.1 = 0 then done.2.record (.accepted a.req) else done.2
      some (u.ret (.caller t) (.add (some (f.ok a.params s.reqlist))) a.base)
    else none

def shutdown (s : State) (t : Nat) (writeOk : Bool) : Option State :=
  if s.mayCall t ∧ s.lock.canLock (.caller t) then
    some ((nlUrlReqShutdown (.caller t) writeOk s).ret (.caller t) .shutdown (s.lock.depth (.caller t)))
  else none

def wait (s : State) : Option State :=
  if s.deinit = none ∧ s.ev = .ended then some { s with eventThread := false } else none

def pipeRead (s : State) (ok : Bool) : Option State :=
  match s.ev, s.pipe with
  | .idle, m :: ms =>
    let s := { s with evBase := s.lock.depth .event }
    some (if ok then { s with pipe := ms, ev := .dispatch m } else s.handled .controlPipeHandler)
  | _, _ => none

def dispatch (s : State) (writeOk : Bool) : Option State :=
  match s.ev with
  | .dispatch m =>
    if s.lock.canLock .event then
      let s := s.ctxLock .event
      match m with
      | none =>
        let s := stopIfEmpty .event writeOk { s with shutdownWhenDone := true }
        some (s.ctxUnlock.handled .controlPipeHandler)
      | some r => some { s.ctxUnlock with ev := .starting r }
    else none
  | _ => none

def startCurl (s : State) (fails : StartCall → Bool) (io : Popen) : Option State :=
  match s.ev with
  | .starting r =>
    let s := s.deref r
    match UrlReq.startCurl fails io (s.req r) with
    | .ok q => some { s.setReq r fun _ => q with ev := .registering r }
    | .error q => some { s.setReq r fun _ => startError q with ev := .startFailed r }
  | _ => none

def startAbandon (s : State) : Option State :=
  match s.ev with
  | .startFailed r =>
    if s.lock.canLock .event then
      let s := freeReq .event r s
      some { s.deref r with ev := .giveUp r }
    else none
  | _ => none

def register (s : State) (fails : RegisterCall → Bool) : Option State :=
  match s.ev with
  | .registering r =>
    let s := s.deref r
    if registerCalls.any fails then some { s with ev := .giveUp r }
    else some ((s.setReq r ({ · with reading := true })).handled .controlPipeHandler)
  | _ => none

def giveUp (s : State) : Option State :=
  match s.ev with
  | .giveUp r =>
    if s.lock.canLock .event then some ((freeReq .event r s).handled .controlPipeHandler) else none
  | _ => none

def bufevError (s : State) (r : ReqId) (buf : Buf) (errcode : Errcode) (ret : Int) (bufOk : Bool) : Option State :=
  if s.ev = .idle ∧ (s.req r).reading ∧ (s.req r).outbuf ∧ (s.req r).errbuf then
    let s := { s with evBase := s.lock.depth .event }
    let s := (s.deref r).setReq r (UrlReq.bufevError buf errcode)
    some (if (s.req r).finished then { s.setReq r (checkProcess ret bufOk) with ev := .notify r }
      else s.handled .bufevError)
  else none

def callback (s : State) : Option State :=
  match s.ev with
  | .notify r =>
    let s := s.deref r
    some { (if (s.req r).cb then s.record (.callback r) else s) with ev := .release r }
  | _ => none

def release (s : State) : Option State :=
  match s.ev with
  | .release r => if s.lock.canLock .event then some { freeReq .event r s with ev := .recheck } else none
  | _ => none

def recheck (s : State) (writeOk : Bool) : Option State :=
  match s.ev with
  | .recheck =>
    if s.lock.canLock .event then
      let s := s.ctxLock .event
      let s := if s.shutdownWhenDone then stopIfEmpty .event writeOk s else s
      some (s.ctxUnlock.handled .bufevError)
    else none
  | _ => none

def loopExit (s : State) : Option State :=
  if s.ev = .idle ∧ s.lock.canLock .event then
    some { ({ s.ctxLock .event with running := false } : State).ctxUnlock with ev := .ended }
  else none

/-- The middle of `nl_url_req_deinit`: `pipe_ev` and the event loop go, and the lock is released to free the
    loop. -/
def deinitLoop (s : State) (t base : Nat) : State :=
  { ({ s with evloop := false } : State).ctxUnlock with deinit := some (.freeing t base) }

def deinitBegin (s : State) (t : Nat) (writeOk : Bool) : Option State :=
  if s.deinit = none ∧ s.adding = [] ∧ s.lock.canLock (.caller t) then
    let base := s.lock.depth (.caller t)
    let s := s.ctxLock (.caller t)
    if s.running ∧ s.evloop then
      let s := nlUrlReqStop (.caller t) writeOk s
      some (if s.eventThread then { s.ctxUnlock with deinit := some (.waiting t base) } else deinitLoop s t base)
    else some (deinitLoop s t base)
  else none

def deinitJoined (s : State) : Option State :=
  match s.deinit with
  | some (.waiting t base) =>
    if s.ev = .ended ∧ s.lock.canLock (.caller t) then
      some (deinitLoop ({ s with eventThread := false }.ctxLock (.caller t)) t base)
    else none
  | _ => none

/-- The iteration of `nl_url_req_deinit` removes each request after it has moved on to the next one, so it
    visits the list as it stands. Closing both ends of the control pipe discards what is left in it. -/
def deinitFree (s : State) : Option State :=
  match s.deinit with
  | some (.freeing t base) =>
    if s.lock.canLock (.caller t) then
      let s := s.ctxLock (.caller t)
      let s := s.reqlist.foldl (fun s r => freeReq (.caller t) r s) s
      let s := ({ s with pipe := [] } : State).ctxUnlock
      some { s.ret (.caller t) .deinit base with deinit := some .returned }
    else none
  | _ => none

end Step

/-- One step of the context. -/
def step (s : State) : Action → Option State
  | .addBegin t cb p callocOk => Step.addBegin s t cb p callocOk
  | .addFinish t f => Step.addFinish s t f
  | .shutdown t writeOk => Step.shutdown s t writeOk
  | .wait => Step.wait s
  | .pipeRead ok => Step.pipeRead s ok
  | .dispatch writeOk => Step.dispatch s writeOk
  | .startCurl fails io => Step.startCurl s fails io
  | .startAbandon => Step.startAbandon s
  | .register fails => Step.register s fails
  | .giveUp => Step.giveUp s
  | .bufevError r buf errcode ret bufOk => Step.bufevError s r buf errcode ret bufOk
  | .callback => Step.callback s
  | .release => Step.release s
  | .recheck writeOk => Step.recheck s writeOk
  | .loopExit => Step.loopExit s
  | .deinitBegin t writeOk => Step.deinitBegin s t writeOk
  | .deinitJoined => Step.deinitJoined s
  | .deinitFree => Step.deinitFree s

/-- A context whose control pipe is written through descriptor `fd`. -/
def context (fd : Nat) : Machine State Action := ⟨.init fd, step⟩

end Nlutils.UrlReq
