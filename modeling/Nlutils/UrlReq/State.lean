import Nlutils.Lib.RecMutex
import Nlutils.Fifo.Spec
import Nlutils.RawData
import Nlutils.Url

/-! # The state of a request context (`url_req.c`)

A request is named by the order of its allocation, and its memory is never handed out again: a request
that has been freed keeps its last contents, and each use of it is recorded in the log. What the program does
after such a use is not defined, and the steps from there on say nothing about it: the results about runs are
about those in which no `start_curl` fails, and no such run gets there (`FreedOnce`). The control pipe
holds whole pointers, since writes of that size are atomic and only the event thread reads.

The state also holds the position of every thread inside the functions of `url_req.c`. A step runs from one
such position to the next, and one step never covers more than one region that the context lock protects. -/

namespace Nlutils.UrlReq
open Lib

abbrev ReqId := Nat

/-- The event thread, and the threads that call into the library. -/
inductive Tid
  | event
  | caller (n : Nat)
  deriving DecidableEq, Repr

/-- `struct nl_url_params`; a hash is the list of its pairs, and `none` a NULL pointer. -/
structure Params where
  method : Option Bytes := none
  url : Option Bytes := none
  body : RawData := ⟨0, none⟩
  headers : Option (List (Bytes × Bytes)) := none
  form : Option (List (Bytes × Bytes)) := none
  formType : Int := 0
  connectTimeout : Int := 0
  requestTimeout : Int := 0
  deriving DecidableEq, Repr

def nlOnUrl : Int := 0
def nlMultipart : Int := 2
def nlFormTypeMax : Int := 2

def enomem : Int := 12
def efault : Int := 14
def ebusy : Int := 16
def einval : Int := 22

/-- `struct nl_url_req` with the parts of its result that decide what happens to it. A new request is
    zeroed, as by `calloc`. -/
structure Req where
  /-- The memory has not been freed. -/
  live : Bool := true
  /-- The callback pointer is not NULL. -/
  cb : Bool := false
  pid : Int := 0
  readfd : Int := 0
  errfd : Int := 0
  outbuf : Bool := false
  errbuf : Bool := false
  /-- The event loop reads both bufferevents. -/
  reading : Bool := false
  params : Params := {}
  method : Bytes := []
  url : Option Bytes := none
  timeout : Bool := false
  error : Bool := false
  requestHeaders : Bool := false
  responseHeaders : Bool := false
  hasBody : Bool := false
  outEof : Bool := false
  errEof : Bool := false
  deriving DecidableEq, Repr

/-- Where the event thread is. -/
inductive EvPc
  /-- In `event_base_dispatch`, between two events. -/
  | idle
  /-- `control_pipe_handler` has read a message and not yet locked the context. -/
  | dispatch (m : Option ReqId)
  /-- `control_pipe_handler` calls `start_curl`. -/
  | starting (r : ReqId)
  /-- `start_curl` is at the end of its error path, before `free_req`. -/
  | startFailed (r : ReqId)
  /-- `control_pipe_handler` connects the request's bufferevents to the event loop. -/
  | registering (r : ReqId)
  /-- `control_pipe_handler` is at its `error` label. -/
  | giveUp (r : ReqId)
  /-- `check_process` is about to call the callback. -/
  | notify (r : ReqId)
  /-- `check_process` is about to free the request. -/
  | release (r : ReqId)
  /-- `check_process` is about to look for a requested shutdown. -/
  | recheck
  /-- The thread has returned. -/
  | ended
  deriving DecidableEq, Repr

/-- A call of `nl_url_req_add` between its admission test and its lock. -/
structure Adding where
  thread : Nat
  req : ReqId
  cb : Bool
  params : Params
  base : Nat
  deriving DecidableEq, Repr

/-- Where a call of `nl_url_req_deinit` is. -/
inductive DeinitPc
  /-- Waiting for the event thread. -/
  | waiting (thread base : Nat)
  /-- Freeing the event loop, without the lock. -/
  | freeing (thread base : Nat)
  | returned
  deriving DecidableEq, Repr

/-- The calls that return. For `nl_url_req_add`, `subcalls` says whether all the calls it would make under
    the lock can succeed, and is `none` when it returns before it locks. -/
inductive Call
  | add (subcalls : Option Bool)
  | shutdown
  | deinit
  | controlPipeHandler
  | bufevError
  deriving DecidableEq, Repr

/-- What a run leaves behind. -/
inductive Event
  /-- `nl_url_req_add` returned 0 for the request. -/
  | accepted (r : ReqId)
  | callback (r : ReqId)
  | freed (r : ReqId) (t : Tid)
  | useAfterFree (r : ReqId)
  /-- A call returned; the depth at which its thread held the lock before and after it. -/
  | returned (t : Tid) (c : Call) (before after : Nat)
  /-- The event loop was told to exit because the list was empty and a shutdown had been asked for. -/
  | drained
  deriving DecidableEq, Repr

structure State where
  lock : RecMutex Tid := .free
  evloop : Bool := true
  eventThread : Bool := true
  evPipeWritefd : Int
  reqlist : List ReqId := []
  running : Bool := true
  stopping : Bool := false
  shutdownWhenDone : Bool := false
  reqs : List Req := []
  pipe : List (Option ReqId) := []
  ev : EvPc := .idle
  /-- The lock depth at which the current event began. -/
  evBase : Nat := 0
  adding : List Adding := []
  deinit : Option DeinitPc := none
  log : List Event := []
  deriving DecidableEq, Repr

/-- What a successful `nl_url_req_init` returns; `fd` is the write end of its control pipe. -/
def State.init (fd : Nat) : State := { evPipeWritefd := fd }

namespace State

def record (s : State) (e : Event) : State := { s with log := s.log ++ [e] }

def setReq (s : State) (r : ReqId) (f : Req → Req) : State := { s with reqs := s.reqs.modify r f }

/-- The request's memory as it is, whether it has been freed or not. -/
def req (s : State) (r : ReqId) : Req := s.reqs.getD r {}

def isLive (s : State) (r : ReqId) : Bool := s.reqs[r]?.any (·.live)

/-- A use of the request's memory. -/
def deref (s : State) (r : ReqId) : State := if s.isLive r then s else s.record (.useAfterFree r)

/-- `ctx_lock`; a step that locks is taken only when its thread need not wait. -/
def ctxLock (s : State) (t : Tid) : State := { s with lock := s.lock.lock t }

def ctxUnlock (s : State) : State := { s with lock := s.lock.unlock }

/-- `free(req)`. -/
def free (s : State) (t : Tid) (r : ReqId) : State :=
  (s.setReq r ({ · with live := false })).record (.freed r t)

end State
end Nlutils.UrlReq
