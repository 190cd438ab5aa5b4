import Nlutils.UrlReq.State

/-! # The functions of `url_req.c`

Each function acts on the state as its C text does, up to the next point where another thread may run. The
results of library and system calls are parameters: a flag for each call that may fail, and the numbers the
calls return. -/

namespace Nlutils.UrlReq

/-! ### Requests -/

/-- `kill_req_and_wait`, which leaves no process behind. -/
def killReqAndWait (q : Req) : Req := if q.pid ≤ 0 then q else { q with pid := 0 }

/-- `free_params`; the hashes are destroyed, and their pointers stay. -/
def freeParams (p : Params) : Params := { p with method := none, url := none, body := ⟨0, none⟩ }

/-- `free_req`. -/
def freeReq (t : Tid) (r : ReqId) (s : State) : State :=
  let s := (s.deref r).ctxLock t
  let s := s.setReq r killReqAndWait
  let s := { s with reqlist := (FifoSpec.remove s.reqlist r).2 }
  let s := s.setReq r fun q =>
    { q with outbuf := false, errbuf := false, requestHeaders := false, responseHeaders := false }
  let s := s.ctxUnlock
  let s := s.setReq r fun q => { q with params := freeParams q.params }
  s.free t r

/-! ### Shutting down -/

/-- `nl_url_req_shutdown`. -/
def nlUrlReqShutdown (t : Tid) (writeOk : Bool) (s : State) : State :=
  let s := s.ctxLock t
  let s := if s.evPipeWritefd ≥ 0 ∧ writeOk then { s with pipe := s.pipe ++ [none] } else s
  s.ctxUnlock

/-- `nl_url_req_stop`. -/
def nlUrlReqStop (t : Tid) (writeOk : Bool) (s : State) : State :=
  let s := s.ctxLock t
  let s := if s.evloop ∧ ¬s.stopping then nlUrlReqShutdown t writeOk { s with stopping := true } else s
  s.ctxUnlock

/-- The check that `control_pipe_handler` and `check_process` make: no request is left, so stop. The log
    tells the stop that this check asks for from one that was asked for before. -/
def stopIfEmpty (t : Tid) (writeOk : Bool) (s : State) : State :=
  if FifoSpec.count s.reqlist = 0 then
    let s' := nlUrlReqStop t writeOk s
    if s.stopping then s' else s'.record .drained
  else s

/-! ### `nl_url_req_add` -/

/-- The calls of `nl_url_req_add` under the lock that may fail. -/
structure AddFails where
  encode : Bool := false
  cloneBody : Bool := false
  cloneHeaders : Bool := false
  cloneForm : Bool := false
  malloc : Bool := false
  write : Bool := false
  deriving DecidableEq, Repr

/-- No call under the lock fails: not one that is made for these parameters, and not the insertion into the
    request list, which also fails when the number of requests no longer fits an `int`. -/
def AddFails.ok (f : AddFails) (p : Params) (reqlist : List ReqId) : Bool :=
  !f.encode && !(p.headers.isSome && f.cloneHeaders) && !(p.form.isSome && f.cloneForm) && !f.malloc &&
    decide (reqlist.length + 1 < 2 ^ 31) && !f.write

/-- What `nl_url_req_add` returns before it allocates a request, or 0. -/
def addCheck (s : State) (p : Params) : Int :=
  if !s.running || s.stopping then einval
  else match p.url with
    | none => efault
    | some url =>
      if nlStrstart url (bytes "http://") ≠ 0 ∧ nlStrstart url (bytes "https://") ≠ 0 ∧
          nlStrstart url (bytes "ftp://") ≠ 0 then einval
      else if p.connectTimeout < 0 ∨ p.requestTimeout < 0 then einval
      else if p.body.size ≠ 0 ∧ p.body.data = none then einval
      else if p.body.data ≠ none ∧ p.form ≠ none ∧ p.formType ≠ nlOnUrl then einval
      else if p.formType < 0 ∨ p.formType > nlFormTypeMax then einval
      else 0

/-- `clone_params`; `none` in the request's body stands for the NULL that a failed copy leaves. -/
def cloneParams (f : AddFails) (p : Params) (q : Req) : Int × Req :=
  let q := { q with params := { q.params with method := some q.method, url := q.url } }
  let q := if p.body.data.isSome then
      { q with hasBody := true, params := { q.params with body := nlCopyData (!f.cloneBody) p.body } } else q
  if p.headers.isSome ∧ f.cloneHeaders then (-1, q) else
  let q := if p.headers.isSome then { q with params := { q.params with headers := p.headers } } else q
  if p.form.isSome ∧ f.cloneForm then (-1, q) else
  let q := if p.form.isSome then { q with params := { q.params with form := p.form } } else q
  (0, { q with params := { q.params with
    formType := p.formType, connectTimeout := p.connectTimeout, requestTimeout := p.requestTimeout } })

/-- The assignments after the lock. -/
def initReq (a : Adding) (q : Req) : Req :=
  { q with cb := a.cb, readfd := -1, errfd := -1, method := (a.params.method.getD (bytes "GET")).take 15 }

/-- The region of `nl_url_req_add` that starts with its lock: what it returns, and the state it leaves. The
    `error` label frees the request and returns without unlocking. -/
def addUnderLock (f : AddFails) (a : Adding) (s : State) : Int × State :=
  let t := .caller a.thread
  let error (s : State) : Int × State := (ebusy, freeReq t a.req s)
  let s := s.ctxLock t
  let s := s.setReq a.req (initReq a)
  if f.encode then error s else
  let s := s.setReq a.req ({ · with url := some (nlUrlEncode (a.params.url.getD []) true true) })
  let cloned := cloneParams f a.params (s.req a.req)
  let s := s.setReq a.req fun _ => cloned.2
  if cloned.1 ≠ 0 then error s else
  let put := FifoSpec.put (!f.malloc) s.reqlist a.req
  let s := { s with reqlist := put.2 }
  if put.1 < 0 then error s else
  if f.write then error s else
  (0, { s with pipe := s.pipe ++ [some a.req] }.ctxUnlock)

/-! ### `start_curl` -/

/-- The calls of `start_curl` that may fail, in the order of the source. -/
inductive StartCall
  | tempFifo
  | popen
  | openFifo
  | writeUrl
  | writeConnectTimeout
  | writeMaxTime
  | writeGet
  | formParam (i : Nat)
  | header (i : Nat)
  | contentLength
  | uploadFile
  | closeWritefd
  | writeBody
  | closeBodyfd
  | outbuf
  | errbuf
  | requestHeaders
  | responseHeaders
  deriving DecidableEq, Repr

/-- What `nl_popen3vec` gives on success. -/
structure Popen where
  pid : Nat
  readfd : Nat
  errfd : Nat
  deriving DecidableEq, Repr

/-- The calls `start_curl` makes for a request, as long as none of them fails. -/
def startCalls (q : Req) : List StartCall :=
  [.tempFifo, .popen, .openFifo, .writeUrl, .writeConnectTimeout, .writeMaxTime] ++
  (match q.params.form with
    | none => []
    | some form => (if q.params.formType = nlOnUrl then [.writeGet] else []) ++
        (List.range form.length).map .formParam) ++
  (match q.params.headers with
    | none => []
    | some headers => (List.range headers.length).map .header) ++
  (if q.hasBody then .contentLength :: (if q.params.body.size > 0 then [.uploadFile] else []) else []) ++
  [.closeWritefd] ++
  (if q.hasBody && q.params.body.data.isSome then [.writeBody] else []) ++
  [.closeBodyfd, .outbuf, .errbuf, .requestHeaders, .responseHeaders]

/-- What a call of `start_curl` that succeeds stores in the request. -/
def StartCall.store (io : Popen) (c : StartCall) (q : Req) : Req :=
  match c with
  | .popen => { q with pid := io.pid + 1, readfd := io.readfd, errfd := io.errfd }
  | .outbuf => { q with outbuf := true }
  | .errbuf => { q with errbuf := true }
  | .requestHeaders => { q with requestHeaders := true }
  | .responseHeaders => { q with responseHeaders := true }
  | _ => q

/-- `start_curl` from one of its calls on: the request at the end, or at the `error` label. -/
def startFrom (fails : StartCall → Bool) (io : Popen) : List StartCall → Req → Except Req Req
  | [], q => .ok q
  | c :: cs, q =>
    if fails c then .error (if c = .popen then { q with pid := -1 } else q)
    else startFrom fails io cs (c.store io q)

def startCurl (fails : StartCall → Bool) (io : Popen) (q : Req) : Except Req Req :=
  startFrom fails io (startCalls q) q

/-- What the error path of `start_curl` does to the request before it frees it. -/
def startError (q : Req) : Req := killReqAndWait { q with error := true }

/-! ### `control_pipe_handler` after `start_curl` -/

/-- The libevent calls that may fail, in the order of the source. -/
inductive RegisterCall
  | baseSetOut
  | enableOut
  | baseSetErr
  | enableErr
  deriving DecidableEq, Repr

def registerCalls : List RegisterCall := [.baseSetOut, .enableOut, .baseSetErr, .enableErr]

/-! ### `bufev_error` and `check_process` -/

/-- The bufferevent that an event names. -/
inductive Buf
  | out
  | err
  deriving DecidableEq, Repr

/-- `EVBUFFER_READ | EVBUFFER_EOF`, `EVBUFFER_READ | EVBUFFER_TIMEOUT`, and any other code. -/
inductive Errcode
  | eof
  | timeout
  | other
  deriving DecidableEq, Repr

/-- The flags that `bufev_error` sets. -/
def bufevError (buf : Buf) (errcode : Errcode) (q : Req) : Req :=
  match errcode, buf with
  | .eof, .out => { q with outEof := true }
  | .eof, .err => { q with errEof := true }
  | .timeout, _ => { q with timeout := true }
  | .other, _ => { q with error := true }

/-- The test of `check_process`. -/
def Req.finished (q : Req) : Bool := q.timeout || q.error || (q.outEof && q.errEof)

/-- `check_process` up to the callback: `ret` is what waiting for the process gives, and `bufOk` says that
    the terminating zero bytes could be added to the buffers. -/
def checkProcess (ret : Int) (bufOk : Bool) (q : Req) : Req :=
  let ret := if q.pid ≤ 0 then 0 else ret
  let q := killReqAndWait q
  let q := if ret = 28 then { q with timeout := true } else if ret ≠ 0 then { q with error := true } else q
  if bufOk then q else { q with error := true }

end Nlutils.UrlReq
