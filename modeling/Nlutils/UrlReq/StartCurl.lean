import Nlutils.Exec
import Nlutils.Stream
import Nlutils.Timespec
import Nlutils.UrlReq.Code

/-! # What `start_curl` does to the system

The calls are those of `startCalls`, here with what they do to descriptors, files and processes. `close`, `unlink`,
`kill` and waiting succeed, and so does `rmdir` for a directory that is empty. There is no result where a descriptor is
closed that is not open. -/

namespace Nlutils.UrlReq.StartCurl
open Lib

/-- `NL_TIMESPEC_GTE` -/
def nlTimespecGte (a b : Timespec) : Bool := a.sec > b.sec || (a.sec == b.sec && a.nsec ≥ b.nsec)

/-- What a call that has failed leaves in `errno`. -/
structure Errno where
  n : Nat
  pos : 0 < n
  deriving DecidableEq, Repr

def eio : Int := 5
def etimedout : Int := 110

/-- A round of the loop of `nl_open_timeout`: the file is opened, or it is not, and the time is asked for. -/
inductive OpenTry
  | opened
  | failed (err : Errno) (now : Except Errno Timespec)

/-- The loop goes on after a round in which the time is not up. -/
def OpenTry.isLast (done : Timespec) : OpenTry → Bool
  | .opened => true
  | .failed _ (.error _) => true
  | .failed _ (.ok now) => nlTimespecGte now done

/-- What `nl_open_timeout` meets: the end of its interval, the rounds of its loop, and whether `nl_set_nonblock`
    succeeds. The time passes. -/
structure OpenEnv where
  fromnow : Except Errno Timespec
  tries : List OpenTry
  nonblock : Bool
  ends : ∀ done, fromnow = .ok done → tries.any (·.isLast done) = true

/-- Whether the calls succeed; `fork` is one less than the process id. `fails` is for the calls that neither open nor
    close anything. -/
structure StartEnv where
  strdup : Bool := true
  malloc : Bool := true
  mkdtemp : Bool := true
  mkfifo : Bool := true
  access : Bool := true
  pipe : Std → Bool := fun _ => true
  fork : Option Nat
  opening : OpenEnv
  fails : StartCall → Bool := fun _ => false

def StartEnv.popen (env : StartEnv) : PopenEnv where
  access := env.access
  pipe := env.pipe
  fork := env.fork.map (· + 1)

/-- The descriptors, whether the temporary directory and the FIFO exist, and the child processes. -/
structure World where
  fds : Fds
  dir : Bool := false
  fifo : Bool := false
  children : List Int

/-- The directory is removed if it is empty. -/
def World.rmdir (w : World) : World := if w.fifo then w else { w with dir := false }

def World.unlink (w : World) : World := { w with fifo := false }

/-- The variables of `start_curl`; a pointer is only NULL or not. -/
structure Run where
  req : Req
  writefd : Int := -1
  bodyfd : Int := -1
  optFifo : Bool := false
  tempDir : Bool := false
  world : World

/-! ### The calls -/

/-- The label `error` of `temp_fifo`. -/
def tempFifoError (dirCreated : Bool) (w : World) : Int × World := (-1, if dirCreated then w.rmdir else w)

def tempFifo (env : StartEnv) (w : World) : Int × World :=
  if !env.strdup then tempFifoError false w
  else if !env.malloc then tempFifoError false w
  -- Only here the flag is set.
  else if !env.mkdtemp then tempFifoError true w
  else if !env.mkfifo then tempFifoError false { w with dir := true }
  else (0, { w with dir := true, fifo := true })

/-- The loop of `nl_open_timeout`. -/
def openLoop (done : Timespec) : List OpenTry → Fds → Option (Int × Fds)
  | [], _ => none
  | .opened :: _, t => some ((t.install ⟨.fifo, true⟩).1, (t.install ⟨.fifo, true⟩).2)
  | .failed _ (.error err) :: _, t => some (-err.n, t)
  | .failed err (.ok now) :: more, t =>
    if nlTimespecGte now done then
      some (if (err.n : Int) = eagain ∨ (err.n : Int) = ewouldblock then -etimedout else -err.n, t)
    else openLoop done more t

def nlOpenTimeout (env : OpenEnv) (t : Fds) : Option (Int × Fds) :=
  match env.fromnow with
  | .error err => some (-err.n, t)
  | .ok done =>
    (openLoop done env.tries t).bind fun (ret, t) =>
      -- These returns are inside the loop.
      if ret < 0 then some (ret, t)
      else if env.nonblock then some (ret, t)
      else (closeFd ret t).map fun t => (-eio, t)

/-- `header_hash_callback` and `form_hash_callback`: whether they fail. -/
def hashCallback (fails : Bool) (r : Run) : Option (Bool × Run) :=
  if fails then
    (closeFd r.writefd r.world.fds).map fun fds =>
      (true, { r with writefd := -1, world := { r.world with fds := fds } })
  else some (false, r)

/-- A call of `start_curl`: whether it goes to `error` then, and its variables. -/
def callStep (env : StartEnv) (c : StartCall) (r : Run) : Option (Bool × Run) :=
  match c with
  | .tempFifo =>
    let made := tempFifo env r.world
    some (if made.1 ≠ 0 then (true, { r with world := made.2 })
      else (false, { r with world := made.2, tempDir := true, optFifo := true }))
  | .popen =>
    (nlPopen3vec env.popen (fun _ => true) r.world.fds).map fun (pid, out, fds) =>
      (pid ≤ 0, { r with
        req := { r.req with pid := pid, readfd := out.readfd.getD r.req.readfd, errfd := out.errfd.getD r.req.errfd }
        bodyfd := out.writefd.getD r.bodyfd
        world := { r.world with
          fds := fds
          children := if pid > 0 then pid :: r.world.children else r.world.children } })
  | .openFifo =>
    (nlOpenTimeout env.opening r.world.fds).map fun (fd, fds) =>
      (fd < 0, { r with writefd := fd, world := { r.world with fds := fds } })
  | .writeUrl | .writeConnectTimeout | .writeMaxTime | .writeGet | .uploadFile | .writeBody => some (env.fails c, r)
  | .formParam _ | .header _ | .contentLength => hashCallback (env.fails c) r
  | .closeWritefd =>
    (closeFd r.writefd r.world.fds).map fun fds =>
      (false, { r with writefd := -1, world := { r.world with fds := fds } })
  | .closeBodyfd =>
    -- The FIFO and its directory are removed after this.
    (closeFd r.bodyfd r.world.fds).map fun fds =>
      (false, { r with
        bodyfd := -1
        optFifo := false
        tempDir := false
        world := { r.world with fds := fds }.unlink.rmdir })
  | .outbuf | .errbuf | .requestHeaders | .responseHeaders =>
    some (env.fails c, if env.fails c then r else { r with req := c.store ⟨0, 0, 0⟩ r.req })

def runCalls (env : StartEnv) : List StartCall → Run → Option (Bool × Run)
  | [], r => some (false, r)
  | c :: cs, r => (callStep env c r).bind fun (failed, r) => if failed then some (true, r) else runCalls env cs r

/-! ### The error path -/

/-- `kill_req_and_wait` -/
def killAndWait (q : Req) (w : World) : World := if q.pid ≤ 0 then w else { w with children := w.children.erase q.pid }

/-- `free_req`; freeing a bufferevent does not close its descriptor. -/
def freeReqFds (q : Req) (w : World) : Option World :=
  let w := killAndWait q w
  (closeIfOpen q.readfd w.fds).bind fun fds => (closeIfOpen q.errfd fds).map fun fds => { w with fds := fds }

/-- The label `error` of `start_curl`: the request before it is freed, and the world after this. What is read from
    `errfd` is only logged. -/
def errorLabel (r : Run) : Option (Req × World) :=
  (closeIfOpen r.writefd r.world.fds).bind fun fds => (closeIfOpen r.bodyfd fds).bind fun fds =>
    let w := { r.world with fds := fds }
    let w := if r.optFifo then w.unlink else w
    let w := if r.tempDir then w.rmdir else w
    let w := killAndWait r.req w
    let q := startError r.req
    (freeReqFds q w).map fun w => (q, w)

/-- `start_curl`, when there is neither directory nor FIFO yet. -/
def startCurl (env : StartEnv) (q : Req) (fds : Fds) (children : List Int) : Option (Int × Req × World) :=
  (runCalls env (startCalls q) { req := q, world := { fds := fds, children := children } }).bind fun (failed, r) =>
    if failed then (errorLabel r).map fun (q, w) => (ebusy, q, w) else some (0, r.req, r.world)

end Nlutils.UrlReq.StartCurl
