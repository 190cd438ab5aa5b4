import Nlutils.UrlReq.StartCurl

/-! # What `start_curl` leaves behind

Between the calls, the variables of `start_curl` name exactly what is to be undone (`Inv`), so that its error path
leaves nothing. The one exception is a directory that `temp_fifo` has made and cannot use. -/

namespace Nlutils.UrlReq.StartCurl
open Lib

/-- A request as `nl_url_req_add` makes it. -/
structure IsNew (q : Req) : Prop where
  pid : q.pid = 0
  readfd : q.readfd = -1
  errfd : q.errfd = -1

/-- On failure there is nothing left; on success only the two descriptors of the request are open. After `nl_popen3vec`
    one descriptor has been opened, and that one and `bodyfd` have been closed. -/
structure LeavesNothing (env : StartEnv) (fds : Fds) (children : List Int) (r : Int) (q : Req) (w : World) : Prop where
  dir : w.dir = false
  fifo : w.fifo = false
  failed : r ≠ 0 → fds.Since w.fds [] ∧ w.children = children
  succeeded : r = 0 → ∃ (pid writefd bodyfd readfd errfd : Nat) (fds' : Fds),
    nlPopen3vec env.popen (fun _ => true) fds = some ((pid : Int), ⟨some bodyfd, some readfd, some errfd⟩, fds') ∧
    w.children = (pid : Int) :: children ∧ q.readfd = readfd ∧ q.errfd = errfd ∧ fds.Since w.fds [readfd, errfd] ∧
    w.fds.get readfd = some ⟨parentEnd .stdout, true⟩ ∧ w.fds.get errfd = some ⟨parentEnd .stderr, false⟩ ∧
    w.fds.opened = fds'.opened ++ [writefd] ∧ w.fds.closed = fds'.closed ++ [writefd, bodyfd]

/-- `temp_fifo` makes its directory and no FIFO. -/
def StartEnv.LeavesDir (env : StartEnv) : Prop :=
  env.strdup = true ∧ env.malloc = true ∧ env.mkdtemp = true ∧ env.mkfifo = false

/-- The descriptor that a variable names. -/
def fdOf (fd : Int) : List Nat := if 0 ≤ fd then [fd.toNat] else []

/-- The descriptors that the variables name. -/
def Run.held (r : Run) : List Nat := fdOf r.writefd ++ (fdOf r.bodyfd ++ (fdOf r.req.readfd ++ fdOf r.req.errfd))

/-- The variables name what is open, what exists and what runs. -/
structure Inv (fds : Fds) (children : List Int) (r : Run) : Prop where
  since : fds.Since r.world.fds r.held
  dir : r.world.dir = r.tempDir
  fifo : r.world.fifo = r.optFifo
  children : r.world.children = if r.req.pid ≤ 0 then children else r.req.pid :: children

section
variable {env : StartEnv} {fds t t' : Fds} {children : List Int} {r r' : Run} {cs ds : List StartCall} {c : StartCall}
  {P Q : Run → Prop} {fd : Int} {n : Nat} {held : List Nat} {q : Req} {w : World}

@[simp] theorem fdOf_nat (n : Nat) : fdOf n = [n] := if_pos (Int.natCast_nonneg n)

@[simp] theorem fdOf_neg_one : fdOf (-1) = [] := rfl

theorem fdOf_neg (h : fd < 0) : fdOf fd = [] := if_neg (Int.not_le.mpr h)

/-! ### The error path -/

/-- Closing what a variable names. -/
theorem Since.closeIfOpen (S : fds.Since t (fdOf fd ++ held)) :
    ∃ t', closeIfOpen fd t = some t' ∧ fds.Since t' held := by
  by_cases h : 0 ≤ fd
  · obtain ⟨n, rfl⟩ := Int.eq_ofNat_of_zero_le h
    rw [fdOf_nat] at S
    obtain ⟨t', hclose, S', -⟩ := S.close
    exact ⟨t', (closeIfOpen_nat n).trans hclose, S'⟩
  · rw [fdOf_neg (Int.not_le.mp h)] at S
    exact ⟨t, if_neg h, S⟩

theorem killAndWait_files (q : Req) (w : World) :
    (killAndWait q w).fds = w.fds ∧ (killAndWait q w).dir = w.dir ∧ (killAndWait q w).fifo = w.fifo := by
  rw [killAndWait]
  split <;> exact ⟨rfl, rfl, rfl⟩

theorem killAndWait_children (h : w.children = if q.pid ≤ 0 then children else q.pid :: children) :
    (killAndWait q w).children = children := by
  rw [killAndWait]
  split
  · next hpid => rw [h, if_pos hpid]
  · next hpid =>
    show w.children.erase q.pid = children
    rw [h, if_neg hpid, List.erase_cons_head]

theorem startError_pid (q : Req) : (startError q).pid ≤ 0 := by
  rw [startError, killReqAndWait]
  split
  · next h => exact h
  · exact Int.le_refl 0

/-- The FIFO and the directory are removed when there are any. -/
theorem remove_files {tempDir optFifo : Bool} (hdir : w.dir = tempDir) (hfifo : w.fifo = optFifo) :
    ∃ w', (if tempDir then (if optFifo then w.unlink else w).rmdir else if optFifo then w.unlink else w) = w' ∧
      w'.dir = false ∧ w'.fifo = false ∧ w'.fds = w.fds ∧ w'.children = w.children := by
  refine ⟨_, rfl, ?_⟩
  cases tempDir <;> cases optFifo <;> simp [World.rmdir, World.unlink, hdir, hfifo]

theorem startError_fds (q : Req) : (startError q).readfd = q.readfd ∧ (startError q).errfd = q.errfd := by
  rw [startError, killReqAndWait]
  split <;> exact ⟨rfl, rfl⟩

/-- Where the variables name everything, the error path leaves nothing. -/
theorem errorLabel_eq (I : Inv fds children r) : ∃ w, errorLabel r = some (startError r.req, w) ∧
    w.dir = false ∧ w.fifo = false ∧ fds.Since w.fds [] ∧ w.children = children := by
  obtain ⟨fds₁, h₁, S₁⟩ := Since.closeIfOpen I.since
  obtain ⟨fds₂, h₂, S₂⟩ := Since.closeIfOpen S₁
  obtain ⟨w, hw, hdir, hfifo, hfds, hchildren⟩ := remove_files (w := { r.world with fds := fds₂ }) I.dir I.fifo
  obtain ⟨hfds', hdir', hfifo'⟩ := killAndWait_files r.req w
  have hkilled := killAndWait_children (q := r.req) (hchildren.trans I.children)
  obtain ⟨hreadfd, herrfd⟩ := startError_fds r.req
  have hidle : killAndWait (startError r.req) (killAndWait r.req w) = killAndWait r.req w :=
    if_pos (startError_pid r.req)
  obtain ⟨fds₃, h₃, S₃⟩ := Since.closeIfOpen S₂
  rw [← List.append_nil (fdOf r.req.errfd)] at S₃
  obtain ⟨fds₄, h₄, S₄⟩ := Since.closeIfOpen S₃
  refine ⟨{ killAndWait r.req w with fds := fds₄ }, ?_, hdir'.trans hdir, hfifo'.trans hfifo, S₄, hkilled⟩
  simp only [errorLabel, h₁, h₂, Option.bind_some, hw, freeReqFds, hidle, hreadfd, herrfd, hfds', hfds, h₃, h₄,
    Option.map_some]

/-! ### The calls that open something -/

theorem tempFifo_cases (env : StartEnv) (fds : Fds) (children : List Int) :
    env.LeavesDir ∧ tempFifo env ⟨fds, false, false, children⟩ = (-1, ⟨fds, true, false, children⟩) ∨
    ¬env.LeavesDir ∧ (tempFifo env ⟨fds, false, false, children⟩ = (-1, ⟨fds, false, false, children⟩) ∨
      tempFifo env ⟨fds, false, false, children⟩ = (0, ⟨fds, true, true, children⟩)) := by
  rw [StartEnv.LeavesDir, tempFifo]
  cases env.strdup
  case false => exact Or.inr ⟨by simp, Or.inl rfl⟩
  cases env.malloc
  case false => exact Or.inr ⟨by simp, Or.inl rfl⟩
  cases env.mkdtemp
  case false => exact Or.inr ⟨by simp, Or.inl rfl⟩
  cases env.mkfifo
  case false => exact Or.inl ⟨⟨rfl, rfl, rfl, rfl⟩, rfl⟩
  exact Or.inr ⟨by simp, Or.inr rfl⟩

theorem neg_errno (err : Errno) : -(err.n : Int) < 0 := Int.neg_neg_of_pos (Int.natCast_pos.mpr err.pos)

/-- The loop comes to an end, with the file open or with an error. -/
theorem openLoop_cases {done : Timespec} {tries : List OpenTry} (h : tries.any (·.isLast done) = true) :
    (∀ t : Fds, openLoop done tries t = some ((t.lowest : Int), (t.install ⟨.fifo, true⟩).2)) ∨
    ∃ e : Int, e < 0 ∧ ∀ t, openLoop done tries t = some (e, t) := by
  induction tries with
  | nil => cases h
  | cons x more ih =>
    rcases x with _ | ⟨err, err' | now⟩
    · exact Or.inl fun _ => rfl
    · exact Or.inr ⟨_, neg_errno err', fun _ => rfl⟩
    · by_cases hdone : nlTimespecGte now done = true
      · have hlast : ∀ t, openLoop done (.failed err (.ok now) :: more) t =
            some (if (err.n : Int) = eagain ∨ (err.n : Int) = ewouldblock then -etimedout else -err.n, t) := fun t => by
          simp only [openLoop, if_pos hdone]
        refine Or.inr ⟨_, ?_, hlast⟩
        split
        · exact Int.neg_neg_of_pos (by decide)
        · exact neg_errno err
      · have hmore : more.any (·.isLast done) = true := by
          rwa [List.any_cons, OpenTry.isLast, Bool.eq_false_iff.mpr hdone, Bool.false_or] at h
        refine (ih hmore).imp (fun hopen t => ?_) fun ⟨e, he, hfail⟩ => ⟨e, he, fun t => ?_⟩
        · simp only [openLoop, if_neg hdone, hopen]
        · simp only [openLoop, if_neg hdone, hfail]

/-- The file is open, or what is open is as before. -/
theorem nlOpenTimeout_cases (env : OpenEnv) :
    (∀ t : Fds, nlOpenTimeout env t = some ((t.lowest : Int), (t.install ⟨.fifo, true⟩).2)) ∨
    ∃ e : Int, e < 0 ∧ ∀ t : Fds, ∃ t', nlOpenTimeout env t = some (e, t') ∧
      ∀ (t₀ : Fds) (held : List Nat), t₀.Since t held → t₀.Since t' held := by
  cases hnow : env.fromnow with
  | error err =>
    refine Or.inr ⟨_, neg_errno err, fun t => ⟨t, ?_, fun _ _ S => S⟩⟩
    simp only [nlOpenTimeout, hnow]
  | ok done =>
    rcases openLoop_cases (env.ends done hnow) with hopen | ⟨e, he, hfail⟩
    · have hge : ∀ t : Fds, ¬(t.lowest : Int) < 0 := fun t => Int.not_lt.mpr (Int.natCast_nonneg _)
      cases hset : env.nonblock with
      | true =>
        refine Or.inl fun t => ?_
        simp only [nlOpenTimeout, hnow, hopen, Option.bind_some, if_neg (hge t), hset, if_true]
      | false =>
        refine Or.inr ⟨-eio, by decide, fun t => ?_⟩
        obtain ⟨t', hclose, -⟩ := FdTable.close_eq (FdTable.get_install_self (t := t) (d := ⟨.fifo, true⟩))
        refine ⟨t', ?_, fun t₀ held S => ?_⟩
        · have hcode : closeFd t.lowest (t.install ⟨.fifo, true⟩).2 = some t' := (closeFd_nat _).trans hclose
          simp only [nlOpenTimeout, hnow, hopen, Option.bind_some, if_neg (hge t), hset, Bool.false_eq_true, if_false,
            hcode, Option.map_some]
        · have S' := (S.install ⟨.fifo, true⟩).perm (List.perm_append_singleton t.lowest held)
          obtain ⟨t'', hclose', S'', -⟩ := S'.close
          obtain rfl := Option.some.inj (hclose.symm.trans hclose')
          exact S''
    · refine Or.inr ⟨e, he, fun t => ⟨t, ?_, fun _ _ S => S⟩⟩
      simp only [nlOpenTimeout, hnow, hfail, Option.bind_some, if_pos he]

/-! ### One call after the other -/

/-- The calls come to an end, with everything named, and with `P` if none of them has failed. -/
def Ends (fds : Fds) (children : List Int) (P : Run → Prop) (o : Option (Bool × Run)) : Prop :=
  ∃ failed r, o = some (failed, r) ∧ Inv fds children r ∧ (failed = false → P r)

theorem Ends.cons (h : Ends fds children P (callStep env c r))
    (hnext : ∀ r', Inv fds children r' → P r' → Ends fds children Q (runCalls env cs r')) :
    Ends fds children Q (runCalls env (c :: cs) r) := by
  obtain ⟨failed, r', hcode, I, hP⟩ := h
  rw [runCalls, hcode, Option.bind_some]
  cases failed with
  | true => exact ⟨true, r', rfl, I, fun h => by cases h⟩
  | false => exact hnext r' I (hP rfl)

/-- What every call keeps, all of them keep. -/
theorem Ends.all (hstep : ∀ c ∈ cs, ∀ r, Inv fds children r → P r → Ends fds children P (callStep env c r))
    (I : Inv fds children r) (hP : P r) : Ends fds children P (runCalls env cs r) := by
  induction cs generalizing r with
  | nil => exact ⟨false, r, rfl, I, fun _ => hP⟩
  | cons c cs ih =>
    refine (hstep c List.mem_cons_self r I hP).cons ?_
    exact fun r' I' hP' => ih (fun c hc => hstep c (List.mem_cons_of_mem _ hc)) I' hP'

theorem runCalls_append (cs ds : List StartCall) (r : Run) : runCalls env (cs ++ ds) r =
    (runCalls env cs r).bind fun x => if x.1 then some (true, x.2) else runCalls env ds x.2 := by
  induction cs generalizing r with
  | nil => rfl
  | cons c cs ih =>
    rw [List.cons_append, runCalls, runCalls, Option.bind_assoc]
    refine congrArg _ (funext fun x => ?_)
    cases hfailed : x.1 with
    | true => simp only [hfailed, if_true, Option.bind_some]
    | false => simp only [hfailed, Bool.false_eq_true, if_false, ih]

theorem Ends.append (h : Ends fds children P (runCalls env cs r))
    (hnext : ∀ r', Inv fds children r' → P r' → Ends fds children Q (runCalls env ds r')) :
    Ends fds children Q (runCalls env (cs ++ ds) r) := by
  obtain ⟨failed, r', hcode, I, hP⟩ := h
  rw [runCalls_append, hcode, Option.bind_some]
  cases failed with
  | true => exact ⟨true, r', rfl, I, fun h => by cases h⟩
  | false => exact hnext r' I (hP rfl)

/-- What `nl_popen3vec` has made. -/
structure Child where
  pid : Nat
  bodyfd : Nat
  readfd : Nat
  errfd : Nat
  fds : Fds

def Child.Made (x : Child) (env : StartEnv) (fds : Fds) : Prop :=
  nlPopen3vec env.popen (fun _ => true) fds =
    some ((x.pid : Int), ⟨some (x.bodyfd : Int), some (x.readfd : Int), some (x.errfd : Int)⟩, x.fds)

/-- Where `start_curl` is after `nl_popen3vec`, and what has been opened and closed since. -/
structure At (x : Child) (writefd bodyfd : Int) (files : Bool) (opened closed : List Nat) (r : Run) : Prop where
  pid : r.req.pid = x.pid
  pos : 0 < x.pid
  readfd : r.req.readfd = x.readfd
  errfd : r.req.errfd = x.errfd
  writefd : r.writefd = writefd
  bodyfd : r.bodyfd = bodyfd
  optFifo : r.optFifo = files
  tempDir : r.tempDir = files
  out : r.world.fds.get x.readfd = some ⟨parentEnd .stdout, true⟩
  err : r.world.fds.get x.errfd = some ⟨parentEnd .stderr, false⟩
  opened : r.world.fds.opened = x.fds.opened ++ opened
  closed : r.world.fds.closed = x.fds.closed ++ closed

theorem popen_ends (I : Inv fds children r) (N : IsNew r.req) (hwrite : r.writefd = -1) (hbody : r.bodyfd = -1)
    (hfifo : r.optFifo = true) (hdir : r.tempDir = true) (hfds : r.world.fds = fds) :
    Ends fds children (fun r => ∃ x : Child, x.Made env fds ∧ At x (-1) x.bodyfd true [] [] r)
      (callStep env .popen r) := by
  have hold : r.world.children = children := I.children.trans (if_pos (Int.le_of_eq N.pid))
  rcases nlPopen3vec_cases env.popen (fun _ => true) fds with
    ⟨-, t, hcode, S⟩ | ⟨-, pid, ⟨b, rd, ed⟩, t, hfork, hcode, S, hget⟩
  · refine ⟨true, _, by rw [callStep, hfds, hcode]; rfl, ?_, fun h => by cases h⟩
    refine ⟨?_, I.dir, I.fifo, hold⟩
    simpa [Run.held, hwrite, hbody, N.readfd, N.errfd] using S
  · obtain ⟨n, -, hpid⟩ := Option.map_eq_some_iff.mp hfork
    obtain ⟨bodyfd, hb, -⟩ := hget .stdin
    obtain ⟨readfd, hrd, hout⟩ := hget .stdout
    obtain ⟨errfd, hed, herr⟩ := hget .stderr
    simp only [PopenOut.get] at hb hrd hed
    subst hb hrd hed hpid
    have hpos : ¬((n + 1 : Nat) : Int) ≤ 0 := by omega
    refine ⟨false, _, by rw [callStep, hfds, hcode]; exact congrArg (fun b => some (b, _)) (decide_eq_false hpos), ?_,
      fun _ => ⟨⟨n + 1, bodyfd, readfd, errfd, t⟩, hcode, ?_⟩⟩
    · refine ⟨?_, I.dir, I.fifo, ?_⟩
      · have hheld : fds.Since t [bodyfd, readfd, errfd] := S
        simpa [Run.held, hwrite] using hheld
      · simp only [if_neg hpos, hold]
        exact if_pos (Int.not_le.mp hpos)
    · exact ⟨rfl, Nat.succ_pos n, rfl, rfl, hwrite, rfl, hfifo, hdir, hout, herr, (List.append_nil _).symm,
        (List.append_nil _).symm⟩

variable {x : Child} {writefd bodyfd : Nat} {files : Bool} {opened closed : List Nat} {fd fd' : Int}

/-- The descriptors of the request are last. -/
theorem At.held_eq (A : At x fd fd' files opened closed r) : r.held = fdOf fd ++ (fdOf fd' ++ [x.readfd, x.errfd]) := by
  rw [Run.held, A.writefd, A.bodyfd, A.readfd, A.errfd, fdOf_nat, fdOf_nat]
  rfl

theorem openFifo_ends (I : Inv fds children r) (A : At x (-1) fd' files [] [] r) :
    Ends fds children (fun r => ∃ writefd : Nat, At x writefd fd' files [writefd] [] r) (callStep env .openFifo r) := by
  have S := I.since
  rw [A.held_eq] at S
  rcases nlOpenTimeout_cases env.opening with hopen | ⟨e, he, hfail⟩
  · have hge : ¬(r.world.fds.lowest : Int) < 0 := Int.not_lt.mpr (Int.natCast_nonneg _)
    have hne : ∀ n d, r.world.fds.get n = some d → n ≠ r.world.fds.lowest := by
      rintro n d hget rfl
      cases FdTable.get_lowest.symm.trans hget
    refine ⟨false, _, by rw [callStep, hopen]; exact congrArg (fun b => some (b, _)) (decide_eq_false hge), ?_,
      fun _ => ⟨r.world.fds.lowest, ?_⟩⟩
    · refine ⟨?_, I.dir, I.fifo, I.children⟩
      simp only [Run.held, A.bodyfd, A.readfd, A.errfd, fdOf_nat]
      exact (S.install ⟨.fifo, true⟩).perm (List.perm_append_singleton _ _)
    · refine ⟨A.pid, A.pos, A.readfd, A.errfd, rfl, A.bodyfd, A.optFifo, A.tempDir, ?_, ?_, ?_, A.closed⟩
      · exact (FdTable.get_install_ne (hne _ _ A.out)).trans A.out
      · exact (FdTable.get_install_ne (hne _ _ A.err)).trans A.err
      · have hopened := A.opened
        rw [List.append_nil] at hopened
        exact congrArg (· ++ [r.world.fds.lowest]) hopened
  · obtain ⟨t, hcode, hsince⟩ := hfail r.world.fds
    refine ⟨true, _, by rw [callStep, hcode]; exact congrArg (fun b => some (b, _)) (decide_eq_true he), ?_,
      fun h => by cases h⟩
    refine ⟨?_, I.dir, I.fifo, I.children⟩
    simp only [Run.held, fdOf_neg he, A.bodyfd, A.readfd, A.errfd, fdOf_nat]
    exact hsince fds _ S

/-- The calls that write to curl or to its standard input. -/
def Writes : StartCall → Prop
  | .writeUrl | .writeConnectTimeout | .writeMaxTime | .writeGet | .formParam _ | .header _ | .contentLength |
    .uploadFile => True
  | _ => False

/-- Closing the FIFO. -/
theorem Inv.closeWritefd (I : Inv fds children r) (hfd : r.writefd = writefd) :
    ∃ t, closeFd r.writefd r.world.fds = some t ∧
      Inv fds children { r with writefd := -1, world := { r.world with fds := t } } ∧
      (∀ m, m ≠ writefd → t.get m = r.world.fds.get m) ∧ t.opened = r.world.fds.opened ∧
      t.closed = r.world.fds.closed ++ [writefd] := by
  have S := I.since
  rw [Run.held, hfd, fdOf_nat] at S
  obtain ⟨t, hclose, S', hother⟩ := S.close
  refine ⟨t, ?_, ⟨S', I.dir, I.fifo, I.children⟩, hother, FdTable.close_logged hclose⟩
  rw [hfd, closeFd_nat, hclose]

/-- The callbacks close the FIFO themselves when they fail. -/
theorem hashCallback_ends (fails : Bool) (I : Inv fds children r) (hfd : r.writefd = writefd) :
    Ends fds children (· = r) (hashCallback fails r) := by
  cases fails with
  | false => exact ⟨false, r, rfl, I, fun _ => rfl⟩
  | true =>
    obtain ⟨t, hclose, I', -⟩ := I.closeWritefd hfd
    refine ⟨true, _, ?_, I', fun h => by cases h⟩
    rw [hashCallback, if_pos rfl, hclose]
    rfl

theorem write_ends (hc : Writes c) (I : Inv fds children r) (hfd : r.writefd = writefd) :
    Ends fds children (· = r) (callStep env c r) := by
  cases c with
  | writeUrl | writeConnectTimeout | writeMaxTime | writeGet | uploadFile => exact ⟨_, r, rfl, I, fun _ => rfl⟩
  | formParam i | header i | contentLength => exact hashCallback_ends _ I hfd
  | tempFifo | popen | openFifo | closeWritefd | writeBody | closeBodyfd | outbuf | errbuf | requestHeaders |
    responseHeaders => exact hc.elim

theorem writes_ends (hcs : ∀ c ∈ cs, Writes c) (I : Inv fds children r) (hfd : r.writefd = writefd) :
    Ends fds children (· = r) (runCalls env cs r) := by
  refine Ends.all ?_ I rfl
  rintro c hc _ I rfl
  exact write_ends (hcs c hc) I hfd

theorem ne_first {a b c : Nat} {ns : List Nat} (h : (a :: (ns ++ [b, c])).Nodup) : b ≠ a ∧ c ≠ a := by
  have hnot := (List.nodup_cons.mp h).1
  constructor
  · rintro rfl
    exact hnot (by simp)
  · rintro rfl
    exact hnot (by simp)

theorem closeWritefd_ends (I : Inv fds children r) (A : At x writefd fd' files [writefd] [] r) :
    Ends fds children (At x (-1) fd' files [writefd] [writefd]) (callStep env .closeWritefd r) := by
  have hnodup := I.since.nodup
  rw [A.held_eq, fdOf_nat] at hnodup
  obtain ⟨hread, herr⟩ := ne_first hnodup
  obtain ⟨t, hclose, I', hother, hopened, hclosed⟩ := I.closeWritefd A.writefd
  refine ⟨false, _, by rw [callStep, hclose]; rfl, I', fun _ => ?_⟩
  refine ⟨A.pid, A.pos, A.readfd, A.errfd, rfl, A.bodyfd, A.optFifo, A.tempDir, ?_, ?_, ?_, ?_⟩
  · exact (hother _ hread).trans A.out
  · exact (hother _ herr).trans A.err
  · exact hopened.trans A.opened
  · rw [hclosed, A.closed, List.append_nil]

/-- Closing what the body is written to; then the FIFO and its directory are removed. -/
theorem closeBodyfd_ends (I : Inv fds children r) (A : At x (-1) bodyfd true opened closed r) :
    Ends fds children (At x (-1) (-1) false opened (closed ++ [bodyfd])) (callStep env .closeBodyfd r) := by
  have S := I.since
  rw [A.held_eq, fdOf_neg_one, List.nil_append, fdOf_nat] at S
  have hnodup : (bodyfd :: ([] ++ [x.readfd, x.errfd])).Nodup := S.nodup
  obtain ⟨hread, herr⟩ := ne_first hnodup
  obtain ⟨t, hclose, S', hother⟩ := S.close
  obtain ⟨hopened, hclosed⟩ := FdTable.close_logged hclose
  refine ⟨false, _, by rw [callStep, A.bodyfd, closeFd_nat, hclose]; rfl, ?_, fun _ => ?_⟩
  · refine ⟨?_, rfl, rfl, I.children⟩
    have hheld : fds.Since t (fdOf r.writefd ++ (fdOf (-1) ++ (fdOf r.req.readfd ++ fdOf r.req.errfd))) := by
      simpa [A.writefd, A.readfd, A.errfd] using S'
    exact hheld
  · refine ⟨A.pid, A.pos, A.readfd, A.errfd, A.writefd, rfl, rfl, rfl, ?_, ?_, ?_, ?_⟩
    · exact (hother _ hread).trans A.out
    · exact (hother _ herr).trans A.err
    · exact hopened.trans A.opened
    · rw [← List.append_assoc, ← A.closed]
      exact hclosed

/-- What the last calls make is part of the request. -/
def Prepares : StartCall → Prop
  | .outbuf | .errbuf | .requestHeaders | .responseHeaders => True
  | _ => False

theorem prepare_ends (hc : Prepares c) (I : Inv fds children r) (A : At x fd fd' files opened closed r) :
    Ends fds children (At x fd fd' files opened closed) (callStep env c r) := by
  have hfails : ∀ q : Req, q.pid = r.req.pid → q.readfd = r.req.readfd → q.errfd = r.req.errfd →
      Ends fds children (At x fd fd' files opened closed)
        (some (env.fails c, if env.fails c then r else { r with req := q })) := by
    intro q hpid hreadfd herrfd
    cases env.fails c with
    | true => exact ⟨true, r, rfl, I, fun h => by cases h⟩
    | false =>
      refine ⟨false, { r with req := q }, rfl, ⟨?_, I.dir, I.fifo, ?_⟩, fun _ => ?_⟩
      · simp only [Run.held, hreadfd, herrfd]
        exact I.since
      · simp only [hpid]
        exact I.children
      · exact ⟨hpid.trans A.pid, A.pos, hreadfd.trans A.readfd, herrfd.trans A.errfd, A.writefd, A.bodyfd, A.optFifo,
          A.tempDir, A.out, A.err, A.opened, A.closed⟩
  cases c with
  | outbuf | errbuf | requestHeaders | responseHeaders => exact hfails _ rfl rfl rfl
  | tempFifo | popen | openFifo | writeUrl | writeConnectTimeout | writeMaxTime | writeGet | formParam i | header i |
    contentLength | uploadFile | closeWritefd | writeBody | closeBodyfd => exact hc.elim

theorem prepares_ends (env : StartEnv) (hcs : ∀ c ∈ cs, Prepares c) (I : Inv fds children r)
    (A : At x fd fd' files opened closed r) :
    Ends fds children (At x fd fd' files opened closed) (runCalls env cs r) :=
  Ends.all (fun c hc _ I A => prepare_ends (hcs c hc) I A) I A

/-! ### All calls -/

/-- The calls of a request with these parts. -/
theorem calls_split {form headers content body : List StartCall}
    (hcs : cs = ([.tempFifo, .popen, .openFifo, .writeUrl, .writeConnectTimeout, .writeMaxTime] : List StartCall) ++
      form ++ headers ++ content ++ [StartCall.closeWritefd] ++ body ++
      ([.closeBodyfd, .outbuf, .errbuf, .requestHeaders, .responseHeaders] : List StartCall))
    (hform : ∀ c ∈ form, Writes c) (hheaders : ∀ c ∈ headers, Writes c) (hcontent : ∀ c ∈ content, Writes c) :
    ∃ writes, cs = .tempFifo :: .popen :: .openFifo :: (writes ++ .closeWritefd :: (body ++ .closeBodyfd ::
        [.outbuf, .errbuf, .requestHeaders, .responseHeaders])) ∧ ∀ c ∈ writes, Writes c := by
  refine ⟨[.writeUrl, .writeConnectTimeout, .writeMaxTime] ++ (form ++ (headers ++ content)), by simp [hcs], ?_⟩
  intro c hc
  rcases List.mem_append.mp hc with hc | hc
  · simp only [List.mem_cons, List.not_mem_nil, or_false] at hc
    rcases hc with rfl | rfl | rfl <;> exact trivial
  rcases List.mem_append.mp hc with hc | hc
  · exact hform c hc
  rcases List.mem_append.mp hc with hc | hc
  · exact hheaders c hc
  · exact hcontent c hc

/-- The calls that write come between opening and closing the FIFO, but for the body, which comes after. -/
theorem startCalls_split (q : Req) : ∃ writes body,
    startCalls q = .tempFifo :: .popen :: .openFifo :: (writes ++ .closeWritefd :: (body ++ .closeBodyfd ::
      [.outbuf, .errbuf, .requestHeaders, .responseHeaders])) ∧
    (∀ c ∈ writes, Writes c) ∧ ∀ c ∈ body, c = .writeBody := by
  have hcs : startCalls q = _ := rfl
  have hcalls := calls_split hcs ?form ?headers ?content
  case form =>
    cases q.params.form with
    | none => exact fun c hc => absurd hc List.not_mem_nil
    | some form =>
      intro c hc
      rcases List.mem_append.mp hc with hc | hc
      · split at hc
        · rw [List.mem_singleton.mp hc]
          exact trivial
        · exact absurd hc List.not_mem_nil
      · obtain ⟨i, -, rfl⟩ := List.mem_map.mp hc
        exact trivial
  case headers =>
    cases q.params.headers with
    | none => exact fun c hc => absurd hc List.not_mem_nil
    | some headers =>
      intro c hc
      obtain ⟨i, -, rfl⟩ := List.mem_map.mp hc
      exact trivial
  case content =>
    intro c hc
    split at hc
    · rcases List.mem_cons.mp hc with rfl | hc
      · exact trivial
      split at hc
      · rw [List.mem_singleton.mp hc]
        exact trivial
      · exact absurd hc List.not_mem_nil
    · exact absurd hc List.not_mem_nil
  obtain ⟨writes, hcalls, hwrites⟩ := hcalls
  refine ⟨writes, _, hcalls, hwrites, ?_⟩
  intro c hc
  split at hc
  · exact List.mem_singleton.mp hc
  · exact absurd hc List.not_mem_nil

theorem body_ends (hcs : ∀ c ∈ cs, c = .writeBody) (I : Inv fds children r) :
    Ends fds children (· = r) (runCalls env cs r) := by
  refine Ends.all ?_ I rfl
  rintro c hc _ I rfl
  rw [hcs c hc]
  exact ⟨_, _, rfl, I, fun _ => rfl⟩

/-- After the directory and the FIFO have been made. -/
theorem started_ends (env : StartEnv) (N : IsNew q)
    (I : Inv fds children ⟨q, -1, -1, true, true, ⟨fds, true, true, children⟩⟩) {writes body : List StartCall}
    (hwrites : ∀ c ∈ writes, Writes c) (hbody : ∀ c ∈ body, c = .writeBody) :
    Ends fds children
      (fun r => ∃ (x : Child) (writefd : Nat), x.Made env fds ∧ At x (-1) (-1) false [writefd] [writefd, x.bodyfd] r)
      (runCalls env (.popen :: .openFifo :: (writes ++ .closeWritefd :: (body ++ .closeBodyfd ::
        [.outbuf, .errbuf, .requestHeaders, .responseHeaders])))
        ⟨q, -1, -1, true, true, ⟨fds, true, true, children⟩⟩) := by
  refine (popen_ends I N rfl rfl rfl rfl rfl).cons ?_
  rintro r₁ I₁ ⟨x, hmade, A₁⟩
  refine (openFifo_ends I₁ A₁).cons ?_
  rintro r₂ I₂ ⟨writefd, A₂⟩
  refine (writes_ends hwrites I₂ A₂.writefd).append ?_
  rintro r₃ I₃ rfl
  refine (closeWritefd_ends I₃ A₂).cons ?_
  intro r₄ I₄ A₄
  refine (body_ends hbody I₄).append ?_
  rintro r₅ I₅ rfl
  refine (closeBodyfd_ends I₅ A₄).cons ?_
  intro r₆ I₆ A₆
  have hprepares : ∀ c ∈ [StartCall.outbuf, .errbuf, .requestHeaders, .responseHeaders], Prepares c := by
    simp [Prepares]
  obtain ⟨failed, r, hcode, I', hA⟩ := prepares_ends env hprepares I₆ A₆
  exact ⟨failed, r, hcode, I', fun h => ⟨x, writefd, hmade, hA h⟩⟩

/-- A directory that no variable names stays. -/
theorem errorLabel_dir (h : errorLabel r = some (q, w)) (ht : r.tempDir = false) (ho : r.optFifo = false) :
    w.dir = r.world.dir := by
  obtain ⟨fds₁, -, h⟩ := Option.bind_eq_some_iff.mp h
  obtain ⟨fds₂, -, h⟩ := Option.bind_eq_some_iff.mp h
  obtain ⟨w', hw, heq⟩ := Option.map_eq_some_iff.mp h
  obtain ⟨-, rfl⟩ := Prod.mk.inj heq
  obtain ⟨fds₃, -, hw⟩ := Option.bind_eq_some_iff.mp hw
  obtain ⟨fds₄, -, rfl⟩ := Option.map_eq_some_iff.mp hw
  simp only [ht, ho, Bool.false_eq_true, if_false]
  rw [(killAndWait_files _ _).2.1, (killAndWait_files _ _).2.1]

/-- The directory that `temp_fifo` has made without its FIFO is still there. -/
theorem leaves_dir (hleaves : env.LeavesDir) (q : Req) (fds : Fds) (children : List Int) :
    ¬∃ r q' w, startCurl env q fds children = some (r, q', w) ∧ LeavesNothing env fds children r q' w := by
  obtain ⟨writes, body, hcalls, -⟩ := startCalls_split q
  rintro ⟨r, q', w, hcode, L⟩
  rcases tempFifo_cases env fds children with ⟨-, hmade⟩ | ⟨hno, -⟩
  · rw [startCurl, hcalls, runCalls, callStep, hmade] at hcode
    obtain ⟨⟨q₁, w₁⟩, herr, heq⟩ := Option.map_eq_some_iff.mp hcode
    obtain ⟨-, rfl, rfl⟩ : ebusy = r ∧ q₁ = q' ∧ w₁ = w := by simpa using heq
    cases (errorLabel_dir herr rfl rfl).symm.trans L.dir
  · exact hno hleaves

theorem leavesNothing_error (env : StartEnv) (I : Inv fds children r) : ∃ q w, errorLabel r = some (q, w) ∧
    LeavesNothing env fds children ebusy q w := by
  obtain ⟨w, hcode, hdir, hfifo, S, hchildren⟩ := errorLabel_eq I
  exact ⟨_, w, hcode, hdir, hfifo, fun _ => ⟨S, hchildren⟩, fun h => by cases h⟩

theorem leavesNothing_success {writefd : Nat} (hmade : x.Made env fds) (I : Inv fds children r)
    (A : At x (-1) (-1) false [writefd] [writefd, x.bodyfd] r) : LeavesNothing env fds children 0 r.req r.world where
  dir := I.dir.trans A.tempDir
  fifo := I.fifo.trans A.optFifo
  failed h := absurd rfl h
  succeeded _ := by
    have hpid : ¬r.req.pid ≤ 0 := by
      rw [A.pid]
      exact Int.not_le.mpr (Int.natCast_pos.mpr A.pos)
    have S := I.since
    rw [A.held_eq] at S
    refine ⟨x.pid, writefd, x.bodyfd, x.readfd, x.errfd, x.fds, hmade, ?_, A.readfd, A.errfd, S, A.out, A.err,
      A.opened, A.closed⟩
    rw [I.children, if_neg hpid, A.pid]

end

/-- For a request that is new, and whatever calls fail, `start_curl` leaves nothing behind, unless `temp_fifo` has made
    its directory and cannot make the FIFO. -/
theorem leavesNothing_iff (env : StartEnv) (q : Req) (fds : Fds) (children : List Int) (hnew : IsNew q) :
    (∃ r q' w, startCurl env q fds children = some (r, q', w) ∧ LeavesNothing env fds children r q' w) ↔
      ¬env.LeavesDir := by
  refine ⟨fun hnothing hleaves => leaves_dir hleaves q fds children hnothing, fun hno => ?_⟩
  obtain ⟨writes, body, hcalls, hwrites, hbody⟩ := startCalls_split q
  rw [startCurl, hcalls, runCalls, callStep]
  have hold : children = if q.pid ≤ 0 then children else q.pid :: children :=
    (if_pos (Int.le_of_eq hnew.pid)).symm
  have hheld : fds.Since fds (Run.held ⟨q, -1, -1, false, false, ⟨fds, false, false, children⟩⟩) := by
    simpa [Run.held, hnew.readfd, hnew.errfd] using FdTable.Since.refl fds
  rcases tempFifo_cases env fds children with ⟨hleaves, -⟩ | ⟨-, hmade | hmade⟩
  · exact absurd hleaves hno
  · have I : Inv fds children ⟨q, -1, -1, false, false, ⟨fds, false, false, children⟩⟩ := ⟨hheld, rfl, rfl, hold⟩
    obtain ⟨q', w, herr, L⟩ := leavesNothing_error env I
    refine ⟨ebusy, q', w, ?_, L⟩
    rw [hmade]
    exact congrArg (Option.map fun x => (ebusy, x.1, x.2)) herr
  · have I : Inv fds children ⟨q, -1, -1, true, true, ⟨fds, true, true, children⟩⟩ := ⟨hheld, rfl, rfl, hold⟩
    obtain ⟨failed, r, hcode, I', hsuccess⟩ := started_ends env hnew I hwrites hbody
    rw [hmade]
    simp only [ne_eq, not_true_eq_false, if_false, Option.bind_some, Bool.false_eq_true, hcode]
    cases failed with
    | true =>
      obtain ⟨q', w, herr, L⟩ := leavesNothing_error env I'
      refine ⟨ebusy, q', w, ?_, L⟩
      simp only [if_true, herr, Option.map_some]
    | false =>
      obtain ⟨x, writefd, hmade, A⟩ := hsuccess rfl
      exact ⟨0, r.req, r.world, rfl, leavesNothing_success hmade I' A⟩

/-- The FIFO can be opened at the second try, and writing the URL fails. -/
theorem leavesNothing_iff_writeUrl : ∃ env : StartEnv, env.fork = some 41 ∧ env.fails .writeUrl = true ∧
    ((∃ r q' w, startCurl env { readfd := -1, errfd := -1 } {} [] = some (r, q', w) ∧
      LeavesNothing env {} [] r q' w) ↔ ¬env.LeavesDir) :=
  ⟨{ fork := some 41
     opening := ⟨.ok ⟨1, 0⟩, [.failed ⟨6, Nat.succ_pos 5⟩ (.ok ⟨0, 0⟩), .opened], true,
       fun _ _ => Bool.or_true _⟩
     fails := fun c => c = .writeUrl }, rfl, rfl, leavesNothing_iff _ _ {} [] ⟨rfl, rfl, rfl⟩⟩

/-- Only `mkfifo` fails. -/
theorem not_leavesNothing : ∃ (env : StartEnv) (q : Req) (fds : Fds) (children : List Int), IsNew q ∧
    ¬∃ r q' w, startCurl env q fds children = some (r, q', w) ∧ LeavesNothing env fds children r q' w :=
  ⟨{ mkfifo := false, fork := some 41, opening := ⟨.ok ⟨1, 0⟩, [.opened], true, fun _ _ => rfl⟩ },
    { readfd := -1, errfd := -1 }, {}, [], ⟨rfl, rfl, rfl⟩, leaves_dir ⟨rfl, rfl, rfl, rfl⟩ _ _ _⟩

end Nlutils.UrlReq.StartCurl
