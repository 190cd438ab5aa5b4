import Nlutils.Exec
import Nlutils.Stream

/-! # Reading the output of a command (`nl_popenve_readall`, `nl_popen_readall` and `nl_wait_get_return` of `exec.c`)

Whatever call fails, no descriptor stays open, and a child that has been started is waited for once, after it has been
killed where its output is not wanted any more. -/

namespace Nlutils
open Lib

/-! ### The status of a child -/

/-- `WTERMSIG` -/
def wtermsig (status : UInt32) : UInt32 := status &&& 0x7f

/-- `WIFEXITED` -/
def wifexited (status : UInt32) : Bool := wtermsig status == 0

/-- `WEXITSTATUS` -/
def wexitstatus (status : UInt32) : UInt32 := (status &&& 0xff00) >>> 8

/-- `((signed char) (sig + 1) >> 1) > 0` -/
def isSignal (sig : UInt32) : Bool := (0 : Int8) < (sig + 1).toUInt8.toInt8 >>> 1

/-- `WIFSIGNALED` -/
def wifsignaled (status : UInt32) : Bool := isSignal (wtermsig status)

/-- `waitpid` fails or stores a status. -/
def nlWaitGetReturn (waitpid : Option UInt32) : Int :=
  match waitpid with
  | none => -1
  | some status =>
    if wifexited status then (wexitstatus status).toNat
    else if wifsignaled status then -((wtermsig status).toNat + 100)
    else -1

/-- The low seven bits of the status tell whether the child has exited, and which signal has ended it; they are all set
    where it has been stopped. -/
theorem nlWaitGetReturn_some (status : UInt32) : nlWaitGetReturn (some status) =
    if status.toNat % 128 = 0 then ((status.toNat / 256 % 256 : Nat) : Int)
    else if status.toNat % 128 = 127 then -1 else -((status.toNat % 128 : Nat) + 100 : Int) := by
  have hterm : (wtermsig status).toNat = status.toNat % 128 := by
    have h127 : (0x7f : UInt32).toNat = 2 ^ 7 - 1 := rfl
    rw [wtermsig, UInt32.toNat_and, h127, Nat.and_two_pow_sub_one_eq_mod]
  have hcode : (wexitstatus status).toNat = status.toNat / 256 % 256 := by
    have hmask : (0xff00 : UInt32).toNat >>> 8 = 2 ^ 8 - 1 := rfl
    have h8 : (8 : UInt32).toNat % 32 = 8 := rfl
    rw [wexitstatus, UInt32.toNat_shiftRight, UInt32.toNat_and, h8, Nat.shiftRight_and_distrib, hmask,
      Nat.and_two_pow_sub_one_eq_mod, Nat.shiftRight_eq_div_pow]
  have hexited : wifexited status = decide (status.toNat % 128 = 0) := by
    rw [wifexited, Bool.eq_iff_iff, beq_iff_eq, decide_eq_true_iff, ← hterm, ← UInt32.toNat_inj]
    rfl
  have hsignaled : wifsignaled status = decide (0 < status.toNat % 128 ∧ status.toNat % 128 ≠ 127) := by
    have hall : ∀ n, n < 128 → isSignal n.toUInt32 = decide (0 < n ∧ n ≠ 127) := by
      decide +kernel
    have hself : (wtermsig status).toNat.toUInt32 = wtermsig status := UInt32.ofNat_toNat
    have hlt : (wtermsig status).toNat < 128 := by omega
    rw [wifsignaled, ← hself, hall _ hlt, hterm]
  simp only [nlWaitGetReturn, hexited, hsignaled, hcode, hterm, decide_eq_true_eq]
  by_cases h0 : status.toNat % 128 = 0
  · rw [if_pos h0, if_pos h0]
  · by_cases h127 : status.toNat % 128 = 127
    · rw [if_neg h0, if_neg h0, if_neg (fun h => h.2 h127), if_pos h127]
    · rw [if_neg h0, if_neg h0, if_pos ⟨Nat.pos_of_ne_zero h0, h127⟩, if_neg h127]

theorem nlWaitGetReturn_ne {waitpid : Option UInt32} :
    nlWaitGetReturn waitpid ≠ -1 ↔ ∃ status ∈ waitpid, status.toNat % 128 ≠ 127 := by
  cases waitpid with
  | none => exact iff_of_false (fun h => h rfl) nofun
  | some status =>
    have hiff : nlWaitGetReturn (some status) ≠ -1 ↔ status.toNat % 128 ≠ 127 := by
      rw [nlWaitGetReturn_some]
      split
      · omega
      · split <;> omega
    rw [hiff]
    exact ⟨fun h => ⟨status, rfl, h⟩, fun ⟨s, hs, h⟩ => by cases hs; exact h⟩

/-! ### The calls -/

/-- What the calls answer. `close` may report an error, but closes the descriptor. -/
structure ReadAllEnv where
  popen : PopenEnv
  write : Nat → Nat → Int
  closeOk : Std → Bool
  reads : List ReadResult
  alloc : Nat → Bool
  fill : Nat → Nat → Byte
  waitpid : Option UInt32

inductive ChildCall
  | kill (pid : Int)
  | wait (pid : Int)
  deriving DecidableEq, Repr

/-- The result, what has been given to `nl_destroy_data`, the chunks that have been written, the calls for the child,
    and the descriptors. -/
structure ReadAll where
  ret : Option RawData := none
  destroyed : Option RawData := none
  written : List Bytes := []
  calls : List ChildCall := []
  fds : Fds

/-- The label `error` of `nl_popenve_readall`. -/
def readAllError (data : Option RawData) (infd outfd pid : Int) (r : ReadAll) : Option ReadAll := do
  let t ← closeIfOpen infd r.fds
  let t ← closeIfOpen outfd t
  return { r with
    destroyed := data
    fds := t
    calls := r.calls ++ if pid > 0 then [.kill pid, .wait pid] else [] }

/-- `close`, and whether it reports an error. -/
def closeReported (ok : Bool) (fd : Int) (t : Fds) : Option (Bool × Fds) := (closeFd fd t).map fun t => (!ok, t)

/-- Which pipes are wanted. -/
def readAllWanted (output : Option RawData) : Std → Bool
  | .stdin => output.isSome
  | .stdout => true
  | .stderr => false

/-- From where the child has been given its input. -/
def readAllOutput (env : ReadAllEnv) (infd pid : Int) (r : ReadAll) : Option ReadAll := do
  let data ← nlReadStream env.alloc env.fill infd env.reads
  match data with
  | none => readAllError none infd (-1) pid r
  | some data => do
    let (bad, t) ← closeReported (env.closeOk .stdout) infd r.fds
    let r := { r with fds := t }
    if bad then readAllError (some data) (-1) (-1) pid r
    else
      let r := { r with calls := r.calls ++ [.wait pid] }
      if nlWaitGetReturn env.waitpid = -1 then readAllError (some data) (-1) (-1) (-1) r
      else return { r with ret := some data }

/-- The child is given its input, if there is any. -/
def giveOutput (env : ReadAllEnv) (outfd : Int) (output : Option RawData) : Option (Int × List Bytes) :=
  if output.isSome then nlWriteStream env.write outfd output else some (0, [])

/-- `outfd >= 0 && close(outfd)` -/
def closeOutput (env : ReadAllEnv) (outfd : Int) (t : Fds) : Option (Bool × Fds) :=
  if outfd ≥ 0 then closeReported (env.closeOk .stdin) outfd t else some (false, t)

def nlPopenveReadall (env : ReadAllEnv) (output : Option RawData) (t : Fds) : Option ReadAll :=
  if output.any fun output => output.data.isNone then some { fds := t }
  else do
    let (pid, out, t) ← nlPopen3vec env.popen (readAllWanted output) t
    let outfd := out.writefd.getD (-1)
    let infd := out.readfd.getD (-1)
    if pid = -1 then return { fds := t }
    else
      let (ret, written) ← giveOutput env outfd output
      let r : ReadAll := { written, fds := t }
      if ret ≠ 0 then readAllError none infd outfd pid r
      else
        let (bad, t) ← closeOutput env outfd t
        let r := { r with fds := t }
        if bad then readAllError none infd (-1) pid r else readAllOutput env infd pid r

/-- The text, `*size` if it is stored, the data whose structure is freed, and what `nl_popenve_readall` has done. -/
def nlPopenReadall (env : ReadAllEnv) (command : Bool) (t : Fds) :
    Option (Option Bytes × Option Nat × Option RawData × ReadAll) :=
  if !command then some (none, none, none, { fds := t })
  else
    (nlPopenveReadall env none t).map fun r =>
      match r.ret with
      | none => (none, none, none, r)
      | some data => (data.data, some data.size, some data, r)

/-! ### How a call ends -/

/-- The child is started. -/
structure ReadAllStarted (env : ReadAllEnv) (output : Option RawData) : Prop where
  notNull : ∀ data ∈ output, data.data ≠ none
  popen : env.popen.Succeeds (readAllWanted output)

/-- The child's input has been written as a whole, and its output has been read to the end. -/
structure ReadAllRead (env : ReadAllEnv) (output : Option RawData) (written chunks : List Bytes) (last : ReadResult) :
    Prop extends ReadAllStarted env output where
  written : ∀ data ∈ output, ∀ mem ∈ data.data, written.flatten = mem ∧ (mem = [] → 0 ≤ env.write 0 0)
  closed : output ≠ none → env.closeOk .stdin = true
  memory : ∀ i ≤ chunks.length, env.alloc i = true
  ended : last.IsEnd

/-- Every call has succeeded that the result needs. -/
structure ReadAllOk (env : ReadAllEnv) (output : Option RawData) (written chunks : List Bytes) (last : ReadResult) :
    Prop extends ReadAllRead env output written chunks last where
  closedOutput : env.closeOk .stdout = true
  waited : ∃ status ∈ env.waitpid, status.toNat % 128 ≠ 127

/-- What is returned, what is destroyed, and the calls for the child, each by how far the call has come. -/
inductive ReadAllEnd (env : ReadAllEnv) (output : Option RawData) (written chunks : List Bytes) (last : ReadResult) :
    Option RawData → Option RawData → List ChildCall → Prop
  | notStarted (h : ¬ReadAllStarted env output) : ReadAllEnd env output written chunks last none none []
  | unread (pid : Nat) (hpid : env.popen.fork = some pid) (hstarted : ReadAllStarted env output)
      (h : ¬ReadAllRead env output written chunks last) :
      ReadAllEnd env output written chunks last none none [.kill pid, .wait pid]
  | unclosed (pid : Nat) (hpid : env.popen.fork = some pid) (hread : ReadAllRead env output written chunks last)
      (h : env.closeOk .stdout = false) :
      ReadAllEnd env output written chunks last none (some (heldData chunks.flatten)) [.kill pid, .wait pid]
  | unwaited (pid : Nat) (hpid : env.popen.fork = some pid) (hread : ReadAllRead env output written chunks last)
      (hclosed : env.closeOk .stdout = true) (h : ∀ status ∈ env.waitpid, status.toNat % 128 = 127) :
      ReadAllEnd env output written chunks last none (some (heldData chunks.flatten)) [.wait pid]
  | returned (pid : Nat) (hpid : env.popen.fork = some pid) (h : ReadAllOk env output written chunks last) :
      ReadAllEnd env output written chunks last (some (heldData chunks.flatten)) none [.wait pid]

section
variable {env : ReadAllEnv} {t₀ t : Fds} {fd infd outfd pid : Int} {r : ReadAll} {a b held : List Nat}
  {data output : Option RawData} {chunks : List Bytes} {last : ReadResult} {more : List ReadResult}

/-! ### The error path -/

/-- The descriptors that a variable names. -/
inductive FdVar : Int → List Nat → Prop
  | unused : FdVar (-1) []
  | opened (n : Nat) : FdVar n [n]

theorem FdVar.close (h : FdVar fd a) (S : t₀.Since t (a ++ held)) :
    ∃ t', closeIfOpen fd t = some t' ∧ t₀.Since t' held := by
  cases h with
  | unused => exact ⟨t, rfl, S⟩
  | opened n =>
    obtain ⟨t', hclose, S', -⟩ := S.close
    exact ⟨t', (closeIfOpen_nat n).trans hclose, S'⟩

/-- What the error path leaves. -/
def ReadAll.failed (r : ReadAll) (data : Option RawData) (pid : Int) (t : Fds) : ReadAll :=
  { r with
    destroyed := data
    fds := t
    calls := r.calls ++ if pid > 0 then [.kill pid, .wait pid] else [] }

/-- The error path closes what is open, and kills the child and waits for it. -/
theorem readAllError_spec (hin : FdVar infd a) (hout : FdVar outfd b) (S : t₀.Since r.fds (a ++ b)) :
    ∃ t', readAllError data infd outfd pid r = some (r.failed data pid t') ∧ t₀.Since t' [] := by
  obtain ⟨t₁, h₁, S₁⟩ := hin.close S
  rw [← List.append_nil b] at S₁
  obtain ⟨t₂, h₂, S₂⟩ := hout.close S₁
  refine ⟨t₂, ?_, S₂⟩
  simp only [readAllError, h₁, h₂, Option.bind_eq_bind, Option.bind_some]
  rfl

/-! ### From where the child has its input -/

/-- How the rest of the call ends: as `ReadAllEnd`, with what is left to go right. -/
inductive OutputEnd (env : ReadAllEnv) (chunks : List Bytes) (last : ReadResult) (p : Nat) :
    Option RawData → Option RawData → List ChildCall → Prop
  | unread (h : ¬((∀ i ≤ chunks.length, env.alloc i = true) ∧ last.IsEnd)) :
      OutputEnd env chunks last p none none [.kill p, .wait p]
  | unclosed (hread : (∀ i ≤ chunks.length, env.alloc i = true) ∧ last.IsEnd) (h : env.closeOk .stdout = false) :
      OutputEnd env chunks last p none (some (heldData chunks.flatten)) [.kill p, .wait p]
  | unwaited (hread : (∀ i ≤ chunks.length, env.alloc i = true) ∧ last.IsEnd) (hclosed : env.closeOk .stdout = true)
      (h : nlWaitGetReturn env.waitpid = -1) :
      OutputEnd env chunks last p none (some (heldData chunks.flatten)) [.wait p]
  | returned (hread : (∀ i ≤ chunks.length, env.alloc i = true) ∧ last.IsEnd) (hclosed : env.closeOk .stdout = true)
      (h : nlWaitGetReturn env.waitpid ≠ -1) :
      OutputEnd env chunks last p (some (heldData chunks.flatten)) none [.wait p]

/-- A child that is still there is killed and waited for. -/
theorem failed_calls {p : Nat} (hp : 0 < p) (hcalls : r.calls = []) :
    (r.failed data p t).calls = [.kill p, .wait p] := by
  rw [ReadAll.failed, hcalls, if_pos (Int.natCast_pos.mpr hp)]
  rfl

theorem readAllOutput_spec (hreads : env.reads = chunks.map .bytes ++ last :: more)
    (hchunks : ∀ c ∈ chunks, c ≠ [] ∧ c.length ≤ 16384) (hlast : last.IsLast) {n p : Nat} (hp : 0 < p)
    (hret : r.ret = none) (hdestroyed : r.destroyed = none) (hcalls : r.calls = []) (S : t₀.Since r.fds [n]) :
    ∃ r', readAllOutput env n p r = some r' ∧ t₀.Since r'.fds [] ∧ r'.written = r.written ∧
      OutputEnd env chunks last p r'.ret r'.destroyed r'.calls := by
  have hread : nlReadStream env.alloc env.fill n env.reads = _ :=
    hreads ▸ nlReadStream_spec (Int.natCast_nonneg n) hchunks hlast
  by_cases hdata : (∀ i ≤ chunks.length, env.alloc i = true) ∧ last.IsEnd
  case neg =>
    rw [if_neg hdata] at hread
    obtain ⟨t₁, herror, S₁⟩ := readAllError_spec (.opened n) .unused S
    refine ⟨r.failed none p t₁, ?_, S₁, rfl, ?_⟩
    · simp only [readAllOutput, hread, Option.bind_eq_bind, Option.bind_some]
      exact herror
    · rw [failed_calls hp hcalls]
      show OutputEnd env chunks last p r.ret none _
      rw [hret]
      exact .unread hdata
  rw [if_pos hdata] at hread
  obtain ⟨t₁, hclose, S₁, -⟩ := S.close
  cases hok : env.closeOk .stdout with
  | false =>
    have S₁' : t₀.Since ({ r with fds := t₁ } : ReadAll).fds ([] ++ []) := S₁
    obtain ⟨t₂, herror, S₂⟩ := readAllError_spec .unused .unused S₁'
    refine ⟨ReadAll.failed { r with fds := t₁ } (some (heldData chunks.flatten)) p t₂, ?_, S₂, rfl, ?_⟩
    · simp only [readAllOutput, hread, closeReported, closeFd_nat, hclose, hok, Option.bind_eq_bind, Option.bind_some,
        Option.map_some, Bool.not_false, if_true]
      exact herror
    · have hkilled : (ReadAll.failed { r with fds := t₁ } (some (heldData chunks.flatten)) p t₂).calls =
          [.kill p, .wait p] := failed_calls hp hcalls
      rw [hkilled]
      show OutputEnd env chunks last p r.ret _ _
      rw [hret]
      exact .unclosed hdata hok
  | true =>
    have hwaited : r.calls ++ [.wait p] = [.wait p] := by
      rw [hcalls]
      rfl
    by_cases hwait : nlWaitGetReturn env.waitpid = -1
    · have S₁' : t₀.Since ({ r with fds := t₁, calls := r.calls ++ [.wait p] } : ReadAll).fds ([] ++ []) := S₁
      obtain ⟨t₂, herror, S₂⟩ := readAllError_spec .unused .unused S₁'
      refine ⟨ReadAll.failed { r with fds := t₁, calls := r.calls ++ [.wait p] } (some (heldData chunks.flatten)) (-1)
        t₂, ?_, S₂, rfl, ?_⟩
      · simp only [readAllOutput, hread, closeReported, closeFd_nat, hclose, hok, hwait, Option.bind_eq_bind,
          Option.bind_some, Option.map_some, Bool.not_true, Bool.false_eq_true, if_false, if_true]
        exact herror
      · -- The child is not waited for again.
        show OutputEnd env chunks last p r.ret _ ((r.calls ++ [.wait p]) ++ [])
        rw [List.append_nil, hwaited, hret]
        exact .unwaited hdata hok hwait
    · refine ⟨{ r with fds := t₁, calls := r.calls ++ [.wait p], ret := some (heldData chunks.flatten) }, ?_, S₁, rfl,
        ?_⟩
      · simp only [readAllOutput, hread, closeReported, closeFd_nat, hclose, hok, hwait, Option.bind_eq_bind,
          Option.bind_some, Option.map_some, Bool.not_true, Bool.false_eq_true, if_false]
        rfl
      · show OutputEnd env chunks last p _ r.destroyed (r.calls ++ [.wait p])
        rw [hwaited, hdestroyed]
        exact .returned hdata hok hwait

/-! ### The whole call -/

/-- A child with the pipes that are wanted: the descriptors of its input, if there is any, and of its output. -/
theorem popenFor_spec (env : PopenEnv) (output : Option RawData) (t : Fds) :
    (¬env.Succeeds (readAllWanted output) ∧
      ∃ t', nlPopen3vec env (readAllWanted output) t = some (-1, {}, t') ∧ t.Since t' []) ∨
    env.Succeeds (readAllWanted output) ∧
      ∃ (pid : Nat) (outfd : Int) (a : List Nat) (n : Nat) (out : PopenOut) (t' : Fds),
        env.fork = some pid ∧ nlPopen3vec env (readAllWanted output) t = some ((pid : Int), out, t') ∧
        out.writefd.getD (-1) = outfd ∧ out.readfd.getD (-1) = n ∧ FdVar outfd a ∧ (output = none ↔ a = []) ∧
        t.Since t' (a ++ [n]) := by
  rcases nlPopen3vec_cases env (readAllWanted output) t with h | ⟨hyes, pid, out, t', hfork, hcode, S, hget⟩
  · exact Or.inl h
  · refine Or.inr ⟨hyes, pid, ?_⟩
    have hout := hget .stdout
    have herr := hget .stderr
    have hin := hget .stdin
    rw [readAllWanted, if_pos rfl] at hout
    rw [readAllWanted, if_neg Bool.false_ne_true] at herr
    obtain ⟨n, hn, -⟩ := hout
    have hread : out.readfd = some (n : Int) := hn
    have herr : out.errfd = none := herr
    rw [PopenOut.fds, hread, herr] at S
    cases output with
    | none =>
      have hwrite : out.writefd = none := hin
      rw [hwrite] at S
      refine ⟨-1, [], n, out, t', hfork, hcode, ?_, ?_, .unused, by simp, S⟩
      · rw [hwrite]
        rfl
      · rw [hread]
        rfl
    | some output =>
      obtain ⟨m, hm, -⟩ : ∃ m : Nat, out.get .stdin = some (m : Int) ∧ _ := hin
      have hwrite : out.writefd = some (m : Int) := hm
      rw [hwrite] at S
      refine ⟨m, [m], n, out, t', hfork, hcode, ?_, ?_, .opened m, by simp, S⟩
      · rw [hwrite]
        rfl
      · rw [hread]
        rfl

/-- What `nl_write_stream` does with the input of the child, if there is any. -/
theorem giveOutput_spec (hwrite : output ≠ none → ∀ k n, env.write k n ≤ n)
    (houtput : ∀ data ∈ output, ∀ mem ∈ data.data, mem.length = data.size)
    (hnull : ∀ data ∈ output, data.data ≠ none) {outfd : Int} (hfd : FdVar outfd a) (ha : output = none ↔ a = []) :
    ∃ ret written,
      giveOutput env outfd output = some (ret, written) ∧
      (ret = 0 ↔ ∀ data ∈ output, ∀ mem ∈ data.data, written.flatten = mem ∧ (mem = [] → 0 ≤ env.write 0 0)) := by
  cases output with
  | none => exact ⟨0, [], rfl, iff_of_true rfl nofun⟩
  | some output =>
    obtain ⟨size, mem⟩ := output
    cases mem with
    | none => exact absurd rfl (hnull _ rfl)
    | some mem =>
      obtain rfl : mem.length = size := houtput _ rfl _ rfl
      cases hfd with
      | unused => cases ha.mpr rfl
      | opened n =>
        obtain ⟨ret, written, hcode, -, -, -, hret⟩ := nlWriteStream_spec (hwrite nofun) (Int.natCast_nonneg n) mem
        refine ⟨ret, written, hcode, hret.trans ?_⟩
        constructor
        · intro h data hdata mem' hmem
          obtain rfl := Option.some.inj hdata
          obtain rfl := Option.some.inj hmem
          exact h
        · intro h
          exact h _ rfl _ rfl

theorem closeOutput_spec (env : ReadAllEnv) {n : Nat} (hfd : FdVar outfd a) (ha : output = none ↔ a = [])
    (S : t₀.Since t (a ++ [n])) : ∃ t',
      closeOutput env outfd t = some (output.isSome && !env.closeOk .stdin, t') ∧ t₀.Since t' [n] := by
  cases hfd with
  | unused =>
    rw [ha.mpr rfl]
    exact ⟨t, rfl, S⟩
  | opened m =>
    obtain ⟨t', hclose, S', -⟩ := S.close
    obtain ⟨data, rfl⟩ : ∃ data, output = some data := Option.ne_none_iff_exists'.mp fun h => by cases ha.mp h
    refine ⟨t', ?_, S'⟩
    rw [closeOutput, if_pos (Int.natCast_nonneg m), closeReported, closeFd_nat, hclose]
    rfl

/-- What has been done when the call returns. -/
structure ReadAllDone (env : ReadAllEnv) (output : Option RawData) (t : Fds) (chunks : List Bytes) (last : ReadResult)
    (r : ReadAll) : Prop where
  fds : t.Since r.fds []
  ended : ReadAllEnd env output r.written chunks last r.ret r.destroyed r.calls

/-- The whole call, whatever the calls that it makes answer. -/
theorem nlPopenveReadall_spec (hpid : ∀ pid ∈ env.popen.fork, 0 < pid)
    (hwrite : output ≠ none → ∀ k n, env.write k n ≤ n)
    (houtput : ∀ data ∈ output, ∀ mem ∈ data.data, mem.length = data.size)
    (hreads : env.reads = chunks.map .bytes ++ last :: more) (hchunks : ∀ c ∈ chunks, c ≠ [] ∧ c.length ≤ 16384)
    (hlast : last.IsLast) :
    ∃ r, nlPopenveReadall env output t = some r ∧ ReadAllDone env output t chunks last r := by
  by_cases hnull : ∃ data ∈ output, data.data = none
  · obtain ⟨data, hdata, hnone⟩ := hnull
    obtain rfl : output = some data := hdata
    refine ⟨{ fds := t }, ?_, FdTable.Since.refl t, .notStarted fun h => h.notNull data rfl hnone⟩
    have hany : ((some data).any fun output => output.data.isNone) = true := Option.isNone_iff_eq_none.mpr hnone
    rw [nlPopenveReadall, if_pos hany]
  have hgiven : ∀ data ∈ output, data.data ≠ none := fun data hdata hnone => hnull ⟨data, hdata, hnone⟩
  have hany : ¬(output.any fun output => output.data.isNone) = true := by
    intro h
    cases output with
    | none => cases h
    | some data => exact hgiven data rfl (Option.isNone_iff_eq_none.mp h)
  rcases popenFor_spec env.popen output t with
    ⟨hno, t', hcode, S⟩ | ⟨hyes, pid, outfd, a, n, out, t₁, hfork, hcode, hout, hin, hvar, ha, S⟩
  · refine ⟨{ fds := t' }, ?_, S, .notStarted fun h => hno h.popen⟩
    simp only [nlPopenveReadall, hany, hcode, Option.bind_eq_bind, Option.bind_some, if_true]
    rfl
  have hp : 0 < pid := hpid pid hfork
  have hchild : ¬(pid : Int) = -1 := by omega
  have hstarted : ReadAllStarted env output := ⟨hgiven, hyes⟩
  obtain ⟨ret, written, hwritten, hret⟩ := giveOutput_spec hwrite houtput hgiven hvar ha
  by_cases h0 : ret = 0
  case neg =>
    have S₁ : t.Since ({ written, fds := t₁ } : ReadAll).fds ([n] ++ a) := S.perm List.perm_append_comm
    obtain ⟨t₂, herror, S₂⟩ := readAllError_spec (.opened n) hvar S₁
    refine ⟨ReadAll.failed { written, fds := t₁ } none pid t₂, ?_, S₂, ?_⟩
    · simp only [nlPopenveReadall, hany, hcode, hout, hin, hchild, hwritten, h0, Option.bind_eq_bind, Option.bind_some,
        if_false, ne_eq, not_false_eq_true, if_true]
      exact herror
    · rw [failed_calls hp rfl]
      exact .unread pid hfork hstarted fun h => h0 (hret.mpr h.written)
  obtain ⟨t₂, hclose, S₂⟩ := closeOutput_spec env hvar ha S
  cases hbad : output.isSome && !env.closeOk .stdin with
  | true =>
    obtain ⟨t₃, herror, S₃⟩ := readAllError_spec (r := { written, fds := t₂ }) (.opened n) .unused S₂
    refine ⟨ReadAll.failed { written, fds := t₂ } none pid t₃, ?_, S₃, ?_⟩
    · simp only [nlPopenveReadall, hany, hcode, hout, hin, hchild, hwritten, h0, hclose, hbad, Option.bind_eq_bind,
        Option.bind_some, if_false, ne_eq, not_true_eq_false, if_true]
      exact herror
    · rw [failed_calls hp rfl]
      refine .unread pid hfork hstarted fun h => ?_
      rw [Bool.and_eq_true] at hbad
      rw [h.closed (Option.isSome_iff_ne_none.mp hbad.1)] at hbad
      cases hbad.2
  | false =>
    obtain ⟨r, hrest, S₃, hsame, hend⟩ := readAllOutput_spec (r := { written, fds := t₂ }) hreads hchunks hlast hp rfl
      rfl rfl S₂
    have hsame : r.written = written := hsame
    have hstdin : output ≠ none → env.closeOk .stdin = true := by
      intro hne
      rw [Option.isSome_iff_ne_none.mpr hne, Bool.true_and, Bool.not_eq_false'] at hbad
      exact hbad
    have hread : ((∀ i ≤ chunks.length, env.alloc i = true) ∧ last.IsEnd) ↔
        ReadAllRead env output written chunks last := by
      constructor
      · rintro ⟨hmemory, hended⟩
        exact ⟨hstarted, hret.mp h0, hstdin, hmemory, hended⟩
      · intro h
        exact ⟨h.memory, h.ended⟩
    refine ⟨r, ?_, S₃, ?_⟩
    · simp only [nlPopenveReadall, hany, hcode, hout, hin, hchild, hwritten, h0, hclose, hbad, Option.bind_eq_bind,
        Option.bind_some, if_false, ne_eq, not_true_eq_false, Bool.false_eq_true]
      exact hrest
    · rw [hsame]
      generalize r.ret = ret', r.destroyed = destroyed, r.calls = calls at hend ⊢
      cases hend with
      | unread h => exact .unread pid hfork hstarted (mt hread.mpr h)
      | unclosed h hclosed => exact .unclosed pid hfork (hread.mp h) hclosed
      | unwaited h hclosed hwait =>
        refine .unwaited pid hfork (hread.mp h) hclosed fun status hstatus => ?_
        by_contra hne
        exact nlWaitGetReturn_ne.mpr ⟨status, hstatus, hne⟩ hwait
      | returned h hclosed hwait => exact .returned pid hfork ⟨hread.mp h, hclosed, nlWaitGetReturn_ne.mp hwait⟩

/-- The data is returned exactly when all has gone well. -/
theorem ReadAllEnd.ret {written : List Bytes} {ret destroyed : Option RawData} {calls : List ChildCall}
    (h : ReadAllEnd env output written chunks last ret destroyed calls) :
    ret = some (heldData chunks.flatten) ∧ ReadAllOk env output written chunks last ∨
      ret = none ∧ ¬ReadAllOk env output written chunks last := by
  cases h with
  | notStarted h => exact Or.inr ⟨rfl, fun hok => h hok.toReadAllStarted⟩
  | unread pid hpid hstarted h => exact Or.inr ⟨rfl, fun hok => h hok.toReadAllRead⟩
  | unclosed pid hpid hread h =>
    refine Or.inr ⟨rfl, fun hok => ?_⟩
    rw [hok.closedOutput] at h
    cases h
  | unwaited pid hpid hread hclosed h =>
    refine Or.inr ⟨rfl, fun hok => ?_⟩
    obtain ⟨status, hstatus, hne⟩ := hok.waited
    exact hne (h status hstatus)
  | returned pid hpid h => exact Or.inl ⟨rfl, h⟩

end

/-- Whatever the calls answer: every descriptor that has been opened is closed once, data that is not returned is
    destroyed, and a child that has been started is waited for once, and killed before unless its output has been read
    and closed. The data is returned exactly when everything has gone well; the exit code of the child does not
    matter. -/
theorem popenveReadall_done (env : ReadAllEnv) (output : Option RawData) (t : Fds) (chunks : List Bytes)
    (last : ReadResult) (more : List ReadResult) (hpid : ∀ pid ∈ env.popen.fork, 0 < pid)
    (hwrite : output ≠ none → ∀ k n, env.write k n ≤ n)
    (houtput : ∀ data ∈ output, ∀ mem ∈ data.data, mem.length = data.size)
    (hreads : env.reads = chunks.map .bytes ++ last :: more) (hchunks : ∀ c ∈ chunks, c ≠ [] ∧ c.length ≤ 16384)
    (hlast : last.IsLast) :
    ∃ r, nlPopenveReadall env output t = some r ∧ ReadAllDone env output t chunks last r ∧
      (r.ret = some (heldData chunks.flatten) ∧ ReadAllOk env output r.written chunks last ∨
        r.ret = none ∧ ¬ReadAllOk env output r.written chunks last) := by
  obtain ⟨r, hcode, hdone⟩ := nlPopenveReadall_spec (t := t) hpid hwrite houtput hreads hchunks hlast
  exact ⟨r, hcode, hdone, hdone.ended.ret⟩

/-- A child that gets three bytes, answers with two and exits with code 1. -/
def catEnv : ReadAllEnv where
  popen := { fork := some 42 }
  write _ n := n
  closeOk _ := true
  reads := [.bytes [4], .bytes [5], .bytes []]
  alloc _ := true
  fill _ _ := 9
  waitpid := some 256

theorem popenveReadall_done_cat : ∃ r, nlPopenveReadall catEnv (some ⟨3, some [1, 2, 3]⟩) {} = some r ∧
    ReadAllDone catEnv (some ⟨3, some [1, 2, 3]⟩) {} [[4], [5]] (.bytes []) r ∧
      (r.ret = some (heldData [4, 5]) ∧ ReadAllOk catEnv (some ⟨3, some [1, 2, 3]⟩) r.written [[4], [5]] (.bytes []) ∨
        r.ret = none ∧ ¬ReadAllOk catEnv (some ⟨3, some [1, 2, 3]⟩) r.written [[4], [5]] (.bytes [])) :=
  popenveReadall_done catEnv (some ⟨3, some [1, 2, 3]⟩) {} [[4], [5]] (.bytes []) [] (by decide)
    (fun _ k n => Int.le_refl n)
    (by
      intro data hdata mem hmem
      cases hdata
      cases hmem
      rfl)
    rfl (by decide) rfl

/-- The text of a command with a zero byte behind it; NULL for an error, but also for a command that has printed
    nothing. Data that has been read is destroyed, or its contents are the text and its structure is freed. -/
theorem popenReadall_text (env : ReadAllEnv) (t : Fds) (chunks : List Bytes) (last : ReadResult)
    (more : List ReadResult) (hpid : ∀ pid ∈ env.popen.fork, 0 < pid)
    (hreads : env.reads = chunks.map .bytes ++ last :: more) (hchunks : ∀ c ∈ chunks, c ≠ [] ∧ c.length ≤ 16384)
    (hlast : last.IsLast) :
    ∃ text size freed r, nlPopenReadall env true t = some (text, size, freed, r) ∧
      ReadAllDone env none t chunks last r ∧ freed = r.ret ∧ text = freed.bind (·.data) ∧
      (size ≠ none ↔ ReadAllOk env none r.written chunks last) ∧
      (∀ n ∈ size, n = chunks.flatten.length ∧ text = if n = 0 then none else some (chunks.flatten ++ [0])) ∧
      (text = none ↔ size = none ∨ chunks.flatten = []) := by
  have hnull : ∀ data ∈ (none : Option RawData), ∀ mem ∈ data.data, mem.length = data.size := by
    intro data hdata
    cases hdata
  obtain ⟨r, hcode, hdone⟩ := nlPopenveReadall_spec (t := t) hpid (fun h => absurd rfl h) hnull hreads hchunks hlast
  rcases hdone.ended.ret with ⟨hret, hok⟩ | ⟨hret, hno⟩
  · have hresult : nlPopenReadall env true t = some (if chunks.flatten = [] then none else some (chunks.flatten ++ [0]),
        some chunks.flatten.length, some (heldData chunks.flatten), r) := by
      simp only [nlPopenReadall, Bool.not_true, Bool.false_eq_true, if_false, hcode, Option.map_some, hret, heldData]
    refine ⟨_, _, _, r, hresult, hdone, hret.symm, rfl, iff_of_true (Option.some_ne_none _) hok, ?_, ?_⟩
    · intro n hn
      obtain rfl := Option.some.inj hn
      exact ⟨rfl, by simp only [List.length_eq_zero_iff]⟩
    · by_cases hnil : chunks.flatten = []
      · simp [hnil]
      · simp [hnil]
  · have hresult : nlPopenReadall env true t = some (none, none, none, r) := by
      simp only [nlPopenReadall, Bool.not_true, Bool.false_eq_true, if_false, hcode, Option.map_some, hret]
    refine ⟨none, none, none, r, hresult, hdone, hret.symm, rfl, iff_of_false (fun h => h rfl) hno, ?_,
      iff_of_true rfl (Or.inl rfl)⟩
    intro n hn
    cases hn

theorem popenReadall_text_cat : ∃ text size freed r, nlPopenReadall catEnv true {} = some (text, size, freed, r) ∧
    ReadAllDone catEnv none {} [[4], [5]] (.bytes []) r ∧ freed = r.ret ∧ text = freed.bind (·.data) ∧
      (size ≠ none ↔ ReadAllOk catEnv none r.written [[4], [5]] (.bytes [])) ∧
      (∀ n ∈ size, n = 2 ∧ text = if n = 0 then none else some [4, 5, 0]) ∧
      (text = none ↔ size = none ∨ ([4, 5] : Bytes) = []) :=
  popenReadall_text catEnv {} [[4], [5]] (.bytes []) [] (by decide) rfl (by decide) rfl

end Nlutils
