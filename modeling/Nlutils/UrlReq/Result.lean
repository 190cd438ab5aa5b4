import Nlutils.Exec.ReadAll
import Nlutils.UrlReq.HeaderCallback
import Nlutils.UrlReq.Timeouts

/-! # The result of a request (`bufev_error`, `check_process` and `store_curl_error` of `url_req.c`)

What the callback of a request is told: the flags, the message, the body and the headers. The events of both buffers
come in any order until the request is finished; then the process is killed, and the way it has ended decides what is
left of what the events have set. -/

namespace Nlutils.UrlReq
open Lib

/-! ### Messages -/

/-- The array `errmsg`. -/
structure Errmsg where
  mem : Bytes
  size : mem.length = 1024

/-- `strncpy(errmsg, text, sizeof(errmsg))` -/
def Errmsg.strncpy (text : Bytes) : Errmsg where
  mem := text.take 1024 ++ List.replicate (1024 - text.length) 0
  size := by
    rw [List.length_append, List.length_take, List.length_replicate]
    omega

/-- `snprintf(errmsg, sizeof(errmsg), ..)` -/
def Errmsg.snprintf (e : Errmsg) (text : Bytes) : Errmsg where
  mem := text.take 1023 ++ 0 :: e.mem.drop (min text.length 1023 + 1)
  size := by
    have hsize := e.size
    rw [List.length_append, List.length_take, List.length_cons, List.length_drop]
    omega

/-- The texts of `store_curl_error`. -/
def curlErrorText : Int → Option Bytes
  | 1 => some (bytes "Unsupported protocol")
  | 3 => some (bytes "Malformed URL")
  | 5 => some (bytes "Hostname not found")
  | 6 => some (bytes "Hostname not found")
  | 7 => some (bytes "Connection failed")
  | 35 => some (bytes "Connection failed")
  | 18 => some (bytes "Transfer stopped before finished")
  | 47 => some (bytes "Too many HTTP redirects")
  | 51 => some (bytes "Certificate validation failed")
  | 60 => some (bytes "Certificate validation failed")
  | 52 => some (bytes "Empty response received")
  | 55 => some (bytes "Network error")
  | 56 => some (bytes "Network error")
  | 67 => some (bytes "Login failed")
  | _ => none

def storeCurlError (e : Errmsg) (retcode : Int) : Errmsg :=
  match curlErrorText retcode with
  | some msg => .strncpy msg
  | none => e.snprintf (bytes "Request failed with unknown curl error " ++ printInt retcode)

/-! ### The request -/

/-- The parts of a request and of its result that the end of the request is about. -/
structure Outcome where
  pid : Int
  outEof : Bool := false
  errEof : Bool := false
  timeout : Bool := false
  error : Bool := false
  errmsg : Errmsg
  body : RawData := ⟨0, none⟩
  /-- What the log has been read into; `none` after a callback that has read past the end of its buffer. -/
  log : Option UrlResult

/-- What the calls answer when the request is finished, and what the process has written. -/
structure OutcomeEnv where
  waitpid : Option UInt32
  strsignal : Int → Bytes
  bufOk : Bool
  stdout : Bytes
  stderr : Bytes
  alloc : Nat → Bool

def Outcome.finished (q : Outcome) : Bool := q.timeout || q.error || (q.outEof && q.errEof)

namespace Outcome

/-- The switch in `bufev_error`. -/
def bufevError (buf : Buf) (errcode : Errcode) (q : Outcome) : Outcome :=
  match errcode, buf with
  | .eof, .out => { q with outEof := true }
  | .eof, .err => { q with errEof := true }
  | .timeout, _ => { q with errmsg := q.errmsg.snprintf (bytes "Reading data timed out"), timeout := true }
  | .other, _ => { q with error := true }

/-- The result, and the request without its process. -/
def killReqAndWait (env : OutcomeEnv) (q : Outcome) : Int × Outcome :=
  if q.pid ≤ 0 then (0, q) else (nlWaitGetReturn env.waitpid, { q with pid := 0 })

/-- What `check_process` makes of the way the process has ended. -/
def storeReturn (env : OutcomeEnv) (ret : Int) (q : Outcome) : Outcome :=
  if ret = -1 then { q with error := true }
  else if ret < 0 then
    let ret := -(ret + 100)
    { q with
      errmsg := q.errmsg.snprintf (bytes "Request interrupted by signal " ++ printInt ret ++ bytes " (" ++
        cString (env.strsignal ret) ++ bytes ")")
      error := true }
  else if ret = 28 then { q with errmsg := q.errmsg.snprintf (bytes "Request timed out"), timeout := true }
  else if ret > 0 then { q with errmsg := storeCurlError q.errmsg ret, error := true }
  else q

/-- `check_process` up to the callback, for a request that is finished. -/
def checkProcess (env : OutcomeEnv) (q : Outcome) : Outcome :=
  let (ret, q) := killReqAndWait env q
  let q := storeReturn env ret q
  if env.bufOk then
    { q with
      log := (nlSplitLines (some (logCallback env.alloc env.stderr)) (some env.stderr) q.log).2
      body := ⟨env.stdout.length, some (env.stdout ++ [0])⟩ }
  else { q with error := true }

/-- The events until the request is finished, and what the callback is given then. -/
def handle (env : OutcomeEnv) : List (Buf × Errcode) → Outcome → Option Outcome
  | [], _ => none
  | (buf, errcode) :: events, q =>
    let q := bufevError buf errcode q
    if q.finished then some (checkProcess env q) else handle env events q

end Outcome

/-! ### What it is told -/

/-- The string that an array holds. -/
def Errmsg.text (e : Errmsg) : Bytes := cString e.mem

/-- How the process has ended. -/
inductive ProcessEnd
  | exited (code : Nat)
  | killed (signal : Nat)
  /-- It could not be waited for. -/
  | unknown
  deriving DecidableEq, Repr

/-- By the status, whose low seven bits are all set where the process has been stopped only. -/
def processEnd : Option UInt32 → ProcessEnd
  | none => .unknown
  | some status =>
    if status.toNat % 128 = 0 then .exited (status.toNat / 256 % 256)
    else if status.toNat % 128 = 127 then .unknown
    else .killed (status.toNat % 128)

/-- What has finished the request: of both buffers the end has come, or the first event of another kind has. -/
inductive EndsBy : List (Buf × Errcode) → Errcode → Prop
  | eof (first last : Buf) (before after : List (Buf × Errcode)) (hne : first ≠ last) (hbefore : before ≠ [])
      (hfirst : ∀ e ∈ before, e = (first, .eof)) : EndsBy (before ++ (last, .eof) :: after) .eof
  | broken (first buf : Buf) (errcode : Errcode) (before after : List (Buf × Errcode)) (hbroken : errcode ≠ .eof)
      (hfirst : ∀ e ∈ before, e = (first, .eof)) : EndsBy (before ++ (buf, errcode) :: after) errcode

/-- The message for a process that has ended with a code. -/
def codeText (cause : Errcode) (code : Nat) : Bytes :=
  if code = 0 then if cause = .timeout then bytes "Reading data timed out" else []
  else if code = 28 then bytes "Request timed out"
  else (curlErrorText code).getD (bytes "Request failed with unknown curl error " ++ printInt code)

/-- The message that the events and the end of the process leave. -/
def verdictText (strsignal : Int → Bytes) (cause : Errcode) : ProcessEnd → Bytes
  | .exited code => codeText cause code
  | .killed signal => (bytes "Request interrupted by signal " ++ printInt signal ++ bytes " (" ++
      cString (strsignal signal) ++ bytes ")").take 1023
  | .unknown => if cause = .timeout then bytes "Reading data timed out" else []

/-- What the callback is told about a request that was finished for this cause. -/
structure Verdict (env : OutcomeEnv) (log : Option UrlResult) (cause : Errcode) (r : Outcome) : Prop where
  reaped : r.pid = 0
  timeout : r.timeout = true ↔ cause = .timeout ∨ processEnd env.waitpid = .exited 28
  error : r.error = true ↔ cause = .other ∨ env.bufOk = false ∨
    processEnd env.waitpid ≠ .exited 0 ∧ processEnd env.waitpid ≠ .exited 28
  text : r.errmsg.text = verdictText env.strsignal cause (processEnd env.waitpid)
  body : r.body = if env.bufOk then ⟨env.stdout.length, some (env.stdout ++ [0])⟩ else ⟨0, none⟩
  log : r.log =
    if env.bufOk then (nlSplitLines (some (logCallback env.alloc env.stderr)) (some env.stderr) log).2 else log

/-- A request that `start_curl` has started. -/
def Outcome.start (pid : Int) (log : Option UrlResult) : Outcome := { pid, errmsg := .strncpy [], log }

section
variable {env : OutcomeEnv} {q : Outcome} {e : Errmsg} {text : Bytes} {buf first : Buf} {cause errcode : Errcode}
  {events before after : List (Buf × Errcode)} {log : Option UrlResult} {pid : Int}

/-! ### Arrays -/

theorem ne_zero_of_notMem (h : 0 ∉ text) : ∀ c ∈ text, c ≠ 0 := by
  intro c hc hzero
  exact h (hzero ▸ hc)

theorem cString_append_zero {rest : Bytes} (h : ∀ c ∈ text, c ≠ 0) : cString (text ++ 0 :: rest) = text := by
  rw [cString, List.takeWhile_append_of_pos (by simpa using h), List.takeWhile_cons_of_neg (by simp), List.append_nil]

theorem text_snprintf (h : ∀ c ∈ text, c ≠ 0) : (e.snprintf text).text = text.take 1023 :=
  cString_append_zero fun c hc => h c (List.mem_of_mem_take hc)

theorem text_strncpy (h : ∀ c ∈ text, c ≠ 0) (hlen : text.length < 1024) : (Errmsg.strncpy text).text = text := by
  obtain ⟨n, hn⟩ : ∃ n, 1024 - text.length = n + 1 := ⟨1023 - text.length, by omega⟩
  show cString (text.take 1024 ++ List.replicate (1024 - text.length) 0) = text
  rw [List.take_of_length_le hlen.le, hn, List.replicate_succ, cString_append_zero h]

theorem cString_ne_zero {s : Bytes} : ∀ c ∈ cString s, c ≠ 0 := by
  intro c hc
  simpa using List.mem_takeWhile_imp hc

theorem printInt_ne_zero (n : Int) : ∀ c ∈ printInt n, c ≠ 0 := by
  have hnat (k : Nat) : ∀ c ∈ printNat k, c ≠ 0 := by
    rintro c hc rfl
    exact absurd (isdigit_printNat 0 hc) (by decide)
  intro c hc
  rw [printInt] at hc
  split at hc
  · rcases List.mem_cons.mp hc with rfl | hc
    · decide
    · exact hnat _ c hc
  · exact hnat _ c hc

/-- The texts of curl's errors are whole. -/
theorem curlErrorText_spec {n : Int} (h : curlErrorText n = some text) : (∀ c ∈ text, c ≠ 0) ∧ text.length < 1024 := by
  unfold curlErrorText at h
  split at h
  all_goals cases h
  all_goals exact ⟨ne_zero_of_notMem (by decide), by decide⟩

theorem text_storeCurlError (code : Nat) (hcode : code < 256) : (storeCurlError e code).text =
    (curlErrorText code).getD (bytes "Request failed with unknown curl error " ++ printInt code) := by
  rw [storeCurlError]
  cases h : curlErrorText code with
  | some msg =>
    obtain ⟨hzero, hlen⟩ := curlErrorText_spec h
    exact text_strncpy hzero hlen
  | none =>
    have hzero : ∀ c ∈ bytes "Request failed with unknown curl error " ++ printInt code, c ≠ 0 := by
      intro c hc
      rcases List.mem_append.mp hc with hc | hc
      · exact ne_zero_of_notMem (by decide : 0 ∉ bytes "Request failed with unknown curl error ") c hc
      · exact printInt_ne_zero code c hc
    have hlen : (bytes "Request failed with unknown curl error " ++ printInt code).length ≤ 1023 := by
      have hdigits : (printNat code).length ≤ 3 := printNat_length (by omega) (by decide)
      have hprint : printInt code = printNat code := if_neg (Int.not_lt.mpr (Int.natCast_nonneg code))
      have hprefix : (bytes "Request failed with unknown curl error ").length = 39 := by decide
      rw [List.length_append, hprint, hprefix]
      omega
    show (e.snprintf _).text = _
    rw [text_snprintf hzero, List.take_of_length_le hlen]
    rfl

/-! ### The end of the process -/

theorem nlWaitGetReturn_eq (w : Option UInt32) : nlWaitGetReturn w = match processEnd w with
    | .exited code => (code : Int)
    | .killed signal => -((signal : Int) + 100)
    | .unknown => -1 := by
  cases w with
  | none => rfl
  | some status =>
    rw [nlWaitGetReturn_some, processEnd]
    split
    · rfl
    · split <;> rfl

theorem processEnd_bounds (w : Option UInt32) :
    (∀ code, processEnd w = .exited code → code < 256) ∧ ∀ signal, processEnd w = .killed signal → 0 < signal := by
  cases w with
  | none => exact ⟨nofun, nofun⟩
  | some status =>
    rw [processEnd]
    constructor
    · intro code h
      split at h
      · cases h
        exact Nat.mod_lt _ (by decide)
      · split at h <;> cases h
    · intro signal h
      split at h
      · cases h
      · next hne =>
        split at h
        · cases h
        · cases h
          exact Nat.pos_of_ne_zero hne

/-! ### One request -/

namespace Outcome

theorem storeReturn_exited (code : Nat) : storeReturn env code q =
    if code = 0 then q
    else if code = 28 then { q with errmsg := q.errmsg.snprintf (bytes "Request timed out"), timeout := true }
    else { q with errmsg := storeCurlError q.errmsg code, error := true } := by
  have h1 : ¬(code : Int) = -1 := by omega
  have h2 : ¬(code : Int) < 0 := by omega
  have h28 : (code : Int) = 28 ↔ code = 28 := by omega
  rw [storeReturn, if_neg h1, if_neg h2]
  by_cases h : code = 28
  · have hne : code ≠ 0 := by omega
    rw [if_pos (h28.mpr h), if_neg hne, if_pos h]
  · rw [if_neg (mt h28.mp h), if_neg h]
    by_cases h0 : code = 0
    · rw [if_pos h0, if_neg (by omega)]
    · rw [if_neg h0, if_pos (by omega)]

theorem storeReturn_killed {signal : Nat} (h : 0 < signal) : storeReturn env (-((signal : Int) + 100)) q =
    { q with
      errmsg := q.errmsg.snprintf (bytes "Request interrupted by signal " ++ printInt signal ++ bytes " (" ++
        cString (env.strsignal signal) ++ bytes ")")
      error := true } := by
  have hback : -(-((signal : Int) + 100) + 100) = signal := by omega
  rw [storeReturn, if_neg (by omega), if_pos (by omega), hback]

theorem storeReturn_unknown : storeReturn env (-1) q = { q with error := true } := if_pos rfl

/-- What the events leave for the cause that finishes the request. -/
structure Caused (log : Option UrlResult) (cause : Errcode) (q : Outcome) : Prop where
  timeout : q.timeout = true ↔ cause = .timeout
  error : q.error = true ↔ cause = .other
  text : q.errmsg.text = if cause = .timeout then bytes "Reading data timed out" else []
  body : q.body = ⟨0, none⟩
  log : q.log = log

/-- What the end of the process adds. -/
structure Stored (env : OutcomeEnv) (log : Option UrlResult) (cause : Errcode) (q : Outcome) : Prop where
  timeout : q.timeout = true ↔ cause = .timeout ∨ processEnd env.waitpid = .exited 28
  error : q.error = true ↔ cause = .other ∨ processEnd env.waitpid ≠ .exited 0 ∧ processEnd env.waitpid ≠ .exited 28
  text : q.errmsg.text = verdictText env.strsignal cause (processEnd env.waitpid)
  body : q.body = ⟨0, none⟩
  log : q.log = log

theorem signalText_ne_zero (signal : Nat) : ∀ c ∈ bytes "Request interrupted by signal " ++ printInt signal ++
    bytes " (" ++ cString (env.strsignal signal) ++ bytes ")", c ≠ 0 := by
  intro c hc
  simp only [List.mem_append] at hc
  rcases hc with (((hc | hc) | hc) | hc) | hc
  · exact ne_zero_of_notMem (by decide : 0 ∉ bytes "Request interrupted by signal ") c hc
  · exact printInt_ne_zero signal c hc
  · exact ne_zero_of_notMem (by decide : 0 ∉ bytes " (") c hc
  · exact cString_ne_zero c hc
  · exact ne_zero_of_notMem (by decide : 0 ∉ bytes ")") c hc

theorem Caused.stored (h : Caused log cause q) (env : OutcomeEnv) :
    Stored env log cause (storeReturn env (nlWaitGetReturn env.waitpid) q) := by
  obtain ⟨hcode, hsignal⟩ := processEnd_bounds env.waitpid
  rw [nlWaitGetReturn_eq]
  cases hend : processEnd env.waitpid with
  | exited code =>
    have hcodes : code < 256 := hcode code hend
    show Stored env log cause (storeReturn env code q)
    rw [storeReturn_exited]
    by_cases h0 : code = 0
    · subst h0
      rw [if_pos rfl]
      constructor
      · rw [h.timeout, hend]
        simp
      · rw [h.error, hend]
        simp
      · rw [h.text, hend]
        rfl
      · exact h.body
      · exact h.log
    · rw [if_neg h0]
      by_cases h28 : code = 28
      · subst h28
        rw [if_pos rfl]
        constructor
        · rw [hend]
          simp
        · show q.error = true ↔ _
          rw [h.error, hend]
          simp
        · rw [hend]
          exact text_snprintf (ne_zero_of_notMem (by decide))
        · exact h.body
        · exact h.log
      · rw [if_neg h28]
        constructor
        · show q.timeout = true ↔ _
          rw [h.timeout, hend]
          simp [h28]
        · rw [hend]
          simp [h0, h28]
        · rw [hend]
          show (storeCurlError q.errmsg code).text = codeText cause code
          rw [text_storeCurlError code hcodes, codeText, if_neg h0, if_neg h28]
        · exact h.body
        · exact h.log
  | killed signal =>
    show Stored env log cause (storeReturn env (-((signal : Int) + 100)) q)
    rw [storeReturn_killed (hsignal signal hend)]
    constructor
    · show q.timeout = true ↔ _
      rw [h.timeout, hend]
      simp
    · rw [hend]
      simp
    · rw [hend]
      exact text_snprintf (signalText_ne_zero signal)
    · exact h.body
    · exact h.log
  | unknown =>
    show Stored env log cause (storeReturn env (-1) q)
    rw [storeReturn_unknown]
    constructor
    · show q.timeout = true ↔ _
      rw [h.timeout, hend]
      simp
    · rw [hend]
      simp
    · rw [hend]
      exact h.text
    · exact h.body
    · exact h.log

theorem storeReturn_pid (env : OutcomeEnv) (q : Outcome) (ret : Int) : (storeReturn env ret q).pid = q.pid := by
  unfold storeReturn
  split
  · rfl
  · split
    · rfl
    · split
      · rfl
      · split <;> rfl

theorem Caused.verdict (h : Caused log cause q) (hpid : 0 < q.pid) : Verdict env log cause (checkProcess env q) := by
  have hkill : killReqAndWait env q = (nlWaitGetReturn env.waitpid, { q with pid := 0 }) := if_neg (by omega)
  have hcaused : Caused log cause { q with pid := 0 } := ⟨h.timeout, h.error, h.text, h.body, h.log⟩
  have hreaped := storeReturn_pid env { q with pid := 0 } (nlWaitGetReturn env.waitpid)
  have hstored := hcaused.stored env
  simp only [checkProcess, hkill]
  generalize storeReturn env (nlWaitGetReturn env.waitpid) { q with pid := 0 } = q' at hreaped hstored
  cases hbuf : env.bufOk with
  | true =>
    refine ⟨hreaped, hstored.timeout, ?_, hstored.text, ?_, ?_⟩
    · rw [hbuf]
      show q'.error = true ↔ _
      rw [hstored.error]
      simp
    · rw [hbuf]
      rfl
    · rw [hbuf, ← hstored.log]
      rfl
  | false =>
    refine ⟨hreaped, hstored.timeout, ?_, hstored.text, ?_, ?_⟩
    · exact iff_of_true rfl (Or.inr (Or.inl hbuf))
    · rw [hbuf]
      exact hstored.body
    · rw [hbuf]
      exact hstored.log

theorem start_caused (pid : Int) (log : Option UrlResult) : Caused log .eof (start pid log) where
  timeout := iff_of_false nofun nofun
  error := iff_of_false nofun nofun
  text := rfl
  body := rfl
  log := rfl

theorem Caused.event (h : Caused log .eof q) (buf : Buf) (errcode : Errcode) :
    Caused log errcode (bufevError buf errcode q) := by
  have htimeout : q.timeout = false := Bool.not_eq_true _ ▸ mt h.timeout.mp nofun
  have herror : q.error = false := Bool.not_eq_true _ ▸ mt h.error.mp nofun
  cases errcode with
  | eof =>
    cases buf
    · exact ⟨h.timeout, h.error, h.text, h.body, h.log⟩
    · exact ⟨h.timeout, h.error, h.text, h.body, h.log⟩
  | timeout =>
    refine ⟨iff_of_true rfl rfl, ?_, text_snprintf (ne_zero_of_notMem (by decide)), h.body, h.log⟩
    show q.error = true ↔ _
    rw [herror]
    exact iff_of_false nofun nofun
  | other =>
    refine ⟨?_, iff_of_true rfl rfl, h.text, h.body, h.log⟩
    show q.timeout = true ↔ _
    rw [htimeout]
    exact iff_of_false nofun nofun

theorem bufevError_pid (buf : Buf) (errcode : Errcode) : (bufevError buf errcode q).pid = q.pid := by
  cases errcode <;> cases buf <;> rfl

/-- Ends of one buffer do not finish the request. -/
theorem handle_eof (env : OutcomeEnv) (hfresh : (bufevError first .eof q).finished = false)
    (hbefore : ∀ e ∈ before, e = (first, .eof)) (after : List (Buf × Errcode)) :
    handle env (before ++ after) q = handle env after (if before = [] then q else bufevError first .eof q) := by
  induction before generalizing q with
  | nil => rfl
  | cons e before ih =>
    obtain rfl := hbefore e List.mem_cons_self
    have hagain : bufevError first .eof (bufevError first .eof q) = bufevError first .eof q := by
      cases first <;> rfl
    have hrest := ih (q := bufevError first .eof q) (by rw [hagain]; exact hfresh) fun e he =>
      hbefore e (List.mem_cons_of_mem _ he)
    rw [hagain, ite_self] at hrest
    rw [if_neg (List.cons_ne_nil _ _), ← hrest]
    show (if (bufevError first .eof q).finished = true then _ else _) = _
    rw [hfresh]
    rfl

theorem start_eof (pid : Int) (log : Option UrlResult) (first : Buf) :
    (bufevError first .eof (start pid log)).finished = false := by
  cases first <;> rfl

end Outcome

/-- The events of one buffer, or events that finish the request. -/
theorem endsBy_or (events : List (Buf × Errcode)) :
    (∃ first, ∀ e ∈ events, e = (first, .eof)) ∨ ∃ cause, EndsBy events cause := by
  induction events with
  | nil => exact Or.inl ⟨.out, nofun⟩
  | cons e events ih =>
    obtain ⟨buf, errcode⟩ := e
    by_cases hbroken : errcode = .eof
    case neg => exact Or.inr ⟨errcode, .broken .out buf errcode [] events hbroken nofun⟩
    subst hbroken
    rcases ih with ⟨first, hfirst⟩ | ⟨cause, hends⟩
    · cases events with
      | nil => exact Or.inl ⟨buf, fun e he => List.mem_singleton.mp he⟩
      | cons e events =>
        obtain rfl := hfirst e List.mem_cons_self
        by_cases hbuf : buf = first
        · subst hbuf
          exact Or.inl ⟨buf, List.forall_mem_cons.mpr ⟨rfl, hfirst⟩⟩
        · exact Or.inr ⟨.eof, .eof buf first [(buf, .eof)] events hbuf (List.cons_ne_nil _ _) (by simp)⟩
    · refine Or.inr ?_
      cases hends with
      | eof first last before after hne hbefore hfirst =>
        by_cases hbuf : buf = first
        · subst hbuf
          exact ⟨.eof, .eof buf last ((buf, .eof) :: before) after hne (List.cons_ne_nil _ _)
            (List.forall_mem_cons.mpr ⟨rfl, hfirst⟩)⟩
        · obtain ⟨e, before, rfl⟩ := List.exists_cons_of_ne_nil hbefore
          obtain rfl := hfirst e List.mem_cons_self
          exact ⟨.eof, .eof buf first [(buf, .eof)] (before ++ (last, .eof) :: after) hbuf (List.cons_ne_nil _ _)
            (by simp)⟩
      | broken first buf' cause before after hbroken hfirst =>
        cases before with
        | nil => exact ⟨cause, .broken buf buf' cause [(buf, .eof)] after hbroken (by simp)⟩
        | cons e before =>
          obtain rfl := hfirst e List.mem_cons_self
          by_cases hbuf : buf = first
          · subst hbuf
            exact ⟨cause, .broken buf buf' cause ((buf, .eof) :: (buf, .eof) :: before) after hbroken
              (List.forall_mem_cons.mpr ⟨rfl, hfirst⟩)⟩
          · exact ⟨.eof, .eof buf first [(buf, .eof)] (before ++ (buf', cause) :: after) hbuf (List.cons_ne_nil _ _)
              (by simp)⟩

namespace Outcome

theorem handle_endsBy (h : EndsBy events cause) (hpid : 0 < pid) : ∃ r,
    handle env events (start pid log) = some r ∧ Verdict env log cause r := by
  cases h with
  | eof first last before after hne hbefore hfirst =>
    have hdone : (bufevError last .eof (bufevError first .eof (start pid log))).finished = true := by
      cases first <;> cases last <;> first | rfl | exact absurd rfl hne
    have hcaused := ((start_caused pid log).event first .eof).event last .eof
    rw [handle_eof env (start_eof pid log first) hfirst, if_neg hbefore]
    refine ⟨_, if_pos hdone, hcaused.verdict ?_⟩
    rw [bufevError_pid, bufevError_pid]
    exact hpid
  | broken first buf _ before after hbroken hfirst =>
    rw [handle_eof env (start_eof pid log first) hfirst]
    have hcaused : Caused log .eof (if before = [] then start pid log else bufevError first .eof (start pid log)) := by
      split
      · exact start_caused pid log
      · exact (start_caused pid log).event first .eof
    have hpids : (if before = [] then start pid log else bufevError first .eof (start pid log)).pid = pid := by
      split
      · rfl
      · exact bufevError_pid first .eof
    generalize (if before = [] then start pid log else bufevError first .eof (start pid log)) = q at hcaused hpids
    have hdone : (bufevError buf cause q).finished = true := by
      cases cause with
      | eof => exact absurd rfl hbroken
      | timeout => rfl
      | other => exact Bool.or_eq_true_iff.mpr (Or.inl (Bool.or_true _))
    refine ⟨_, if_pos hdone, (hcaused.event buf cause).verdict ?_⟩
    rw [bufevError_pid, hpids]
    exact hpid

/-- Ends of one buffer alone leave the request unfinished. -/
theorem handle_unfinished (h : ∀ e ∈ events, e = (first, .eof)) : handle env events (start pid log) = none := by
  have hnone := handle_eof env (start_eof pid log first) h []
  rw [List.append_nil] at hnone
  exact hnone

/-! ### The request of the machine -/

/-- The request of the machine has the same flags. -/
structure Agrees (q : Outcome) (u : Req) : Prop where
  pid : u.pid = q.pid
  outEof : u.outEof = q.outEof
  errEof : u.errEof = q.errEof
  timeout : u.timeout = q.timeout
  error : u.error = q.error

theorem Agrees.bufevError {u : Req} (h : Agrees q u) (buf : Buf) (errcode : Errcode) :
    Agrees (bufevError buf errcode q) (UrlReq.bufevError buf errcode u) := by
  obtain ⟨hpid, hout, herr, htimeout, herror⟩ := h
  cases errcode <;> cases buf <;> constructor <;> first | rfl | assumption

theorem Agrees.finished {u : Req} (h : Agrees q u) : u.finished = q.finished := by
  rw [Req.finished, Outcome.finished, h.timeout, h.error, h.outEof, h.errEof]

theorem Agrees.storeReturn {u : Req} (h : Agrees q u) (env : OutcomeEnv) (ret : Int) : Agrees (storeReturn env ret q)
    (if ret = 28 then { u with timeout := true } else if ret ≠ 0 then { u with error := true } else u) := by
  obtain ⟨hpid, hout, herr, htimeout, herror⟩ := h
  by_cases h28 : ret = 28
  · subst h28
    exact ⟨hpid, hout, herr, rfl, herror⟩
  rw [if_neg h28, Outcome.storeReturn]
  by_cases h0 : ret = 0
  · subst h0
    exact ⟨hpid, hout, herr, htimeout, herror⟩
  rw [if_pos h0]
  split
  · exact ⟨hpid, hout, herr, htimeout, rfl⟩
  · split
    · exact ⟨hpid, hout, herr, htimeout, rfl⟩
    · rw [if_pos (by omega)]
      exact ⟨hpid, hout, herr, htimeout, rfl⟩

theorem Agrees.checkProcess {u : Req} (h : Agrees q u) :
    Agrees (checkProcess env q) (UrlReq.checkProcess (nlWaitGetReturn env.waitpid) env.bufOk u) := by
  have hkilled : Agrees (killReqAndWait env q).2 (UrlReq.killReqAndWait u) ∧
      (killReqAndWait env q).1 = if u.pid ≤ 0 then 0 else nlWaitGetReturn env.waitpid := by
    rw [killReqAndWait, UrlReq.killReqAndWait, h.pid]
    split
    · exact ⟨h, rfl⟩
    · exact ⟨⟨rfl, h.outEof, h.errEof, h.timeout, h.error⟩, rfl⟩
  have hstored := hkilled.1.storeReturn env (killReqAndWait env q).1
  rw [hkilled.2] at hstored
  simp only [Outcome.checkProcess, UrlReq.checkProcess, hkilled.2]
  generalize Outcome.storeReturn env (if u.pid ≤ 0 then 0 else nlWaitGetReturn env.waitpid) (killReqAndWait env q).2 =
    q' at hstored
  cases env.bufOk
  · exact ⟨hstored.pid, hstored.outEof, hstored.errEof, hstored.timeout, rfl⟩
  · exact ⟨hstored.pid, hstored.outEof, hstored.errEof, hstored.timeout, hstored.error⟩

end Outcome

/-- The events until the request of the machine is finished. -/
def handleReq (ret : Int) (bufOk : Bool) : List (Buf × Errcode) → Req → Option Req
  | [], _ => none
  | (buf, errcode) :: events, u =>
    let u := bufevError buf errcode u
    if u.finished then some (checkProcess ret bufOk u) else handleReq ret bufOk events u

theorem Outcome.Agrees.handle {u : Req} {r : Outcome} (h : Outcome.Agrees q u)
    (hr : Outcome.handle env events q = some r) :
    ∃ u', handleReq (nlWaitGetReturn env.waitpid) env.bufOk events u = some u' ∧ Outcome.Agrees r u' := by
  induction events generalizing q u with
  | nil => cases hr
  | cons e events ih =>
    obtain ⟨buf, errcode⟩ := e
    have hevent := h.bufevError buf errcode
    simp only [Outcome.handle] at hr
    simp only [handleReq, hevent.finished]
    split at hr
    · next hdone =>
      cases hr
      rw [if_pos hdone]
      exact ⟨_, rfl, hevent.checkProcess⟩
    · next hdone =>
      rw [if_neg hdone]
      exact ih hevent hr

/-- What a verdict without a flag means, and that a message comes with a flag. -/
theorem Verdict.success {r : Outcome} (h : Verdict env log cause r) :
    (r.timeout = false ∧ r.error = false ↔
        cause = .eof ∧ processEnd env.waitpid = .exited 0 ∧ env.bufOk = true) ∧
      (r.errmsg.text ≠ [] → r.timeout = true ∨ r.error = true) := by
  have hiff : r.timeout = false ∧ r.error = false ↔
      cause = .eof ∧ processEnd env.waitpid = .exited 0 ∧ env.bufOk = true := by
    rw [← Bool.not_eq_true, ← Bool.not_eq_true, h.timeout, h.error]
    constructor
    · rintro ⟨htimeout, herror⟩
      rw [not_or] at htimeout
      rw [not_or, not_or] at herror
      refine ⟨?_, ?_, Bool.of_not_eq_false herror.2.1⟩
      · cases cause with
        | eof => rfl
        | timeout => exact absurd rfl htimeout.1
        | other => exact absurd rfl herror.1
      · by_contra hcode
        exact herror.2.2 ⟨hcode, htimeout.2⟩
    · rintro ⟨rfl, hcode, hbuf⟩
      rw [hcode, hbuf]
      simp
  refine ⟨hiff, fun htext => ?_⟩
  by_contra hflags
  rw [not_or, Bool.not_eq_true, Bool.not_eq_true] at hflags
  obtain ⟨rfl, hcode, -⟩ := hiff.mp hflags
  rw [h.text, hcode] at htext
  exact htext rfl

end

/-- Whatever events come and however the process ends: the request is finished exactly when both buffers have come to
    their end or an event of another kind has come, and then the callback is told what the cause and the end of the
    process call for. Without a flag all has gone well, and there is no message. The request of the machine ends up with
    the same flags. -/
theorem request_verdict (env : OutcomeEnv) (pid : Int) (hpid : 0 < pid) (log : Option UrlResult)
    (events : List (Buf × Errcode)) :
    (∃ cause r, EndsBy events cause ∧ Outcome.handle env events (.start pid log) = some r ∧ Verdict env log cause r ∧
      (r.timeout = false ∧ r.error = false ↔
        cause = .eof ∧ processEnd env.waitpid = .exited 0 ∧ env.bufOk = true) ∧
      (r.errmsg.text ≠ [] → r.timeout = true ∨ r.error = true) ∧
      ∀ u : Req, Outcome.Agrees (.start pid log) u →
        ∃ u', handleReq (nlWaitGetReturn env.waitpid) env.bufOk events u = some u' ∧ Outcome.Agrees r u') ∨
    (∃ buf, ∀ e ∈ events, e = (buf, .eof)) ∧ Outcome.handle env events (.start pid log) = none := by
  rcases endsBy_or events with ⟨buf, hbuf⟩ | ⟨cause, hends⟩
  · exact Or.inr ⟨⟨buf, hbuf⟩, Outcome.handle_unfinished hbuf⟩
  · obtain ⟨r, hr, hverdict⟩ := Outcome.handle_endsBy hends hpid
    obtain ⟨hsuccess, htext⟩ := hverdict.success
    exact Or.inl ⟨cause, r, hends, hr, hverdict, hsuccess, htext, fun u hu => hu.handle hr⟩

/-- The log ends, and then the answer takes too long; the process is killed. -/
def killedEnv : OutcomeEnv where
  waitpid := some 9
  strsignal _ := bytes "Killed"
  bufOk := true
  stdout := bytes "<html>"
  stderr := bytes "> GET /\n"
  alloc _ := true

/-- The message of the timeout is gone. -/
theorem request_verdict_killed :
    (∃ cause r, EndsBy [(.err, .eof), (.out, .timeout)] cause ∧
      Outcome.handle killedEnv [(.err, .eof), (.out, .timeout)] (.start 42 none) = some r ∧
      Verdict killedEnv none cause r ∧
      (r.timeout = false ∧ r.error = false ↔
        cause = .eof ∧ processEnd killedEnv.waitpid = .exited 0 ∧ killedEnv.bufOk = true) ∧
      (r.errmsg.text ≠ [] → r.timeout = true ∨ r.error = true) ∧
      ∀ u : Req, Outcome.Agrees (.start 42 none) u →
        ∃ u', handleReq (nlWaitGetReturn killedEnv.waitpid) killedEnv.bufOk [(.err, .eof), (.out, .timeout)] u =
          some u' ∧ Outcome.Agrees r u') ∨
    (∃ buf, ∀ e ∈ [(Buf.err, Errcode.eof), (.out, .timeout)], e = (buf, .eof)) ∧
      Outcome.handle killedEnv [(.err, .eof), (.out, .timeout)] (.start 42 none) = none :=
  request_verdict killedEnv 42 (by decide) none [(.err, .eof), (.out, .timeout)]

end Nlutils.UrlReq
