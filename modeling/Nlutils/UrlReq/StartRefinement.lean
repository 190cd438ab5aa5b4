import Nlutils.UrlReq.Form
import Nlutils.UrlReq.LeftBehind

/-! # `start_curl` as a step of a request

What `start_curl` does to a request is what it does in the run of requests, where flags say which calls fail. -/

namespace Nlutils.UrlReq.StartCurl
open Lib

/-- Which of the calls after `nl_popen3vec` fail. -/
def StartEnv.failing (env : StartEnv) : StartCall → Bool
  | .openFifo => (nlOpenTimeout env.opening {}).any fun x => decide (x.1 < 0)
  | .closeWritefd | .closeBodyfd => false
  | c => env.fails c

section
variable {env : StartEnv} {fds t t' : Fds} {children : List Int} {r r' : Run} {cs ds : List StartCall} {c : StartCall}
  {io : Popen} {fails : StartCall → Bool} {failed : Bool} {q q' : Req} {w : World}

theorem nlOpenTimeout_fails {fd : Int} (h : nlOpenTimeout env.opening t = some (fd, t')) :
    decide (fd < 0) = env.failing .openFifo := by
  rcases nlOpenTimeout_cases env.opening with hopen | ⟨e, he, hfail⟩
  · obtain ⟨rfl, -⟩ := Prod.mk.inj (Option.some.inj ((hopen t).symm.trans h))
    have hge : ∀ n : Nat, ¬(n : Int) < 0 := fun n => Int.not_lt.mpr (Int.natCast_nonneg n)
    simp [StartEnv.failing, hopen, hge]
  · obtain ⟨t₁, h₁, -⟩ := hfail t
    obtain ⟨t₂, h₂, -⟩ := hfail {}
    obtain ⟨rfl, -⟩ := Prod.mk.inj (Option.some.inj (h₁.symm.trans h))
    simp [StartEnv.failing, h₂, he]

theorem hashCallback_req {fails : Bool} (h : hashCallback fails r = some (failed, r')) :
    failed = fails ∧ r'.req = r.req := by
  cases fails with
  | false =>
    obtain ⟨rfl, rfl⟩ := Prod.mk.inj (Option.some.inj h)
    exact ⟨rfl, rfl⟩
  | true =>
    obtain ⟨t, -, heq⟩ := Option.map_eq_some_iff.mp h
    obtain ⟨rfl, rfl⟩ := Prod.mk.inj heq
    exact ⟨rfl, rfl⟩

/-- A call after `nl_popen3vec` changes the request as the flags say. -/
theorem callStep_req (io : Popen) (hc : c ≠ .tempFifo) (hc' : c ≠ .popen)
    (h : callStep env c r = some (failed, r')) :
    failed = env.failing c ∧ r'.req = if failed then r.req else c.store io r.req := by
  have same : ∀ {q : Req}, (if failed then q else q) = q := ite_self _
  cases c with
  | tempFifo => exact absurd rfl hc
  | popen => exact absurd rfl hc'
  | openFifo =>
    obtain ⟨⟨fd, t⟩, hopen, heq⟩ := Option.map_eq_some_iff.mp h
    obtain ⟨rfl, rfl⟩ := Prod.mk.inj heq
    exact ⟨nlOpenTimeout_fails hopen, same.symm⟩
  | writeUrl | writeConnectTimeout | writeMaxTime | writeGet | uploadFile | writeBody =>
    obtain ⟨rfl, rfl⟩ := Prod.mk.inj (Option.some.inj h)
    exact ⟨rfl, same.symm⟩
  | formParam i | header i | contentLength =>
    obtain ⟨hfailed, hreq⟩ := hashCallback_req h
    exact ⟨hfailed, hreq.trans same.symm⟩
  | closeWritefd | closeBodyfd =>
    obtain ⟨t, -, heq⟩ := Option.map_eq_some_iff.mp h
    obtain ⟨rfl, rfl⟩ := Prod.mk.inj heq
    exact ⟨rfl, rfl⟩
  | outbuf | errbuf | requestHeaders | responseHeaders =>
    obtain ⟨rfl, rfl⟩ := Prod.mk.inj (Option.some.inj h)
    refine ⟨rfl, ?_⟩
    split <;> rfl

theorem runCalls_req (io : Popen) (hfails : ∀ c ∈ cs, c ≠ .tempFifo ∧ c ≠ .popen ∧ fails c = env.failing c)
    (h : runCalls env cs r = some (failed, r')) :
    startFrom fails io cs r.req = if failed then .error r'.req else .ok r'.req := by
  induction cs generalizing r with
  | nil =>
    obtain ⟨rfl, rfl⟩ := Prod.mk.inj (Option.some.inj h)
    rfl
  | cons c cs ih =>
    obtain ⟨hc, hc', hflag⟩ := hfails c List.mem_cons_self
    obtain ⟨⟨stop, r₁⟩, hstep, hrest⟩ := Option.bind_eq_some_iff.mp h
    obtain ⟨hstop, hreq⟩ := callStep_req io hc hc' hstep
    rw [startFrom, hflag, ← hstop]
    cases stop with
    | true =>
      obtain ⟨rfl, rfl⟩ := Prod.mk.inj (Option.some.inj hrest)
      simp only [if_true, if_neg hc', hreq]
    | false =>
      rw [← ih (fun c hc => hfails c (List.mem_cons_of_mem _ hc)) hrest, hreq]
      rfl

theorem errorLabel_req (h : errorLabel r = some (q, w)) : q = startError r.req := by
  obtain ⟨fds₁, -, h⟩ := Option.bind_eq_some_iff.mp h
  obtain ⟨fds₂, -, h⟩ := Option.bind_eq_some_iff.mp h
  obtain ⟨w', -, heq⟩ := Option.map_eq_some_iff.mp h
  exact (Prod.mk.inj heq).1.symm

/-- All flags: the first two are for `temp_fifo` and `nl_popen3vec`. -/
def StartEnv.flags (env : StartEnv) (noFifo noChild : Bool) (c : StartCall) : Bool :=
  if c = .tempFifo then noFifo else if c = .popen then noChild else env.failing c

theorem later_flags {writes body : List StartCall} {noFifo noChild : Bool} (hwrites : ∀ c ∈ writes, Writes c)
    (hbody : ∀ c ∈ body, c = .writeBody) :
    ∀ c ∈ .openFifo :: (writes ++ .closeWritefd :: (body ++ .closeBodyfd ::
        [.outbuf, .errbuf, .requestHeaders, .responseHeaders])),
      c ≠ .tempFifo ∧ c ≠ .popen ∧ env.flags noFifo noChild c = env.failing c := by
  have hlater : ∀ c : StartCall, c ≠ .tempFifo → c ≠ .popen →
      c ≠ .tempFifo ∧ c ≠ .popen ∧ env.flags noFifo noChild c = env.failing c := fun c h h' =>
    ⟨h, h', by rw [StartEnv.flags, if_neg h, if_neg h']⟩
  intro c hc
  simp only [List.mem_cons, List.mem_append, List.not_mem_nil, or_false] at hc
  rcases hc with rfl | hc | rfl | hc | rfl | rfl | rfl | rfl | rfl
  · exact hlater _ (by simp) (by simp)
  · refine hlater c ?_ ?_
    · rintro rfl
      exact hwrites _ hc
    · rintro rfl
      exact hwrites _ hc
  · exact hlater _ (by simp) (by simp)
  · rw [hbody c hc]
    exact hlater _ (by simp) (by simp)
  all_goals exact hlater _ (by simp) (by simp)

theorem tempFifo_req (h : callStep env .tempFifo r = some (failed, r')) : r'.req = r.req := by
  have heq := Option.some.inj h
  split at heq
  · rw [← (Prod.mk.inj heq).2]
  · rw [← (Prod.mk.inj heq).2]

/-- What `nl_popen3vec` gives a request. -/
theorem popen_req (h : callStep env .popen r = some (failed, r')) :
    ∃ io, r'.req = if failed then { r.req with pid := -1 } else StartCall.store io .popen r.req := by
  obtain ⟨⟨pid, out, t⟩, hcode, heq⟩ := Option.map_eq_some_iff.mp h
  obtain ⟨rfl, rfl⟩ := Prod.mk.inj heq
  rcases nlPopen3vec_cases env.popen (fun _ => true) r.world.fds with
    ⟨-, t', hfail, -⟩ | ⟨-, n, ⟨b, rd, ed⟩, t', hfork, hmade, -, hget⟩
  · obtain ⟨rfl, rfl, -⟩ : -1 = pid ∧ {} = out ∧ t' = t := by simpa using hfail.symm.trans hcode
    exact ⟨⟨0, 0, 0⟩, rfl⟩
  · obtain ⟨rfl, rfl, -⟩ : (n : Int) = pid ∧ PopenOut.mk b rd ed = out ∧ t' = t := by
      simpa using hmade.symm.trans hcode
    obtain ⟨k, -, rfl⟩ := Option.map_eq_some_iff.mp hfork
    obtain ⟨readfd, hrd, -⟩ := hget .stdout
    obtain ⟨errfd, hed, -⟩ := hget .stderr
    simp only [PopenOut.get] at hrd hed
    subst hrd hed
    have hpos : ¬((k + 1 : Nat) : Int) ≤ 0 := by omega
    refine ⟨⟨k, readfd, errfd⟩, ?_⟩
    simp only [hpos, decide_false, Bool.false_eq_true, if_false]
    rfl

/-- Every run of `start_curl` is one of those in which flags say what fails. -/
theorem startCurl_refines {n : Int} (h : startCurl env q fds children = some (n, q', w)) :
    ∃ fails io, n = 0 ∧ UrlReq.startCurl fails io q = .ok q' ∨
      n = ebusy ∧ ∃ q₁, UrlReq.startCurl fails io q = .error q₁ ∧ q' = startError q₁ := by
  obtain ⟨writes, body, hcalls, hwrites, hbody⟩ := startCalls_split q
  obtain ⟨⟨failed, r⟩, hrun, hend⟩ := Option.bind_eq_some_iff.mp h
  have hresult : ∀ {fails : StartCall → Bool} {io : Popen},
      startFrom fails io (startCalls q) q = (if failed then .error r.req else .ok r.req) →
      n = 0 ∧ UrlReq.startCurl fails io q = .ok q' ∨
        n = ebusy ∧ ∃ q₁, UrlReq.startCurl fails io q = .error q₁ ∧ q' = startError q₁ := by
    intro fails io hfrom
    cases failed with
    | true =>
      obtain ⟨⟨q₁, w₁⟩, herr, heq⟩ := Option.map_eq_some_iff.mp hend
      obtain ⟨rfl, rfl, -⟩ : ebusy = n ∧ q₁ = q' ∧ w₁ = w := by simpa using heq
      exact Or.inr ⟨rfl, r.req, hfrom, errorLabel_req herr⟩
    | false =>
      obtain ⟨rfl, rfl, -⟩ : 0 = n ∧ r.req = q' ∧ r.world = w := by simpa using hend
      exact Or.inl ⟨rfl, hfrom⟩
  rw [hcalls] at hrun hresult
  obtain ⟨⟨noFifo, r₁⟩, hstep₁, hrun⟩ := Option.bind_eq_some_iff.mp hrun
  have hreq₁ := tempFifo_req hstep₁
  cases noFifo with
  | true =>
    obtain ⟨rfl, rfl⟩ := Prod.mk.inj (Option.some.inj hrun)
    refine ⟨env.flags true true, ⟨0, 0, 0⟩, hresult ?_⟩
    rw [hreq₁]
    rfl
  | false =>
    obtain ⟨⟨noChild, r₂⟩, hstep₂, hrun⟩ := Option.bind_eq_some_iff.mp hrun
    obtain ⟨io, hreq₂⟩ := popen_req hstep₂
    rw [hreq₁] at hreq₂
    refine ⟨env.flags false noChild, io, hresult ?_⟩
    cases noChild with
    | true =>
      obtain ⟨rfl, rfl⟩ := Prod.mk.inj (Option.some.inj hrun)
      rw [hreq₂]
      rfl
    | false =>
      rw [← runCalls_req io (later_flags hwrites hbody) hrun, hreq₂]
      rfl

/-! ### The form -/

variable {oenv : OptionEnv} {opts : FormOptions} {st st' : FormState} {k v : CStr} {form : List (CStr × CStr)}
  {is : List Nat} {ret : Int}

/-- `writefd` has been closed and its variable set to -1, or nothing has. -/
def Follows (failed : Bool) (st st' : FormState) : Prop :=
  if failed then st'.writefd = -1 ∧ st'.closed = st.closed ++ [st.writefd]
  else st'.writefd = st.writefd ∧ st'.closed = st.closed

theorem sendParam_follows (h : sendParam oenv opts k v st = some (ret, st')) : Follows (ret ≠ 0) st st' := by
  obtain ⟨⟨n, option⟩, -, h⟩ := Option.bind_eq_some_iff.mp h
  simp only at h
  split at h
  · obtain ⟨rfl, rfl⟩ := Prod.mk.inj (Option.some.inj h)
    exact ⟨rfl, rfl⟩
  · split at h
    · obtain ⟨rfl, rfl⟩ := Prod.mk.inj (Option.some.inj h)
      exact ⟨rfl, rfl⟩
    · obtain ⟨rfl, rfl⟩ := Prod.mk.inj (Option.some.inj h)
      exact ⟨rfl, rfl⟩

theorem encodeParam_follows (oenv : OptionEnv) (str : CStr) (st : FormState) :
    Follows false st (encodeParam oenv str st).2 := ⟨rfl, rfl⟩

theorem Follows.trans {st₁ : FormState} {failed : Bool} (h : Follows false st st₁) (h' : Follows failed st₁ st') :
    Follows failed st st' := by
  obtain ⟨hfd, hclosed⟩ := h
  cases failed with
  | true => exact ⟨h'.1, by rw [h'.2, hfd, hclosed]⟩
  | false => exact ⟨h'.1.trans hfd, h'.2.trans hclosed⟩

/-- `form_hash_callback` closes `writefd` when it fails, and only then. -/
theorem formHashCallback_follows (h : formHashCallback oenv opts k v st = some (ret, st')) :
    Follows (ret ≠ 0) st st' := by
  have herror : ∀ {encoded : List CStr} {st₁ : FormState}, Follows false st st₁ → formError encoded st₁ = (ret, st') →
      Follows (ret ≠ 0) st st' := by
    intro encoded st₁ hst heq
    obtain ⟨rfl, rfl⟩ := Prod.mk.inj heq
    exact hst.trans ⟨rfl, rfl⟩
  rw [formHashCallback] at h
  split at h
  · exact sendParam_follows h
  · have hkey := encodeParam_follows oenv k st
    generalize encodeParam oenv k st = x at h hkey
    rcases x with ⟨_ | encodedKey, st₁⟩
    · exact herror hkey (Option.some.inj h)
    · have hvalue := hkey.trans (encodeParam_follows oenv v st₁)
      simp only at h
      generalize encodeParam oenv v st₁ = y at h hvalue
      rcases y with ⟨_ | encodedValue, st₂⟩
      · exact herror hvalue (Option.some.inj h)
      · exact hvalue.trans (sendParam_follows h)

/-- Iterating over the form stops at the first pair that cannot be sent. -/
theorem iterateForm_follows (h : iterateForm oenv opts form st = some st') :
    ∃ failed, Follows failed st st' ∧ (failed = true → form ≠ []) := by
  induction form generalizing st with
  | nil =>
    obtain rfl := Option.some.inj h
    exact ⟨false, ⟨rfl, rfl⟩, fun h => by cases h⟩
  | cons pair form ih =>
    obtain ⟨key, value⟩ := pair
    obtain ⟨⟨ret, st₁⟩, hcall, h⟩ := Option.bind_eq_some_iff.mp h
    have hfollows := formHashCallback_follows hcall
    by_cases hret : ret = 0
    · subst hret
      obtain ⟨failed, hrest, -⟩ := ih h
      exact ⟨failed, Follows.trans hfollows hrest, fun _ => List.cons_ne_nil _ _⟩
    · simp only [if_pos hret] at h
      obtain rfl := Option.some.inj h
      rw [decide_eq_true hret] at hfollows
      exact ⟨true, hfollows, fun _ => List.cons_ne_nil _ _⟩

theorem formParams_pass (henv : ∀ i ∈ is, env.fails (.formParam i) = false) :
    runCalls env (is.map .formParam) r = some (false, r) := by
  induction is with
  | nil => rfl
  | cons i is ih =>
    have hpass : callStep env (.formParam i) r = some (false, r) := by
      rw [callStep, henv i List.mem_cons_self]
      rfl
    rw [List.map_cons, runCalls, hpass, Option.bind_some]
    exact ih fun j hj => henv j (List.mem_cons_of_mem _ hj)

/-- What `form_hash_callback` does to `writefd`, whatever fails in it, is what the calls do for some flags. -/
theorem formParams_follow (h : iterateForm oenv opts form st = some st') : ∃ failed fails, Follows failed st st' ∧
    ∀ env : StartEnv, env.fails = fails → ∀ r, runCalls env ((List.range form.length).map .formParam) r =
      if failed then hashCallback true r else some (false, r) := by
  obtain ⟨failed, hfollows, hne⟩ := iterateForm_follows h
  cases failed with
  | false =>
    refine ⟨false, fun _ => false, hfollows, fun env henv r => ?_⟩
    exact formParams_pass fun i _ => congrFun henv _
  | true =>
    refine ⟨true, fun _ => true, hfollows, fun env henv r => ?_⟩
    obtain ⟨n, hn⟩ := Nat.exists_eq_succ_of_ne_zero (mt List.eq_nil_of_length_eq_zero (hne rfl))
    have hfail : callStep env (.formParam 0) r = hashCallback true r := by
      rw [callStep, henv]
    rw [hn, List.range_succ_eq_map, List.map_cons, runCalls, hfail, if_pos rfl, hashCallback, if_pos rfl]
    cases closeFd r.writefd r.world.fds with
    | none => rfl
    | some t => rfl

end
end Nlutils.UrlReq.StartCurl
