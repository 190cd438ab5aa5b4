import Nlutils.UrlReq.Step

/-! # What the functions of `url_req.c` do to the state

One equation for each function: which fields it changes, and to what. The invariants use these equations and
never unfold the functions. -/

namespace Nlutils.UrlReq
open Lib

/-! ### Requests in memory -/

namespace State
variable {s : State} {r r' : ReqId} {f g : Req → Req}

/-- The event loop reads the request: it may report an event on it. -/
def readable (s : State) (r : ReqId) : Bool := (s.req r).reading && (s.req r).outbuf && (s.req r).errbuf

theorem getElem?_setReq : (s.setReq r f).reqs[r']? = (s.reqs[r']?).map fun q => if r = r' then f q else q := by
  simp only [setReq, List.getElem?_modify]
  split <;> rfl

theorem isLive_setReq (h : ∀ q, (f q).live = q.live) : (s.setReq r f).isLive r' = s.isLive r' := by
  unfold isLive
  rw [getElem?_setReq]
  cases s.reqs[r']? with
  | none => rfl
  | some q =>
    simp only [Option.map_some, Option.any_some]
    split
    · exact h q
    · rfl

theorem req_of_getElem? {q : Req} (h : s.reqs[r]? = some q) : s.req r = q := by
  simp [req, List.getD_eq_getElem?_getD, h]

theorem req_setReq_of_ne (h : r ≠ r') : (s.setReq r f).req r' = s.req r' := by
  simp only [req, List.getD_eq_getElem?_getD, getElem?_setReq, h, if_false, Option.map_id']

theorem req_setReq_self (h : r < s.reqs.length) : (s.setReq r f).req r = f (s.req r) := by
  simp [req, setReq, List.getD_eq_getElem?_getD, h]

/-- Storing a request computed from its old contents is a modification. -/
theorem setReq_req : (s.setReq r fun _ => f (s.req r)) = s.setReq r f := by
  unfold setReq
  congr 1
  apply List.ext_getElem?
  intro i
  rw [List.getElem?_modify, List.getElem?_modify]
  split
  · next h =>
    subst h
    cases hq : s.reqs[r]? with
    | none => rfl
    | some q => simp [req_of_getElem? hq]
  · rfl

theorem setReq_setReq : (s.setReq r f).setReq r g = s.setReq r (g ∘ f) := by
  simp only [setReq, List.modify_modify_eq]

theorem lt_length_of_isLive (h : s.isLive r = true) : r < s.reqs.length := by
  unfold isLive at h
  by_cases hr : r < s.reqs.length
  · exact hr
  · simp [List.getElem?_eq_none (Nat.le_of_not_lt hr)] at h

/-- The log after a use of the request. -/
def used (s : State) (r : ReqId) : List Event := if s.isLive r then [] else [.useAfterFree r]

/-- Events among which there may be the use of a freed request. -/
theorem forall_used {P : Event → Prop} (h : P (.useAfterFree r)) : ∀ e ∈ s.used r, P e := by
  intro e he
  unfold used at he
  split at he
  · cases he
  · exact List.mem_singleton.mp he ▸ h

theorem forall_used_append {P : Event → Prop} {es : List Event} (h : P (.useAfterFree r)) (hes : ∀ e ∈ es, P e) :
    ∀ e ∈ s.used r ++ es, P e :=
  List.forall_mem_append.mpr ⟨forall_used h, hes⟩

theorem deref_eq : s.deref r = { s with log := s.log ++ s.used r } := by
  unfold deref used
  split
  · simp
  · rfl

end State

open State

/-! ### Freeing and stopping -/

section
variable {s : State} {t : Tid} {r : ReqId} {writeOk : Bool}

/-- The contents that `free_req` leaves in the memory of a request. -/
def freedReq (q : Req) : Req :=
  { killReqAndWait q with
    live := false, outbuf := false, errbuf := false, requestHeaders := false, responseHeaders := false
    params := freeParams (killReqAndWait q).params }

theorem remove_eq_erase {l : List ReqId} : (FifoSpec.remove l r).2 = l.erase r := by
  unfold FifoSpec.remove
  split
  · rfl
  · next h => exact (List.erase_of_not_mem h).symm

theorem freeReq_eq : freeReq t r s = { s with
    reqlist := s.reqlist.erase r
    reqs := s.reqs.modify r freedReq
    log := s.log ++ (s.used r ++ [.freed r t]) } := by
  simp only [freeReq, deref_eq, ctxLock, ctxUnlock, setReq, State.free, record, remove_eq_erase,
    RecMutex.unlock_lock, List.modify_modify_eq, List.append_assoc]
  rfl

/-- The message that `nl_url_req_shutdown` writes, if it can. -/
def nullMessage (s : State) (writeOk : Bool) : List (Option ReqId) :=
  if s.evPipeWritefd ≥ 0 ∧ writeOk then [none] else []

theorem filterMap_nullMessage : (nullMessage s writeOk).filterMap id = [] := by
  unfold nullMessage
  split <;> rfl

theorem nlUrlReqShutdown_eq :
    nlUrlReqShutdown t writeOk s = { s with pipe := s.pipe ++ nullMessage s writeOk } := by
  unfold nlUrlReqShutdown nullMessage
  by_cases h : s.evPipeWritefd ≥ 0 ∧ writeOk = true <;> simp [h, ctxLock, ctxUnlock]

theorem nlUrlReqStop_eq : nlUrlReqStop t writeOk s =
    if s.evloop ∧ ¬s.stopping then
      { s with stopping := true, pipe := s.pipe ++ nullMessage s writeOk }
    else s := by
  unfold nlUrlReqStop
  simp only [nlUrlReqShutdown_eq]
  have hc : ((s.ctxLock t).evloop = true ∧ ¬(s.ctxLock t).stopping = true) ↔
      (s.evloop = true ∧ ¬s.stopping = true) := Iff.rfl
  by_cases h : s.evloop = true ∧ ¬s.stopping = true
  · rw [if_pos (hc.mpr h), if_pos h]
    simp [ctxLock, ctxUnlock, nullMessage]
  · rw [if_neg (mt hc.mp h), if_neg h]
    simp [ctxLock, ctxUnlock]

end

/-! ### `nl_url_req_add` -/

section
variable {f : AddFails} {a : Adding} {p : Params} {q : Req} {s : State}

/-- What of a request decides who uses it is the same in both. -/
structure SameUse (q q' : Req) : Prop where
  live : q'.live = q.live
  cb : q'.cb = q.cb
  outbuf : q'.outbuf = q.outbuf
  errbuf : q'.errbuf = q.errbuf
  reading : q'.reading = q.reading

theorem SameUse.trans {q₁ q₂ q₃ : Req} (h : SameUse q₁ q₂) (h' : SameUse q₂ q₃) : SameUse q₁ q₃ :=
  ⟨h'.live.trans h.live, h'.cb.trans h.cb, h'.outbuf.trans h.outbuf, h'.errbuf.trans h.errbuf,
    h'.reading.trans h.reading⟩

theorem cloneParams_sameUse : SameUse q (cloneParams f p q).2 := by
  unfold cloneParams
  dsimp only
  repeat' split
  all_goals exact ⟨rfl, rfl, rfl, rfl, rfl⟩

theorem cloneParams_eq_zero_iff : (cloneParams f p q).1 = 0 ↔
    ¬(p.headers.isSome = true ∧ f.cloneHeaders = true) ∧ ¬(p.form.isSome = true ∧ f.cloneForm = true) := by
  unfold cloneParams
  dsimp only
  split
  · next h => simp [h]
  · next h =>
    split
    · next h' => simp [h']
    · next h' => simp only [h, h', not_false_eq_true, and_self]

/-- The request as it is put on the list. -/
def preparedReq (f : AddFails) (a : Adding) (q : Req) : Req :=
  (cloneParams f a.params
    { initReq a q with url := some (nlUrlEncode (a.params.url.getD []) true true) }).2

theorem preparedReq_live : (preparedReq f a q).live = q.live := cloneParams_sameUse.live

theorem preparedReq_reading : (preparedReq f a q).reading = q.reading := cloneParams_sameUse.reading

theorem put_neg_iff {malloc : Bool} {l : List ReqId} {r : ReqId} (h : l.length < 2 ^ 31) :
    (FifoSpec.put (!malloc) l r).1 < 0 ↔ malloc = true ∨ ¬l.length + 1 < 2 ^ 31 := by
  cases malloc with
  | true => exact iff_of_true (by decide : (-1 : Int) < 0) (Or.inl rfl)
  | false =>
    have hlen : (l ++ [r]).length = l.length + 1 := List.length_append
    by_cases hl : l.length + 1 < 2 ^ 31
    · have hpos : FifoSpec.toInt (FifoSpec.count (l ++ [r])) = (l ++ [r]).length := FifoSpec.toInt_count (hlen ▸ hl)
      have hnonneg : ¬FifoSpec.toInt (FifoSpec.count (l ++ [r])) < 0 := by
        rw [hpos]
        omega
      exact iff_of_false hnonneg fun h => h.elim nofun fun h => h hl
    · have hneg : FifoSpec.toInt (FifoSpec.count (l ++ [r])) < 0 :=
        FifoSpec.toInt_count_neg (by omega) (by omega)
      exact iff_of_true hneg (Or.inr hl)

theorem AddFails.ok_iff {l : List ReqId} (hl : l.length < 2 ^ 31) {r : ReqId} {q : Req} : f.ok p l = true ↔
    f.encode = false ∧ (cloneParams f p q).1 = 0 ∧ ¬(FifoSpec.put (!f.malloc) l r).1 < 0 ∧ f.write = false := by
  rw [cloneParams_eq_zero_iff, put_neg_iff hl]
  simp only [AddFails.ok, Bool.and_eq_true, Bool.not_eq_true', decide_eq_true_eq, Bool.and_eq_false_iff]
  grind

theorem addUnderLock_ok (hl : s.reqlist.length < 2 ^ 31) (h : f.ok a.params s.reqlist = true) :
    addUnderLock f a s = (0, { s with
      reqs := s.reqs.modify a.req (preparedReq f a)
      reqlist := s.reqlist ++ [a.req]
      pipe := s.pipe ++ [some a.req] }) := by
  obtain ⟨henc, -, hput, hw⟩ := (AddFails.ok_iff (q := {}) (r := a.req) hl).mp h
  have hm : f.malloc = false := by
    cases hm : f.malloc with
    | false => rfl
    | true => simp [hm, FifoSpec.put] at hput
  unfold addUnderLock
  simp only [henc, hw, setReq_req (f := fun q => (cloneParams f a.params q).2), setReq_setReq, Bool.false_eq_true,
    if_false]
  rw [if_neg, if_neg]
  · simp [ctxLock, ctxUnlock, setReq, FifoSpec.put, hm]
    rfl
  · exact hput
  · have := ((AddFails.ok_iff (q := ((((s.ctxLock (.caller a.thread)).setReq a.req (initReq a)).setReq a.req
      ({ · with url := some (nlUrlEncode (a.params.url.getD []) true true) })).req a.req)) (r := a.req) hl).mp h).2.1
    rw [setReq_setReq] at this
    exact not_not_intro this

/-- What `free_req` leaves of a request that `addUnderLock` gives up. -/
theorem addError_eq {u : State} {l : List ReqId} {g : Req → Req} {t : Tid} {r : ReqId}
    (hu : u = { s with lock := s.lock.lock t, reqs := s.reqs.modify r g, reqlist := l })
    (hg : ∀ q, (g q).live = q.live) (hl : l.erase r = s.reqlist) :
    freeReq t r u = { s with
      lock := s.lock.lock t
      reqs := s.reqs.modify r (freedReq ∘ g)
      log := s.log ++ (s.used r ++ [.freed r t]) } := by
  subst hu
  have hlive : (State.setReq s r g).used r = s.used r := by simp only [used, isLive_setReq hg]
  rw [freeReq_eq, List.modify_modify_eq, hl]
  exact congrArg (fun us => ({ s with
    lock := s.lock.lock t
    reqs := s.reqs.modify r (freedReq ∘ g)
    log := s.log ++ (us ++ [.freed r t]) } : State)) hlive

theorem addUnderLock_error (hl : s.reqlist.length < 2 ^ 31) (hr : a.req ∉ s.reqlist)
    (h : f.ok a.params s.reqlist = false) : ∃ g : Req → Req, addUnderLock f a s = (ebusy, { s with
      lock := s.lock.lock (.caller a.thread)
      reqs := s.reqs.modify a.req (freedReq ∘ g)
      log := s.log ++ (s.used a.req ++ [.freed a.req (.caller a.thread)]) }) := by
  have herase : (s.reqlist ++ [a.req]).erase a.req = s.reqlist := by
    rw [List.erase_append_right _ hr]
    simp
  have herase' : s.reqlist.erase a.req = s.reqlist := List.erase_of_not_mem hr
  have hput : ((FifoSpec.put (!f.malloc) s.reqlist a.req).2).erase a.req = s.reqlist := by
    unfold FifoSpec.put
    split
    · exact herase
    · exact herase'
  -- The request is freed at one of four points; `g` is what was stored in it by then.
  have error {l : List ReqId} {g : Req → Req} {u : State}
      (hu : u = { s with lock := s.lock.lock (.caller a.thread), reqs := s.reqs.modify a.req g, reqlist := l })
      (hg : ∀ q, (g q).live = q.live) (hl : l.erase a.req = s.reqlist) := addError_eq hu hg hl
  have hlive {q : Req} : (cloneParams f a.params q).2.live = q.live := cloneParams_sameUse.live
  unfold addUnderLock
  simp only [setReq_req (f := fun q => (cloneParams f a.params q).2), setReq_setReq]
  split
  · exact ⟨_, congrArg _ (error (g := initReq a) rfl (fun _ => rfl) herase')⟩
  · split
    · exact ⟨_, congrArg _ (error (g := (fun q => (cloneParams f a.params q).2) ∘ _) rfl (fun _ => hlive) herase')⟩
    · split
      · exact ⟨_, congrArg _ (error (g := (fun q => (cloneParams f a.params q).2) ∘ _) rfl (fun _ => hlive) hput)⟩
      · split
        · exact ⟨_, congrArg _ (error (g := (fun q => (cloneParams f a.params q).2) ∘ _) rfl (fun _ => hlive) hput)⟩
        · next henc hc hp hw =>
          refine absurd ((AddFails.ok_iff (p := a.params) (q := {}) hl).mpr ⟨?_, ?_, hp, ?_⟩) (by simp [h])
          · simpa using henc
          · exact cloneParams_eq_zero_iff.mpr (cloneParams_eq_zero_iff.mp (Decidable.not_not.mp hc))
          · simpa using hw

end

/-! ### `start_curl` and the handlers of events -/

section
variable {fails : StartCall → Bool} {io : Popen} {q q' : Req}

/-- The memory of a request keeps its callback and stays live, and the event loop does not start to read it. -/
structure Kept (q q' : Req) : Prop where
  live : q'.live = q.live
  cb : q'.cb = q.cb
  reading : q'.reading = q.reading

theorem Kept.trans {q₁ q₂ q₃ : Req} (h : Kept q₁ q₂) (h' : Kept q₂ q₃) : Kept q₁ q₃ :=
  ⟨h'.live.trans h.live, h'.cb.trans h.cb, h'.reading.trans h.reading⟩

theorem store_kept {c : StartCall} : Kept q (c.store io q) := by
  cases c <;> exact ⟨rfl, rfl, rfl⟩

theorem killReqAndWait_sameUse : SameUse q (killReqAndWait q) := by
  unfold killReqAndWait
  split <;> exact ⟨rfl, rfl, rfl, rfl, rfl⟩

theorem startFrom_ok_iff : ∀ {cs : List StartCall} {q : Req},
    (∃ q', startFrom fails io cs q = .ok q') ↔ ∀ c ∈ cs, fails c = false
  | [], q => by simp [startFrom]
  | c :: cs, q => by
    unfold startFrom
    cases hc : fails c with
    | true => simp [hc]
    | false => simp [hc, startFrom_ok_iff]

theorem startFrom_ok_kept : ∀ {cs : List StartCall} {q q' : Req}, startFrom fails io cs q = .ok q' → Kept q q'
  | [], q, q', h => by
    cases h
    exact ⟨rfl, rfl, rfl⟩
  | c :: cs, q, q', h => by
    unfold startFrom at h
    split at h
    · cases h
    · exact store_kept.trans (startFrom_ok_kept h)

theorem startFrom_error_kept : ∀ {cs : List StartCall} {q q' : Req},
    startFrom fails io cs q = .error q' → Kept q q'
  | [], q, q', h => by cases h
  | c :: cs, q, q', h => by
    unfold startFrom at h
    split at h
    · cases h
      split <;> exact ⟨rfl, rfl, rfl⟩
    · exact store_kept.trans (startFrom_error_kept h)

theorem startError_kept : Kept q (startError q) :=
  ⟨killReqAndWait_sameUse.live, killReqAndWait_sameUse.cb, killReqAndWait_sameUse.reading⟩

theorem bufevError_sameUse {buf : Buf} {errcode : Errcode} : SameUse q (bufevError buf errcode q) := by
  cases errcode <;> cases buf <;> exact ⟨rfl, rfl, rfl, rfl, rfl⟩

theorem checkProcess_sameUse {ret : Int} {bufOk : Bool} : SameUse q (checkProcess ret bufOk q) := by
  have h := killReqAndWait_sameUse (q := q)
  unfold checkProcess
  dsimp only
  repeat' split
  all_goals exact ⟨h.live, h.cb, h.outbuf, h.errbuf, h.reading⟩

end
end Nlutils.UrlReq
