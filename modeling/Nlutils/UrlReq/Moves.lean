import Nlutils.UrlReq.Effects

/-! # What a step can do

`Moves s a u` says once, for every action, from which states it steps, to which state, and what it records.
Every invariant of a request context is a case analysis of it. -/

namespace Nlutils.UrlReq
open Lib State

/-- What the check for an empty list leads to, where it is made (`asked`): the stop flag, the messages written to
    the pipe, and the entries of the log. -/
inductive Checks (s : State) (asked : Bool) : Bool → List (Option ReqId) → List Event → Prop
  | skip (h : asked = false ∨ s.reqlist ≠ [] ∨ s.stopping = true) : Checks s asked s.stopping [] []
  | drain {p} (ha : asked = true) (hl : s.reqlist = []) (hs : s.stopping = false) (hp : p.filterMap id = []) :
      Checks s asked s.evloop p [.drained]

/-- The step from `s` to `u`, with the guards it passed. -/
inductive Moves (s : State) : Action → State → Prop
  | reject {t cb p callocOk} (hc : s.mayCall t = true) :
      Moves s (.addBegin t cb p callocOk) { s with
        log := s.log ++ [.returned (.caller t) (.add none) (s.lock.depth (.caller t)) (s.lock.depth (.caller t))] }
  | allocate {t cb p callocOk} (hc : s.mayCall t = true) (hp : addCheck s p = 0) :
      Moves s (.addBegin t cb p callocOk) { s with
        reqs := s.reqs ++ [{}]
        adding := ⟨t, s.reqs.length, cb, p, s.lock.depth (.caller t)⟩ :: s.adding }
  | enqueue {t f} {a : Adding} (ha : a ∈ s.adding) (ht : s.adding.find? (·.thread == t) = some a)
      (hl : s.lock.canLock (.caller t) = true) (hf : f.ok a.params s.reqlist = true) :
      Moves s (.addFinish t f) { s with
        adding := s.adding.erase a
        reqs := s.reqs.modify a.req (preparedReq f a)
        reqlist := s.reqlist ++ [a.req]
        pipe := s.pipe ++ [some a.req]
        log := s.log ++ [.accepted a.req,
          .returned (.caller t) (.add (some true)) a.base (s.lock.depth (.caller t))] }
  | putBack {t f} {a : Adding} {g : Req → Req} (ha : a ∈ s.adding) (ht : s.adding.find? (·.thread == t) = some a)
      (hl : s.lock.canLock (.caller t) = true) (hf : f.ok a.params s.reqlist = false) :
      Moves s (.addFinish t f) { s with
        adding := s.adding.erase a
        lock := s.lock.lock (.caller t)
        reqs := s.reqs.modify a.req (freedReq ∘ g)
        log := s.log ++ (s.used a.req ++ [.freed a.req (.caller t),
          .returned (.caller t) (.add (some false)) a.base ((s.lock.lock (.caller t)).depth (.caller t))]) }
  | shutdown {t writeOk p} (hc : s.mayCall t = true) (hl : s.lock.canLock (.caller t) = true)
      (hp : p.filterMap id = []) :
      Moves s (.shutdown t writeOk) { s with
        pipe := s.pipe ++ p
        log := s.log ++ [.returned (.caller t) .shutdown (s.lock.depth (.caller t)) (s.lock.depth (.caller t))] }
  | wait (hd : s.deinit = none) (he : s.ev = .ended) : Moves s .wait { s with eventThread := false }
  | unread {ok} (he : s.ev = .idle) :
      Moves s (.pipeRead ok) { s with
        ev := .idle
        evBase := s.lock.depth .event
        log := s.log ++ [.returned .event .controlPipeHandler (s.lock.depth .event) (s.lock.depth .event)] }
  | read {ok m ms} (he : s.ev = .idle) (hp : s.pipe = m :: ms) :
      Moves s (.pipeRead ok) { s with evBase := s.lock.depth .event, pipe := ms, ev := .dispatch m }
  | noted {writeOk b p d} (he : s.ev = .dispatch none) (hl : s.lock.canLock .event = true)
      (hs : Checks s true b p d) :
      Moves s (.dispatch writeOk) { s with
        shutdownWhenDone := true
        stopping := b
        pipe := s.pipe ++ p
        log := s.log ++ (d ++ [.returned .event .controlPipeHandler s.evBase (s.lock.depth .event)])
        ev := .idle }
  | toStart {writeOk r} (he : s.ev = .dispatch (some r)) (hl : s.lock.canLock .event = true) :
      Moves s (.dispatch writeOk) { s with ev := .starting r }
  | started {fails io r q} (he : s.ev = .starting r) (hf : ∀ c ∈ startCalls (s.req r), fails c = false)
      (hq : Kept (s.req r) q) :
      Moves s (.startCurl fails io) { s with
        reqs := s.reqs.modify r fun _ => q
        log := s.log ++ s.used r
        ev := .registering r }
  | notStarted {fails io r q} {c : StartCall} (he : s.ev = .starting r) (hc : c ∈ startCalls (s.req r))
      (hf : fails c = true) (hq : Kept (s.req r) q) :
      Moves s (.startCurl fails io) { s with
        reqs := s.reqs.modify r fun _ => q
        log := s.log ++ s.used r
        ev := .startFailed r }
  | abandon {r} (he : s.ev = .startFailed r) (hl : s.lock.canLock .event = true) :
      Moves s .startAbandon { s with
        reqlist := s.reqlist.erase r
        reqs := s.reqs.modify r freedReq
        log := s.log ++ (s.used r ++ [.freed r .event, .useAfterFree r])
        ev := .giveUp r }
  | registered {fails r} (he : s.ev = .registering r) (hf : registerCalls.any fails = false) :
      Moves s (.register fails) { s with
        reqs := s.reqs.modify r ({ · with reading := true })
        log := s.log ++ (s.used r ++ [.returned .event .controlPipeHandler s.evBase (s.lock.depth .event)])
        ev := .idle }
  | notRegistered {fails r} (he : s.ev = .registering r) (hf : registerCalls.any fails = true) :
      Moves s (.register fails) { s with log := s.log ++ s.used r, ev := .giveUp r }
  | gaveUp {r} (he : s.ev = .giveUp r) (hl : s.lock.canLock .event = true) :
      Moves s .giveUp { s with
        reqlist := s.reqlist.erase r
        reqs := s.reqs.modify r freedReq
        log := s.log ++ (s.used r ++ [.freed r .event,
          .returned .event .controlPipeHandler s.evBase (s.lock.depth .event)])
        ev := .idle }
  | unfinished {r buf errcode ret bufOk} {g : Req → Req} (he : s.ev = .idle) (hr : s.readable r = true)
      (hg : ∀ q, SameUse q (g q)) :
      Moves s (.bufevError r buf errcode ret bufOk) { s with
        evBase := s.lock.depth .event
        reqs := s.reqs.modify r g
        log := s.log ++ (s.used r ++ [.returned .event .bufevError (s.lock.depth .event) (s.lock.depth .event)])
        ev := .idle }
  | finished {r buf errcode ret bufOk} {g : Req → Req} (he : s.ev = .idle) (hr : s.readable r = true)
      (hg : ∀ q, SameUse q (g q)) :
      Moves s (.bufevError r buf errcode ret bufOk) { s with
        evBase := s.lock.depth .event
        reqs := s.reqs.modify r g
        log := s.log ++ s.used r
        ev := .notify r }
  | notified {r} (he : s.ev = .notify r) :
      Moves s .callback { s with
        log := s.log ++ (s.used r ++ if (s.req r).cb then [.callback r] else [])
        ev := .release r }
  | released {r} (he : s.ev = .release r) (hl : s.lock.canLock .event = true) :
      Moves s .release { s with
        reqlist := s.reqlist.erase r
        reqs := s.reqs.modify r freedReq
        log := s.log ++ (s.used r ++ [.freed r .event])
        ev := .recheck }
  | rechecked {writeOk b p d} (he : s.ev = .recheck) (hl : s.lock.canLock .event = true)
      (hs : Checks s s.shutdownWhenDone b p d) :
      Moves s (.recheck writeOk) { s with
        stopping := b
        pipe := s.pipe ++ p
        log := s.log ++ (d ++ [.returned .event .bufevError s.evBase (s.lock.depth .event)])
        ev := .idle }
  | exited (he : s.ev = .idle) (hl : s.lock.canLock .event = true) :
      Moves s .loopExit { s with running := false, ev := .ended }
  | deinitStop {t writeOk b p} (hd : s.deinit = none) (ha : s.adding = []) (hr : s.running = true)
      (hb : s.stopping = true → b = true) (hp : p.filterMap id = []) :
      Moves s (.deinitBegin t writeOk) { s with
        stopping := b
        pipe := s.pipe ++ p
        deinit := some (.waiting t (s.lock.depth (.caller t))) }
  | deinitLate {t writeOk b p} (hd : s.deinit = none) (ha : s.adding = [])
      (hr : s.running = false ∨ s.evloop = false ∨ s.eventThread = false)
      (hb : s.stopping = true → b = true) (hp : p.filterMap id = []) :
      Moves s (.deinitBegin t writeOk) { s with
        stopping := b
        pipe := s.pipe ++ p
        evloop := false
        deinit := some (.freeing t (s.lock.depth (.caller t))) }
  | joined {t base} (hd : s.deinit = some (.waiting t base)) (he : s.ev = .ended) :
      Moves s .deinitJoined { s with eventThread := false, evloop := false, deinit := some (.freeing t base) }
  | freedAll {t base u} (hd : s.deinit = some (.freeing t base))
      (hu : u = s.reqlist.foldl (fun s r => freeReq (.caller t) r s) { s with pipe := [] }) :
      Moves s .deinitFree { u with
        log := u.log ++ [.returned (.caller t) .deinit base (s.lock.depth (.caller t))]
        deinit := some .returned }

/-! ### Every step is a move -/

section
variable {s u : State}

theorem stopIfEmpty_lock {t : Tid} {writeOk : Bool} {m : RecMutex Tid} :
    stopIfEmpty t writeOk { s with lock := m } = { stopIfEmpty t writeOk s with lock := m } := by
  unfold stopIfEmpty
  simp only [nlUrlReqStop_eq]
  cases hs : s.stopping <;> cases hl : s.evloop <;> by_cases hc : FifoSpec.count s.reqlist = 0 <;>
    simp [hs, hl, hc, record, nullMessage]

theorem nlUrlReqStop_stops (t : Tid) (writeOk : Bool) : ∃ b p, (s.stopping = true → b = true) ∧
    p.filterMap id = [] ∧ ∀ m, nlUrlReqStop t writeOk { s with lock := m } =
      { s with lock := m, stopping := b, pipe := s.pipe ++ p } := by
  simp only [nlUrlReqStop_eq]
  split
  · exact ⟨true, nullMessage s writeOk, fun _ => rfl, filterMap_nullMessage, fun _ => rfl⟩
  · exact ⟨s.stopping, [], id, rfl, by simp⟩

theorem stopIfEmpty_checks (t : Tid) (writeOk : Bool) (hlen : s.reqlist.length < 2 ^ 31) :
    ∃ b p d, Checks s true b p d ∧ ∀ m, stopIfEmpty t writeOk { s with lock := m } =
      { s with lock := m, stopping := b, pipe := s.pipe ++ p, log := s.log ++ d } := by
  simp only [stopIfEmpty_lock]
  unfold stopIfEmpty
  dsimp only
  split
  · next hc =>
    have hl : s.reqlist = [] := (FifoSpec.count_eq_zero_iff (by omega)).mp hc
    rw [nlUrlReqStop_eq]
    cases hs : s.stopping with
    | true =>
      refine ⟨_, _, _, .skip (Or.inr (Or.inr hs)), ?_⟩
      cases s
      simp_all
    | false =>
      cases he : s.evloop with
      | true =>
        refine ⟨_, _, _, .drain rfl hl hs (p := nullMessage s writeOk) filterMap_nullMessage, ?_⟩
        simp [record, he]
      | false =>
        refine ⟨_, _, _, .drain rfl hl hs (p := []) rfl, ?_⟩
        cases s
        simp_all [record]
  · next hc =>
    have hl : s.reqlist ≠ [] := fun hl => hc ((FifoSpec.count_eq_zero_iff (by omega)).mpr hl)
    exact ⟨_, _, _, .skip (Or.inr (Or.inl hl)), by simp⟩

/-- Freeing requests depends neither on the lock nor on the pipe. -/
theorem foldl_freeReq_with {t : Tid} {m : RecMutex Tid} {p : List (Option ReqId)} :
    ∀ {l : List ReqId} {s : State}, l.foldl (fun s r => freeReq t r s) { s with lock := m, pipe := p } =
      { l.foldl (fun s r => freeReq t r s) s with lock := m, pipe := p }
  | [], s => rfl
  | r :: l, s => by
    have : freeReq t r { s with lock := m, pipe := p } = { freeReq t r s with lock := m, pipe := p } := by
      simp only [freeReq_eq, used, isLive]
      rfl
    rw [List.foldl_cons, this, foldl_freeReq_with, List.foldl_cons]

theorem dispatch_moves {writeOk : Bool} (hlen : s.reqlist.length < 2 ^ 31)
    (h : Step.dispatch s writeOk = some u) : Moves s (.dispatch writeOk) u := by
  unfold Step.dispatch at h
  split at h
  · next m he =>
    split at h
    · next hl =>
      cases m with
      | none =>
        cases h
        obtain ⟨b, p, d, hc, hu⟩ := stopIfEmpty_checks .event writeOk (s := { s with shutdownWhenDone := true }) hlen
        have hc' : Checks s true b p d := by
          cases hc with
          | skip h => exact .skip h
          | drain ha hl hs hp => exact .drain ha hl hs hp
        have hm : Moves s (.dispatch writeOk) _ := .noted he hl hc'
        simp only [handled, ret, record, ctxUnlock, ctxLock, hu, RecMutex.unlock_lock, List.append_assoc]
        exact hm
      | some r =>
        cases h
        have hm : Moves s (.dispatch writeOk) _ := .toStart he hl
        simpa only [ctxUnlock, ctxLock, RecMutex.unlock_lock] using hm
    · cases h
  · cases h

theorem recheck_moves {writeOk : Bool} (hlen : s.reqlist.length < 2 ^ 31)
    (h : Step.recheck s writeOk = some u) : Moves s (.recheck writeOk) u := by
  unfold Step.recheck at h
  split at h
  · next he =>
    split at h
    · next hl =>
      cases h
      cases hd : s.shutdownWhenDone with
      | true =>
        obtain ⟨b, p, d, hc, hu⟩ := stopIfEmpty_checks .event writeOk hlen
        rw [← hd] at hc
        have hm : Moves s (.recheck writeOk) _ := .rechecked he hl hc
        rw [if_pos (show (s.ctxLock .event).shutdownWhenDone = true from hd)]
        simp only [handled, ret, record, ctxUnlock, ctxLock, hu, RecMutex.unlock_lock, List.append_assoc]
        exact hm
      | false =>
        have hm : Moves s (.recheck writeOk) _ := .rechecked he hl (.skip (Or.inl hd))
        rw [if_neg (show ¬(s.ctxLock .event).shutdownWhenDone = true by simp [ctxLock, hd])]
        simpa only [handled, ret, record, ctxUnlock, ctxLock, RecMutex.unlock_lock, List.append_nil,
          List.nil_append] using hm
    · cases h
  · cases h

theorem deinitFree_moves (h : Step.deinitFree s = some u) : Moves s .deinitFree u := by
  unfold Step.deinitFree at h
  split at h
  · next t base hd =>
    split at h
    · cases h
      have hm := Moves.freedAll hd rfl
      have hf := foldl_freeReq_with (t := .caller t) (m := s.lock.lock (.caller t)) (p := s.pipe) (l := s.reqlist)
        (s := s)
      have hk := foldl_freeReq_with (t := .caller t) (m := s.lock) (p := []) (l := s.reqlist) (s := s)
      simp only [ret, record, ctxUnlock, ctxLock, hf, RecMutex.unlock_lock]
      rw [hk] at hm
      exact hm
    · cases h
  · cases h

theorem deinitBegin_moves {t : Nat} {writeOk : Bool} (h : Step.deinitBegin s t writeOk = some u) :
    Moves s (.deinitBegin t writeOk) u := by
  unfold Step.deinitBegin at h
  split at h
  · next hg =>
    obtain ⟨hd, ha, hl⟩ := hg
    obtain ⟨b, p, hb, hp, hu⟩ := nlUrlReqStop_stops (.caller t) writeOk (s := s)
    dsimp only [ctxLock] at h
    split at h
    · next hr =>
      rw [hu] at h
      cases h
      dsimp only
      split
      · have hm : Moves s (.deinitBegin t writeOk) _ := .deinitStop hd ha hr.1 hb hp
        simpa only [ctxUnlock, RecMutex.unlock_lock] using hm
      · next he =>
        have he' : s.eventThread = false := by simpa using he
        have hm : Moves s (.deinitBegin t writeOk) _ := .deinitLate hd ha (Or.inr (Or.inr he')) hb hp
        simpa only [Step.deinitLoop, ctxUnlock, RecMutex.unlock_lock] using hm
    · next hr =>
      cases h
      have hr' : s.running = false ∨ s.evloop = false ∨ s.eventThread = false := by
        cases hrun : s.running with
        | false => exact Or.inl rfl
        | true => exact Or.inr (Or.inl (by simpa [hrun] using hr))
      have hm : Moves s (.deinitBegin t writeOk) _ := .deinitLate (p := []) hd ha hr' id rfl
      simpa only [Step.deinitLoop, ctxUnlock, RecMutex.unlock_lock, List.append_nil] using hm
  · cases h

theorem addFinish_moves {t : Nat} {f : AddFails} (hlen : s.reqlist.length < 2 ^ 31)
    (hadd : ∀ a ∈ s.adding, a.req ∉ s.reqlist) (h : Step.addFinish s t f = some u) : Moves s (.addFinish t f) u := by
  unfold Step.addFinish at h
  split at h
  · cases h
  · next a hfind =>
    have ha := List.mem_of_find?_eq_some hfind
    have ht : a.thread = t := by simpa using List.find?_some hfind
    split at h
    · next hl =>
      cases hf : f.ok a.params s.reqlist with
      | true =>
        have hm := Moves.enqueue ha hfind hl hf
        rw [addUnderLock_ok (s := { s with adding := s.adding.erase a }) hlen hf] at h
        cases h
        simpa only [if_true, ret, record, List.append_assoc, List.cons_append, List.nil_append, hf, ht] using hm
      | false =>
        obtain ⟨g, hg⟩ := addUnderLock_error (s := { s with adding := s.adding.erase a }) hlen (hadd a ha) hf
        have hm := Moves.putBack (g := g) ha hfind hl hf
        have hus : State.used { s with adding := s.adding.erase a } a.req = s.used a.req := rfl
        rw [hg] at h
        cases h
        simpa [ebusy, ret, record, hf, ht, hus] using hm
    · cases h

theorem addBegin_moves {t : Nat} {cb callocOk : Bool} {p : Params}
    (h : Step.addBegin s t cb p callocOk = some u) : Moves s (.addBegin t cb p callocOk) u := by
  unfold Step.addBegin at h
  split at h
  · next hc =>
    split at h
    · cases h
      exact .reject hc
    · next hp =>
      cases h
      exact .allocate hc (Decidable.not_not.mp fun hne => hp (Or.inl hne))
  · cases h

theorem startCurl_moves {fails : StartCall → Bool} {io : Popen} (h : Step.startCurl s fails io = some u) :
    Moves s (.startCurl fails io) u := by
  unfold Step.startCurl at h
  split at h
  · next r he =>
    have hreq : (s.deref r).req r = s.req r := by rw [deref_eq]; rfl
    dsimp only at h
    rw [hreq] at h
    split at h
    · next q hq =>
      cases h
      have hf : ∀ c ∈ startCalls (s.req r), fails c = false := startFrom_ok_iff.mp ⟨q, hq⟩
      have hm : Moves s (.startCurl fails io) _ := .started he hf (startFrom_ok_kept hq)
      simpa only [setReq, deref_eq] using hm
    · next q hq =>
      cases h
      have hf : ∃ c ∈ startCalls (s.req r), fails c = true := by
        refine Decidable.byContradiction ?_
        intro hn
        have hall : ∀ c ∈ startCalls (s.req r), fails c = false := by
          intro c hc
          cases hfc : fails c with
          | false => rfl
          | true => exact absurd ⟨c, hc, hfc⟩ hn
        obtain ⟨q', hq'⟩ : ∃ q', startFrom fails io _ (s.req r) = .ok q' := startFrom_ok_iff.mpr hall
        rw [startCurl] at hq
        rw [hq] at hq'
        cases hq'
      obtain ⟨c, hc, hfc⟩ := hf
      have hm : Moves s (.startCurl fails io) _ :=
        .notStarted he hc hfc ((startFrom_error_kept hq).trans startError_kept)
      simpa only [setReq, deref_eq] using hm
  · cases h

theorem startAbandon_moves (h : Step.startAbandon s = some u) : Moves s .startAbandon u := by
  unfold Step.startAbandon at h
  split at h
  · next r he =>
    split at h
    · next hl =>
      cases h
      have hdead : (freeReq .event r s).used r = [.useAfterFree r] := by
        have : (freeReq .event r s).isLive r = false := by
          rw [freeReq_eq]
          show (s.setReq r freedReq).isLive r = false
          simp only [isLive, getElem?_setReq]
          cases s.reqs[r]? <;> simp [freedReq]
        simp [used, this]
      have hm := Moves.abandon he hl
      rw [deref_eq, hdead, freeReq_eq]
      simpa only [List.append_assoc, List.cons_append, List.nil_append] using hm
    · cases h
  · cases h

theorem register_moves {fails : RegisterCall → Bool} (h : Step.register s fails = some u) :
    Moves s (.register fails) u := by
  unfold Step.register at h
  split at h
  · next r he =>
    cases hf : registerCalls.any fails with
    | true =>
      simp only [hf, if_true, deref_eq] at h
      cases h
      exact .notRegistered he hf
    | false =>
      simp only [hf, Bool.false_eq_true, if_false, deref_eq] at h
      cases h
      have hm := Moves.registered he hf
      simpa only [handled, ret, record, setReq, List.append_assoc] using hm
  · cases h

theorem giveUp_moves (h : Step.giveUp s = some u) : Moves s .giveUp u := by
  unfold Step.giveUp at h
  split at h
  · next r he =>
    split at h
    · next hl =>
      cases h
      have hm := Moves.gaveUp he hl
      simpa only [handled, ret, record, freeReq_eq, List.append_assoc, List.cons_append, List.nil_append] using hm
    · cases h
  · cases h

theorem bufevError_moves {r : ReqId} {buf : Buf} {errcode : Errcode} {ret : Int} {bufOk : Bool}
    (h : Step.bufevError s r buf errcode ret bufOk = some u) : Moves s (.bufevError r buf errcode ret bufOk) u := by
  unfold Step.bufevError at h
  split at h
  · next hg =>
    obtain ⟨he, hr, ho, hb⟩ := hg
    have hread : s.readable r = true := by simp [readable, hr, ho, hb]
    have hus : State.used { s with evBase := s.lock.depth .event } r = s.used r := rfl
    dsimp only at h
    split at h <;> cases h
    · have hm : Moves s (.bufevError r buf errcode ret bufOk) _ :=
        .finished he hread (g := checkProcess ret bufOk ∘ UrlReq.bufevError buf errcode) fun q =>
          (bufevError_sameUse (q := q)).trans checkProcess_sameUse
      simpa only [setReq_setReq, deref_eq, setReq, hus, List.modify_modify_eq] using hm
    · have hm : Moves s (.bufevError r buf errcode ret bufOk) _ :=
        .unfinished he hread (g := UrlReq.bufevError buf errcode) fun q => bufevError_sameUse
      simpa only [handled, State.ret, record, deref_eq, setReq, hus, List.append_assoc] using hm
  · cases h

theorem step_moves {a : Action} (hlen : s.reqlist.length < 2 ^ 31) (hadd : ∀ a ∈ s.adding, a.req ∉ s.reqlist)
    (h : step s a = some u) : Moves s a u := by
  cases a with
  | addBegin t cb p callocOk => exact addBegin_moves h
  | addFinish t f => exact addFinish_moves hlen hadd h
  | shutdown t writeOk =>
    simp only [step, Step.shutdown] at h
    split at h
    · next hg =>
      cases h
      have hm : Moves s (.shutdown t writeOk) _ :=
        .shutdown (p := nullMessage s writeOk) hg.1 hg.2 filterMap_nullMessage
      simpa only [nlUrlReqShutdown_eq, ret, record] using hm
    · cases h
  | wait =>
    simp only [step, Step.wait] at h
    split at h
    · next hg =>
      cases h
      exact .wait hg.1 hg.2
    · cases h
  | pipeRead ok =>
    simp only [step, Step.pipeRead] at h
    split at h
    · next m ms he hp =>
      cases ok with
      | false =>
        cases h
        exact .unread he
      | true =>
        cases h
        exact .read he hp
    · cases h
  | dispatch writeOk => exact dispatch_moves hlen h
  | startCurl fails io => exact startCurl_moves h
  | startAbandon => exact startAbandon_moves h
  | register fails => exact register_moves h
  | giveUp => exact giveUp_moves h
  | bufevError r buf errcode ret bufOk => exact bufevError_moves h
  | callback =>
    simp only [step, Step.callback] at h
    split at h
    · next r he =>
      cases h
      have hreq : (s.deref r).req r = s.req r := by rw [deref_eq]; rfl
      have hm := Moves.notified he
      rw [hreq]
      cases hcb : (s.req r).cb <;> simpa [record, deref_eq, hcb] using hm
    · cases h
  | release =>
    simp only [step, Step.release] at h
    split at h
    · next r he =>
      split at h
      · next hl =>
        cases h
        rw [freeReq_eq]
        exact .released he hl
      · cases h
    · cases h
  | recheck writeOk => exact recheck_moves hlen h
  | loopExit =>
    simp only [step, Step.loopExit] at h
    split at h
    · next hg =>
      cases h
      simpa only [ctxUnlock, ctxLock, RecMutex.unlock_lock] using Moves.exited hg.1 hg.2
    · cases h
  | deinitBegin t writeOk => exact deinitBegin_moves h
  | deinitJoined =>
    simp only [step, Step.deinitJoined] at h
    split at h
    · next t base hd =>
      split at h
      · next hg =>
        cases h
        simpa only [Step.deinitLoop, ctxUnlock, ctxLock, RecMutex.unlock_lock] using Moves.joined hd hg.1
      · cases h
    · cases h
  | deinitFree => exact deinitFree_moves h

end
end Nlutils.UrlReq
