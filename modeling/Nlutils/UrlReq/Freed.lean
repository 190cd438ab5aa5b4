import Nlutils.UrlReq.Invariant

/-! # Each request is freed once

`start_curl` frees its request when one of its calls fails, and so does its caller: `control_pipe_handler`
goes on to read the freed request for its message and frees it again. Where no such call fails, every request
has been freed exactly once when `nl_url_req_deinit` returns, and none is used after that. -/

namespace Nlutils.UrlReq
open Lib State

def Event.frees (r : ReqId) : Event → Bool
  | .freed r' _ => r' = r
  | _ => false

/-- How many times the request has been freed. -/
def State.freeCount (s : State) (r : ReqId) : Nat := s.log.countP (·.frees r)

/-- Once `nl_url_req_deinit` has returned, every request has been freed exactly once; and no request has been
    used after it was freed. -/
structure FreedOnce (s : State) : Prop where
  once : s.deinit = some .returned → ∀ r < s.reqs.length, s.freeCount r = 1
  safe : ∀ r, .useAfterFree r ∉ s.log

/-- Not a step of `start_curl` in which one of its calls fails. -/
def startSucceeds (s : State) : Action → Bool
  | .startCurl fails _ =>
    match s.ev with
    | .starting r => (startCalls (s.req r)).all fun c => !fails c
    | _ => true
  | _ => true

/-- A request has been freed once if it is not live, and the event thread does not work on a freed one. -/
structure Freed (s : State) : Prop where
  count : ∀ r, s.freeCount r = if r < s.reqs.length ∧ s.isLive r = false then 1 else 0
  safe : ∀ r, .useAfterFree r ∉ s.log
  starting : ∀ r, s.ev ≠ .startFailed r
  giveUp : ∀ r, s.ev = .giveUp r → r ∈ s.reqlist

section
variable {s u : State} {a : Action} {r : ReqId} {t : Tid} {es : List Event}

/-- The event neither frees a request nor records the use of a freed one. -/
def Event.harmless : Event → Bool
  | .freed _ _ | .useAfterFree _ => false
  | _ => true

theorem frees_of_harmless {e : Event} (h : e.harmless = true) : e.frees r = false := by
  cases e <;> first | rfl | cases h

theorem countP_harmless (h : ∀ e ∈ es, e.harmless = true) : es.countP (·.frees r) = 0 :=
  List.countP_eq_zero.mpr fun e he => by simp [frees_of_harmless (h e he)]

theorem not_mem_harmless (h : ∀ e ∈ es, e.harmless = true) : .useAfterFree r ∉ es := by
  intro hm
  cases h _ hm

/-- The event thread works on a request that is live. -/
theorem Freed.live_of_ev (F : Freed s) (I : Inv s) (h : s.ev.req = some r) : s.isLive r = true := by
  refine (I.own.live r).mpr (Or.inl ?_)
  by_cases hg : s.ev = .giveUp r
  · exact F.giveUp r hg
  · exact I.mem_of_ev h hg

theorem used_of_isLive (h : s.isLive r = true) : s.used r = [] := by simp [used, h]

/-- A step that frees no request. -/
theorem Freed.quiet (F : Freed s) (hlog : u.log = s.log ++ es) (he : ∀ e ∈ es, e.harmless = true)
    (hlen : u.reqs.length = s.reqs.length) (hlive : ∀ r, u.isLive r = s.isLive r) (hs : ∀ r, u.ev ≠ .startFailed r)
    (hg : ∀ r, u.ev = .giveUp r → r ∈ u.reqlist) : Freed u where
  count r := by
    rw [freeCount, hlog, List.countP_append, countP_harmless he, Nat.add_zero, hlen, hlive]
    exact F.count r
  safe r := by
    rw [hlog, List.mem_append, not_or]
    exact ⟨F.safe r, not_mem_harmless he⟩
  starting := hs
  giveUp := hg

/-- A step of the event thread that frees nothing and does not go to the `error` label. -/
theorem Freed.on (F : Freed s) (hlog : u.log = s.log ++ es) (he : ∀ e ∈ es, e.harmless = true)
    (hlen : u.reqs.length = s.reqs.length) (hlive : ∀ r, u.isLive r = s.isLive r) (hs : ∀ r, u.ev ≠ .startFailed r)
    (hg : ∀ r, u.ev ≠ .giveUp r) : Freed u :=
  F.quiet hlog he hlen hlive hs fun r hr => absurd hr (hg r)

/-- A step that leaves the event thread and the requests alone. -/
theorem Freed.same (F : Freed s) (hlog : u.log = s.log ++ es) (he : ∀ e ∈ es, e.harmless = true)
    (hreqs : u.reqs = s.reqs) (hev : u.ev = s.ev) (hl : u.reqlist = s.reqlist) : Freed u :=
  F.quiet hlog he (by rw [hreqs]) (fun _ => isLive_of_eq hreqs) (by rw [hev]; exact F.starting)
    (by rw [hev, hl]; exact F.giveUp)

/-- A step that frees a live request. -/
theorem Freed.free {f : Req → Req} (F : Freed s) (hr : s.isLive r = true)
    (hlog : u.log = s.log ++ (s.used r ++ .freed r t :: es)) (he : ∀ e ∈ es, e.harmless = true)
    (hreqs : u.reqs = s.reqs.modify r f) (hf : ∀ q, (f q).live = false) (hs : ∀ r, u.ev ≠ .startFailed r)
    (hg : ∀ r, u.ev = .giveUp r → r ∈ u.reqlist) : Freed u where
  count r' := by
    have hlen : u.reqs.length = s.reqs.length := by rw [hreqs, List.length_modify]
    have hlive : u.isLive r' = true ↔ s.isLive r' = true ∧ r' ≠ r := isLive_of_free hreqs hf
    have hc := F.count r'
    rw [used_of_isLive hr, List.nil_append] at hlog
    rw [freeCount] at hc ⊢
    rw [hlog, List.countP_append, List.countP_cons, countP_harmless he, hc, hlen]
    by_cases hrr : r' = r
    · subst hrr
      have hlt := lt_length_of_isLive hr
      have hdead : u.isLive r' = false := by simpa using hlive
      simp [Event.frees, hr, hlt, hdead]
    · have hsame : u.isLive r' = s.isLive r' := Bool.eq_iff_iff.mpr (hlive.trans (by simp [hrr]))
      have hrr' : ¬r = r' := fun h => hrr h.symm
      simp [Event.frees, hrr', hsame]
  safe r' := by
    rw [used_of_isLive hr, List.nil_append] at hlog
    rw [hlog, List.mem_append, List.mem_cons, not_or, not_or]
    exact ⟨F.safe r', by simp, not_mem_harmless he⟩
  starting := hs
  giveUp := hg

theorem freed_freeAll {t : Tid} (I : Inv s) (F : Freed s) (ha : s.adding = []) (he : s.ev = .ended)
    (hu : u = s.reqlist.foldl (fun s r => freeReq t r s) { s with pipe := [] }) : Freed u := by
  subst hu
  have O' : Own { s with pipe := [] } := I.own.same ⟨rfl, rfl, rfl, List.nil_sublist _⟩
  have F' : Freed { s with pipe := [] } := ⟨F.count, F.safe, F.starting, F.giveUp⟩
  refine (freeAll_induction (P := fun v => Own v ∧ Freed v ∧ v.adding = [] ∧ v.pipe = [] ∧ v.ev = .ended) (t := t)
    ?_ ⟨O', F', ha, rfl, he⟩ rfl).1.2.1
  intro v r l h hl
  obtain ⟨O, F, hadd, hpipe, hev⟩ := h
  have hr : v.isLive r = true := (O.live r).mpr (Or.inl (by simp [hl]))
  have hnil : ∀ e ∈ ([] : List Event), e.harmless = true := by simp
  rw [freeReq_eq]
  refine ⟨O.free (by simp [hadd]) (by simp [State.queued, hpipe]) rfl rfl rfl rfl,
    F.free hr rfl hnil rfl (fun _ => rfl) (by simp [hev]) (by simp [hev]), hadd, hpipe, hev⟩

theorem freed_step (I : Inv s) (F : Freed s) (hok : startSucceeds s a = true) (h : Moves s a u) : Freed u := by
  have live {r : ReqId} (hr : s.ev.req = some r) : s.isLive r = true := F.live_of_ev I hr
  have used {r : ReqId} (hr : s.ev.req = some r) : s.used r = [] := used_of_isLive (live hr)
  have readable {r : ReqId} (hr : s.readable r = true) : s.used r = [] :=
    used_of_isLive ((I.own.live r).mpr (Or.inl (I.own.readable r hr).1))
  cases h with
  | reject | shutdown => exact F.same rfl (by simp [Event.harmless]) rfl rfl rfl
  | wait | deinitStop | deinitLate | joined => exact F.same (List.append_nil _).symm (by simp) rfl rfl rfl
  | read | toStart | exited =>
    exact F.on (List.append_nil _).symm (by simp) rfl (fun _ => rfl) (by simp) (by simp)
  | unread => exact F.on rfl (by simp [Event.harmless]) rfl (fun _ => rfl) (by simp) (by simp)
  | noted he hl hs | rechecked he hl hs =>
    refine F.on rfl ?_ rfl (fun _ => rfl) (by simp) (by simp)
    intro e he
    cases hs <;> simp at he <;> rcases he with rfl | rfl <;> rfl
  | allocate =>
    refine ⟨?_, F.safe, F.starting, F.giveUp⟩
    intro r
    have hc := F.count r
    by_cases hr : r < s.reqs.length
    · simpa [freeCount, isLive, List.getElem?_append_left hr, hr, Nat.lt_succ_of_lt hr] using hc
    · by_cases hr' : r = s.reqs.length
      · simpa [freeCount, isLive, hr'] using hc
      · have hlt : ¬r < s.reqs.length + 1 := fun h => hr (Nat.lt_of_le_of_ne (Nat.le_of_lt_succ h) hr')
        simpa [freeCount, hr, hlt] using hc
  | enqueue ha ht hl hf =>
    exact F.quiet rfl (by simp [Event.harmless]) (List.length_modify _ _ _)
      (fun _ => isLive_of_modify rfl preparedReq_live) F.starting
      fun r hr => List.mem_append_left _ (F.giveUp r hr)
  | putBack ha =>
    have hr : s.isLive _ = true := (I.own.live _).mpr (Or.inr (List.mem_map_of_mem ha))
    exact F.free hr rfl (by simp [Event.harmless]) rfl (fun _ => rfl) F.starting F.giveUp
  | started he hf hq =>
    have hu := used (by rw [he]; rfl)
    exact F.on rfl (by simp [hu]) (List.length_modify _ _ _) (fun _ => isLive_of_modify rfl hq.live) (by simp) (by simp)
  | notStarted he hc hf =>
    simp only [startSucceeds, he, List.all_eq_true, Bool.not_eq_true'] at hok
    rw [hok _ hc] at hf
    cases hf
  | abandon he => exact absurd he (F.starting _)
  | registered he =>
    have hu := used (by rw [he]; rfl)
    exact F.on rfl (by simp [hu, Event.harmless]) (List.length_modify _ _ _) (fun _ => isLive_of_modify rfl rfl)
      (by simp) (by simp)
  | notRegistered he =>
    have hu := used (by rw [he]; rfl)
    refine F.quiet rfl (by simp [hu]) rfl (fun _ => rfl) (by simp) ?_
    intro r hr
    obtain rfl := EvPc.giveUp.inj hr
    exact I.mem_of_ev (by rw [he]; rfl) (by simp [he])
  | gaveUp he | released he =>
    exact F.free (live (by rw [he]; rfl)) rfl (by simp [Event.harmless]) rfl (fun _ => rfl) (by simp) (by simp)
  | unfinished he hr hg | finished he hr hg =>
    exact F.on rfl (by simp [readable hr, Event.harmless]) (List.length_modify _ _ _)
      (fun _ => isLive_of_modify rfl (hg _).live) (by simp) (by simp)
  | notified he =>
    have hu := used (by rw [he]; rfl)
    refine F.on rfl ?_ rfl (fun _ => rfl) (by simp) (by simp)
    intro e he
    rw [hu, List.nil_append] at he
    split at he <;> simp at he
    exact he ▸ rfl
  | freedAll hd hu =>
    have Fu := freed_freeAll I F (I.ending.quiet (by simp [hd])) (I.ending.freeing _ _ hd) hu
    exact Fu.quiet rfl (by simp [Event.harmless]) rfl (fun _ => rfl) Fu.starting Fu.giveUp

theorem freed_init {fd : Nat} : Freed (.init fd) := by
  constructor <;> simp [State.init, freeCount]

theorem freed_of_reach {fd : Nat} (h : (context fd).Reach (startSucceeds · · = true) s) : Freed s :=
  h.invariant_of (I := Freed) (fun _ h => inv_of_reach h) freed_init
    fun _ _ _ I F hok hs => freed_step I F hok (Inv.moves I hs)

theorem freedOnce {fd : Nat} (h : (context fd).Reach (startSucceeds · · = true) s) : FreedOnce s where
  once hd r hr := by
    have I : Inv s := inv_of_reach h
    have hlist : s.reqlist = [] := (I.ending.returned hd).2
    have hadd : s.adding = [] := I.ending.quiet (by simp [hd])
    have hdead : s.isLive r = false := by
      rw [← Bool.not_eq_true, I.own.live r, hlist, hadd]
      simp
    rw [(freed_of_reach h).count r, if_pos ⟨hr, hdead⟩]
  safe := (freed_of_reach h).safe

end

/-! ### A request that is started, and one whose `start_curl` fails -/

/-- A request that runs to its end, and the end of its context. -/
def oneRequest : List Action :=
  [.addBegin 0 true httpParams true, .addFinish 0 {}, .pipeRead true, .dispatch true,
    .startCurl (fun _ => false) ⟨100, 7, 8⟩, .register fun _ => false,
    .bufevError 0 .out .eof 0 true, .bufevError 0 .err .eof 0 true, .callback, .release, .recheck true,
    .deinitBegin 0 true, .loopExit, .deinitJoined, .deinitFree]

theorem freedOnce_oneRequest : ∃ s, (context 5).Reach (startSucceeds · · = true) s ∧
    (s.deinit = some .returned ∧ s.reqs.length = 1) ∧ FreedOnce s := by
  obtain ⟨s, hr, hp⟩ := Machine.exists_reach_of_run (M := context 5) startSucceeds oneRequest
    (fun s => decide (s.deinit = some .returned ∧ s.reqs.length = 1)) (fun _ _ h => h) (by decide)
  exact ⟨s, hr, of_decide_eq_true hp, freedOnce hr⟩

/-- `nl_popen3vec` fails for the only request. -/
def popenFails : List Action :=
  [.addBegin 0 true httpParams true, .addFinish 0 {}, .pipeRead true, .dispatch true,
    .startCurl (· = .popen) ⟨0, 0, 0⟩, .startAbandon, .giveUp, .deinitBegin 0 true, .loopExit, .deinitJoined,
    .deinitFree]

theorem not_freedOnce_popenFails : ∃ s, (context 5).Reach Machine.anyStep s ∧
    (s.deinit = some .returned ∧ s.freeCount 0 = 2 ∧ .useAfterFree 0 ∈ s.log) ∧ ¬FreedOnce s := by
  obtain ⟨s, hr, hp⟩ := Machine.exists_reach_of_run (M := context 5) (fun _ _ => true) popenFails
    (fun s => decide (s.deinit = some .returned ∧ s.freeCount 0 = 2 ∧ .useAfterFree 0 ∈ s.log))
    (fun _ _ _ => trivial) (by decide)
  have hp := of_decide_eq_true hp
  exact ⟨s, hr, hp, fun h => h.safe 0 hp.2.2⟩

end Nlutils.UrlReq
