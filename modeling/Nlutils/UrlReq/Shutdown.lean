import Nlutils.UrlReq.Freed

/-! # Shutting down when the last request is done

Once a shutdown has been asked for, the event loop must stop when the request list becomes empty. The check
stands where `check_process` has freed a request, and where the shutdown is noted; where the `error` label of
`control_pipe_handler` frees the last request there is none.

The loop decides to stop under the lock, but `nl_url_req_add` looks at the stop flag before it locks.

A `start_curl` that fails is followed by a use of the freed request, so that nothing is said about the runs with one. -/

namespace Nlutils.UrlReq
open Lib State

/-! ### No shutdown is lost -/

/-- Between two events, with nobody holding the lock: if a shutdown has been asked for and no request is left,
    the loop has been told to stop. -/
def ShutdownKept (s : State) : Prop :=
  s.ev = .idle → s.lock = .free → s.shutdownWhenDone = true → s.reqlist = [] → s.stopping = true

/-- Not a step in which `start_curl` fails, or in which the `error` label of `control_pipe_handler` frees the last
    request while a shutdown is pending. -/
def keepsShutdown (s : State) (a : Action) : Bool :=
  startSucceeds s a &&
    match a with
    | .giveUp =>
      match s.ev with
      | .giveUp r => !(s.shutdownWhenDone && !s.stopping && s.reqlist == [r])
      | _ => true
    | _ => true

/-- A pending shutdown is seen by the check that follows the end of a request. -/
def Pending (s : State) : Prop :=
  s.shutdownWhenDone = true → s.reqlist = [] → s.stopping = true ∨ s.ev = .recheck ∨ s.ev = .ended

section
variable {s u : State} {a : Action} {r : ReqId}

theorem Inv.evloop_of_ev (I : Inv s) (h : s.ev ≠ .ended) : s.evloop = true := by
  cases he : s.evloop with
  | true => rfl
  | false => exact absurd (I.ending.evloop he).2 h

/-- Where the check is made and no request is left, the loop stops. -/
theorem Checks.stops {b : Bool} {p : List (Option ReqId)} {d : List Event} (h : Checks s true b p d)
    (hloop : s.evloop = true) (hl : s.reqlist = []) : b = true := by
  cases h with
  | skip h => simpa [hl] using h
  | drain => exact hloop

theorem Pending.of_eq (P : Pending s) (hw : u.shutdownWhenDone = s.shutdownWhenDone)
    (hl : u.reqlist = [] → s.reqlist = []) (hs : s.stopping = true → u.stopping = true)
    (he : s.ev = .recheck ∨ s.ev = .ended → u.ev = .recheck ∨ u.ev = .ended) : Pending u := by
  intro hw' hl'
  rcases P (hw ▸ hw') (hl hl') with h | h
  · exact Or.inl (hs h)
  · exact Or.inr (he h)

/-- At the `error` label, only the last request of the list matters. -/
theorem pending_of_error (P : Pending s) (hr : s.ev = .giveUp r)
    (hok : (s.shutdownWhenDone && !s.stopping && s.reqlist == [r]) = false)
    (hw : u.shutdownWhenDone = s.shutdownWhenDone) (hl : u.reqlist = s.reqlist.erase r)
    (hs : u.stopping = s.stopping) : Pending u := by
  intro hw' hl'
  rw [hw] at hw'
  rw [hl] at hl'
  rw [hs]
  cases hstop : s.stopping with
  | true => exact Or.inl rfl
  | false =>
    have hne : s.reqlist ≠ [r] := by simpa [hw', hstop] using hok
    have hnil : s.reqlist = [] := (List.erase_eq_nil_iff.mp hl').resolve_right hne
    rcases P hw' hnil with h | h | h
    · rw [hstop] at h
      cases h
    · rw [hr] at h
      cases h
    · rw [hr] at h
      cases h

theorem pending_step (I : Inv s) (hstart : ∀ r, s.ev ≠ .startFailed r) (P : Pending s) (hok : keepsShutdown s a = true)
    (h : Moves s a u) : Pending u := by
  cases h with
  | reject | allocate | putBack | shutdown | wait | joined => exact P.of_eq rfl id id id
  | enqueue => exact P.of_eq rfl (fun h => by simp at h) id id
  | deinitStop hd ha hr hb | deinitLate hd ha hr hb => exact P.of_eq rfl id hb id
  | unread he | read he | toStart he | started he | notStarted he | registered he | notRegistered he | unfinished he
  | finished he | notified he => exact P.of_eq rfl id id (by simp [he])
  | noted he hl hs =>
    exact fun _ hl => Or.inl (hs.stops (I.evloop_of_ev (by simp [he])) hl)
  | rechecked he hl hs =>
    intro hw hlist
    have hw : s.shutdownWhenDone = true := hw
    rw [hw] at hs
    exact Or.inl (hs.stops (I.evloop_of_ev (by simp [he])) hlist)
  | abandon he => exact absurd he (hstart _)
  | gaveUp he =>
    simp only [keepsShutdown, startSucceeds, he, Bool.true_and, Bool.not_eq_true'] at hok
    exact pending_of_error P he hok rfl rfl rfl
  | released => exact fun _ _ => Or.inr (Or.inl rfl)
  | exited => exact fun _ _ => Or.inr (Or.inr rfl)
  | freedAll hd hu => exact fun _ _ => Or.inr (Or.inr ((freeAll_frame hu).2.ev.trans (I.ending.freeing _ _ hd)))

/-- The event thread does not hold the lock between its steps. -/
theorem event_unlocked {fd : Nat} (h : (context fd).Reach Machine.anyStep s) : s.lock.depth .event = 0 := by
  refine h.invariant_of (I := fun s => s.lock.depth .event = 0) (fun _ h => inv_of_reach h) rfl ?_
  intro s a u I hfree _ hstep
  cases Inv.moves I hstep with
  | putBack ha ht hl hf => exact (RecMutex.depth_lock_ne hl (by simp)).trans hfree
  | freedAll hd hu =>
    show (_ : RecMutex Tid).depth .event = 0
    rw [(freeAll_frame hu).2.lock]
    exact hfree
  | reject | allocate | enqueue | shutdown | wait | unread | read | noted | toStart | started | notStarted | abandon
  | registered | notRegistered | gaveUp | unfinished | finished | notified | released | rechecked | exited | deinitStop
  | deinitLate | joined => exact hfree

theorem free_of_canLock (hl : s.lock.canLock .event = true) (hfree : s.lock.depth .event = 0) : s.lock = .free := by
  cases hlock : s.lock with
  | free => rfl
  | held o n =>
    have ho : o = .event := by simpa [hlock, RecMutex.canLock] using hl
    simp [hlock, RecMutex.depth, ho] at hfree

theorem startSucceeds_of_keeps (h : keepsShutdown s a = true) : startSucceeds s a = true :=
  (Bool.and_eq_true_iff.mp h).1

theorem shutdownKept_of_reach {fd : Nat} (h : (context fd).Reach (keepsShutdown · · = true) s) : ShutdownKept s := by
  have known (s : State) (h : (context fd).Reach (keepsShutdown · · = true) s) : Inv s ∧ Freed s :=
    ⟨inv_of_reach h, freed_of_reach (h.mono fun _ _ => startSucceeds_of_keeps)⟩
  have P : Pending s := h.invariant_with known (fun hw => by cases hw)
    fun _ _ _ K P hok hs => pending_step K.1 K.2.starting P hok (Inv.moves K.1 hs)
  intro he _ hw hl
  rcases P hw hl with h | h | h
  · exact h
  · rw [he] at h
    cases h
  · rw [he] at h
    cases h

/-- The `error` label frees the last request, and nothing stops the loop. -/
theorem shutdown_lost (hfree : s.lock.depth .event = 0) (hstart : startSucceeds s a = true)
    (hok : keepsShutdown s a = false) (h : Moves s a u) : ¬ShutdownKept u := by
  simp only [keepsShutdown, hstart, Bool.true_and] at hok
  cases h with
  | gaveUp he hl =>
    simp only [he, Bool.not_eq_false', Bool.and_eq_true, Bool.not_eq_true', beq_iff_eq] at hok
    obtain ⟨⟨hw, hstop⟩, hlist⟩ := hok
    intro K
    have hstop' : s.stopping = true := K rfl (free_of_canLock hl hfree) hw (by simp [hlist])
    rw [hstop] at hstop'
    cases hstop'
  | _ => cases hok

/-- Where the `error` label does not free the last request while a shutdown is pending, no shutdown is lost; and where
    it does, this one is. -/
theorem shutdownKept {fd : Nat} : (∀ s, (context fd).Reach (keepsShutdown · · = true) s → ShutdownKept s) ∧
    ∀ s a u, (context fd).Reach (startSucceeds · · = true) s → startSucceeds s a = true → keepsShutdown s a = false →
      step s a = some u → ¬ShutdownKept u :=
  ⟨fun _ h => shutdownKept_of_reach h, fun _ _ _ h hstart hok hstep =>
    shutdown_lost (event_unlocked h.any) hstart hok (Inv.moves (inv_of_reach h) hstep)⟩

end

/-- A shutdown that is noted while a request runs, and the end of that request. -/
def shutdownDuringRequest : List Action :=
  [.addBegin 0 true httpParams true, .addFinish 0 {}, .pipeRead true, .dispatch true,
    .startCurl (fun _ => false) ⟨100, 7, 8⟩, .register fun _ => false, .shutdown 0 true, .pipeRead true,
    .dispatch true, .bufevError 0 .out .timeout 28 true, .callback, .release, .recheck true]

theorem shutdownKept_duringRequest : ∃ s, (context 5).Reach (keepsShutdown · · = true) s ∧
    (s.ev = .idle ∧ s.lock = .free ∧ s.shutdownWhenDone = true ∧ s.reqlist = []) ∧ ShutdownKept s := by
  obtain ⟨s, hr, hp⟩ := Machine.exists_reach_of_run (M := context 5) keepsShutdown
    shutdownDuringRequest
    (fun s => decide (s.ev = .idle ∧ s.lock = .free ∧ s.shutdownWhenDone = true ∧ s.reqlist = []))
    (fun _ _ h => h) (by decide)
  exact ⟨s, hr, of_decide_eq_true hp, shutdownKept.1 s hr⟩

/-- The message of the shutdown is read before the request, which then cannot be registered. -/
def shutdownThenFailure : List Action :=
  [.shutdown 0 true, .addBegin 0 true httpParams true, .addFinish 0 {}, .pipeRead true, .dispatch true,
    .pipeRead true, .dispatch true, .startCurl (fun _ => false) ⟨100, 7, 8⟩, .register (· = .baseSetOut), .giveUp]

theorem not_shutdownKept_thenFailure : ∃ s, (context 5).Reach Machine.anyStep s ∧ ¬ShutdownKept s := by
  obtain ⟨s, hr, hp⟩ := Machine.exists_reach_of_run (M := context 5) (fun _ _ => true)
    shutdownThenFailure (fun s => decide (s.ev = .idle ∧ s.lock = .free ∧ s.shutdownWhenDone = true ∧
      s.reqlist = [] ∧ s.stopping = false)) (fun _ _ _ => trivial) (by decide)
  obtain ⟨he, hl, hw, hlist, hstop⟩ := of_decide_eq_true hp
  refine ⟨s, hr, ?_⟩
  intro h
  rw [h he hl hw hlist] at hstop
  cases hstop

/-! ### No accepted request is stranded -/

/-- After the loop has been told to exit because a shutdown was pending and the list was empty, no request is
    accepted, and no accepted request remains on the list. -/
structure NotStranded (s : State) : Prop where
  refused : ∀ es₁ es₂ r, s.log = es₁ ++ .drained :: es₂ → .accepted r ∉ es₂
  unlisted : .drained ∈ s.log → ∀ r ∈ s.reqlist, .accepted r ∉ s.log

/-- A step of the event thread that tells the loop to exit: it finds the list empty after a shutdown has been asked
    for. -/
def stopsLoop (s : State) : Action → Bool
  | .dispatch _ => s.ev == .dispatch none && s.reqlist.isEmpty && !s.stopping
  | .recheck _ => s.ev == .recheck && s.shutdownWhenDone && s.reqlist.isEmpty && !s.stopping
  | _ => false

/-- Not a step in which `start_curl` fails, or that tells the loop to exit while a call of `nl_url_req_add` is between
    its test and its lock. -/
def stopsAlone (s : State) (a : Action) : Bool := startSucceeds s a && (!stopsLoop s a || s.adding.isEmpty)

/-- Once the loop has been told to exit, it is stopping, the list stays empty, and no call is on its way to the
    lock. -/
structure Drained (s : State) : Prop where
  stopping : .drained ∈ s.log → s.stopping = true ∧ s.reqlist = [] ∧ s.adding = []
  refused : ∀ es₁ es₂ r, s.log = es₁ ++ .drained :: es₂ → .accepted r ∉ es₂

section
variable {s u : State} {a : Action} {es : List Event}

/-- Neither the decision to stop nor the acceptance of a request. -/
def Event.neutral : Event → Bool
  | .drained | .accepted _ => false
  | _ => true

theorem neutral_used {r : ReqId} : ∀ e ∈ s.used r, e.neutral = true := forall_used rfl

theorem neutral_not_mem (h : ∀ e ∈ es, e.neutral = true) : .drained ∉ es ∧ ∀ r, .accepted r ∉ es :=
  ⟨fun hm => (by cases h _ hm), fun _ hm => by cases h _ hm⟩

theorem Drained.extend (D : Drained s) (hlog : u.log = s.log ++ es)
    (ha : (∀ r, .accepted r ∉ es) ∨ .drained ∉ u.log)
    (hstop : .drained ∈ u.log → u.stopping = true ∧ u.reqlist = [] ∧ u.adding = []) : Drained u := by
  refine ⟨hstop, ?_⟩
  intro es₁ es₂ r h hm
  rcases ha with ha | hd
  · rw [hlog] at h
    rcases split_append h with ⟨es₃, hs, he⟩ | ⟨es₃, -, he⟩
    · rcases List.mem_append.mp (he ▸ hm) with hm | hm
      · exact D.refused _ _ r hs hm
      · exact ha r hm
    · exact ha r (he ▸ List.mem_append_right _ (List.mem_cons_of_mem _ hm))
  · exact hd (h ▸ by simp)

/-- A step that neither tells the loop to stop nor accepts a request. -/
theorem Drained.quiet (D : Drained s) (hlog : u.log = s.log ++ es) (he : ∀ e ∈ es, e.neutral = true)
    (hs : s.stopping = true → u.stopping = true) (hl : s.reqlist = [] → u.reqlist = [])
    (hadd : s.adding = [] → u.adding = []) : Drained u := by
  refine D.extend hlog (Or.inl (neutral_not_mem he).2) ?_
  intro hm
  rw [hlog, List.mem_append] at hm
  obtain ⟨hstop, hnil, hnone⟩ := D.stopping (hm.resolve_right (neutral_not_mem he).1)
  exact ⟨hs hstop, hl hnil, hadd hnone⟩

/-- The check for an empty list, where no call is on its way to the lock if it stops the loop. -/
theorem Drained.check {asked b : Bool} {p : List (Option ReqId)} {d : List Event} {e : Event} (I : Inv s)
    (D : Drained s) (hc : Checks s asked b p d) (hev : s.ev ≠ .ended)
    (halone : asked = true → s.reqlist = [] → s.stopping = false → s.adding = []) (he : e.neutral = true)
    (hlog : u.log = s.log ++ (d ++ [e])) (hs : u.stopping = b) (hl : u.reqlist = s.reqlist)
    (hadd : u.adding = s.adding) : Drained u := by
  have hna : ∀ r, .accepted r ∉ d ++ [e] := by
    intro r hm
    rcases List.mem_append.mp hm with hm | hm
    · cases hc <;> simp at hm
    · rw [← List.mem_singleton.mp hm] at he
      cases he
  refine D.extend hlog (Or.inl hna) ?_
  intro hm
  rw [hs, hl, hadd]
  cases hc with
  | skip =>
    rw [hlog, List.nil_append, List.mem_append, List.mem_singleton] at hm
    refine D.stopping (hm.resolve_right ?_)
    intro h
    rw [← h] at he
    cases he
  | drain ha hnil hstop => exact ⟨I.evloop_of_ev hev, hnil, halone ha hnil hstop⟩

theorem stopping_of_addCheck {p : Params} (h : addCheck s p = 0) : s.stopping = false := by
  cases hs : s.stopping with
  | false => rfl
  | true => simp [addCheck, hs, einval] at h

theorem drained_step (I : Inv s) (D : Drained s) (hok : stopsAlone s a = true) (h : Moves s a u) : Drained u := by
  cases h with
  | reject | shutdown | unread => exact D.quiet rfl (by simp [Event.neutral]) id id id
  | allocate hc hp =>
    have hd : .drained ∉ s.log := by
      intro hm
      have hstop := (D.stopping hm).1
      rw [stopping_of_addCheck hp] at hstop
      cases hstop
    exact D.extend (List.append_nil _).symm (Or.inr hd) fun hm => absurd hm hd
  | wait | read | toStart | exited | joined => exact D.quiet (List.append_nil _).symm (by simp) id id id
  | deinitStop hd ha hr hb | deinitLate hd ha hr hb => exact D.quiet (List.append_nil _).symm (by simp) hb id id
  | enqueue ha ht hl hf =>
    have hd : .drained ∉ s.log := by
      intro hm
      rw [(D.stopping hm).2.2] at ha
      cases ha
    have hd' {r t b d} : .drained ∉ s.log ++ [.accepted r, .returned (.caller t) (.add (some true)) b d] := by
      simp [hd]
    exact D.extend rfl (Or.inr hd') fun hm => absurd hm hd'
  | noted he hl hs =>
    refine D.check I hs (by simp [he]) ?_ rfl rfl rfl rfl rfl
    intro _ hnil hstop
    simpa [stopsAlone, startSucceeds, stopsLoop, he, hnil, hstop] using hok
  | rechecked he hl hs =>
    refine D.check I hs (by simp [he]) ?_ rfl rfl rfl rfl rfl
    intro hasked hnil hstop
    simpa [stopsAlone, startSucceeds, stopsLoop, he, hasked, hnil, hstop] using hok
  | started | notStarted | notRegistered | finished => exact D.quiet rfl neutral_used id id id
  | registered | unfinished =>
    exact D.quiet rfl (forall_used_append rfl (List.forall_mem_singleton.mpr rfl)) id id id
  | notified =>
    refine D.quiet rfl (forall_used_append rfl ?_) id id id
    intro e he
    split at he <;> simp at he
    exact he ▸ rfl
  | putBack => exact D.quiet rfl (forall_used_append rfl (by simp [Event.neutral])) id id fun hnil => by simp [hnil]
  | abandon | gaveUp | released =>
    exact D.quiet rfl (forall_used_append rfl (by simp [Event.neutral])) id (fun hl => by simp [hl]) id
  | freedAll hd hu =>
    rename_i t base v
    obtain ⟨hnil, hf⟩ := freeAll_frame hu
    obtain ⟨es, hlog, hes⟩ := hf.returned (P := (·.neutral = true))
      (e := .returned (.caller t) .deinit base (s.lock.depth (.caller t))) (fun _ => rfl) (fun _ => rfl) rfl
    exact D.quiet hlog hes (fun h => hf.stopping.trans h) (fun _ => hnil) fun hnone => hf.adding.trans hnone

theorem notStranded_of_reach {fd : Nat} (h : (context fd).Reach (stopsAlone · · = true) s) : NotStranded s := by
  have D : Drained s := h.invariant_of (I := Drained) (fun _ h => inv_of_reach h)
    ⟨by simp [context, State.init], by simp [context, State.init]⟩
    fun _ _ _ I D hok hs => drained_step I D hok (Inv.moves I hs)
  refine ⟨D.refused, ?_⟩
  intro hd r hr
  rw [(D.stopping hd).2.1] at hr
  cases hr

/-! ### A call that is between its test and its lock -/

/-- The check that tells the loop to exit. -/
theorem Checks.drained {b : Bool} {p : List (Option ReqId)} {d : List Event} (h : Checks s true b p d)
    (hl : s.reqlist = []) (hs : s.stopping = false) : d = [.drained] := by
  cases h with
  | skip h => simp [hl, hs] at h
  | drain => rfl

/-- What a step that tells the loop to exit leaves for a call on its way to the lock. -/
theorem stopped_step (hstops : stopsLoop s a = true) (h : Moves s a u) : s.lock.canLock .event = true ∧
    u.lock = s.lock ∧ u.adding = s.adding ∧ u.reqlist = [] ∧ ∃ es₁ es₂, u.log = es₁ ++ .drained :: es₂ := by
  cases h with
  | noted he hl hs =>
    simp only [stopsLoop, Bool.and_eq_true, List.isEmpty_iff, Bool.not_eq_true'] at hstops
    obtain rfl := hs.drained hstops.1.2 hstops.2
    exact ⟨hl, rfl, rfl, hstops.1.2, s.log, _, rfl⟩
  | rechecked he hl hs =>
    simp only [stopsLoop, Bool.and_eq_true, List.isEmpty_iff, Bool.not_eq_true'] at hstops
    rw [hstops.1.1.2] at hs
    obtain rfl := hs.drained hstops.1.2 hstops.2
    exact ⟨hl, rfl, rfl, hstops.1.2, s.log, _, rfl⟩
  | toStart he => simp [stopsLoop, he] at hstops
  | _ => cases hstops

/-- The call enqueues its request all the same. -/
theorem stranded_of_adding (I : Inv s) (hfree : s.lock = .free) (hadd : s.adding ≠ []) (hl : s.reqlist = [])
    (hlog : ∃ es₁ es₂, s.log = es₁ ++ .drained :: es₂) : ∃ t u, step s (.addFinish t {}) = some u ∧ ¬NotStranded u := by
  obtain ⟨b, bs, hbs⟩ := List.exists_cons_of_ne_nil hadd
  have hfind : s.adding.find? (·.thread == b.thread) = some b := by rw [hbs, List.find?_cons_of_pos (by simp)]
  have hlock : s.lock.canLock (.caller b.thread) = true := by rw [hfree]; rfl
  obtain ⟨u, hu⟩ : ∃ u, step s (.addFinish b.thread {}) = some u := by
    simp only [step, Step.addFinish, hfind, hlock, if_true]
    exact ⟨_, rfl⟩
  refine ⟨b.thread, u, hu, fun N => ?_⟩
  obtain ⟨es₁, es₂, hdrained⟩ := hlog
  cases Inv.moves I hu with
  | @enqueue _ _ c =>
    have hsplit (e : Event) : s.log ++ [.accepted c.req, e] = es₁ ++ .drained :: (es₂ ++ [.accepted c.req, e]) := by
      rw [hdrained, List.append_assoc, List.cons_append]
    exact N.refused es₁ _ c.req (hsplit _) (by simp)
  | putBack ha ht _ hf => simp [AddFails.ok, hl] at hf

/-- Where every step that tells the loop to exit finds no call between its test and its lock, no request is accepted
    from then on or left on the list; and after one that does find such a call, a request can be stranded at once. -/
theorem notStranded {fd : Nat} : (∀ s, (context fd).Reach (stopsAlone · · = true) s → NotStranded s) ∧
    ∀ s a u, (context fd).Reach (startSucceeds · · = true) s → stopsLoop s a = true → s.adding ≠ [] →
      step s a = some u → ∃ t v, step u (.addFinish t {}) = some v ∧ ¬NotStranded v := by
  refine ⟨fun s h => notStranded_of_reach h, fun s a u h hstops hadd hstep => ?_⟩
  have I : Inv s := inv_of_reach h
  obtain ⟨hl, hlock, hadding, hnil, hlog⟩ := stopped_step hstops (Inv.moves I hstep)
  have hfree : u.lock = .free := hlock.trans (free_of_canLock hl (event_unlocked h.any))
  exact stranded_of_adding (inv_step I (Inv.moves I hstep)) hfree (by rwa [hadding]) hnil hlog

end

/-- A second caller gives up, since the loop has been told to stop while the first request ran. -/
def refusedWhileDraining : List Action :=
  shutdownDuringRequest ++ [.addBegin 1 true httpParams true]

theorem notStranded_whileDraining : ∃ s, (context 5).Reach (stopsAlone · · = true) s ∧
    (.drained ∈ s.log ∧ .accepted 0 ∈ s.log) ∧ NotStranded s := by
  obtain ⟨s, hr, hp⟩ := Machine.exists_reach_of_run (M := context 5) stopsAlone
    refusedWhileDraining (fun s => decide (.drained ∈ s.log ∧ .accepted 0 ∈ s.log)) (fun _ _ h => h)
    (by decide)
  exact ⟨s, hr, of_decide_eq_true hp, notStranded.1 s hr⟩

/-- The second caller has passed the test when the first request ends. -/
def addWhileDraining : List Action :=
  [.addBegin 0 true httpParams true, .addFinish 0 {}, .pipeRead true, .dispatch true,
    .startCurl (fun _ => false) ⟨100, 7, 8⟩, .register fun _ => false, .shutdown 0 true, .pipeRead true,
    .dispatch true, .addBegin 1 true httpParams true, .bufevError 0 .out .timeout 28 true, .callback, .release,
    .recheck true, .addFinish 1 {}]

theorem not_notStranded_addWhileDraining : ∃ s, (context 5).Reach Machine.anyStep s ∧
    (.drained ∈ s.log ∧ .accepted 1 ∈ s.log ∧ s.reqlist = [1] ∧ s.stopping = true) ∧ ¬NotStranded s := by
  obtain ⟨s, hr, hp⟩ := Machine.exists_reach_of_run (M := context 5) (fun _ _ => true)
    addWhileDraining (fun s => decide (.drained ∈ s.log ∧ .accepted 1 ∈ s.log ∧ s.reqlist = [1] ∧
      s.stopping = true)) (fun _ _ _ => trivial) (by decide)
  have hp := of_decide_eq_true hp
  exact ⟨s, hr, hp, fun h => h.unlisted hp.1 1 (by simp [hp.2.2.1]) hp.2.1⟩

end Nlutils.UrlReq
