import Nlutils.UrlReq.Freed

/-! # Each request is notified once

The event thread calls the callback of a request in `check_process` only, before it frees the request there.
On the two ways to the `error` label of `control_pipe_handler` it frees the request without a call: after a
failed `start_curl`, and when the request's bufferevents could not be connected to the event loop. -/

namespace Nlutils.UrlReq
open Lib State

/-- The next call that returns on the thread is one of `nl_url_req_deinit`. -/
def InDeinit (t : Tid) (es : List Event) : Prop :=
  ∃ fs before after rest, es = fs ++ .returned t .deinit before after :: rest ∧ ∀ c b d, .returned t c b d ∉ fs

/-- The callback of the request is called at most once, and once before each time that the event thread frees
    the request; without a call of it only `nl_url_req_deinit` frees the request. -/
structure NotifiedOnce (s : State) (r : ReqId) : Prop where
  once : s.log.count (.callback r) ≤ 1
  before : ∀ es₁ es₂, s.log = es₁ ++ .freed r .event :: es₂ → es₁.count (.callback r) = 1
  deinit : ∀ es₁ t es₂, s.log = es₁ ++ .freed r t :: es₂ → .callback r ∉ es₁ → InDeinit t es₂

/-- Not a step in which `start_curl` fails, or in which the bufferevents of a request with a callback cannot be
    connected to the event loop. -/
def notifies (s : State) (a : Action) : Bool :=
  startSucceeds s a &&
    match a with
    | .register fails =>
      match s.ev with
      | .registering r => !(s.req r).cb || !registerCalls.any fails
      | _ => true
    | _ => true

/-- The request is not on the list yet: it has not been allocated, or its caller has not enqueued it. -/
def State.fresh (s : State) (r : ReqId) : Prop := s.reqs.length ≤ r ∨ r ∈ s.adding.map (·.req)

/-- No callback of a request precedes the end of its process, and each time that the event thread frees a request
    follows its callback. -/
structure Calls (s : State) : Prop where
  fresh : ∀ r, s.fresh r → .callback r ∉ s.log ∧ .freed r .event ∉ s.log
  listed : ∀ r ∈ s.reqlist, s.ev ≠ .release r → .callback r ∉ s.log
  release : ∀ r, s.ev = .release r → (s.req r).cb = true → .callback r ∈ s.log
  once : ∀ r, s.log.count (.callback r) ≤ 1
  before : ∀ r, (s.req r).cb = true → ∀ es₁ es₂, s.log = es₁ ++ .freed r .event :: es₂ → .callback r ∈ es₁
  starting : ∀ r, s.ev ≠ .startFailed r
  giveUp : ∀ r, s.ev = .giveUp r → (s.req r).cb = false

section
variable {s u : State} {a : Action} {r : ReqId} {es : List Event}

/-- Neither a callback nor the event thread freeing a request. -/
def Event.silent : Event → Bool
  | .callback _ | .freed _ .event => false
  | _ => true

theorem callback_not_mem (h : ∀ e ∈ es, e.silent = true) : .callback r ∉ es := by
  intro hm
  cases h _ hm

theorem freed_not_mem (h : ∀ e ∈ es, e.silent = true) : .freed r .event ∉ es := by
  intro hm
  cases h _ hm

theorem silent_used : ∀ e ∈ s.used r, e.silent = true := forall_used rfl

/-- When a caller has done with a request, the others that are new stay so. -/
theorem fresh_of_taken {b : Adding} {f : Req → Req} (I : Inv s) (hb : b ∈ s.adding)
    (hreqs : u.reqs = s.reqs.modify b.req f) (hadd : u.adding = s.adding.erase b) (hr : u.fresh r) : s.fresh r := by
  unfold State.fresh at hr ⊢
  rw [hreqs, hadd, List.length_modify, mem_adding_erase I.own.adding_nodup hb] at hr
  exact hr.imp_right And.left

/-- Only the request that a caller has not enqueued yet gets its callback. -/
theorem cb_of_taken {b : Adding} {f : Req → Req} (hb : b ∈ s.adding) (hreqs : u.reqs = s.reqs.modify b.req f)
    (r : ReqId) : s.fresh r ∨ (u.req r).cb = (s.req r).cb := by
  by_cases hne : b.req = r
  · exact Or.inl (Or.inr (hne ▸ List.mem_map_of_mem hb))
  · exact Or.inr (by rw [req_of_modify_ne hreqs hne])

theorem fresh_of_moves (I : Inv s) (h : Moves s a u) (hr : u.fresh r) : s.fresh r := by
  cases h with
  | allocate =>
    rcases hr with hr | hr
    · exact Or.inl (Nat.le_trans (Nat.le_succ _) (by simpa using hr))
    · rcases List.mem_cons.mp hr with hr | hr
      · exact Or.inl (Nat.le_of_eq hr.symm)
      · exact Or.inr hr
  | enqueue ha | putBack ha => exact fresh_of_taken I ha rfl rfl hr
  | freedAll hd hu =>
    have hf := (freeAll_frame hu).2
    simpa [State.fresh, hf.length, hf.adding] using hr
  | _ => simpa [State.fresh] using hr

theorem cb_of_moves (h : Moves s a u) (r : ReqId) : s.fresh r ∨ (u.req r).cb = (s.req r).cb := by
  cases h with
  | allocate => exact Or.inr (by rw [req_of_append (s := s) rfl])
  | enqueue ha | putBack ha => exact cb_of_taken ha rfl r
  | started _ _ hq | notStarted _ _ _ hq => exact Or.inr (cb_of_modify rfl hq.cb)
  | abandon | gaveUp | released => exact Or.inr (cb_of_modify (f := freedReq) rfl killReqAndWait_sameUse.cb)
  | registered => exact Or.inr (cb_of_modify rfl rfl)
  | unfinished _ _ hg | finished _ _ hg => exact Or.inr (cb_of_modify rfl (hg _).cb)
  | freedAll hd hu => exact Or.inr ((freeAll_frame hu).2.cb r)
  | _ => exact Or.inr rfl

/-- A step that neither calls a callback nor frees a request in the event thread. -/
theorem Calls.quiet (C : Calls s) (hlog : u.log = s.log ++ es) (he : ∀ e ∈ es, e.silent = true)
    (hfresh : ∀ r, u.fresh r → s.fresh r)
    (hlist : ∀ r ∈ u.reqlist, u.ev ≠ .release r → s.fresh r ∨ r ∈ s.reqlist ∧ s.ev ≠ .release r)
    (hcb : ∀ r, s.fresh r ∨ (u.req r).cb = (s.req r).cb) (hrel : ∀ r, u.ev = .release r → s.ev = .release r)
    (hrel' : ∀ r, s.ev = .release r → ¬s.fresh r) (hs : ∀ r, u.ev ≠ .startFailed r)
    (hg : ∀ r, u.ev = .giveUp r → (u.req r).cb = false) : Calls u where
  fresh r hr := by
    obtain ⟨hc, hf⟩ := C.fresh r (hfresh r hr)
    rw [hlog, List.mem_append, List.mem_append, not_or, not_or]
    exact ⟨⟨hc, callback_not_mem he⟩, hf, freed_not_mem he⟩
  listed r hr hev := by
    have hc : .callback r ∉ s.log := by
      rcases hlist r hr hev with hf | ⟨hr, hev⟩
      · exact (C.fresh r hf).1
      · exact C.listed r hr hev
    rw [hlog, List.mem_append, not_or]
    exact ⟨hc, callback_not_mem he⟩
  release r hr hc := by
    rw [hlog, List.mem_append]
    rcases hcb r with hf | hcb
    · exact absurd hf (hrel' r (hrel r hr))
    · exact Or.inl (C.release r (hrel r hr) (hcb ▸ hc))
  once r := by
    rw [hlog, List.count_append, List.count_eq_zero.mpr (callback_not_mem he)]
    exact C.once r
  before r hc es₁ es₂ h := by
    rw [hlog] at h
    rcases split_append h with ⟨es₃, h, -⟩ | ⟨es₃, -, h⟩
    · rcases hcb r with hf | hcb
      · exact absurd (h ▸ by simp) (C.fresh r hf).2
      · exact C.before r (hcb ▸ hc) es₁ es₃ h
    · exact absurd (h ▸ by simp) (freed_not_mem (r := r) he)
  starting := hs
  giveUp := hg

/-- A request that the event thread works on is not a new one. -/
theorem Inv.not_fresh (I : Inv s) (hr : s.ev.req = some r) : ¬s.fresh r := by
  intro hf
  obtain ⟨hlt, hna⟩ := I.held.known r hr
  exact hf.elim (fun hle => absurd hlt (Nat.not_lt_of_le hle)) hna

theorem Inv.not_fresh_release (I : Inv s) (r : ReqId) (hr : s.ev = .release r) : ¬s.fresh r :=
  I.not_fresh (by rw [hr]; rfl)

/-- A step of the event thread that stays clear of freeing. -/
theorem Calls.on (C : Calls s) (I : Inv s) (hlog : u.log = s.log ++ es) (he : ∀ e ∈ es, e.silent = true)
    (hlen : u.reqs.length = s.reqs.length) (hadd : u.adding = s.adding) (hl : u.reqlist = s.reqlist)
    (hcb : ∀ r, (u.req r).cb = (s.req r).cb) (hs : ∀ r, s.ev ≠ .release r)
    (hv : ∀ r, u.ev ≠ .startFailed r ∧ u.ev ≠ .giveUp r ∧ u.ev ≠ .release r) : Calls u :=
  C.quiet hlog he (fun r hr => by simpa [State.fresh, hlen, hadd] using hr) (fun r hr _ => Or.inr ⟨hl ▸ hr, hs r⟩)
    (fun r => Or.inr (hcb r)) (fun r hr => absurd hr (hv r).2.2) I.not_fresh_release (fun r => (hv r).1)
    fun r hr => absurd hr (hv r).2.1

/-- A step that leaves the event thread and the requests alone. -/
theorem Calls.same (C : Calls s) (I : Inv s) (hlog : u.log = s.log ++ es) (he : ∀ e ∈ es, e.silent = true)
    (hreqs : u.reqs = s.reqs) (hadd : u.adding = s.adding) (hl : u.reqlist = s.reqlist) (hev : u.ev = s.ev) :
    Calls u :=
  C.quiet hlog he (fun r hr => by simpa [State.fresh, hreqs, hadd] using hr)
    (fun r hr hr' => Or.inr ⟨hl ▸ hr, hev ▸ hr'⟩) (fun r => Or.inr (by rw [req_of_eq hreqs])) (fun r hr => hev ▸ hr)
    I.not_fresh_release (by rw [hev]; exact C.starting)
    fun r hr => by rw [req_of_eq hreqs]; exact C.giveUp r (hev ▸ hr)

/-- A caller has done with a request, which may now be on the list. -/
theorem Calls.taken {b : Adding} {f : Req → Req} (C : Calls s) (I : Inv s) (hb : b ∈ s.adding)
    (hlog : u.log = s.log ++ es) (he : ∀ e ∈ es, e.silent = true) (hreqs : u.reqs = s.reqs.modify b.req f)
    (hadd : u.adding = s.adding.erase b) (hev : u.ev = s.ev) (hl : ∀ r ∈ u.reqlist, r = b.req ∨ r ∈ s.reqlist) :
    Calls u := by
  have hbf : s.fresh b.req := Or.inr (List.mem_map_of_mem hb)
  have hcb := cb_of_taken hb hreqs
  refine C.quiet hlog he (fun r => fresh_of_taken I hb hreqs hadd) ?_ hcb (fun r hr => hev ▸ hr) I.not_fresh_release
    (by rw [hev]; exact C.starting) ?_
  · intro r hr hr'
    rcases hl r hr with he | hm
    · exact Or.inl (he ▸ hbf)
    · exact Or.inr ⟨hm, hev ▸ hr'⟩
  · intro r hr
    have hr' : s.ev = .giveUp r := hev ▸ hr
    rcases hcb r with hf | hc
    · exact absurd hf (I.not_fresh (by rw [hr']; rfl))
    · exact hc.trans (C.giveUp r hr')

/-- The event thread frees a request that has no callback, or whose callback has been called. -/
theorem Calls.free (C : Calls s) (I : Inv s) (hr : s.ev.req = some r)
    (hcalled : (s.req r).cb = true → .callback r ∈ s.log)
    (hlog : u.log = s.log ++ (s.used r ++ .freed r .event :: es)) (he : ∀ e ∈ es, e.silent = true)
    (hreqs : u.reqs = s.reqs.modify r freedReq) (hadd : u.adding = s.adding) (hlist : u.reqlist = s.reqlist.erase r)
    (hlast : ∀ r', r' ≠ r → s.ev ≠ .release r') (hev : u.ev.req = none) : Calls u where
  fresh r' hr' := by
    have hf : s.fresh r' := by simpa [State.fresh, hreqs, hadd] using hr'
    have hne : r' ≠ r := by
      rintro rfl
      exact I.not_fresh hr hf
    obtain ⟨hc, hf⟩ := C.fresh r' hf
    have hne' : ¬r' = r := hne
    simp only [hlog, List.mem_append, List.mem_cons, not_or]
    refine ⟨⟨hc, callback_not_mem silent_used, by simp, callback_not_mem he⟩, hf, freed_not_mem silent_used, ?_,
      freed_not_mem he⟩
    simp [hne']
  listed r' hr' _ := by
    obtain ⟨hne, hm⟩ := I.own.nodup.mem_erase_iff.mp (hlist ▸ hr')
    simp only [hlog, List.mem_append, List.mem_cons, not_or]
    exact ⟨C.listed r' hm (hlast r' hne), callback_not_mem silent_used, by simp, callback_not_mem he⟩
  release r' hr' _ := by
    rw [hr'] at hev
    cases hev
  once r' := by
    have h0 : (s.used r ++ .freed r .event :: es).count (.callback r') = 0 := by
      rw [List.count_eq_zero]
      simp only [List.mem_append, List.mem_cons, not_or]
      exact ⟨callback_not_mem silent_used, by simp, callback_not_mem he⟩
    rw [hlog, List.count_append, h0]
    exact C.once r'
  before r' hc es₁ es₂ h := by
    have hc : (s.req r').cb = true := (cb_of_modify (f := freedReq) hreqs killReqAndWait_sameUse.cb).symm.trans hc
    rw [hlog] at h
    rcases split_append h with ⟨es₃, h, -⟩ | ⟨es₃, h₁, h⟩
    · exact C.before r' hc es₁ es₃ h
    · have hm : .freed r' .event ∈ s.used r ++ .freed r .event :: es := h ▸ by simp
      rw [List.mem_append, List.mem_cons] at hm
      rcases hm with hm | hm | hm
      · exact absurd hm (freed_not_mem silent_used)
      · obtain ⟨rfl, -⟩ := Event.freed.inj hm
        exact h₁ ▸ List.mem_append_left _ (hcalled hc)
      · exact absurd hm (freed_not_mem he)
  starting r' hr' := by
    rw [hr'] at hev
    cases hev
  giveUp r' hr' := by
    rw [hr'] at hev
    cases hev

/-- The event thread has waited for the process and calls the callback, if there is one. -/
theorem calls_notified (I : Inv s) (C : Calls s) (he : s.ev = .notify r) : Calls { s with
    log := s.log ++ (s.used r ++ if (s.req r).cb then [.callback r] else [])
    ev := .release r } := by
  have hc : .callback r ∉ s.log := C.listed r (I.mem_of_ev (by rw [he]; rfl) (by simp [he])) (by simp [he])
  have hfreed (r' : ReqId) : .freed r' .event ∉ s.used r ++ if (s.req r).cb then [.callback r] else [] := by
    rw [List.mem_append, not_or]
    exact ⟨freed_not_mem silent_used, by split <;> simp⟩
  have hother (r' : ReqId) (hne : r' ≠ r) :
      .callback r' ∉ s.used r ++ if (s.req r).cb then [.callback r] else [] := by
    have hne' : ¬r' = r := hne
    rw [List.mem_append, not_or]
    exact ⟨callback_not_mem silent_used, by split <;> simp [hne']⟩
  refine ⟨?_, ?_, ?_, ?_, ?_, by simp, by simp⟩
  · intro r' hr'
    have hne : r' ≠ r := by
      rintro rfl
      exact I.not_fresh (by rw [he]; rfl) hr'
    obtain ⟨hc', hf⟩ := C.fresh r' hr'
    exact ⟨fun hm => (List.mem_append.mp hm).elim hc' (hother r' hne),
      fun hm => (List.mem_append.mp hm).elim hf (hfreed r')⟩
  · intro r' hr' hev
    have hne : r' ≠ r := fun h => hev (h ▸ rfl)
    exact fun hm => (List.mem_append.mp hm).elim (C.listed r' hr' (by simp [he])) (hother r' hne)
  · intro r' hr' hcb
    obtain rfl : r = r' := EvPc.release.inj hr'
    have hcb : (s.req r).cb = true := hcb
    simp [hcb]
  · intro r'
    by_cases hne : r' = r
    · subst hne
      rw [List.count_append, List.count_append, List.count_eq_zero.mpr hc,
        List.count_eq_zero.mpr (callback_not_mem silent_used)]
      split <;> simp
    · rw [List.count_append, List.count_eq_zero.mpr (hother r' hne)]
      exact C.once r'
  · intro r' hcb es₁ es₂ h
    rcases split_append h with ⟨es₃, h, -⟩ | ⟨es₃, -, h⟩
    · exact C.before r' hcb es₁ es₃ h
    · exact absurd (h ▸ by simp) (hfreed r')

theorem calls_step (I : Inv s) (C : Calls s) (hok : notifies s a = true) (h : Moves s a u) : Calls u := by
  have hfresh (r : ReqId) : u.fresh r → s.fresh r := fresh_of_moves I h
  have hcb := cb_of_moves h
  cases h with
  | reject | shutdown => exact C.same I rfl (by simp [Event.silent]) rfl rfl rfl rfl
  | wait | deinitStop | deinitLate | joined => exact C.same I (List.append_nil _).symm (by simp) rfl rfl rfl rfl
  | allocate =>
    refine C.quiet (List.append_nil _).symm (by simp) hfresh (fun r hr hr' => Or.inr ⟨hr, hr'⟩) hcb (fun _ => id)
      I.not_fresh_release C.starting ?_
    intro r hr
    rw [req_of_append (s := s) rfl]
    exact C.giveUp r hr
  | enqueue ha ht hl hf =>
    refine C.taken I ha rfl (by simp [Event.silent]) rfl rfl rfl ?_
    intro r hr
    rcases List.mem_append.mp hr with hr | hr
    · exact Or.inr hr
    · exact Or.inl (List.mem_singleton.mp hr)
  | putBack ha =>
    exact C.taken I ha rfl (forall_used_append rfl (by simp [Event.silent])) rfl rfl rfl fun r hr => Or.inr hr
  | read he | toStart he | exited he =>
    exact C.on I (List.append_nil _).symm (by simp) rfl rfl rfl (fun _ => rfl) (by simp [he]) (by simp)
  | unread he => exact C.on I rfl (by simp [Event.silent]) rfl rfl rfl (fun _ => rfl) (by simp [he]) (by simp)
  | noted he hl hs | rechecked he hl hs =>
    refine C.on I rfl ?_ rfl rfl rfl (fun _ => rfl) (by simp [he]) (by simp)
    intro e he
    cases hs <;> simp at he <;> rcases he with rfl | rfl <;> rfl
  | started he hf hq =>
    exact C.on I rfl silent_used (List.length_modify _ _ _) rfl rfl (fun _ => cb_of_modify rfl hq.cb) (by simp [he])
      (by simp)
  | notStarted he hc hf =>
    simp only [notifies, startSucceeds, he, Bool.and_eq_true, List.all_eq_true, Bool.not_eq_true'] at hok
    rw [hok.1 _ hc] at hf
    cases hf
  | abandon he => exact absurd he (C.starting _)
  | registered he =>
    exact C.on I rfl (forall_used_append rfl (List.forall_mem_singleton.mpr rfl)) (List.length_modify _ _ _) rfl rfl
      (fun _ => cb_of_modify rfl rfl) (by simp [he]) (by simp)
  | notRegistered he hf =>
    rename_i r
    refine C.quiet rfl silent_used hfresh (fun r hr _ => Or.inr ⟨hr, by simp [he]⟩) hcb
      (by simp) I.not_fresh_release (by simp) ?_
    intro r' hr'
    obtain rfl : r = r' := EvPc.giveUp.inj hr'
    simp only [notifies, startSucceeds, he, hf, Bool.true_and, Bool.not_true, Bool.or_false, Bool.not_eq_true'] at hok
    exact hok
  | gaveUp he =>
    refine C.free I (by rw [he]; rfl) ?_ rfl (by simp [Event.silent]) rfl rfl rfl (by simp [he]) rfl
    intro hc
    rw [C.giveUp _ he] at hc
    cases hc
  | unfinished he hr hg =>
    exact C.on I rfl (forall_used_append rfl (List.forall_mem_singleton.mpr rfl)) (List.length_modify _ _ _) rfl rfl
      (fun _ => cb_of_modify rfl (hg _).cb) (by simp [he]) (by simp)
  | finished he hr hg =>
    exact C.on I rfl silent_used (List.length_modify _ _ _) rfl rfl (fun _ => cb_of_modify rfl (hg _).cb) (by simp [he])
      (by simp)
  | notified he => exact calls_notified I C he
  | released he hl =>
    rename_i r
    have hnil : ∀ e ∈ ([] : List Event), e.silent = true := by simp
    refine C.free I (by rw [he]; rfl) (C.release r he) rfl hnil rfl rfl rfl ?_ rfl
    intro r' hne hr'
    rw [he] at hr'
    exact hne (EvPc.release.inj hr').symm
  | freedAll hd hu =>
    rename_i t base v
    obtain ⟨hnil, hf⟩ := freeAll_frame hu
    obtain ⟨es, hlog, hes⟩ := hf.returned (P := (·.silent = true))
      (e := .returned (.caller t) .deinit base (s.lock.depth (.caller t))) (fun _ => rfl) (fun _ => rfl) rfl
    have hev := hf.ev.trans (I.ending.freeing _ _ hd)
    refine C.quiet hlog hes hfresh (fun r hr => ?_) hcb (fun r hr => ?_) I.not_fresh_release (fun r hr => ?_)
      (fun r hr => ?_)
    · rw [hnil] at hr
      cases hr
    all_goals
      rw [hev] at hr
      cases hr

theorem calls_init {fd : Nat} : Calls (.init fd) := by
  constructor <;> simp [State.init]

theorem calls_of_reach {fd : Nat} (h : (context fd).Reach (notifies · · = true) s) : Calls s :=
  h.invariant_of (I := Calls) (fun _ h => inv_of_reach h) calls_init
    fun _ _ _ I C hok hs => calls_step I C hok (Inv.moves I hs)

/-! ### A request that is freed without a call -/

/-- An accepted request is not a new one, and is freed without a call of its callback by `nl_url_req_deinit` only. -/
structure Silent (s : State) : Prop where
  accepted : ∀ r, .accepted r ∈ s.log → ¬s.fresh r
  deinit : ∀ r, .accepted r ∈ s.log → (s.req r).cb = true → ∀ es₁ t es₂, s.log = es₁ ++ .freed r t :: es₂ →
    .callback r ∉ es₁ → InDeinit t es₂

theorem InDeinit.append {t : Tid} {fs : List Event} (h : InDeinit t es) : InDeinit t (es ++ fs) := by
  obtain ⟨gs, b, d, rest, rfl, hgs⟩ := h
  exact ⟨gs, b, d, rest ++ fs, by rw [List.append_assoc, List.cons_append], hgs⟩

/-- A request that has been freed by any thread is not a new one. -/
theorem Freed.not_fresh (F : Freed s) (I : Inv s) {t : Tid} (h : .freed r t ∈ s.log) : ¬s.fresh r := by
  intro hf
  have hzero : s.freeCount r = 0 := by
    rw [F.count r, if_neg]
    rintro ⟨hlt, hdead⟩
    rcases hf with hf | hf
    · exact absurd hlt (Nat.not_lt_of_le hf)
    · rw [(I.own.live r).mpr (Or.inr hf)] at hdead
      cases hdead
  exact absurd (List.countP_eq_zero.mp hzero _ h) (by simp [Event.frees])

/-- What a step records of accepting and freeing requests. -/
structure Records (s u : State) (es : List Event) : Prop where
  log : u.log = s.log ++ es
  accepted : ∀ r, .accepted r ∈ es → s.fresh r ∧ ¬u.fresh r ∧ ∀ t, .freed r t ∉ es
  freed : ∀ r es₁ t es₂, es = es₁ ++ .freed r t :: es₂ →
    s.fresh r ∨ ¬s.fresh r ∧ ((s.req r).cb = true → .callback r ∈ s.log) ∨ InDeinit t es₂

/-- Neither the acceptance nor the end of a request. -/
def Event.plain : Event → Bool
  | .accepted _ | .freed _ _ => false
  | _ => true

theorem Records.quiet (hlog : u.log = s.log ++ es) (hes : ∀ e ∈ es, e.plain = true) : Records s u es where
  log := hlog
  accepted r hm := by cases hes _ hm
  freed r es₁ t es₂ he := by cases hes (.freed r t) (he ▸ by simp)

/-- A step that frees one request. -/
theorem Records.one {t : Tid} (hlog : u.log = s.log ++ (s.used r ++ .freed r t :: es)) (hes : ∀ e ∈ es, e.plain = true)
    (hfree : s.fresh r ∨ ¬s.fresh r ∧ ((s.req r).cb = true → .callback r ∈ s.log)) :
    Records s u (s.used r ++ .freed r t :: es) where
  log := hlog
  accepted r' hm := by
    rcases List.mem_append.mp hm with hm | hm
    · cases forall_used (P := (·.plain = true)) rfl _ hm
    · rcases List.mem_cons.mp hm with hm | hm
      · cases hm
      · cases hes _ hm
  freed r' es₁ t' es₂ he := by
    have hm : .freed r' t' ∈ s.used r ++ .freed r t :: es := he ▸ by simp
    rcases List.mem_append.mp hm with hm | hm
    · cases forall_used (P := (·.plain = true)) rfl _ hm
    · rcases List.mem_cons.mp hm with hm | hm
      · obtain ⟨rfl, -⟩ := Event.freed.inj hm
        exact hfree.imp_right Or.inl
      · cases hes _ hm

theorem records_of_moves (I : Inv s) (C : Calls s) (h : Moves s a u) : ∃ es, Records s u es := by
  cases h with
  | reject | shutdown | unread => exact ⟨_, .quiet rfl (by simp [Event.plain])⟩
  | allocate | wait | read | toStart | exited | deinitStop | deinitLate | joined =>
    exact ⟨[], .quiet (List.append_nil _).symm (by simp)⟩
  | enqueue ha ht hl hf =>
    refine ⟨_, rfl, fun r hm => ?_, fun r es₁ t es₂ he => ?_⟩
    · obtain rfl : r = _ := by simpa using hm
      refine ⟨Or.inr (List.mem_map_of_mem ha), ?_, by simp⟩
      rintro (hle | hmem)
      · have hlt := lt_length_of_isLive ((I.own.live _).mpr (Or.inr (List.mem_map_of_mem ha)))
        exact absurd hlt (Nat.not_lt_of_le (by simpa using hle))
      · exact ((mem_adding_erase I.own.adding_nodup ha).mp hmem).2 rfl
    · have hm : Event.freed r t ∈ es₁ ++ .freed r t :: es₂ := by simp
      rw [← he] at hm
      simp at hm
  | putBack ha =>
    exact ⟨_, .one rfl (by simp [Event.plain]) (Or.inl (Or.inr (List.mem_map_of_mem ha)))⟩
  | noted _ _ hs | rechecked _ _ hs =>
    refine ⟨_, .quiet rfl ?_⟩
    intro e he
    cases hs <;> simp at he <;> rcases he with rfl | rfl <;> rfl
  | started | notStarted | notRegistered | finished => exact ⟨_, .quiet rfl (forall_used rfl)⟩
  | registered | unfinished =>
    exact ⟨_, .quiet rfl (forall_used_append rfl (List.forall_mem_singleton.mpr rfl))⟩
  | notified =>
    refine ⟨_, .quiet rfl (forall_used_append rfl ?_)⟩
    intro e he
    split at he <;> simp at he
    exact he ▸ rfl
  | abandon he => exact absurd he (C.starting _)
  | gaveUp he =>
    refine ⟨_, .one rfl (by simp [Event.plain]) (Or.inr ⟨I.not_fresh (by rw [he]; rfl), fun hc => ?_⟩)⟩
    rw [C.giveUp _ he] at hc
    cases hc
  | released he =>
    exact ⟨_, .one rfl (by simp) (Or.inr ⟨I.not_fresh (by rw [he]; rfl), C.release _ he⟩)⟩
  | @freedAll t base v hd hu =>
    obtain ⟨es, hlog, hes⟩ := (freeAll_frame hu).2.log
    refine ⟨es ++ [.returned (.caller t) .deinit base (s.lock.depth (.caller t))], by rw [hlog, List.append_assoc],
      fun r hm => ?_, fun r es₁ t' es₂ he => Or.inr (Or.inr ?_)⟩
    · rcases List.mem_append.mp hm with hm | hm
      · obtain ⟨r', h | h⟩ := hes _ hm <;> cases h
      · cases List.mem_singleton.mp hm
    · rcases split_append he with ⟨es₃, hes', rfl⟩ | ⟨es₃, -, hnil⟩
      · have hmem : .freed r t' ∈ es := by simp [hes']
        obtain rfl : t' = .caller t := by
          obtain ⟨r', h | h⟩ := hes _ hmem
          · cases h
          · exact (Event.freed.inj h).2
        refine ⟨es₃, base, s.lock.depth (.caller t), [], rfl, fun c b d hm => ?_⟩
        obtain ⟨r', h | h⟩ := hes (.returned (.caller t) c b d) (by simp [hes', hm]) <;> cases h
      · have hmem : Event.freed r t' ∈ es₃ ++ .freed r t' :: es₂ := by simp
        rw [← hnil] at hmem
        cases List.mem_singleton.mp hmem

theorem silent_step (I : Inv s) (F : Freed s) (C : Calls s) (S : Silent s) (h : Moves s a u) : Silent u := by
  obtain ⟨es, hu, haccepted, hes⟩ := records_of_moves I C h
  have hold {r : ReqId} (hm : .accepted r ∈ u.log) (hnew : .accepted r ∉ es) : .accepted r ∈ s.log := by
    rw [hu] at hm
    exact (List.mem_append.mp hm).resolve_right hnew
  refine ⟨fun r hm => ?_, fun r hm hcb es₁ t es₂ hlog hno => ?_⟩
  · by_cases hnew : .accepted r ∈ es
    · exact (haccepted r hnew).2.1
    · exact fun hf => S.accepted r (hold hm hnew) (fresh_of_moves I h hf)
  rw [hu] at hlog
  rcases split_append hlog with ⟨es₃, hs, rfl⟩ | ⟨es₃, rfl, hnew⟩
  · have hmem : .freed r t ∈ s.log := by simp [hs]
    have hfresh := F.not_fresh I hmem
    have hsame : (u.req r).cb = (s.req r).cb := (cb_of_moves h r).resolve_left hfresh
    have hm' : .accepted r ∈ s.log := hold hm fun hnew => hfresh (haccepted r hnew).1
    exact (S.deinit r hm' (hsame ▸ hcb) es₁ t es₃ hs hno).append
  · have hm' : .accepted r ∈ s.log := hold hm fun hacc => (haccepted r hacc).2.2 t (by simp [hnew])
    rcases hes r es₃ t es₂ hnew with hf | ⟨hf, hc⟩ | hd
    · exact absurd hf (S.accepted r hm')
    · have hsame : (u.req r).cb = (s.req r).cb := (cb_of_moves h r).resolve_left hf
      exact absurd (List.mem_append_left _ (hc (hsame ▸ hcb))) hno
    · exact hd

theorem silent_of_reach {fd : Nat} (h : (context fd).Reach (notifies · · = true) s) : Silent s := by
  have known (s : State) (h : (context fd).Reach (notifies · · = true) s) : Inv s ∧ Freed s ∧ Calls s :=
    ⟨inv_of_reach h, freed_of_reach (h.mono fun _ _ hok => (Bool.and_eq_true_iff.mp hok).1), calls_of_reach h⟩
  exact h.invariant_with known ⟨by simp [context, State.init], by simp [context, State.init]⟩
    fun _ _ _ K S _ hs => silent_step K.1 K.2.1 K.2.2 S (Inv.moves K.1 hs)

theorem notifiedOnce {fd : Nat} (h : (context fd).Reach (notifies · · = true) s) :
    ∀ r, .accepted r ∈ s.log → (s.req r).cb = true → NotifiedOnce s r := by
  intro r hm hcb
  have C := calls_of_reach h
  refine ⟨C.once r, ?_, (silent_of_reach h).deinit r hm hcb⟩
  intro es₁ es₂ hs
  have hle : es₁.count (.callback r) ≤ s.log.count (.callback r) := by
    rw [hs, List.count_append]
    exact Nat.le_add_right _ _
  have hpos : 0 < es₁.count (.callback r) := List.count_pos_iff.mpr (C.before r hcb es₁ es₂ hs)
  have honce := C.once r
  omega

end

/-! ### A request that is notified, and one that cannot be registered -/

theorem notifiedOnce_oneRequest : ∃ s, (context 5).Reach (notifies · · = true) s ∧
    (.accepted 0 ∈ s.log ∧ (s.req 0).cb = true ∧ .freed 0 .event ∈ s.log) ∧ NotifiedOnce s 0 := by
  obtain ⟨s, hr, hp⟩ := Machine.exists_reach_of_run (M := context 5) notifies oneRequest
    (fun s => decide (.accepted 0 ∈ s.log ∧ (s.req 0).cb = true ∧ .freed 0 .event ∈ s.log)) (fun _ _ h => h)
    (by decide)
  have hp := of_decide_eq_true hp
  exact ⟨s, hr, hp, notifiedOnce hr 0 hp.1 hp.2.1⟩

/-- `bufferevent_enable` fails for the output of the only request. -/
def enableFails : List Action :=
  [.addBegin 0 true httpParams true, .addFinish 0 {}, .pipeRead true, .dispatch true,
    .startCurl (fun _ => false) ⟨100, 7, 8⟩, .register (· = .enableOut), .giveUp]

theorem not_notifiedOnce_enableFails : ∃ s, (context 5).Reach Machine.anyStep s ∧
    (.accepted 0 ∈ s.log ∧ (s.req 0).cb = true ∧ .freed 0 .event ∈ s.log ∧ .callback 0 ∉ s.log) ∧
    ¬NotifiedOnce s 0 := by
  obtain ⟨s, hr, hp⟩ := Machine.exists_reach_of_run (M := context 5) (fun _ _ => true) enableFails
    (fun s => decide (.accepted 0 ∈ s.log ∧ (s.req 0).cb = true ∧ .freed 0 .event ∈ s.log ∧ .callback 0 ∉ s.log))
    (fun _ _ _ => trivial) (by decide)
  have hp := of_decide_eq_true hp
  refine ⟨s, hr, hp, ?_⟩
  intro h
  obtain ⟨es₁, es₂, hs⟩ := List.append_of_mem hp.2.2.1
  have hc : .callback 0 ∈ es₁ := List.count_pos_iff.mp (by rw [h.before es₁ es₂ hs]; exact Nat.one_pos)
  exact hp.2.2.2 (hs ▸ List.mem_append_left _ hc)

end Nlutils.UrlReq
