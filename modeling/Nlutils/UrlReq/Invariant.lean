import Nlutils.UrlReq.Ownership

/-! # The invariant of a request context

Every step keeps the owners of the requests, so they hold in every reachable state, whatever has failed. -/

namespace Nlutils.UrlReq
open Lib State

structure Inv (s : State) : Prop where
  own : Own s
  held : Held s
  ending : Ending s

section
variable {s u : State} {a : Action} {r : ReqId}

/-- An entry of a log that has grown is one of the old log or one of the new entries. -/
theorem split_append {α : Type} {x : α} {l m l₁ l₂ : List α} (h : l ++ m = l₁ ++ x :: l₂) :
    (∃ l₃, l = l₁ ++ x :: l₃ ∧ l₂ = l₃ ++ m) ∨ ∃ m₁, l₁ = l ++ m₁ ∧ m = m₁ ++ x :: l₂ := by
  rcases List.append_eq_append_iff.mp h with ⟨m₁, hl, hm⟩ | ⟨l₃, hl, hm⟩
  · exact Or.inr ⟨m₁, hl, hm⟩
  · cases l₃ with
    | nil => exact Or.inr ⟨[], by simpa using hl.symm, hm.symm⟩
    | cons y l₃ =>
      rw [List.cons_append] at hm
      obtain ⟨rfl, hl₂⟩ := List.cons.inj hm
      exact Or.inl ⟨l₃, hl, hl₂⟩

theorem queued_append {p : List (Option ReqId)} (hp : p.filterMap id = []) :
    (s.pipe ++ p).filterMap id = s.queued := by
  rw [List.filterMap_append, hp, List.append_nil]
  rfl

theorem Checks.messages {asked b : Bool} {p : List (Option ReqId)} {d : List Event} (h : Checks s asked b p d) :
    p.filterMap id = [] := by
  cases h with
  | skip _ => rfl
  | drain _ _ _ hp => exact hp

theorem AddFails.ok_length {f : AddFails} {p : Params} {l : List ReqId} (h : f.ok p l = true) :
    l.length + 1 < 2 ^ 31 := by
  simp only [AddFails.ok, Bool.and_eq_true, decide_eq_true_eq] at h
  exact h.1.2

/-- What each `free_req` of the first request of the list keeps holds once all of them are freed. -/
theorem freeAll_induction {P : State → Prop} {t : Tid}
    (hP : ∀ s r l, P s → s.reqlist = r :: l → P (freeReq t r s)) :
    ∀ {l : List ReqId} {s : State}, P s → s.reqlist = l → P (l.foldl (fun s r => freeReq t r s) s) ∧
      (l.foldl (fun s r => freeReq t r s) s).reqlist = []
  | [], _, h, hl => ⟨h, hl⟩
  | r :: l, s, h, hl => by
    have hl' : (freeReq t r s).reqlist = l := by
      rw [freeReq_eq]
      simp only [hl, List.erase_cons_head]
    exact freeAll_induction (l := l) (s := freeReq t r s) hP (hP s r l h hl) hl'

/-- What freeing all requests of the list leaves as it was, and what it records. -/
structure AllFreed (t : Tid) (s u : State) : Prop where
  ev : u.ev = s.ev
  adding : u.adding = s.adding
  stopping : u.stopping = s.stopping
  lock : u.lock = s.lock
  length : u.reqs.length = s.reqs.length
  cb : ∀ r, (u.req r).cb = (s.req r).cb
  log : ∃ es, u.log = s.log ++ es ∧ ∀ e ∈ es, ∃ r, e = .useAfterFree r ∨ e = .freed r t

theorem freeAll_frame {t : Tid} (hu : u = s.reqlist.foldl (fun s r => freeReq t r s) { s with pipe := [] }) :
    u.reqlist = [] ∧ AllFreed t s u := by
  subst hu
  have h := freeAll_induction (P := AllFreed t s) (t := t) (s := { s with pipe := [] })
    (fun v r l hv _ => by
      obtain ⟨es, hlog, hes⟩ := hv.log
      rw [freeReq_eq]
      refine ⟨hv.ev, hv.adding, hv.stopping, hv.lock, (List.length_modify _ _ _).trans hv.length, ?_,
        es ++ (v.used r ++ [.freed r t]), ?_, List.forall_mem_append.mpr ⟨hes, ?_⟩⟩
      · intro r'
        exact (cb_of_modify (f := freedReq) rfl killReqAndWait_sameUse.cb).trans (hv.cb r')
      · dsimp only
        rw [hlog, List.append_assoc]
      · exact forall_used_append ⟨r, Or.inl rfl⟩ (List.forall_mem_singleton.mpr ⟨r, Or.inr rfl⟩))
    ⟨rfl, rfl, rfl, rfl, rfl, fun _ => rfl, [], (List.append_nil _).symm, by simp⟩ rfl
  exact ⟨h.2, h.1⟩

/-- All that is recorded until `nl_url_req_deinit` returns. -/
theorem AllFreed.returned {t : Tid} {P : Event → Prop} {e : Event} (h : AllFreed t s u) (hu : ∀ r, P (.useAfterFree r))
    (hf : ∀ r, P (.freed r t)) (he : P e) : ∃ es, u.log ++ [e] = s.log ++ es ∧ ∀ e ∈ es, P e := by
  obtain ⟨es, hlog, hes⟩ := h.log
  refine ⟨es ++ [e], by rw [hlog, List.append_assoc], List.forall_mem_append.mpr ⟨?_, List.forall_mem_singleton.mpr he⟩⟩
  intro e he
  obtain ⟨r, rfl | rfl⟩ := hes e he
  · exact hu r
  · exact hf r

theorem Inv.mem_of_ev (I : Inv s) (h : s.ev.req = some r) (hg : s.ev ≠ .giveUp r) : r ∈ s.reqlist :=
  I.held.listed r h hg

/-! ### The owners -/

theorem own_freeAll {t : Tid} (O : Own s) (ha : s.adding = []) :
    Own (s.reqlist.foldl (fun s r => freeReq t r s) { s with pipe := [] }) := by
  have O' : Own { s with pipe := [] } := O.same ⟨rfl, rfl, rfl, List.nil_sublist _⟩
  refine (freeAll_induction (P := fun v => Own v ∧ v.adding = [] ∧ v.pipe = []) (t := t) ?_
    ⟨O', ha, rfl⟩ rfl).1.1
  intro v r l h _
  obtain ⟨hO, hadd, hpipe⟩ := h
  rw [freeReq_eq]
  refine ⟨hO.free ?_ ?_ rfl rfl rfl rfl, hadd, hpipe⟩
  · rw [hadd]
    exact List.not_mem_nil
  · rw [State.queued, hpipe]
    exact List.not_mem_nil

theorem own_step (I : Inv s) (h : Moves s a u) : Own u := by
  have O := I.own
  have H := I.held
  -- Most steps change neither the list nor the memory of a request.
  have same {v : State} (hr : v.reqs = s.reqs) (hl : v.reqlist = s.reqlist) (ha : v.adding = s.adding)
      (hq : v.queued = s.queued) : Own v := O.same ⟨hr, hl, ha, hq ▸ List.Sublist.refl _⟩
  cases h with
  | reject | wait | unread | toStart | notRegistered | notified | exited | joined => exact same rfl rfl rfl rfl
  | allocate => exact O.allocate rfl rfl
  | enqueue ha ht hl hf =>
    refine O.enqueue ha (AddFails.ok_length hf) rfl (fun _ => preparedReq_live)
      (fun q => ⟨preparedReq_reading, ?_, ?_⟩) rfl rfl ?_
    · exact cloneParams_sameUse.outbuf
    · exact cloneParams_sameUse.errbuf
    · exact List.filterMap_append
  | putBack ha => exact O.putBack ha rfl (fun _ => rfl) (fun _ => rfl) rfl rfl rfl
  | shutdown hc hl hp => exact same rfl rfl rfl (queued_append hp)
  | read he hp =>
    refine O.same ⟨rfl, rfl, rfl, ?_⟩
    rw [State.queued, State.queued, hp]
    exact (List.sublist_cons_self _ _).filterMap _
  | noted he hl hs => exact same rfl rfl rfl (queued_append hs.messages)
  | rechecked he hl hs => exact same rfl rfl rfl (queued_append hs.messages)
  | deinitStop hd ha hr hb hp => exact same rfl rfl rfl (queued_append hp)
  | deinitLate hd ha hr hb hp => exact same rfl rfl rfl (queued_append hp)
  | started he hf hq | notStarted he hc hf hq =>
    exact O.modify (H.listed _ (by rw [he]; rfl) (by simp [he])) (H.unqueued _ (by rw [he]; rfl)) rfl hq.live rfl rfl
      rfl
  | registered he hf =>
    exact O.modify (H.listed _ (by rw [he]; rfl) (by simp [he])) (H.unqueued _ (by rw [he]; rfl)) rfl rfl rfl rfl rfl
  | unfinished he hr hg => exact O.modify (O.readable _ hr).1 (O.readable _ hr).2 rfl (hg _).live rfl rfl rfl
  | finished he hr hg => exact O.modify (O.readable _ hr).1 (O.readable _ hr).2 rfl (hg _).live rfl rfl rfl
  | abandon he | gaveUp he | released he =>
    exact O.free (H.known _ (by rw [he]; rfl)).2 (H.unqueued _ (by rw [he]; rfl)) rfl rfl rfl rfl
  | freedAll hd hu =>
    subst hu
    have ha : s.adding = [] := I.ending.quiet (by simp [hd])
    exact (own_freeAll O ha).same ⟨rfl, rfl, rfl, List.Sublist.refl _⟩

/-! ### The event thread -/

/-- The event thread goes on with the request it works on. -/
theorem Held.keep {r : ReqId} (H : Held s) (hs : s.ev.req = some r) (hu : u.ev.req = some r) (hn : s.ev ≠ .giveUp r)
    (hr : u.reqs.length = s.reqs.length) (hl : u.reqlist = s.reqlist) (ha : u.adding = s.adding)
    (hq : u.queued = s.queued) : Held u := by
  refine ⟨fun r' hr' => ?_, fun r' hr' => ?_, fun r' hr' _ => ?_⟩ <;> obtain rfl : r = r' := by simpa [hu] using hr'
  · exact hq ▸ H.unqueued r hs
  · rw [hr, ha]
    exact H.known r hs
  · exact hl ▸ H.listed r hs hn

/-- The event thread starts to work on a request of the list. -/
theorem Own.take {r : ReqId} (O : Own s) (hu : u.ev.req = some r) (hm : r ∈ s.reqlist)
    (hr : u.reqs.length = s.reqs.length) (hl : u.reqlist = s.reqlist) (ha : u.adding = s.adding)
    (hq : r ∉ u.queued) : Held u := by
  refine ⟨fun r' hr' => ?_, fun r' hr' => ?_, fun r' hr' _ => ?_⟩ <;> obtain rfl : r = r' := by simpa [hu] using hr'
  · exact hq
  · rw [hr, ha]
    exact ⟨lt_length_of_isLive ((O.live r).mpr (Or.inl hm)), fun hm' => O.apart r hm' hm⟩
  · exact hl ▸ hm

theorem held_step (I : Inv s) (h : Moves s a u) : Held u := by
  have O := I.own
  have H := I.held
  have same {v : State} (hr : v.reqs = s.reqs) (hl : v.reqlist = s.reqlist) (ha : v.adding = s.adding)
      (hq : v.queued = s.queued) (he : v.ev = s.ev) : Held v := H.same ⟨hr, hl, ha, hq ▸ List.Sublist.refl _⟩ he
  cases h with
  | reject | wait | joined => exact same rfl rfl rfl rfl rfl
  | unread | noted | registered | gaveUp | unfinished | released | rechecked | exited => exact .of_none rfl
  | allocate =>
    refine ⟨H.unqueued, ?_, H.listed⟩
    intro r hr
    obtain ⟨hlt, ha⟩ := H.known r hr
    refine ⟨?_, ?_⟩
    · rw [List.length_append]
      exact Nat.lt_add_right _ hlt
    · rw [List.map_cons, List.mem_cons, not_or]
      exact ⟨Nat.ne_of_lt hlt, ha⟩
  | enqueue ha ht hl hf =>
    refine ⟨?_, ?_, fun r hr hg => List.mem_append_left _ (H.listed r hr hg)⟩
    · intro r hr
      have hne : r ≠ _ := fun he => (H.known r hr).2 (he ▸ List.mem_map_of_mem ha)
      rw [State.queued, List.filterMap_append, List.mem_append, not_or]
      refine ⟨H.unqueued r hr, ?_⟩
      simpa using hne
    · intro r hr
      obtain ⟨hlt, hna⟩ := H.known r hr
      exact ⟨by simpa using hlt, fun hm => hna ((mem_adding_erase O.adding_nodup ha).mp hm).1⟩
  | putBack ha =>
    refine ⟨H.unqueued, ?_, H.listed⟩
    intro r hr
    obtain ⟨hlt, hna⟩ := H.known r hr
    exact ⟨by simpa using hlt, fun hm => hna ((mem_adding_erase O.adding_nodup ha).mp hm).1⟩
  | shutdown hc hl hp => exact same rfl rfl rfl (queued_append hp) rfl
  | deinitStop hd ha hr hb hp => exact same rfl rfl rfl (queued_append hp) rfl
  | deinitLate hd ha hr hb hp => exact same rfl rfl rfl (queued_append hp) rfl
  | read he hp =>
    rename_i m ms
    cases m with
    | none => exact .of_none rfl
    | some r =>
      have hq : s.queued = r :: ms.filterMap id := by rw [State.queued, hp]; rfl
      refine O.take rfl (O.queued r (by simp [hq])) rfl rfl rfl ?_
      exact (List.nodup_cons.mp (hq ▸ O.queued_nodup)).1
  | toStart he | notRegistered he | notified he =>
    exact H.keep (by rw [he]; rfl) rfl (by simp [he]) rfl rfl rfl rfl
  | started he | notStarted he =>
    exact H.keep (by rw [he]; rfl) rfl (by simp [he]) (List.length_modify _ _ _) rfl rfl rfl
  | finished he hr hg =>
    exact O.take rfl (O.readable _ hr).1 (List.length_modify _ _ _) rfl rfl (O.readable _ hr).2
  | abandon he hl =>
    rename_i r
    refine ⟨fun r' hr' => ?_, fun r' hr' => ?_, fun r' hr' hg => ?_⟩ <;> obtain rfl : r = r' := by
      simpa [EvPc.req] using hr'
    · exact H.unqueued r (by rw [he]; rfl)
    · obtain ⟨hlt, hna⟩ := H.known r (by rw [he]; rfl)
      exact ⟨by simpa using hlt, hna⟩
    · exact absurd rfl hg
  | freedAll hd hu =>
    refine .of_none ?_
    rw [(freeAll_frame hu).2.ev, I.ending.freeing _ _ hd]
    rfl

/-! ### The end of a context -/

theorem Ending.same (E : Ending s) (hr : u.running = s.running) (het : u.eventThread = s.eventThread)
    (hel : u.evloop = s.evloop) (hd : u.deinit = s.deinit) (ha : s.adding = [] → u.adding = [])
    (hl : s.reqlist = [] → u.reqlist = []) (he : u.ev = s.ev ∨ s.ev ≠ .ended) : Ending u := by
  have hev (h : s.ev = .ended) : u.ev = .ended := he.elim (fun he => he.trans h) (fun hn => absurd h hn)
  refine ⟨fun h => hev (E.running (hr ▸ h)), fun h => hev (E.eventThread (het ▸ h)), ?_, ?_,
    fun t b h => hev (E.freeing t b (hd ▸ h)), ?_⟩
  · intro h
    obtain ⟨hs, hend⟩ := E.evloop (hel ▸ h)
    exact ⟨hd ▸ hs, hev hend⟩
  · intro h
    exact ha (E.quiet (hd ▸ h))
  · intro h
    obtain ⟨hend, hnil⟩ := E.returned (hd ▸ h)
    exact ⟨hev hend, hl hnil⟩

theorem Ending.of_no_deinit (E : Ending s) (hs : s.deinit = none) (hr : u.running = s.running)
    (het : u.eventThread = s.eventThread) (hel : u.evloop = s.evloop) (hd : u.deinit = s.deinit)
    (he : u.ev = s.ev) : Ending u := by
  have hu : u.deinit = none := hd.trans hs
  refine ⟨fun h => he.trans (E.running (hr ▸ h)), fun h => he.trans (E.eventThread (het ▸ h)), ?_, ?_, ?_, ?_⟩
  · intro h
    exact absurd hs (E.evloop (hel ▸ h)).1
  · intro h
    exact absurd hu h
  · intro t b h
    rw [hu] at h
    cases h
  · intro h
    rw [hu] at h
    cases h

theorem deinit_of_mayCall {t : Nat} (h : s.mayCall t = true) : s.deinit = none := by
  simp only [mayCall, Bool.and_eq_true, Option.isNone_iff_eq_none] at h
  exact h.1

theorem deinit_of_adding (E : Ending s) {a : Adding} (h : a ∈ s.adding) : s.deinit = none := by
  refine Decidable.byContradiction ?_
  intro hn
  rw [E.quiet hn] at h
  cases h

theorem ending_step (I : Inv s) (h : Moves s a u) : Ending u := by
  have E := I.ending
  cases h with
  | reject hc | shutdown hc => exact E.same rfl rfl rfl rfl id id (Or.inl rfl)
  | allocate hc => exact E.of_no_deinit (deinit_of_mayCall hc) rfl rfl rfl rfl rfl
  | enqueue ha | putBack ha => exact E.of_no_deinit (deinit_of_adding E ha) rfl rfl rfl rfl rfl
  | wait hd he => exact ⟨E.running, fun _ => he, E.evloop, E.quiet, E.freeing, E.returned⟩
  | unread he | read he | noted he | toStart he | started he | notStarted he | registered he | notRegistered he
  | unfinished he | finished he | notified he | rechecked he =>
    exact E.same rfl rfl rfl rfl id id (Or.inr (by simp [he]))
  | abandon he | gaveUp he | released he =>
    exact E.same rfl rfl rfl rfl id (fun hl => by simp [hl]) (Or.inr (by simp [he]))
  | exited he =>
    have hr {t b} : s.deinit ≠ some (.freeing t b) := fun h => by simpa [he] using E.freeing t b h
    have hr' : s.deinit ≠ some .returned := fun h => by simpa [he] using (E.returned h).1
    exact ⟨fun _ => rfl, fun _ => rfl, fun h => ⟨(E.evloop h).1, rfl⟩, E.quiet, fun _ _ h => absurd h hr,
      fun h => absurd h hr'⟩
  | deinitStop hd ha hr hb hp =>
    refine ⟨E.running, E.eventThread, ?_, fun _ => ha, ?_, ?_⟩
    · intro h
      exact absurd hd (E.evloop h).1
    · intro t b h
      cases h
    · intro h
      cases h
  | deinitLate hd ha hr hb hp =>
    have hend : s.ev = .ended := by
      rcases hr with hr | hr | hr
      · exact E.running hr
      · exact (E.evloop hr).2
      · exact E.eventThread hr
    refine ⟨E.running, E.eventThread, fun h => ⟨by simp, hend⟩, fun _ => ha, fun t b h => hend, ?_⟩
    intro h
    cases h
  | joined hd he =>
    refine ⟨E.running, fun _ => he, fun h => ⟨by simp, he⟩, fun _ => E.quiet (by simp [hd]), fun t b h => he, ?_⟩
    intro h
    cases h
  | freedAll hd hu =>
    obtain ⟨hnil, hf⟩ := freeAll_frame hu
    have hev := hf.ev.trans (I.ending.freeing _ _ hd)
    have hadd := hf.adding.trans (I.ending.quiet (by simp [hd]))
    exact ⟨fun _ => hev, fun _ => hev, fun _ => ⟨by simp, hev⟩, fun _ => hadd, fun _ _ _ => hev, fun _ => ⟨hev, hnil⟩⟩

theorem inv_init {fd : Nat} : Inv (.init fd) where
  own := by
    refine ⟨Nat.two_pow_pos 31, List.nodup_nil, ?_, ?_, List.nodup_nil, ?_, List.nodup_nil, ?_⟩
    · intro r
      simp [State.init, isLive]
    · simp [State.init]
    · simp [State.init, State.queued]
    · intro r hr
      simp [State.init, State.readable, State.req] at hr
  held := .of_none rfl
  ending := by constructor <;> simp [State.init]

/-- Every step is a move from a state of the invariant, and keeps the invariant. -/
theorem Inv.moves (I : Inv s) (h : step s a = some u) : Moves s a u :=
  step_moves I.own.len (fun _ ha => I.own.apart _ (List.mem_map_of_mem ha)) h

theorem inv_step (I : Inv s) (h : Moves s a u) : Inv u := ⟨own_step I h, held_step I h, ending_step I h⟩

theorem inv_of_reach {fd : Nat} {ok : State → Action → Prop} (h : (context fd).Reach ok s) : Inv s :=
  h.invariant (I := Inv) inv_init fun _ _ _ I _ hs => inv_step I (Inv.moves I hs)

end

/-- Parameters that `nl_url_req_add` takes. -/
def httpParams : Params := { url := some (bytes "http://localhost/") }

end Nlutils.UrlReq
