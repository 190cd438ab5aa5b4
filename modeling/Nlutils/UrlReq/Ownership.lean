import Nlutils.UrlReq.Moves

/-! # Who owns a request

In every run, whatever fails: a request that has not been freed is on the request list, or its
`nl_url_req_add` has not locked yet. A request that the control pipe carries, that the event loop reads or
that the event thread works on is on the list too, and no two of these share it. Only the way to the `error`
label of `control_pipe_handler` loses it. -/

namespace Nlutils.UrlReq
open Lib State

/-- The requests that the control pipe carries. -/
def State.queued (s : State) : List ReqId := s.pipe.filterMap id

/-- The request that the event thread works on. -/
def EvPc.req : EvPc → Option ReqId
  | .dispatch m => m
  | .starting r | .startFailed r | .registering r | .giveUp r | .notify r | .release r => some r
  | .idle | .recheck | .ended => none

/-- The owners of the requests. -/
structure Own (s : State) : Prop where
  len : s.reqlist.length < 2 ^ 31
  nodup : s.reqlist.Nodup
  live : ∀ r, s.isLive r = true ↔ r ∈ s.reqlist ∨ r ∈ s.adding.map (·.req)
  apart : ∀ r ∈ s.adding.map (·.req), r ∉ s.reqlist
  adding_nodup : (s.adding.map (·.req)).Nodup
  queued : ∀ r ∈ s.queued, r ∈ s.reqlist
  queued_nodup : s.queued.Nodup
  readable : ∀ r, s.readable r = true → r ∈ s.reqlist ∧ r ∉ s.queued

/-- The event thread is alone with the request it works on. -/
structure Held (s : State) : Prop where
  unqueued : ∀ r, s.ev.req = some r → r ∉ s.queued
  known : ∀ r, s.ev.req = some r → r < s.reqs.length ∧ r ∉ s.adding.map (·.req)
  listed : ∀ r, s.ev.req = some r → s.ev ≠ .giveUp r → r ∈ s.reqlist

/-- What has happened once the context is being torn down. -/
structure Ending (s : State) : Prop where
  running : s.running = false → s.ev = .ended
  eventThread : s.eventThread = false → s.ev = .ended
  evloop : s.evloop = false → s.deinit ≠ none ∧ s.ev = .ended
  quiet : s.deinit ≠ none → s.adding = []
  freeing : ∀ t b, s.deinit = some (.freeing t b) → s.ev = .ended
  returned : s.deinit = some .returned → s.ev = .ended ∧ s.reqlist = []

/-! ### Reading one request of a changed state -/

section
variable {s u : State} {r r' : ReqId} {f : Req → Req}

theorem isLive_of_eq (h : u.reqs = s.reqs) : u.isLive r = s.isLive r := by
  unfold isLive
  rw [h]

theorem req_of_eq (h : u.reqs = s.reqs) : u.req r = s.req r := by
  unfold State.req
  rw [h]

theorem readable_of_eq (h : u.reqs = s.reqs) : u.readable r = s.readable r := by
  unfold State.readable
  rw [req_of_eq h]

/-- A request that has not been allocated reads as a new one. -/
theorem req_of_append (h : u.reqs = s.reqs ++ [({} : Req)]) : u.req r = s.req r := by
  simp only [State.req, h, List.getD_eq_getElem?_getD, List.getElem?_append]
  split
  · rfl
  · next hr =>
    rw [List.getElem?_eq_none (Nat.le_of_not_lt hr)]
    cases r - s.reqs.length <;> rfl

theorem readable_of_append (h : u.reqs = s.reqs ++ [({} : Req)]) : u.readable r = s.readable r := by
  unfold State.readable
  rw [req_of_append h]

theorem isLive_of_modify (h : u.reqs = s.reqs.modify r f) (hf : (f (s.req r)).live = (s.req r).live) :
    u.isLive r' = s.isLive r' := by
  have hu : u.isLive r' = (s.setReq r f).isLive r' := isLive_of_eq h
  rw [hu]
  unfold isLive
  rw [getElem?_setReq]
  cases hq : s.reqs[r']? with
  | none => rfl
  | some q =>
    simp only [Option.map_some, Option.any_some]
    split
    · next he =>
      rw [he, req_of_getElem? hq] at hf
      exact hf
    · rfl

theorem req_of_modify_ne (h : u.reqs = s.reqs.modify r f) (hne : r ≠ r') : u.req r' = s.req r' :=
  (req_of_eq (s := s.setReq r f) h).trans (req_setReq_of_ne hne)

theorem req_of_modify_self (h : u.reqs = s.reqs.modify r f) (hr : r < s.reqs.length) : u.req r = f (s.req r) :=
  (req_of_eq (s := s.setReq r f) h).trans (req_setReq_self hr)

theorem cb_of_modify (h : u.reqs = s.reqs.modify r f) (hf : (f (s.req r)).cb = (s.req r).cb) :
    (u.req r').cb = (s.req r').cb := by
  by_cases hne : r = r'
  · subst hne
    by_cases hr : r < s.reqs.length
    · rw [req_of_modify_self h hr, hf]
    · have hu : u.req r = s.req r := by
        have hl : s.reqs.length ≤ r := Nat.le_of_not_lt hr
        simp [State.req, h, hl]
      rw [hu]
  · rw [req_of_modify_ne h hne]

theorem readable_of_modify_ne (h : u.reqs = s.reqs.modify r f) (hne : r ≠ r') : u.readable r' = s.readable r' := by
  unfold State.readable
  rw [req_of_modify_ne h hne]

/-- After its memory has been marked as freed, a request is no longer live, and no other one changes. -/
theorem isLive_of_free (h : u.reqs = s.reqs.modify r f) (hf : ∀ q, (f q).live = false) :
    u.isLive r' = true ↔ s.isLive r' = true ∧ r' ≠ r := by
  have hu : u.isLive r' = (s.setReq r f).isLive r' := isLive_of_eq h
  rw [hu]
  unfold isLive
  rw [getElem?_setReq]
  by_cases hr : r = r'
  · subst hr
    cases s.reqs[r]? <;> simp [hf]
  · have hr' : r' ≠ r := fun he => hr he.symm
    cases s.reqs[r']? <;> simp [hr, hr']

/-- The event loop does not read a request whose bufferevents have been freed. -/
theorem readable_of_free (h : u.reqs = s.reqs.modify r f) (hf : ∀ q, (f q).outbuf = false)
    (hr : u.readable r' = true) : s.readable r' = true ∧ r' ≠ r := by
  by_cases hne : r = r'
  · subst hne
    exfalso
    by_cases hlt : r < s.reqs.length
    · have := req_of_modify_self h hlt
      simp [State.readable, this, hf] at hr
    · have hd : u.req r = {} := by
        have : u.reqs.length ≤ r := by rw [h, List.length_modify]; exact Nat.le_of_not_lt hlt
        simp [State.req, List.getElem?_eq_none this]
      simp [State.readable, hd] at hr
  · exact ⟨(readable_of_modify_ne h hne).symm.trans hr, fun he => hne he.symm⟩

end

/-! ### What keeps the owners -/

section
variable {s u : State} {r : ReqId} {f : Req → Req}

/-- Requests, list, callers and pipe as before; a message may have left the pipe. -/
structure SameReqs (s u : State) : Prop where
  reqs : u.reqs = s.reqs
  reqlist : u.reqlist = s.reqlist
  adding : u.adding = s.adding
  queued : u.queued.Sublist s.queued

theorem Own.same (O : Own s) (h : SameReqs s u) : Own u where
  len := h.reqlist ▸ O.len
  nodup := h.reqlist ▸ O.nodup
  live r := by rw [isLive_of_eq h.reqs, h.reqlist, h.adding]; exact O.live r
  apart := by rw [h.reqlist, h.adding]; exact O.apart
  adding_nodup := h.adding ▸ O.adding_nodup
  queued r hr := h.reqlist ▸ O.queued r (h.queued.mem hr)
  queued_nodup := O.queued_nodup.sublist h.queued
  readable r hr := by
    obtain ⟨hl, hq⟩ := O.readable r (readable_of_eq h.reqs ▸ hr)
    exact ⟨h.reqlist ▸ hl, fun hm => hq (h.queued.mem hm)⟩

theorem Held.same (H : Held s) (h : SameReqs s u) (he : u.ev = s.ev) : Held u where
  unqueued r hr hm := H.unqueued r (he ▸ hr) (h.queued.mem hm)
  known r hr := by rw [h.reqs, h.adding]; exact H.known r (he ▸ hr)
  listed r hr hg := h.reqlist ▸ H.listed r (he ▸ hr) (he ▸ hg)

theorem Held.of_none (h : u.ev.req = none) : Held u := by
  constructor <;> (intro r hr; rw [h] at hr; cases hr)

/-- A new request is its caller's. -/
theorem Own.allocate (O : Own s) {a : Adding} (ha : a.req = s.reqs.length)
    (hu : u = { s with reqs := s.reqs ++ [{}], adding := a :: s.adding }) : Own u := by
  subst hu
  have hfresh : s.isLive a.req = false := by simp [isLive, ha]
  have hnew : a.req ∉ s.reqlist ∧ a.req ∉ s.adding.map (·.req) := by
    rw [← not_or, ← O.live a.req, hfresh]
    exact Bool.false_ne_true
  refine ⟨O.len, O.nodup, ?_, ?_, ?_, O.queued, O.queued_nodup,
    fun r hr => O.readable r ((readable_of_append rfl).symm.trans hr)⟩
  · intro r
    rw [List.map_cons, List.mem_cons, or_left_comm, ← O.live r]
    simp only [isLive, List.getElem?_append]
    by_cases hr : r < s.reqs.length
    · have : r ≠ a.req := ha ▸ Nat.ne_of_lt hr
      simp [hr, this]
    · by_cases he : r = s.reqs.length
      · simp [he, ha]
      · have hlt : s.reqs.length < r := Nat.lt_of_le_of_ne (Nat.le_of_not_lt hr) (Ne.symm he)
        have hne : r ≠ a.req := ha ▸ he
        have hsub : r - s.reqs.length ≠ 0 := Nat.sub_ne_zero_of_lt hlt
        simp [hr, hne, hsub]
  · intro r hr
    rcases List.mem_cons.mp hr with he | hr
    · exact he ▸ hnew.1
    · exact O.apart r hr
  · exact List.nodup_cons.mpr ⟨hnew.2, O.adding_nodup⟩

theorem mem_adding_erase {l : List Adding} {a : Adding} (hn : (l.map (·.req)).Nodup) (ha : a ∈ l) {r : ReqId} :
    r ∈ (l.erase a).map (·.req) ↔ r ∈ l.map (·.req) ∧ r ≠ a.req := by
  have hp := (List.perm_cons_erase ha).map (·.req)
  have hn' : (a.req :: (l.erase a).map (·.req)).Nodup := hp.nodup_iff.mp hn
  rw [hp.mem_iff, List.map_cons, List.mem_cons]
  constructor
  · intro hr
    exact ⟨Or.inr hr, fun he => (List.nodup_cons.mp hn').1 (he ▸ hr)⟩
  · rintro ⟨he | hr, hne⟩
    · exact absurd he hne
    · exact hr

/-- A request that its caller puts on the list and into the pipe. -/
theorem Own.enqueue (O : Own s) {a : Adding} (ha : a ∈ s.adding) (hlen : s.reqlist.length + 1 < 2 ^ 31)
    (hreqs : u.reqs = s.reqs.modify a.req f) (hf : ∀ q, (f q).live = q.live)
    (hfr : ∀ q, (f q).reading = q.reading ∧ (f q).outbuf = q.outbuf ∧ (f q).errbuf = q.errbuf)
    (hadding : u.adding = s.adding.erase a) (hlist : u.reqlist = s.reqlist ++ [a.req])
    (hpipe : u.queued = s.queued ++ [a.req]) : Own u := by
  have hmem : a.req ∈ s.adding.map (·.req) := List.mem_map_of_mem ha
  have hnot : a.req ∉ s.reqlist := O.apart _ hmem
  have hlive : a.req < s.reqs.length := lt_length_of_isLive ((O.live _).mpr (Or.inr hmem))
  have herase {r : ReqId} := mem_adding_erase O.adding_nodup ha (r := r)
  have hread {r : ReqId} (hr : u.readable r = true) : s.readable r = true := by
    by_cases hne : a.req = r
    · subst hne
      unfold State.readable at hr ⊢
      rwa [req_of_modify_self hreqs hlive, (hfr _).1, (hfr _).2.1, (hfr _).2.2] at hr
    · exact readable_of_modify_ne hreqs hne ▸ hr
  refine ⟨?_, ?_, ?_, ?_, ?_, ?_, ?_, ?_⟩
  · rw [hlist, List.length_append]
    exact hlen
  · rw [hlist, List.nodup_append]
    exact ⟨O.nodup, by simp, fun x hx y hy he => hnot (by simp_all)⟩
  · intro r
    rw [isLive_of_modify hreqs (hf _), O.live r, hlist, hadding, herase, List.mem_append, List.mem_singleton]
    by_cases he : r = a.req
    · simp [he, hmem]
    · simp [he]
  · intro r hr
    rw [hadding, herase] at hr
    rw [hlist, List.mem_append, List.mem_singleton, not_or]
    exact ⟨O.apart r hr.1, hr.2⟩
  · rw [hadding]
    exact O.adding_nodup.sublist (List.erase_sublist.map _)
  · intro r hr
    rw [hpipe, List.mem_append, List.mem_singleton] at hr
    rw [hlist, List.mem_append, List.mem_singleton]
    exact hr.imp_left (O.queued r)
  · rw [hpipe, List.nodup_append]
    refine ⟨O.queued_nodup, by simp, fun x hx y hy he => hnot (O.queued _ ?_)⟩
    simp_all
  · intro r hr
    obtain ⟨hl, hq⟩ := O.readable r (hread hr)
    rw [hlist, hpipe, List.mem_append, List.mem_append, List.mem_singleton, not_or]
    exact ⟨Or.inl hl, hq, fun he => hnot (he ▸ hl)⟩

/-- A request that its caller frees. -/
theorem Own.putBack (O : Own s) {a : Adding} (ha : a ∈ s.adding) (hreqs : u.reqs = s.reqs.modify a.req f)
    (hf : ∀ q, (f q).live = false) (hfo : ∀ q, (f q).outbuf = false) (hadding : u.adding = s.adding.erase a)
    (hlist : u.reqlist = s.reqlist) (hpipe : u.queued = s.queued) : Own u := by
  have hnot : a.req ∉ s.reqlist := O.apart _ (List.mem_map_of_mem ha)
  have herase {r : ReqId} := mem_adding_erase O.adding_nodup ha (r := r)
  refine ⟨hlist ▸ O.len, hlist ▸ O.nodup, ?_, ?_, ?_, ?_, hpipe ▸ O.queued_nodup, ?_⟩
  · intro r
    rw [isLive_of_free hreqs hf, O.live r, hlist, hadding, herase]
    by_cases he : r = a.req
    · simp [he, hnot]
    · simp [he]
  · intro r hr
    rw [hadding, herase] at hr
    exact hlist ▸ O.apart r hr.1
  · rw [hadding]
    exact O.adding_nodup.sublist (List.erase_sublist.map _)
  · rw [hpipe, hlist]
    exact O.queued
  · intro r hr
    rw [hlist, hpipe]
    exact O.readable r (readable_of_free hreqs hfo hr).1

/-- A change to a request on the list that the pipe does not carry. -/
theorem Own.modify (O : Own s) (hr : r ∈ s.reqlist) (hq : r ∉ s.queued) (hreqs : u.reqs = s.reqs.modify r f)
    (hf : (f (s.req r)).live = (s.req r).live) (hadding : u.adding = s.adding) (hlist : u.reqlist = s.reqlist)
    (hpipe : u.queued = s.queued) : Own u := by
  refine ⟨hlist ▸ O.len, hlist ▸ O.nodup, ?_, ?_, hadding ▸ O.adding_nodup, ?_, hpipe ▸ O.queued_nodup, ?_⟩
  · intro r'
    rw [isLive_of_modify hreqs hf, hlist, hadding]
    exact O.live r'
  · rw [hadding, hlist]
    exact O.apart
  · rw [hpipe, hlist]
    exact O.queued
  · intro r' hr'
    rw [hlist, hpipe]
    by_cases he : r = r'
    · exact he ▸ ⟨hr, hq⟩
    · exact O.readable r' (readable_of_modify_ne hreqs he ▸ hr')

/-- `free_req` on a request that is neither in the pipe nor its caller's. -/
theorem Own.free (O : Own s) (ha : r ∉ s.adding.map (·.req)) (hq : r ∉ s.queued)
    (hreqs : u.reqs = s.reqs.modify r freedReq) (hadding : u.adding = s.adding) (hlist : u.reqlist = s.reqlist.erase r)
    (hpipe : u.queued = s.queued) : Own u := by
  have hmem {r' : ReqId} : r' ∈ u.reqlist ↔ r' ≠ r ∧ r' ∈ s.reqlist := by rw [hlist, O.nodup.mem_erase_iff]
  refine ⟨?_, hlist ▸ O.nodup.erase r, ?_, ?_, hadding ▸ O.adding_nodup, ?_,
    hpipe ▸ O.queued_nodup, ?_⟩
  · rw [hlist]
    exact Nat.lt_of_le_of_lt List.erase_sublist.length_le O.len
  · intro r'
    rw [isLive_of_free hreqs fun _ => rfl, O.live r', hmem, hadding]
    by_cases he : r' = r
    · simp [he, ha]
    · simp [he]
  · intro r' hr' hl
    exact O.apart r' (hadding ▸ hr') (hmem.mp hl).2
  · intro r' hr'
    rw [hpipe] at hr'
    exact hmem.mpr ⟨fun he => hq (he ▸ hr'), O.queued r' hr'⟩
  · intro r' hr'
    obtain ⟨hread, hne⟩ := readable_of_free hreqs (fun _ => rfl) hr'
    obtain ⟨hl, hq'⟩ := O.readable r' hread
    exact ⟨hmem.mpr ⟨hne, hl⟩, hpipe ▸ hq'⟩

end
end Nlutils.UrlReq
