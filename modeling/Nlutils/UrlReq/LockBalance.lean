import Nlutils.UrlReq.Freed

/-! # Every call leaves the lock as it found it

But for `nl_url_req_add`: when a call that it makes under the lock fails, its `error` label returns without unlocking.
And but for the call of `control_pipe_handler` in which `start_curl` fails: it uses the freed request before it returns,
and what it does then is not defined. -/

namespace Nlutils.UrlReq
open Lib State

/-- A call returned at the lock depth at which it began, unless it was an `nl_url_req_add` in which a call under
    the lock had failed; those returned at another depth. -/
def Event.balanced : Event → Prop
  | .returned _ c before after => after = before ↔ c ≠ .add (some false)
  | _ => True

/-- The depths that the calls in progress remember are still those of their threads. -/
structure Depths (s : State) : Prop where
  event : s.ev ≠ .idle → s.ev ≠ .ended → s.evBase = s.lock.depth .event
  adding : ∀ a ∈ s.adding, a.base = s.lock.depth (.caller a.thread)
  threads : (s.adding.map (·.thread)).Nodup
  waiting : ∀ t b, s.deinit = some (.waiting t b) → b = s.lock.depth (.caller t)
  freeing : ∀ t b, s.deinit = some (.freeing t b) → b = s.lock.depth (.caller t)
  log : ∀ e ∈ s.log, e.balanced

section
variable {s u : State} {a : Action} {es : List Event}

theorem balanced_returned {t : Tid} {c : Call} {d d' : Nat} (hd : d' = d) (hc : c ≠ .add (some false)) :
    (Event.returned t c d d').balanced := ⟨fun _ => hc, fun _ => hd⟩

theorem balanced_used {r : ReqId} : ∀ e ∈ s.used r, e.balanced := forall_used trivial

/-- Callers are in one call at a time. -/
theorem thread_ne_of_erase {l : List Adding} {a b : Adding} (hn : (l.map (·.thread)).Nodup) (ha : a ∈ l)
    (hb : b ∈ l.erase a) : b.thread ≠ a.thread := by
  intro he
  have hp := (List.perm_cons_erase ha).map (·.thread)
  have hn' : (a.thread :: (l.erase a).map (·.thread)).Nodup := hp.nodup_iff.mp hn
  exact (List.nodup_cons.mp hn').1 (he ▸ List.mem_map_of_mem hb)

/-- A step of the event thread, or one that no call remembers. -/
theorem Depths.same (D : Depths s) (hlock : u.lock = s.lock) (hadd : u.adding = s.adding) (hd : u.deinit = s.deinit)
    (hev : u.ev ≠ .idle → u.ev ≠ .ended → u.evBase = s.lock.depth .event) (hlog : u.log = s.log ++ es)
    (he : ∀ e ∈ es, e.balanced) : Depths u where
  event h h' := hlock ▸ hev h h'
  adding := by rw [hadd, hlock]; exact D.adding
  threads := hadd ▸ D.threads
  waiting := by rw [hd, hlock]; exact D.waiting
  freeing := by rw [hd, hlock]; exact D.freeing
  log := by rw [hlog]; exact List.forall_mem_append.mpr ⟨D.log, he⟩

theorem Checks.balanced {asked b : Bool} {p : List (Option ReqId)} {d : List Event} (h : Checks s asked b p d) :
    ∀ e ∈ d, e.balanced := by
  cases h with
  | skip => simp
  | drain => exact List.forall_mem_singleton.mpr trivial

theorem depths_step (I : Inv s) (D : Depths s) (h : Moves s a u) : Depths u := by
  have ev (he : s.ev ≠ .idle) (he' : s.ev ≠ .ended) : s.lock.depth .event = s.evBase := (D.event he he').symm
  cases h with
  | reject | shutdown =>
    exact D.same rfl rfl rfl D.event rfl (List.forall_mem_singleton.mpr (balanced_returned rfl (by simp)))
  | allocate hc hp =>
    rename_i t _ _ _
    have hne : ∀ b ∈ s.adding, b.thread ≠ t := by
      simp only [mayCall, Bool.and_eq_true, List.all_eq_true, bne_iff_ne] at hc
      exact hc.2
    refine ⟨D.event, ?_, List.nodup_cons.mpr ⟨?_, D.threads⟩, D.waiting, D.freeing, D.log⟩
    · intro b hb
      rcases List.mem_cons.mp hb with rfl | hb
      · rfl
      · exact D.adding b hb
    · intro hm
      obtain ⟨b, hb, ht⟩ := List.mem_map.mp hm
      exact hne b hb ht
  | enqueue ha ht hl hf =>
    have ht' := by simpa using List.find?_some ht
    refine ⟨D.event, fun b hb => D.adding b (List.mem_of_mem_erase hb), D.threads.sublist (List.erase_sublist.map _),
      D.waiting, D.freeing, List.forall_mem_append.mpr ⟨D.log, ?_⟩⟩
    intro e he
    simp only [List.mem_cons, List.not_mem_nil, or_false] at he
    rcases he with rfl | rfl
    · trivial
    · exact balanced_returned (ht' ▸ (D.adding _ ha).symm) (by simp)
  | putBack ha ht hl hf =>
    rename_i t _ a _
    obtain rfl : a.thread = t := by simpa using List.find?_some ht
    have hd : s.deinit = none := deinit_of_adding I.ending ha
    -- No other thread holds the lock, and no other call of this thread is in progress.
    have other {t : Tid} (h : .caller a.thread ≠ t) : (s.lock.lock (.caller a.thread)).depth t = s.lock.depth t :=
      RecMutex.depth_lock_ne hl h
    refine ⟨?_, ?_, D.threads.sublist (List.erase_sublist.map _), ?_,
      ?_, List.forall_mem_append.mpr ⟨D.log, forall_used_append trivial ?_⟩⟩
    · intro h h'
      exact (D.event h h').trans (other (by simp)).symm
    · intro b hb
      have hne : b.thread ≠ a.thread := thread_ne_of_erase D.threads ha hb
      exact (D.adding b (List.mem_of_mem_erase hb)).trans (other (by simpa using hne.symm)).symm
    · intro t b h
      rw [hd] at h
      cases h
    · intro t b h
      rw [hd] at h
      cases h
    · intro e he
      simp only [List.mem_cons, List.not_mem_nil, or_false] at he
      rcases he with rfl | rfl
      · trivial
      · have hdepth := RecMutex.depth_lock_self hl
        rw [← D.adding a ha] at hdepth
        simp [Event.balanced, hdepth]
  | wait => exact D.same rfl rfl rfl D.event (List.append_nil _).symm (by simp)
  | unread => exact D.same rfl rfl rfl (by simp) rfl (List.forall_mem_singleton.mpr (balanced_returned rfl (by simp)))
  | read => exact D.same rfl rfl rfl (fun _ _ => rfl) (List.append_nil _).symm (by simp)
  | noted he hl hs | rechecked he hl hs =>
    have hd := ev (by simp [he]) (by simp [he])
    exact D.same rfl rfl rfl (by simp) rfl
      (List.forall_mem_append.mpr ⟨hs.balanced, List.forall_mem_singleton.mpr (balanced_returned hd (by simp))⟩)
  | toStart he =>
    exact D.same rfl rfl rfl (fun _ _ => (ev (by simp [he]) (by simp [he])).symm) (List.append_nil _).symm (by simp)
  | started he | notStarted he | notRegistered he =>
    exact D.same rfl rfl rfl (fun _ _ => (ev (by simp [he]) (by simp [he])).symm) rfl balanced_used
  | abandon he =>
    exact D.same rfl rfl rfl (fun _ _ => (ev (by simp [he]) (by simp [he])).symm) rfl
      (forall_used_append trivial (by simp [Event.balanced]))
  | registered he =>
    have hd := ev (by simp [he]) (by simp [he])
    exact D.same rfl rfl rfl (by simp) rfl
      (forall_used_append trivial (List.forall_mem_singleton.mpr (balanced_returned hd (by simp))))
  | gaveUp he =>
    have hd := ev (by simp [he]) (by simp [he])
    exact D.same rfl rfl rfl (by simp) rfl (forall_used_append trivial (by simp [Event.balanced, hd]))
  | unfinished =>
    exact D.same rfl rfl rfl (by simp) rfl
      (forall_used_append trivial (List.forall_mem_singleton.mpr (balanced_returned rfl (by simp))))
  | finished => exact D.same rfl rfl rfl (fun _ _ => rfl) rfl balanced_used
  | notified he =>
    refine D.same rfl rfl rfl (fun _ _ => (ev (by simp [he]) (by simp [he])).symm) rfl (forall_used_append trivial ?_)
    split <;> simp [Event.balanced]
  | released he =>
    exact D.same rfl rfl rfl (fun _ _ => (ev (by simp [he]) (by simp [he])).symm) rfl
      (forall_used_append trivial (List.forall_mem_singleton.mpr trivial))
  | exited => exact D.same rfl rfl rfl (by simp) (List.append_nil _).symm (by simp)
  | deinitStop | deinitLate => exact ⟨D.event, D.adding, D.threads, by simp, by simp, D.log⟩
  | joined hd => exact ⟨D.event, D.adding, D.threads, by simp, by simpa using D.waiting _ _ hd, D.log⟩
  | freedAll hd hu =>
    rename_i t base v
    obtain ⟨-, hf⟩ := freeAll_frame hu
    have hreturned : (Event.returned (.caller t) .deinit base (s.lock.depth (.caller t))).balanced :=
      balanced_returned (D.freeing _ _ hd).symm (by simp)
    obtain ⟨es, hlog, hes⟩ := hf.returned (P := Event.balanced) (fun _ => trivial) (fun _ => trivial) hreturned
    refine ⟨fun _ h => absurd (hf.ev.trans (I.ending.freeing _ _ hd)) h, ?_, hf.adding ▸ D.threads, by simp, by simp,
      ?_⟩
    · rw [hf.adding, hf.lock]
      exact D.adding
    · dsimp only
      rw [hlog]
      exact List.forall_mem_append.mpr ⟨D.log, hes⟩

theorem depths_of_reach {fd : Nat} (h : (context fd).Reach Machine.anyStep s) : Depths s :=
  h.invariant_of (I := Depths) (fun _ h => inv_of_reach h)
    (by constructor <;> simp [context, State.init])
    fun _ _ _ I D _ hs => depths_step I D (Inv.moves I hs)

/-- A `start_curl` that fails is on its way to a use of the freed request. -/
theorem startFailed_of_step (hfail : startSucceeds s a = false) (h : Moves s a u) : ∃ r, u.ev = .startFailed r := by
  cases h with
  | started he hf =>
    simp only [startSucceeds, he, List.all_eq_false, Bool.not_eq_true', Bool.not_eq_false] at hfail
    obtain ⟨c, hc, hfc⟩ := hfail
    rw [hf c hc] at hfc
    cases hfc
  | @notStarted _ _ r => exact ⟨r, rfl⟩
  | _ => cases hfail

theorem used_of_startFailed {r : ReqId} (he : s.ev = .startFailed r) (h : Moves s a u) :
    u.ev = .startFailed r ∨ .useAfterFree r ∈ u.log := by
  cases h with
  | abandon he' =>
    obtain rfl := EvPc.startFailed.inj (he.symm.trans he')
    exact Or.inr (by simp)
  | freedAll hd hu => exact Or.inl ((freeAll_frame hu).2.ev.trans he)
  | reject | allocate | enqueue | putBack | shutdown | wait | deinitStop | deinitLate | joined => exact Or.inl he
  | unread he' | read he' | noted he' | toStart he' | started he' | notStarted he' | registered he' | notRegistered he'
  | gaveUp he' | unfinished he' | finished he' | notified he' | released he' | rechecked he' | exited he' =>
    rw [he] at he'
    cases he'

/-- In every run in which no `start_curl` fails, the calls that did not return at the lock depth at which they began are
    those of `nl_url_req_add` in which a call under the lock had failed. Where `start_curl` fails, no step leads out of
    the call of `control_pipe_handler` but one that uses the freed request. -/
theorem returned_balanced {fd : Nat} (h : (context fd).Reach (startSucceeds · · = true) s) :
    (∀ t c before after, .returned t c before after ∈ s.log → (after = before ↔ c ≠ .add (some false))) ∧
    ∀ a u, startSucceeds s a = false → step s a = some u → ∃ r, u.ev = .startFailed r ∧
      ∀ b v, step u b = some v → v.ev = .startFailed r ∨ .useAfterFree r ∈ v.log := by
  refine ⟨fun _ _ _ _ hm => (depths_of_reach h.any).log _ hm, fun a u hfail hstep => ?_⟩
  have hmoves := Inv.moves (inv_of_reach h) hstep
  obtain ⟨r, hr⟩ := startFailed_of_step hfail hmoves
  exact ⟨r, hr, fun b v hv => used_of_startFailed hr (Inv.moves (inv_step (inv_of_reach h) hmoves) hv)⟩

end

theorem returned_balanced_add : ∃ s, (context 5).Reach (startSucceeds · · = true) s ∧
    .returned (.caller 0) (.add (some true)) 0 0 ∈ s.log ∧
      ((0 : Nat) = 0 ↔ Call.add (some true) ≠ .add (some false)) := by
  obtain ⟨s, hr, hp⟩ := Machine.exists_reach_of_run (M := context 5) startSucceeds
    [.addBegin 0 true httpParams true, .addFinish 0 {}]
    (fun s => decide (.returned (.caller 0) (.add (some true)) 0 0 ∈ s.log)) (fun _ _ h => h) (by decide)
  have hp := of_decide_eq_true hp
  exact ⟨s, hr, hp, (returned_balanced hr).1 _ _ _ _ hp⟩

/-- The write to the control pipe fails: the caller returns with the lock, and another one waits for it forever. -/
theorem not_balanced_writeFails : ∃ s, (context 5).Reach Machine.anyStep s ∧
    .returned (.caller 0) (.add (some false)) 0 1 ∈ s.log ∧ s.lock.canLock (.caller 1) = false ∧
      s.lock.canLock .event = false := by
  obtain ⟨s, hr, hp⟩ := Machine.exists_reach_of_run (M := context 5) (fun _ _ => true)
    [.addBegin 0 true httpParams true, .addFinish 0 { write := true }]
    (fun s => decide (.returned (.caller 0) (.add (some false)) 0 1 ∈ s.log ∧ s.lock.canLock (.caller 1) = false ∧
      s.lock.canLock .event = false)) (fun _ _ _ => trivial) (by decide)
  exact ⟨s, hr, of_decide_eq_true hp⟩

end Nlutils.UrlReq
