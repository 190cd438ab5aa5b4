import Nlutils.Thread.Registry
import Nlutils.Thread.TimeoutLock

/-! # Signalling the threads (`nl_signal_threads` of `thread.c`)

A call goes on without the lock when others have held it for too long: while the context is destroyed, or when calls
that look at the list are slow, and then any of them may change it. The call signals the threads that it has found but
its own and those that calls of `nl_join_thread` have unlinked meanwhile. The infos that it has to read may be freed;
when only the destruction of the context joins threads, this is so only up to that of the calling thread. -/

namespace Nlutils.Thread
open Lib

/-- `nl_signal_one_thread`: the thread that is signalled, and whether it is waited for 25 ms then. -/
def nlSignalOneThread (self : Nat) (t : Info) : Option (Nat × Bool) :=
  if t.thread = self then none else some (t.thread, t.next.isSome)

/-- A call of `nl_signal_threads` that is in the loop of `nl_iterate_threads`: the calling thread, whether it has got
    the lock, `t`, whether the callback has been called for it, and the signals that have been sent. `found` is what
    the list was in the beginning, and `unlinked` what calls of `nl_join_thread` have unlinked since. -/
structure Call where
  self : Nat
  locked : Bool
  t : Option Addr
  called : Bool := false
  sent : List (Nat × Bool) := []
  found : List (Addr × Nat)
  unlinked : List Addr := []
  deriving DecidableEq, Repr

/-- The context with one call of `nl_signal_threads`. Others would only read the list. -/
structure Signalling where
  base : State := {}
  call : Option Call := none
  deriving DecidableEq, Repr

inductive SignalAction
  /-- Another call. -/
  | other (act : Action)
  /-- `nl_timeout_lock` has returned this, and the loop begins. -/
  | begin (self : Nat) (ret : Int)
  | callback
  /-- `t = t->next`. -/
  | advance
  /-- The loop is over, and the lock is unlocked. -/
  | finish
  deriving DecidableEq, Repr

/-- What a call of `nl_join_thread` unlinks. -/
def Action.unlinks : Action → List Addr
  | .unlink info => [info]
  | _ => []

/-- What it uses has been freed when the context has been destroyed. -/
def signalStep (s : Signalling) : SignalAction → Option Signalling
  | .other act =>
    (step s.base act).map fun base =>
      ⟨base, s.call.map fun c => { c with unlinked := act.unlinks ++ c.unlinked }⟩
  | .begin self ret =>
    if ret = 0 ∨ ret = ebusy then
      if s.base.destroying = .done then none
      else some { s with call := some {
        self := self
        locked := ret == 0
        t := s.base.ctx.threads
        found := s.base.registered } }
    else some s
  | .callback =>
    s.call.bind fun c => c.t.bind fun t => (s.base.ctx.infos.get t).map fun i =>
      { s with call := some { c with called := true, sent := c.sent ++ (nlSignalOneThread c.self i).toList } }
  | .advance =>
    s.call.bind fun c => c.t.bind fun t => (s.base.ctx.infos.get t).map fun i =>
      { s with call := some { c with called := false, t := i.next } }
  | .finish => if s.base.destroying = .done then none else some { s with call := none }

/-- The thread that has been joined when the action happens. -/
def joinedThread (s : State) : Action → Option Nat
  | .join info => s.ctx.threadOf info
  | .destroyJoin =>
    match s.destroying with
    | .waiting info => s.ctx.threadOf info
    | _ => none
  | _ => none

def Action.isJoin : Action → Bool
  | .join _ => true
  | _ => false

/-- Meanwhile the calling thread is not joined, and with the lock held only calls that have unlocked it go on: those of
    the destruction do not, for it is either another thread's or the one that the call has interrupted. -/
def Call.Allows (c : Call) (s : State) (act : Action) : Prop :=
  joinedThread s act ≠ some c.self ∧ (c.locked = true → act.isJoin = true)

/-- When an action can happen: the program is at this place. Each time that the lock is tried, it may be held by any
    of the others. -/
def signalOk (s : Signalling) : SignalAction → Prop
  | .other act => ok s.base act ∧ ∀ c ∈ s.call, c.Allows s.base act
  | .begin _ _ => s.call = none
  | .callback => ∃ c ∈ s.call, c.called = false ∧ c.t ≠ none
  | .advance => ∃ c ∈ s.call, c.called = true
  | .finish => ∃ c ∈ s.call, c.called = false ∧ c.t = none

instance (c : Call) (s : State) (act : Action) : Decidable (c.Allows s act) :=
  inferInstanceAs (Decidable (joinedThread s act ≠ some c.self ∧ (c.locked = true → act.isJoin = true)))

instance (s : Signalling) : DecidablePred (signalOk s)
  | .other act => inferInstanceAs (Decidable (ok s.base act ∧ ∀ c ∈ s.call, c.Allows s.base act))
  | .begin _ _ => inferInstanceAs (Decidable (s.call = none))
  | .callback => inferInstanceAs (Decidable (∃ c ∈ s.call, c.called = false ∧ c.t ≠ none))
  | .advance => inferInstanceAs (Decidable (∃ c ∈ s.call, c.called = true))
  | .finish => inferInstanceAs (Decidable (∃ c ∈ s.call, c.called = false ∧ c.t = none))

def signalling : Machine Signalling SignalAction := ⟨{}, signalStep⟩

/-! ### What is sent -/

/-- The signals for a list of threads: one to each but the calling one, with a wait after it where more follow. -/
def signals (self : Nat) : List (Addr × Nat) → List (Nat × Bool)
  | [] => []
  | p :: l => if p.2 = self then signals self l else (p.2, !l.isEmpty) :: signals self l

/-- What the callback is still to be called for. -/
def Call.toCall (c : Call) (rest : List (Addr × Nat)) : List (Addr × Nat) := if c.called then rest.tail else rest

/-- What the loop has come past, or called the callback for. -/
def Call.passed (c : Call) (before rest : List (Addr × Nat)) : List (Addr × Nat) :=
  if c.called then before ++ rest.take 1 else before

/-- The loop is at the beginning of `rest`, and the callback has been called for the `visited`. -/
structure Call.At (c : Call) (visited before rest : List (Addr × Nat)) : Prop where
  found : c.found = before ++ rest
  cursor : c.t = rest.head?.map (·.1)
  inOrder : visited.Sublist (c.passed before rest)
  passed : ∀ p ∈ c.passed before rest, p ∈ visited ∨ p.1 ∈ c.unlinked
  sent : c.sent.map (·.1) = (visited.map (·.2)).filter (· ≠ c.self)
  all : c.unlinked = [] → c.sent ++ signals c.self (c.toCall rest) = signals c.self c.found

/-- There is a wait after every signal but the last, and after this one if the loop is to go on. -/
structure Call.Waits (c : Call) (infos : Heap Info) : Prop where
  waits : ∀ p ∈ c.sent.dropLast, p.2 = true
  before : c.called = false → c.t ≠ none → ∀ p ∈ c.sent, p.2 = true
  after : c.called = true → ∀ a ∈ c.t, ∀ i, infos.get a = some i → i.next ≠ none → ∀ p ∈ c.sent, p.2 = true

/-- From each info that was found, the list goes on behind it, past infos that have been unlinked. -/
def Call.Links (c : Call) (infos : Heap Info) : Prop :=
  ∀ xs p ys i, c.found = xs ++ p :: ys → infos.get p.1 = some i → i.thread = p.2 ∧
    ∃ us vs, ys = us ++ vs ∧ i.next = vs.head?.map (·.1) ∧ ∀ u ∈ us, u.1 ∈ c.unlinked

/-- Of what was found, the destruction has joined and freed what is `gone`, and is to join what is `left` after the
    `others`. -/
structure Remains (s : State) (c : Call) (others gone left : List (Addr × Nat)) : Prop where
  found : c.found = gone ++ left
  toJoin : s.toJoin = others ++ left
  order : others = [] ∨ gone = []
  self : ∀ p ∈ gone, p.2 ≠ c.self
  begun : s.destroying = .no → gone = []
  locked : c.locked = true → gone = []

/-- What every action keeps while a call goes on. -/
structure CallInv (s : State) (c : Call) : Prop where
  place : ∃ visited before rest, c.At visited before rest
  waits : c.Waits s.ctx.infos
  links : c.Links s.ctx.infos
  remains : c.unlinked = [] → ∃ others gone left, Remains s c others gone left
  created : ∀ p ∈ c.found, p ∈ s.created
  locked : c.locked = true → c.unlinked = [] ∧ s.destroying ≠ .done

section
variable {s t : State} {act : Action} {c : Call} {visited before rest others gone left xs ys : List (Addr × Nat)}
  {m : Addr × Nat} {infos : Heap Info} {ctx ctx' : Ctx} {info a : Addr} {thread n : Nat} {p prev cur : Option Addr}
  {i : Info}

theorem segment_head (h : Segment Info.next Info.thread infos p xs none) : p = xs.head?.map (·.1) := by
  cases xs with
  | nil => exact h
  | cons m xs => exact h.1

/-- What an info of a list holds. -/
theorem segment_info (h : Segment Info.next Info.thread infos p (xs ++ m :: ys) none) :
    infos.get m.1 = some ⟨m.2, ys.head?.map (·.1)⟩ := by
  obtain ⟨r, -, rfl, v, hget, hthread, hys⟩ := segment_append.mp h
  obtain ⟨thread, next⟩ := v
  obtain rfl : thread = m.2 := hthread
  rw [hget, ← segment_head hys]

theorem nlSignalOneThread_eq (self : Nat) (i : Info) : (nlSignalOneThread self i).toList =
    if i.thread = self then [] else [(i.thread, i.next.isSome)] := by
  rw [nlSignalOneThread]
  split <;> rfl

/-! ### What the other calls do to the infos -/

theorem joinUnlocked_cases (h : joinUnlocked info ctx = some (thread, ctx')) : ctx.threadOf info = some thread ∧
    ctx'.infos.get info = none ∧ ∀ b, b ≠ info → ctx'.infos.get b = ctx.infos.get b := by
  obtain ⟨i, hget, h⟩ := Option.bind_eq_some_iff.mp h
  obtain ⟨infos, hfree, h⟩ := Option.map_eq_some_iff.mp h
  cases h
  obtain ⟨infos', hfree', hself, hother, -⟩ := Heap.free_eq_some hget
  obtain rfl : infos' = infos := Option.some.inj (hfree'.symm.trans hfree)
  exact ⟨congrArg (Option.map _) hget, hself, hother⟩

/-- The first info is unlinked without a write to an info. -/
theorem joinLocked_first (hfirst : ctx.threads = some info) (h : joinLocked info ctx = some ctx') :
    ctx'.infos = ctx.infos := by
  obtain ⟨i, hget, h⟩ := Option.bind_eq_some_iff.mp h
  simp only [hfirst, unlinkLoop, hget, Option.bind_some, if_true, Option.some.injEq] at h
  rw [← h]

/-- An info that leads to another leads to the one behind it when the other has been unlinked. -/
def Relinks (info a : Addr) (infos infos' : Heap Info) : Prop :=
  ∃ v w, infos.get a = some v ∧ v.next = some info ∧ infos.get info = some w ∧
    infos'.get a = some { v with next := w.next }

theorem unlinkLoop_cases (hprev : ∀ b ∈ prev, ∃ v, ctx.infos.get b = some v ∧ v.next = cur)
    (h : unlinkLoop info n prev cur ctx = some ctx') (a : Addr) :
    ctx'.infos.get a = ctx.infos.get a ∨ Relinks info a ctx.infos ctx'.infos := by
  induction n generalizing prev cur with
  | zero => cases h
  | succ n ih =>
    cases cur with
    | none =>
      cases h
      exact Or.inl rfl
    | some cur =>
      obtain ⟨i, hget, h⟩ := Option.bind_eq_some_iff.mp h
      by_cases hcur : cur = info
      · subst hcur
        rw [if_pos rfl] at h
        cases prev with
        | none =>
          cases h
          exact Or.inl rfl
        | some b =>
          obtain ⟨v, hv, hnext⟩ := hprev b rfl
          obtain ⟨v', hv', h⟩ := Option.bind_eq_some_iff.mp h
          obtain rfl : v' = v := Option.some.inj (hv'.symm.trans hv)
          obtain ⟨infos, hset, rfl⟩ := Option.map_eq_some_iff.mp h
          obtain ⟨infos', hset', hself, hother, -⟩ := Heap.set_eq_some (v := { v' with next := i.next }) hv
          obtain rfl : infos' = infos := Option.some.inj (hset'.symm.trans hset)
          by_cases hab : a = b
          · subst hab
            exact Or.inr ⟨v', i, hv, hnext, hget, hself⟩
          · exact Or.inl (hother a hab)
      · rw [if_neg hcur] at h
        refine ih (fun b hb => ?_) h
        cases hb
        exact ⟨i, hget, rfl⟩

theorem joinLocked_cases (h : joinLocked info ctx = some ctx') (a : Addr) :
    ctx'.infos.get a = ctx.infos.get a ∨ Relinks info a ctx.infos ctx'.infos := by
  obtain ⟨-, -, h⟩ := Option.bind_eq_some_iff.mp h
  exact unlinkLoop_cases (by simp) h a

theorem create_cases {k : Creation} (h : step s (.create k) = some t) : t = s ∨
    (∃ infos, infos.get = s.ctx.infos.get ∧
      t = { s with ctx := { s.ctx with infos := infos }, freed := s.freed ++ [s.ctx.infos.cells.length] }) ∨
    ∃ thread, t = { s with
      ctx := ⟨(s.ctx.infos.alloc ⟨thread, s.ctx.threads⟩).2, some s.ctx.infos.cells.length⟩
      created := (s.ctx.infos.cells.length, thread) :: s.created } := by
  cases k with
  | noMemory =>
    cases h
    exact Or.inl rfl
  | fails err =>
    obtain ⟨infos, hcode, hget, -⟩ := nlCreateThread_fails err s.ctx
    obtain rfl := Option.some.inj ((congrArg (Option.map _) hcode).symm.trans h)
    exact Or.inr (Or.inl ⟨infos, hget, rfl⟩)
  | starts thread =>
    obtain rfl := Option.some.inj ((congrArg (Option.map _) (nlCreateThread_starts thread s.ctx)).symm.trans h)
    exact Or.inr (Or.inr ⟨thread, rfl⟩)

theorem destroyUnlink_cases (h : step s .destroyUnlink = some t) : ∃ info ctx, s.ctx.threads = some info ∧
    joinLocked info s.ctx = some ctx ∧
    t = { s with ctx := ctx, destroying := .waiting info, unlinked := info :: s.unlinked } := by
  obtain ⟨info, hfirst, h⟩ := Option.bind_eq_some_iff.mp h
  obtain ⟨-, -, h⟩ := Option.bind_eq_some_iff.mp h
  obtain ⟨ctx, hcode, rfl⟩ := Option.map_eq_some_iff.mp h
  exact ⟨info, ctx, hfirst, hcode, rfl⟩

theorem destroyJoin_cases (h : step s .destroyJoin = some t) : ∃ info thread ctx, s.destroying = .waiting info ∧
    joinUnlocked info s.ctx = some (thread, ctx) ∧ t = { s with
      ctx := ctx
      destroying := .looping
      joined := s.joined ++ [(info, thread)]
      joinedLeft := s.joinedLeft ++ [(info, thread)]
      freed := s.freed ++ [info] } := by
  cases hd : s.destroying with
  | waiting info =>
    simp only [step, hd] at h
    obtain ⟨⟨thread, ctx⟩, hcode, rfl⟩ := Option.map_eq_some_iff.mp h
    exact ⟨info, thread, ctx, rfl, hcode, rfl⟩
  | no => simp [step, hd] at h
  | looping => simp [step, hd] at h
  | done => simp [step, hd] at h

/-- What a step does to an info that is there: nothing, or it frees it, or it unlinks the next one. -/
theorem step_info (hstep : step s act = some t) (ha : a < s.ctx.infos.cells.length) :
    t.ctx.infos.get a = s.ctx.infos.get a ∨ t.ctx.infos.get a = none ∨
      ∃ info ∈ act.unlinks, Relinks info a s.ctx.infos t.ctx.infos := by
  have hjoin : ∀ {info thread ctx}, joinUnlocked info s.ctx = some (thread, ctx) →
      ctx.infos.get a = s.ctx.infos.get a ∨ ctx.infos.get a = none := by
    intro info thread ctx hcode
    obtain ⟨-, hself, hother⟩ := joinUnlocked_cases hcode
    by_cases hai : a = info
    · subst hai
      exact Or.inr hself
    · exact Or.inl (hother a hai)
  cases act with
  | create k =>
    rcases create_cases hstep with rfl | ⟨infos, hget, rfl⟩ | ⟨thread, rfl⟩
    · exact Or.inl rfl
    · exact Or.inl (congrFun hget a)
    · exact Or.inl (Heap.get_alloc_ne (Nat.ne_of_lt ha))
  | iterate =>
    obtain ⟨_, -, rfl⟩ := Option.map_eq_some_iff.mp hstep
    exact Or.inl rfl
  | unlink info =>
    obtain ⟨ctx, hcode, rfl⟩ := Option.map_eq_some_iff.mp hstep
    rcases joinLocked_cases hcode a with hsame | hrelinks
    · exact Or.inl hsame
    · exact Or.inr (Or.inr ⟨info, List.mem_singleton_self info, hrelinks⟩)
  | join info =>
    obtain ⟨⟨thread, ctx⟩, hcode, rfl⟩ := Option.map_eq_some_iff.mp hstep
    exact (hjoin hcode).imp_right Or.inl
  | destroyBegin =>
    cases hstep
    exact Or.inl rfl
  | destroyUnlink =>
    obtain ⟨info, ctx, hfirst, hcode, rfl⟩ := destroyUnlink_cases hstep
    exact Or.inl (congrArg (Heap.get · a) (joinLocked_first hfirst hcode))
  | destroyJoin =>
    obtain ⟨info, thread, ctx, -, hcode, rfl⟩ := destroyJoin_cases hstep
    exact (hjoin hcode).imp_right Or.inl
  | destroyEnd =>
    cases hstep
    exact Or.inl rfl

theorem step_created (hstep : step s act = some t) : ∀ p ∈ s.created, p ∈ t.created := by
  intro p hp
  cases act with
  | create k =>
    rcases create_cases hstep with rfl | ⟨_, -, rfl⟩ | ⟨_, rfl⟩
    · exact hp
    · exact hp
    · exact List.mem_cons_of_mem _ hp
  | iterate =>
    obtain ⟨_, -, rfl⟩ := Option.map_eq_some_iff.mp hstep
    exact hp
  | unlink info =>
    obtain ⟨_, -, rfl⟩ := Option.map_eq_some_iff.mp hstep
    exact hp
  | join info =>
    obtain ⟨_, -, rfl⟩ := Option.map_eq_some_iff.mp hstep
    exact hp
  | destroyBegin =>
    cases hstep
    exact hp
  | destroyUnlink =>
    obtain ⟨_, _, -, -, rfl⟩ := destroyUnlink_cases hstep
    exact hp
  | destroyJoin =>
    obtain ⟨_, _, _, -, -, rfl⟩ := destroyJoin_cases hstep
    exact hp
  | destroyEnd =>
    cases hstep
    exact hp

/-- What was found still leads to what is behind it, past what has been unlinked before or now. -/
theorem Call.Links.other (L : c.Links s.ctx.infos) (hfound : ∀ p ∈ c.found, p.1 < s.ctx.infos.cells.length)
    (hstep : step s act = some t) :
    Call.Links { c with unlinked := act.unlinks ++ c.unlinked } t.ctx.infos := by
  intro xs p ys i hsplit hget
  have hp : p ∈ c.found := by
    rw [hsplit]
    exact List.mem_append_right xs List.mem_cons_self
  rcases step_info hstep (hfound p hp) with hsame | hnone | ⟨info, hinfo, v, w, hv, hnext, hw, hrelink⟩
  · obtain ⟨hthread, us, vs, hys, hvs, hus⟩ := L xs p ys i hsplit (hsame.symm.trans hget)
    exact ⟨hthread, us, vs, hys, hvs, fun u hu => List.mem_append_right _ (hus u hu)⟩
  · cases hnone.symm.trans hget
  · obtain ⟨hthread, us, vs, hys, hvs, hus⟩ := L xs p ys v hsplit hv
    obtain rfl := Option.some.inj (hrelink.symm.trans hget)
    -- The next one was found, too, and the rest of the list is behind it.
    cases vs with
    | nil => cases hnext.symm.trans hvs
    | cons q ws =>
      obtain rfl : info = q.1 := Option.some.inj (hnext.symm.trans hvs)
      have hsplit' : c.found = (xs ++ p :: us) ++ q :: ws := by
        rw [hsplit, hys, List.append_assoc]
        rfl
      obtain ⟨-, us', vs', hws, hvs', hus'⟩ := L _ q ws w hsplit' hw
      refine ⟨hthread, us ++ q :: us', vs', by rw [hys, hws, List.append_assoc]; rfl, hvs', ?_⟩
      intro u hu
      rcases List.mem_append.mp hu with hu | hu
      · exact List.mem_append_right _ (hus u hu)
      · rcases List.mem_cons.mp hu with rfl | hu
        · exact List.mem_append_left _ hinfo
        · exact List.mem_append_right _ (hus' u hu)

theorem Call.Waits.other (W : c.Waits s.ctx.infos) (ht : ∀ a ∈ c.t, a < s.ctx.infos.cells.length)
    (hstep : step s act = some t) :
    Call.Waits { c with unlinked := act.unlinks ++ c.unlinked } t.ctx.infos := by
  refine ⟨W.waits, W.before, fun hcalled a ha i hget hnext => ?_⟩
  rcases step_info hstep (ht a ha) with hsame | hnone | ⟨info, -, v, w, hv, hvnext, -, -⟩
  · exact W.after hcalled a ha i (hsame.symm.trans hget) hnext
  · cases hnone.symm.trans hget
  · exact W.after hcalled a ha v hv (by rw [hvnext]; exact Option.some_ne_none info)

/-! ### What the destruction does -/

/-- What is to be joined is in memory. -/
theorem Inv.toJoin_live (I : Inv s) (hm : m ∈ s.toJoin) : ∃ i, s.ctx.infos.get m.1 = some i := by
  have hlive : s.ctx.threadOf m.1 = some m.2 := by
    have hreg : m ∈ s.registered → s.ctx.threadOf m.1 = some m.2 := by
      intro hreg
      obtain ⟨hcreated, hnew⟩ := List.mem_filter.mp hreg
      exact (I.live m.1 m.2).mpr ⟨hcreated, Or.inl (of_decide_eq_true hnew)⟩
    cases hd : s.destroying with
    | waiting info =>
      rw [State.toJoin, hd] at hm
      rcases List.mem_append.mp hm with hm | hm
      · obtain ⟨hcreated, hinfo⟩ := List.mem_filter.mp hm
        refine (I.live m.1 m.2).mpr ⟨hcreated, Or.inr ?_⟩
        rw [of_decide_eq_true hinfo, State.busy, hd]
        exact List.mem_cons_self
      · exact hreg hm
    | no => exact hreg (by rwa [State.toJoin, hd] at hm)
    | looping => exact hreg (by rwa [State.toJoin, hd] at hm)
    | done => exact hreg (by rwa [State.toJoin, hd] at hm)
  obtain ⟨i, hi, -⟩ := Option.map_eq_some_iff.mp hlive
  exact ⟨i, hi⟩

/-- A destruction that has begun is not taken back. -/
theorem step_begun (hstep : step s act = some t) (ht : t.destroying = .no) : s.destroying = .no := by
  cases act with
  | create c =>
    obtain ⟨_, -, rfl⟩ := Option.map_eq_some_iff.mp hstep
    exact ht
  | iterate =>
    obtain ⟨_, -, rfl⟩ := Option.map_eq_some_iff.mp hstep
    exact ht
  | unlink info =>
    obtain ⟨_, -, rfl⟩ := Option.map_eq_some_iff.mp hstep
    exact ht
  | join info =>
    obtain ⟨_, -, rfl⟩ := Option.map_eq_some_iff.mp hstep
    exact ht
  | destroyBegin =>
    cases hstep
    cases ht
  | destroyUnlink =>
    obtain ⟨_, _, -, -, rfl⟩ := destroyUnlink_cases hstep
    cases ht
  | destroyJoin =>
    obtain ⟨_, _, _, -, -, rfl⟩ := destroyJoin_cases hstep
    cases ht
  | destroyEnd =>
    cases hstep
    cases ht

/-- What is to be joined changes by a thread that is created, or by the first, which the destruction has joined. -/
theorem step_toJoin (I : Inv s) (D : DestroyInv s) (hok : ok s act) (hstep : step s act = some t)
    (hact : act.unlinks = []) : t.toJoin = s.toJoin ∨ (s.destroying = .no ∧ ∃ m, t.toJoin = m :: s.toJoin) ∨
      (act.isJoin = false ∧ s.destroying ≠ .no ∧
        ∃ p, s.toJoin = p :: t.toJoin ∧ joinedThread s act = some p.2) := by
  cases act with
  | create k =>
    have hno := unlocked_iff.mp hok
    rcases create_cases hstep with rfl | ⟨_, -, rfl⟩ | ⟨thread, rfl⟩
    · exact Or.inl rfl
    · exact Or.inl rfl
    · refine Or.inr (Or.inl ⟨hno, (s.ctx.infos.cells.length, thread), ?_⟩)
      simp only [State.toJoin, hno]
      exact I.registered_starts rfl rfl
  | iterate =>
    obtain ⟨_, -, rfl⟩ := Option.map_eq_some_iff.mp hstep
    exact Or.inl rfl
  | unlink info => cases hact
  | join info =>
    obtain ⟨_, -, rfl⟩ := Option.map_eq_some_iff.mp hstep
    exact Or.inl rfl
  | destroyBegin =>
    cases hstep
    refine Or.inl ?_
    simp only [State.toJoin, unlocked_iff.mp hok]
    rfl
  | destroyUnlink =>
    obtain ⟨t', hstep', -, D', hwaiting, hleft, -⟩ := destroyUnlink_inv I D hok
    obtain rfl : t' = t := Option.some.inj (hstep'.symm.trans hstep)
    obtain ⟨info, ctx, -, -, rfl⟩ := destroyUnlink_cases hstep
    have hleft' := D'.during (by simp)
    have heq : s.toJoin = s.registered := by rw [State.toJoin, hok.1]
    rw [heq]
    exact Or.inl (List.append_cancel_left (hleft'.symm.trans (D.left_eq hok.1)))
  | destroyJoin =>
    obtain ⟨info, thread, ctx, hd, hcode, rfl⟩ := destroyJoin_cases hstep
    obtain ⟨hthread, -⟩ := joinUnlocked_cases hcode
    obtain ⟨hcreated, -⟩ := (I.live info thread).mp hthread
    refine Or.inr (Or.inr ⟨rfl, by simp [hd], (info, thread), ?_, ?_⟩)
    · simp only [State.toJoin, hd, I.filter_eq hcreated]
      rfl
    · rw [joinedThread, hd]
      exact hthread
  | destroyEnd =>
    cases hstep
    refine Or.inl ?_
    simp only [State.toJoin, hok.1]
    rfl

/-- The destruction joins first what is not of the call, and then what was found, in its order. -/
theorem Remains.other (R : Remains s c others gone left) (I : Inv s) (D : DestroyInv s) (hok : ok s act)
    (hstep : step s act = some t) (hact : act.unlinks = []) (hallows : c.Allows s act) :
    ∃ others gone left, Remains t { c with unlinked := act.unlinks ++ c.unlinked } others gone left := by
  rcases step_toJoin I D hok hstep hact with hsame | ⟨hno, m, hnew⟩ | ⟨hjoin, hbegun, p, hfirst, hthread⟩
  · exact ⟨others, gone, left, R.found, hsame.trans R.toJoin, R.order, R.self, fun ht => R.begun (step_begun hstep ht),
      R.locked⟩
  · refine ⟨m :: others, gone, left, R.found, ?_, Or.inr (R.begun hno), R.self, fun _ => R.begun hno, R.locked⟩
    rw [hnew, R.toJoin]
    rfl
  · have hself : p.2 ≠ c.self := by
      intro heq
      exact hallows.1 (hthread.trans (congrArg some heq))
    have hunlocked : c.locked ≠ true := by
      intro hlocked
      rw [hallows.2 hlocked] at hjoin
      cases hjoin
    cases others with
    | nil =>
      have hleft : left = p :: t.toJoin := R.toJoin.symm.trans hfirst
      refine ⟨[], gone ++ [p], t.toJoin, ?_, rfl, Or.inl rfl, ?_, fun ht => absurd (step_begun hstep ht) hbegun,
        fun h => absurd h hunlocked⟩
      · rw [R.found, hleft, List.append_assoc]
        rfl
      · intro q hq
        rcases List.mem_append.mp hq with hq | hq
        · exact R.self q hq
        · rw [List.mem_singleton.mp hq]
          exact hself
    | cons q others =>
      obtain ⟨-, htoJoin⟩ := List.cons.inj (R.toJoin.symm.trans hfirst)
      have hgone : gone = [] := R.order.resolve_left (List.cons_ne_nil q others)
      exact ⟨others, gone, left, R.found, htoJoin.symm, Or.inr hgone, R.self, fun _ => hgone, R.locked⟩

/-! ### The loop -/

theorem Call.At.exists_cons (A : c.At visited before rest) (ht : c.t = some a) :
    ∃ m more, rest = m :: more ∧ m.1 = a := by
  have hcursor := A.cursor
  rw [ht] at hcursor
  cases rest with
  | nil => cases hcursor
  | cons m more => exact ⟨m, more, rfl, (Option.some.inj hcursor).symm⟩

/-- The info that the loop is at is one of those that were found. -/
theorem Call.At.head (A : c.At visited before rest) (hm : m ∈ rest.head?) :
    c.t = some m.1 ∧ m ∈ c.found ∧ ∃ more, rest = m :: more := by
  cases rest with
  | nil => cases hm
  | cons q more =>
    obtain rfl : q = m := Option.some.inj hm
    refine ⟨A.cursor, ?_, more, rfl⟩
    rw [A.found]
    exact List.mem_append_right before List.mem_cons_self

theorem eq_nil_of_unlinked (hxs : ∀ u ∈ xs, u.1 ∈ c.unlinked) (hnil : c.unlinked = []) : xs = [] := by
  rw [hnil] at hxs
  exact List.eq_nil_iff_forall_not_mem.mpr fun u hu => List.not_mem_nil (hxs u hu)

/-- The callback sends the signal to the thread of the info. -/
theorem Call.At.callback (A : c.At visited before (m :: rest)) (hcalled : c.called = false) (hthread : i.thread = m.2)
    (hnext : c.unlinked = [] → i.next = rest.head?.map (·.1)) :
    Call.At { c with called := true, sent := c.sent ++ (nlSignalOneThread c.self i).toList } (visited ++ [m]) before
      (m :: rest) := by
  have hpassed : c.passed before (m :: rest) = before := by simp [Call.passed, hcalled]
  refine ⟨A.found, A.cursor, ?_, ?_, ?_, fun hnil => ?_⟩
  · have hvisited := A.inOrder
    rw [hpassed] at hvisited
    exact hvisited.append (List.Sublist.refl [m])
  · intro p hp
    rcases List.mem_append.mp hp with hp | hp
    · exact (A.passed p (hpassed.symm ▸ hp)).imp_left (List.mem_append_left [m])
    · exact Or.inl (List.mem_append_right visited hp)
  · rw [List.map_append, A.sent, nlSignalOneThread_eq, hthread, List.map_append, List.filter_append]
    by_cases hself : m.2 = c.self <;> simp [hself]
  · have hall := A.all hnil
    have hsome : i.next.isSome = !rest.isEmpty := by
      rw [hnext hnil]
      cases rest <;> rfl
    simp only [Call.toCall, hcalled, Bool.false_eq_true, if_false, signals] at hall
    rw [← hall, nlSignalOneThread_eq, hthread, hsome, List.append_assoc]
    by_cases hself : m.2 = c.self <;> simp [hself, Call.toCall]

theorem Call.At.advance (A : c.At visited before (m :: (xs ++ ys))) (hcalled : c.called = true)
    (hxs : ∀ u ∈ xs, u.1 ∈ c.unlinked) :
    Call.At { c with called := false, t := ys.head?.map (·.1) } visited (before ++ m :: xs) ys := by
  have hpassed : c.passed before (m :: (xs ++ ys)) = before ++ [m] := by simp [Call.passed, hcalled]
  have hsplit : before ++ m :: xs = before ++ [m] ++ xs := by simp
  refine ⟨?_, rfl, ?_, ?_, A.sent, fun hnil => ?_⟩
  · rw [A.found, List.append_assoc]
    rfl
  · have hvisited := A.inOrder
    rw [hpassed] at hvisited
    have hlonger := hvisited.trans (List.sublist_append_left (before ++ [m]) xs)
    rwa [← hsplit] at hlonger
  · intro p hp
    have hp : p ∈ before ++ m :: xs := hp
    rw [hsplit] at hp
    rcases List.mem_append.mp hp with hp | hp
    · exact A.passed p (hpassed.symm ▸ hp)
    · exact Or.inr (hxs p hp)
  · have hall := A.all hnil
    rw [eq_nil_of_unlinked hxs hnil] at hall
    simp only [Call.toCall, hcalled] at hall
    exact hall

theorem CallInv.other (C : CallInv s c) (I : Inv s) (D : DestroyInv s) (hok : ok s act) (hstep : step s act = some t)
    (hallows : c.Allows s act) : CallInv t { c with unlinked := act.unlinks ++ c.unlinked } := by
  have hbelow : ∀ p ∈ c.found, p.1 < s.ctx.infos.cells.length := fun p hp => I.below p (C.created p hp)
  obtain ⟨visited, before, rest, A⟩ := C.place
  have hnil : act.unlinks ++ c.unlinked = [] → act.unlinks = [] ∧ c.unlinked = [] := List.append_eq_nil_iff.mp
  constructor
  · exact ⟨visited, before, rest, A.found, A.cursor, A.inOrder,
      fun p hp => (A.passed p hp).imp_right (List.mem_append_right _), A.sent, fun h => A.all (hnil h).2⟩
  · refine C.waits.other (fun a ha => ?_) hstep
    obtain ⟨m, more, rfl, rfl⟩ := A.exists_cons ha
    exact hbelow m (A.head rfl).2.1
  · exact C.links.other hbelow hstep
  · intro hunlinks
    obtain ⟨others, gone, left, R⟩ := C.remains (hnil hunlinks).2
    exact R.other I D hok hstep (hnil hunlinks).1 hallows
  · exact fun p hp => step_created hstep p (C.created p hp)
  · intro hlocked
    obtain ⟨hunlinked, hdone⟩ := C.locked hlocked
    have hjoin := hallows.2 hlocked
    cases act with
    | join info =>
      obtain ⟨r, -, rfl⟩ := Option.map_eq_some_iff.mp hstep
      exact ⟨hunlinked, hdone⟩
    | _ => cases hjoin

/-- The loop begins at the list, of which nothing has been freed. -/
theorem callInv_begin (I : Inv s) {self : Nat} {locked : Bool} (hdone : s.destroying ≠ .done) :
    CallInv s { self := self, locked := locked, t := s.ctx.threads, found := s.registered } := by
  have hcursor := segment_head I.lists
  constructor
  · exact ⟨[], [], s.registered, rfl, hcursor, List.Sublist.refl [], by simp [Call.passed], rfl, fun _ => rfl⟩
  · constructor <;> simp
  · intro xs p ys i hsplit hget
    have hlists := I.lists
    have hsplit : s.registered = xs ++ p :: ys := hsplit
    rw [hsplit] at hlists
    obtain rfl := Option.some.inj (hget.symm.trans (segment_info hlists))
    exact ⟨rfl, [], ys, rfl, rfl, by simp⟩
  · intro _
    obtain ⟨others, hothers⟩ : ∃ others, s.toJoin = others ++ s.registered := by
      rw [State.toJoin]
      split
      · exact ⟨_, rfl⟩
      · exact ⟨[], rfl⟩
    exact ⟨others, [], s.registered, rfl, hothers, Or.inr rfl, by simp, fun _ => rfl, fun _ => rfl⟩
  · exact fun p hp => (List.mem_filter.mp hp).1
  · exact fun _ => ⟨rfl, hdone⟩

/-- What the info that the loop is at holds, if it is still there. -/
theorem CallInv.cursor (C : CallInv s c) (A : c.At visited before (m :: rest)) (hget : s.ctx.infos.get m.1 = some i) :
    i.thread = m.2 ∧ ∃ us vs, rest = us ++ vs ∧ i.next = vs.head?.map (·.1) ∧ ∀ u ∈ us, u.1 ∈ c.unlinked :=
  C.links before m rest i A.found hget

theorem CallInv.callback (C : CallInv s c) (hcalled : c.called = false) (ht : c.t = some a)
    (hget : s.ctx.infos.get a = some i) :
    CallInv s { c with called := true, sent := c.sent ++ (nlSignalOneThread c.self i).toList } := by
  obtain ⟨visited, before, rest, A⟩ := C.place
  obtain ⟨m, rest, rfl, rfl⟩ := A.exists_cons ht
  obtain ⟨hthread, us, vs, hrest, hnext, hus⟩ := C.cursor A hget
  have hsent : ∀ p ∈ c.sent, p.2 = true := C.waits.before hcalled (by rw [ht]; exact Option.some_ne_none m.1)
  refine ⟨⟨visited ++ [m], before, m :: rest, A.callback hcalled hthread fun hnil => ?_⟩, ⟨?_, nofun, ?_⟩, C.links, ?_,
    C.created, C.locked⟩
  · rw [hnext, hrest, eq_nil_of_unlinked hus hnil]
    rfl
  · intro p hp
    rw [nlSignalOneThread_eq] at hp
    split at hp
    · rw [List.append_nil] at hp
      exact hsent p (List.dropLast_subset _ hp)
    · rw [List.dropLast_concat] at hp
      exact hsent p hp
  · intro _ b hb j hj hne p hp
    have hb : c.t = some b := hb
    obtain rfl : m.1 = b := Option.some.inj (ht.symm.trans hb)
    obtain rfl : i = j := Option.some.inj (hget.symm.trans hj)
    rw [nlSignalOneThread_eq] at hp
    rcases List.mem_append.mp hp with hp | hp
    · exact hsent p hp
    · split at hp
      · cases hp
      · rw [List.mem_singleton.mp hp]
        exact Option.isSome_iff_ne_none.mpr hne
  · intro hnil
    obtain ⟨others, gone, left, R⟩ := C.remains hnil
    exact ⟨others, gone, left, R.found, R.toJoin, R.order, R.self, R.begun, R.locked⟩

theorem CallInv.advance (C : CallInv s c) (hcalled : c.called = true) (ht : c.t = some a)
    (hget : s.ctx.infos.get a = some i) : CallInv s { c with called := false, t := i.next } := by
  obtain ⟨visited, before, rest, A⟩ := C.place
  obtain ⟨m, rest, rfl, rfl⟩ := A.exists_cons ht
  obtain ⟨-, us, vs, rfl, hnext, hus⟩ := C.cursor A hget
  refine ⟨⟨visited, before ++ m :: us, vs, hnext ▸ A.advance hcalled hus⟩, ⟨C.waits.waits, ?_, nofun⟩, C.links, ?_,
    C.created, C.locked⟩
  · exact fun _ hne => C.waits.after hcalled m.1 ht i hget hne
  · intro hnil
    obtain ⟨others, gone, left, R⟩ := C.remains hnil
    exact ⟨others, gone, left, R.found, R.toJoin, R.order, R.self, R.begun, R.locked⟩

/-- A step of the loop has the memory of the info that it is at. -/
theorem cursor_of_step {s t : Signalling} {f : Call → Info → Signalling} (hc : s.call = some c)
    (h : (s.call.bind fun c => c.t.bind fun a => (s.base.ctx.infos.get a).map (f c)) = some t) :
    ∃ a i, c.t = some a ∧ s.base.ctx.infos.get a = some i ∧ t = f c i := by
  rw [hc, Option.bind_some] at h
  obtain ⟨a, ht, h⟩ := Option.bind_eq_some_iff.mp h
  obtain ⟨i, hget, rfl⟩ := Option.map_eq_some_iff.mp h
  exact ⟨a, i, ht, hget, rfl⟩

/-- The context goes on as without the call, and what holds of the call is kept. -/
theorem signal_inv {s : Signalling} (h : signalling.Reach signalOk s) :
    context.Reach ok s.base ∧ ∀ c ∈ s.call, CallInv s.base c := by
  refine h.invariant (I := fun s => context.Reach ok s.base ∧ ∀ c ∈ s.call, CallInv s.base c) ?_ ?_
  · exact ⟨.init, fun c hc => nomatch hc⟩
  rintro s act t ⟨hreach, hcall⟩ hok hstep
  obtain ⟨I, D⟩ := reach_inv hreach
  cases act with
  | other act =>
    obtain ⟨base, hbase, rfl⟩ := Option.map_eq_some_iff.mp hstep
    refine ⟨hreach.step hok.1 hbase, fun c' hc' => ?_⟩
    obtain ⟨c, hc, rfl⟩ := Option.map_eq_some_iff.mp hc'
    exact (hcall c hc).other I D hok.1 hbase (hok.2 c hc)
  | begin self ret =>
    simp only [signalling, signalStep] at hstep
    split at hstep
    · split at hstep
      · cases hstep
      · next hdone =>
        cases hstep
        exact ⟨hreach, fun c hc => by cases hc; exact callInv_begin I hdone⟩
    · cases hstep
      exact ⟨hreach, hcall⟩
  | callback =>
    obtain ⟨c, hc, hcalled, -⟩ := hok
    obtain ⟨a, i, ht, hget, rfl⟩ := cursor_of_step hc hstep
    refine ⟨hreach, fun c' hc' => ?_⟩
    cases hc'
    exact (hcall c hc).callback hcalled ht hget
  | advance =>
    obtain ⟨c, hc, hcalled⟩ := hok
    obtain ⟨a, i, ht, hget, rfl⟩ := cursor_of_step hc hstep
    refine ⟨hreach, fun c' hc' => ?_⟩
    cases hc'
    exact (hcall c hc).advance hcalled ht hget
  | finish =>
    simp only [signalling, signalStep] at hstep
    split at hstep
    · cases hstep
    · cases hstep
      exact ⟨hreach, nofun⟩

/-- Where no call of `nl_join_thread` has unlinked an info meanwhile, those that were found are joined by the
    destruction only, and not past the calling thread. -/
theorem Remains.live (R : Remains s c others gone left) (I : Inv s) (hfound : c.found = before ++ m :: rest)
    (hself : c.locked = true ∨ ∃ p ∈ before ++ [m], p.2 = c.self) : ∃ i, s.ctx.infos.get m.1 = some i := by
  have hleft : m ∈ left → ∃ i, s.ctx.infos.get m.1 = some i := by
    intro hm
    refine I.toJoin_live (m := m) ?_
    rw [R.toJoin]
    exact List.mem_append_right others hm
  rcases List.append_eq_append_iff.mp (R.found.symm.trans hfound) with ⟨zs, -, hzs⟩ | ⟨zs, hgone, hzs⟩
  · exact hleft (by simp [hzs])
  · cases zs with
    | nil => exact hleft (by rw [show left = m :: rest from hzs.symm]; exact List.mem_cons_self)
    | cons z zs =>
      obtain ⟨rfl, -⟩ := List.cons.inj hzs
      have hgone : gone = before ++ [m] ++ zs := by rw [hgone, List.append_assoc]; rfl
      rcases hself with hlocked | ⟨p, hp, hps⟩
      · have hnil := R.locked hlocked
        simp [hgone] at hnil
      · refine absurd hps (R.self p ?_)
        rw [hgone]
        exact List.mem_append_left zs hp

/-- The same for the end of the destruction. -/
theorem Remains.context (R : Remains s c others gone left) (D : DestroyInv s) (hself : ∃ p ∈ c.found, p.2 = c.self) :
    s.destroying ≠ .done := by
  intro hdone
  have hnil : s.toJoin = [] := by rw [State.toJoin, hdone, D.after hdone]
  obtain ⟨-, hleft⟩ := List.append_eq_nil_iff.mp (R.toJoin.symm.trans hnil)
  obtain ⟨p, hp, hps⟩ := hself
  rw [R.found, hleft, List.append_nil] at hp
  exact R.self p hp hps

end

/-- The callback has been called for threads that were found, in their order and each once, and has signalled those but
    the calling one, with a wait between any two signals. What the loop has come past without calling it has been
    unlinked by a call of `nl_join_thread` meanwhile; when there was none, the signals that have been sent and those of
    what is left are exactly those of the threads that were found.

    The info that the loop is at can have been freed only without the lock, when its thread has been joined, and, if
    only the destruction joins threads, before the loop has come to the calling thread; otherwise it goes on. The end
    of a call that has the lock, or, if only the destruction joins threads, is in the list, finds the context. -/
structure Signals (s : Signalling) (c : Call) (visited before rest : List (Addr × Nat)) : Prop where
  found : c.found = before ++ rest
  cursor : c.t = rest.head?.map (·.1)
  inOrder : visited.Sublist (c.passed before rest)
  passed : ∀ p ∈ c.passed before rest, p ∈ visited ∨ p.1 ∈ c.unlinked
  sent : c.sent.map (·.1) = (visited.map (·.2)).filter (· ≠ c.self)
  waits : ∀ p ∈ c.sent.dropLast, p.2 = true
  all : c.unlinked = [] → c.sent ++ signals c.self (c.toCall rest) = signals c.self c.found
  locked : c.locked = true → c.unlinked = []
  freed : ∀ p ∈ rest.head?, p.1 ∈ s.base.freed → p ∈ s.base.joined ∧ c.locked = false ∧
    (c.unlinked = [] → ∀ q ∈ before ++ [p], q.2 ≠ c.self)
  goesOn : ∀ p ∈ rest.head?, p.1 ∉ s.base.freed →
    ∃ t, signalStep s (if c.called then .advance else .callback) = some t
  finishes : rest = [] → c.unlinked = [] → c.locked = true ∨ (∃ p ∈ c.found, p.2 = c.self) →
    ∃ t, signalStep s .finish = some t

/-- In every interleaving with the other calls. -/
theorem nlSignalThreads_signals (s : Signalling) (c : Call) (h : signalling.Reach signalOk s) (hc : s.call = some c) :
    ∃ visited before rest, Signals s c visited before rest := by
  obtain ⟨hreach, hcall⟩ := signal_inv h
  obtain ⟨I, D⟩ := reach_inv hreach
  have C := hcall c hc
  obtain ⟨visited, before, rest, A⟩ := C.place
  have hlocked : c.locked = true → c.unlinked = [] := fun hl => (C.locked hl).1
  have hfreed : ∀ p ∈ c.found, p.1 ∈ s.base.freed ↔ s.base.ctx.infos.get p.1 = none := by
    intro p hp
    rw [I.freed, and_iff_right (I.below p (C.created p hp)), Ctx.threadOf, Option.map_eq_none_iff]
  refine ⟨visited, before, rest, A.found, A.cursor, A.inOrder, A.passed, A.sent, C.waits.waits, A.all, hlocked, ?_, ?_,
    ?_⟩
  · intro p hp hgone
    obtain ⟨-, hfound, more, rfl⟩ := A.head hp
    have hnone := (hfreed p hfound).mp hgone
    have hsafe : ¬(c.unlinked = [] ∧ (c.locked = true ∨ ∃ q ∈ before ++ [p], q.2 = c.self)) := by
      rintro ⟨hnil, hself⟩
      obtain ⟨others, gone, left, R⟩ := C.remains hnil
      obtain ⟨i, hi⟩ := R.live I A.found hself
      cases hnone.symm.trans hi
    refine ⟨?_, ?_, fun hnil q hq hqs => hsafe ⟨hnil, Or.inr ⟨q, hq, hqs⟩⟩⟩
    · have hdead : ¬(p.1 ∉ s.base.unlinked ∨ p.1 ∈ s.base.busy) := by
        intro hlive
        have hthread := (I.live p.1 p.2).mpr ⟨C.created p hfound, hlive⟩
        rw [Ctx.threadOf, hnone] at hthread
        cases hthread
      obtain ⟨hunlinked, hbusy⟩ := not_or.mp hdead
      exact (I.joined p).mpr ⟨C.created p hfound, not_not.mp hunlinked, hbusy⟩
    · exact Bool.eq_false_iff.mpr fun hl => hsafe ⟨hlocked hl, Or.inl hl⟩
  · intro p hp hnot
    obtain ⟨ht, hfound, -⟩ := A.head hp
    obtain ⟨i, hi⟩ := Option.ne_none_iff_exists'.mp fun hnone => hnot ((hfreed p hfound).mpr hnone)
    split <;> simp only [signalStep, hc, ht, hi, Option.bind_some, Option.map_some] <;> exact ⟨_, rfl⟩
  · rintro rfl hnil hself
    have hdone : s.base.destroying ≠ .done := by
      rcases hself with hl | hself
      · exact (C.locked hl).2
      · obtain ⟨others, gone, left, R⟩ := C.remains hnil
        exact R.context D hself
    exact ⟨_, if_neg hdone⟩

/-- Two threads, of which the second is signalling when the context is destroyed. -/
theorem nlSignalThreads_signals_last : ∃ s c visited before rest, signalling.Reach signalOk s ∧ s.call = some c ∧
    c.t = none ∧ c.sent = [(7, false)] ∧ Signals s c visited before rest := by
  obtain ⟨s, hreach, hs⟩ := Machine.exists_reach_of_run (M := signalling) (fun s a => decide (signalOk s a))
    [.other (.create (.starts 7)), .other (.create (.starts 8)), .other .destroyBegin, .begin 8 ebusy, .callback,
      .other .destroyUnlink, .advance, .callback, .advance]
    (fun s => decide (∃ c ∈ s.call, c.t = none ∧ c.sent = [(7, false)])) (fun _ _ => of_decide_eq_true) (by decide)
  obtain ⟨c, hc, ht, hsent⟩ := of_decide_eq_true hs
  obtain ⟨visited, before, rest, h⟩ := nlSignalThreads_signals s c hreach hc
  exact ⟨s, c, visited, before, rest, hreach, hc, ht, hsent, h⟩

/-- The first of them would read the info of the second when that has been joined and freed by the destruction, and the
    second that of the first when it is a call of `nl_join_thread` that has joined this. -/
theorem signalling_freed : (∃ s c, signalling.Reach signalOk s ∧ s.call = some c ∧ c.unlinked = [] ∧
      ∃ a ∈ c.t, a ∈ s.base.freed) ∧
    ∃ s c, signalling.Reach signalOk s ∧ s.call = some c ∧ (∃ p ∈ c.found.take 1, p.2 = c.self) ∧
      ∃ a ∈ c.t, a ∈ s.base.freed := by
  constructor
  · obtain ⟨s, hreach, hs⟩ := Machine.exists_reach_of_run (M := signalling) (fun s a => decide (signalOk s a))
      [.other (.create (.starts 7)), .other (.create (.starts 8)), .other .destroyBegin, .begin 7 ebusy,
        .other .destroyUnlink, .other .destroyJoin]
      (fun s => decide (∃ c ∈ s.call, c.unlinked = [] ∧ ∃ a ∈ c.t, a ∈ s.base.freed)) (fun _ _ => of_decide_eq_true)
      (by decide)
    obtain ⟨c, hc, hnil, hfreed⟩ := of_decide_eq_true hs
    exact ⟨s, c, hreach, hc, hnil, hfreed⟩
  · obtain ⟨s, hreach, hs⟩ := Machine.exists_reach_of_run (M := signalling) (fun s a => decide (signalOk s a))
      [.other (.create (.starts 7)), .other (.create (.starts 8)), .begin 8 ebusy, .callback, .advance,
        .other (.unlink 0), .other (.join 0)]
      (fun s => decide (∃ c ∈ s.call, (∃ p ∈ c.found.take 1, p.2 = c.self) ∧ ∃ a ∈ c.t, a ∈ s.base.freed))
      (fun _ _ => of_decide_eq_true) (by decide)
    obtain ⟨c, hc, hself, hfreed⟩ := of_decide_eq_true hs
    exact ⟨s, c, hreach, hc, hself, hfreed⟩

end Nlutils.Thread
