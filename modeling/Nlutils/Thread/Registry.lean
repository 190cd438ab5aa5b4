import Nlutils.Thread.Code
import Mathlib.Data.List.Nodup
import Mathlib.Data.List.Perm.Subperm

/-! # The list of threads

In every interleaving, the list of a context holds the threads that have been created and not yet joined. -/

namespace Nlutils.Thread
open Lib

/-- The thread of an info that has not been freed. -/
def Ctx.threadOf (ctx : Ctx) (a : Addr) : Option Nat := (ctx.infos.get a).map (·.thread)

/-- The list of a context. -/
def Ctx.Lists (ctx : Ctx) (l : List (Addr × Nat)) : Prop := Segment Info.next Info.thread ctx.infos ctx.threads l none

/-- The threads that have been created and that no call has unlinked, last first. -/
def State.registered (s : State) : List (Addr × Nat) := s.created.filter fun p => p.1 ∉ s.unlinked

/-- The infos that calls of `nl_join_thread` have unlinked and not yet freed. -/
def State.busy (s : State) : List Addr :=
  match s.destroying with
  | .waiting info => info :: s.waiting
  | _ => s.waiting

section
variable {ctx ctx' : Ctx} {l as bs : List (Addr × Nat)} {info a : Addr} {thread n : Nat} {p q : Option Addr}
  {infos : Heap Info} {c : Creation}

/-! ### What the calls do to the list -/

theorem Ctx.Lists.length_lt (h : ctx.Lists l) : l.length < ctx.infos.cells.length + 1 := by
  have hlt : ∀ a ∈ l.map (·.1), a ∈ List.range ctx.infos.cells.length := by
    intro a ha
    obtain ⟨m, hm, rfl⟩ := List.mem_map.mp ha
    obtain ⟨v, hv, -⟩ := Segment.get h hm
    exact List.mem_range.mpr (Heap.lt_of_get hv)
  have hle := (List.subperm_of_subset (Segment.nodup h) hlt).length_le
  rw [List.length_map, List.length_range] at hle
  exact Nat.lt_succ_of_le hle

theorem iterateLoop_eq (h : Segment Info.next Info.thread infos p l none) (hn : l.length < n) :
    iterateLoop infos n p = some (l.map (·.1)) := by
  induction l generalizing p n with
  | nil =>
    obtain rfl : p = none := h
    cases n with
    | zero => cases hn
    | succ n => rfl
  | cons m l ih =>
    obtain ⟨rfl, v, hget, -, hl⟩ := h
    cases n with
    | zero => cases hn
    | succ n =>
      rw [iterateLoop, hget, Option.bind_some, ih hl (Nat.lt_of_succ_lt_succ hn)]
      rfl

theorem nlIterateThreads_eq (h : ctx.Lists l) : nlIterateThreads ctx = some (l.map (·.1)) :=
  iterateLoop_eq h h.length_lt

/-- The infos of a list are different ones. -/
theorem ne_of_lists (hs : ctx.Lists (as ++ bs)) {m k : Addr × Nat} (hm : m ∈ as) (hk : k ∈ bs) : m.1 ≠ k.1 := by
  have hnodup := Segment.nodup hs
  rw [List.map_append, List.nodup_append] at hnodup
  exact hnodup.2.2 m.1 (List.mem_map_of_mem hm) k.1 (List.mem_map_of_mem hk)

/-- The loop has come to the info. -/
theorem unlinkLoop_found (front : List (Addr × Nat)) (hs : ctx.Lists (front ++ (info, thread) :: bs)) (n : Nat) :
    ∃ ctx', unlinkLoop info (n + 1) (front.getLast?.map (·.1)) (some info) ctx = some ctx' ∧ ctx'.Lists (front ++ bs) ∧
      ctx'.threadOf = ctx.threadOf ∧ ctx'.infos.cells.length = ctx.infos.cells.length := by
  obtain ⟨r, hfront, rfl, i, hget, hthread, hbs⟩ := segment_append.mp hs
  rcases List.eq_nil_or_concat front with rfl | ⟨ds, d, rfl⟩
  · refine ⟨{ ctx with threads := i.next }, ?_, hbs, rfl, rfl⟩
    simp only [unlinkLoop, hget, Option.bind_some, if_true]
    rfl
  · rw [List.concat_eq_append] at hs hfront ⊢
    obtain ⟨v, hd, hdv⟩ := Segment.get hfront (List.mem_append_right ds (List.mem_singleton_self d))
    obtain ⟨infos, hset, hself, hother, hlen⟩ := Heap.set_eq_some (v := { v with next := i.next }) hd
    refine ⟨{ ctx with infos := infos }, ?_, ?_, ?_, hlen⟩
    · simp only [unlinkLoop, hget, List.getLast?_concat, Option.map_some, Option.bind_some, if_true, hd, hset]
    · have hrelink : Segment Info.next Info.thread infos ctx.threads (ds ++ [d]) i.next := by
        refine Segment.relink (v := { v with next := i.next }) hfront hself hdv fun m hm => hother m.1 ?_
        rw [List.append_assoc] at hs
        exact ne_of_lists hs hm (List.mem_append_left _ (List.mem_singleton_self d))
      refine hrelink.append (Segment.congr hbs fun m hm => hother m.1 ?_)
      exact (ne_of_lists hs (List.mem_append_right ds (List.mem_singleton_self d))
        (List.mem_cons_of_mem _ hm)).symm
    · funext a
      by_cases ha : a = d.1
      · simp only [Ctx.threadOf, ha, hself, hd, Option.map_some]
      · simp only [Ctx.threadOf, hother a ha]

/-- The loop comes to the info, which is in the list once, and takes it out. -/
theorem unlinkLoop_eq (front : List (Addr × Nat)) (hs : ctx.Lists (front ++ as ++ (info, thread) :: bs))
    (hcur : Segment Info.next Info.thread ctx.infos p (as ++ (info, thread) :: bs) none) (hn : as.length < n) :
    ∃ ctx', unlinkLoop info n (front.getLast?.map (·.1)) p ctx = some ctx' ∧ ctx'.Lists (front ++ as ++ bs) ∧
      ctx'.threadOf = ctx.threadOf ∧ ctx'.infos.cells.length = ctx.infos.cells.length := by
  induction as generalizing front p n with
  | nil =>
    obtain ⟨rfl, -⟩ := hcur
    rw [List.append_nil] at hs ⊢
    cases n with
    | zero => cases hn
    | succ n => exact unlinkLoop_found front hs n
  | cons m as ih =>
    obtain ⟨rfl, v, hget, hv, hrest⟩ := hcur
    have hne : m.1 ≠ info :=
      ne_of_lists hs (k := (info, thread)) (List.mem_append_right front List.mem_cons_self) List.mem_cons_self
    cases n with
    | zero => cases hn
    | succ n =>
      have hsplit : front ++ m :: as = front ++ [m] ++ as := by simp
      have hlast : (front ++ [m]).getLast?.map (·.1) = some m.1 := by simp
      rw [hsplit] at hs ⊢
      rw [unlinkLoop, hget, Option.bind_some, if_neg hne, ← hlast]
      exact ih (front ++ [m]) hs hrest (Nat.lt_of_succ_lt_succ hn)

theorem joinLocked_eq (hs : ctx.Lists (as ++ (info, thread) :: bs)) :
    ∃ ctx', joinLocked info ctx = some ctx' ∧ ctx'.Lists (as ++ bs) ∧ ctx'.threadOf = ctx.threadOf ∧
      ctx'.infos.cells.length = ctx.infos.cells.length := by
  obtain ⟨v, hget, -⟩ := Segment.get hs (List.mem_append_right as List.mem_cons_self)
  have hlen := hs.length_lt
  rw [List.length_append] at hlen
  rw [joinLocked, hget, Option.bind_some]
  exact unlinkLoop_eq [] hs hs (Nat.lt_of_le_of_lt (Nat.le_add_right _ _) hlen)

/-- An info that is freed is not among the others any more. -/
theorem joinUnlocked_eq (hs : ctx.Lists l) (ha : ctx.threadOf a = some thread) (hl : a ∉ l.map (·.1)) :
    ∃ ctx', joinUnlocked a ctx = some (thread, ctx') ∧ ctx'.Lists l ∧ ctx'.threadOf a = none ∧
      (∀ b, b ≠ a → ctx'.threadOf b = ctx.threadOf b) ∧ ctx'.infos.cells.length = ctx.infos.cells.length := by
  obtain ⟨i, hget, rfl⟩ := Option.map_eq_some_iff.mp ha
  obtain ⟨infos, hfree, hself, hother, hlen⟩ := Heap.free_eq_some hget
  refine ⟨{ ctx with infos := infos }, ?_, ?_, ?_, ?_, hlen⟩
  · rw [joinUnlocked, hget, Option.bind_some, hfree]
    rfl
  · refine Segment.congr hs fun m hm => hother m.1 ?_
    rintro rfl
    exact hl (List.mem_map_of_mem hm)
  · simp only [Ctx.threadOf, hself, Option.map_none]
  · intro b hb
    simp only [Ctx.threadOf, hother b hb]

theorem nlCreateThread_starts (thread : Nat) (ctx : Ctx) : nlCreateThread (.starts thread) ctx =
    some (0, some ctx.infos.cells.length,
      ⟨(ctx.infos.alloc ⟨thread, ctx.threads⟩).2, some ctx.infos.cells.length⟩) := by
  have hset := Heap.set_alloc_self (h := ctx.infos) (v := ⟨0, none⟩) (w := ⟨thread, ctx.threads⟩)
  rw [nlCreateThread]
  simp only [Heap.alloc] at hset ⊢
  rw [hset]
  rfl

/-- When no thread is started, the info is freed again. -/
theorem nlCreateThread_fails (err : Nat) (ctx : Ctx) : ∃ infos, nlCreateThread (.fails err) ctx =
      some (err, none, { ctx with infos := infos }) ∧ infos.get = ctx.infos.get ∧
      infos.cells.length = ctx.infos.cells.length + 1 := by
  obtain ⟨infos, hfree, -, -, hlen⟩ := Heap.free_eq_some (Heap.get_alloc_self (h := ctx.infos) (v := ⟨0, none⟩))
  refine ⟨infos, ?_, Heap.get_free_alloc hfree, ?_⟩
  · simp only [nlCreateThread, hfree, Option.map_some]
  · rw [hlen]
    simp [Heap.alloc]

end

/-! ### What an action keeps -/

/-- The list, the infos and what has become of them. -/
structure Inv (s : State) : Prop where
  lists : s.ctx.Lists s.registered
  once : (s.created.map (·.1)).Nodup
  below : ∀ p ∈ s.created, p.1 < s.ctx.infos.cells.length
  known : ∀ a ∈ s.unlinked, ∃ th, (a, th) ∈ s.created
  busyOnce : s.busy.Nodup
  busyUnlinked : ∀ a ∈ s.busy, a ∈ s.unlinked
  live : ∀ a th, s.ctx.threadOf a = some th ↔ (a, th) ∈ s.created ∧ (a ∉ s.unlinked ∨ a ∈ s.busy)
  freedOnce : s.freed.Nodup
  freed : ∀ a, a ∈ s.freed ↔ a < s.ctx.infos.cells.length ∧ s.ctx.threadOf a = none
  joined : ∀ p, p ∈ s.joined ↔ p ∈ s.created ∧ p.1 ∈ s.unlinked ∧ p.1 ∉ s.busy
  joinedOnce : (s.joined.map (·.1)).Nodup

section
variable {s t : State} {a : Addr} {th th' : Nat} {p : Addr × Nat}

/-- An info has one thread. -/
theorem Inv.thread_eq (I : Inv s) (h : (a, th) ∈ s.created) (h' : (a, th') ∈ s.created) : th = th' :=
  congrArg Prod.snd (List.inj_on_of_nodup_map I.once h h' rfl)

/-- The other infos of a list are different from this one. -/
theorem ne_of_split {l as bs : List (Addr × Nat)} (hl : l = as ++ (a, th) :: bs) (hnodup : (l.map (·.1)).Nodup) :
    (∀ p ∈ as, p.1 ≠ a) ∧ ∀ p ∈ bs, p.1 ≠ a := by
  rw [hl, List.map_append, List.nodup_append, List.map_cons, List.nodup_cons] at hnodup
  obtain ⟨-, ⟨hbs, -⟩, has⟩ := hnodup
  constructor
  · exact fun p hp => has p.1 (List.mem_map_of_mem hp) a List.mem_cons_self
  · rintro p hp rfl
    exact hbs (List.mem_map.mpr ⟨p, hp, rfl⟩)

/-- Taking the info out of the list that it is in. -/
theorem filter_ne {l as bs : List (Addr × Nat)} (hl : l = as ++ (a, th) :: bs) (hnodup : (l.map (·.1)).Nodup) :
    l.filter (fun p => p.1 ≠ a) = as ++ bs := by
  obtain ⟨has, hbs⟩ := ne_of_split hl hnodup
  rw [hl, List.filter_append, List.filter_cons_of_neg (by simp)]
  congr 1
  · exact List.filter_eq_self.mpr fun p hp => decide_eq_true (has p hp)
  · exact List.filter_eq_self.mpr fun p hp => decide_eq_true (hbs p hp)

theorem registered_unlink (hc : t.created = s.created) (hu : t.unlinked = a :: s.unlinked) :
    t.registered = s.registered.filter fun p => p.1 ≠ a := by
  rw [State.registered, State.registered, hc, hu, List.filter_filter]
  refine List.filter_congr fun p _ => ?_
  simp [not_or]

/-- An info is taken out of the list. -/
theorem Inv.unlink (I : Inv s) (ha : (a, th) ∈ s.registered) : ∃ ctx, joinLocked a s.ctx = some ctx ∧ ∀ t : State,
    t.ctx = ctx → t.created = s.created → t.unlinked = a :: s.unlinked → t.busy = a :: s.busy → t.freed = s.freed →
    t.joined = s.joined → Inv t := by
  obtain ⟨as, bs, hsplit⟩ := List.append_of_mem ha
  have hlists := I.lists
  rw [hsplit] at hlists
  obtain ⟨ctx, hcode, hlists', hthread, hlen⟩ := joinLocked_eq hlists
  obtain ⟨hcreated, hnew⟩ : (a, th) ∈ s.created ∧ a ∉ s.unlinked := by
    simpa [State.registered] using ha
  refine ⟨ctx, hcode, ?_⟩
  rintro t rfl hc hu hb hf hj
  constructor
  · rw [registered_unlink hc hu, filter_ne hsplit (Segment.nodup I.lists)]
    exact hlists'
  · rw [hc]
    exact I.once
  · rw [hc, hlen]
    exact I.below
  · rw [hc, hu]
    intro b hb
    rcases List.mem_cons.mp hb with rfl | hb
    · exact ⟨th, hcreated⟩
    · exact I.known b hb
  · rw [hb]
    exact List.nodup_cons.mpr ⟨fun hmem => hnew (I.busyUnlinked a hmem), I.busyOnce⟩
  · rw [hb, hu]
    intro b hb
    rcases List.mem_cons.mp hb with rfl | hb
    · exact List.mem_cons_self
    · exact List.mem_cons_of_mem a (I.busyUnlinked b hb)
  · intro b th'
    rw [hthread, hc, hu, hb, I.live b th', List.mem_cons, List.mem_cons]
    refine and_congr_right fun _ => ?_
    by_cases hba : b = a
    · simp [hba, hnew]
    · simp [hba]
  · rw [hf]
    exact I.freedOnce
  · rw [hf, hlen, hthread]
    exact I.freed
  · intro p
    rw [hj, hc, hu, hb, I.joined p, List.mem_cons, List.mem_cons]
    refine and_congr_right fun _ => ?_
    by_cases hpa : p.1 = a
    · simp [hpa, hnew]
    · simp [hpa]
  · rw [hj]
    exact I.joinedOnce

/-- An info that has been unlinked is freed, after its thread has been joined. -/
theorem Inv.join (I : Inv s) (ha : a ∈ s.busy) : ∃ th ctx, joinUnlocked a s.ctx = some (th, ctx) ∧
    (a, th) ∈ s.created ∧ ∀ t : State, t.ctx = ctx → t.created = s.created → t.unlinked = s.unlinked →
      t.busy = s.busy.erase a → t.freed = s.freed ++ [a] → t.joined = s.joined ++ [(a, th)] → Inv t := by
  have hunlinked := I.busyUnlinked a ha
  obtain ⟨th, hcreated⟩ := I.known a hunlinked
  have hthread : s.ctx.threadOf a = some th := (I.live a th).mpr ⟨hcreated, Or.inr ha⟩
  have hnot : a ∉ s.registered.map (·.1) := by
    rintro hmem
    obtain ⟨p, hp, rfl⟩ := List.mem_map.mp hmem
    have hp := (List.mem_filter.mp hp).2
    exact of_decide_eq_true hp hunlinked
  obtain ⟨ctx, hcode, hlists, hself, hother, hlen⟩ := joinUnlocked_eq I.lists hthread hnot
  have hbusy : ∀ b, b ∈ s.busy.erase a ↔ b ≠ a ∧ b ∈ s.busy := fun b => I.busyOnce.mem_erase_iff
  refine ⟨th, ctx, hcode, hcreated, ?_⟩
  rintro t rfl hc hu hb hf hj
  constructor
  · rw [State.registered, hc, hu]
    exact hlists
  · rw [hc]
    exact I.once
  · rw [hc, hlen]
    exact I.below
  · rw [hc, hu]
    exact I.known
  · rw [hb]
    exact I.busyOnce.erase a
  · rw [hb, hu]
    exact fun b hb => I.busyUnlinked b ((hbusy b).mp hb).2
  · intro b th'
    rw [hc, hu, hb, hbusy]
    by_cases hba : b = a
    · subst hba
      simp [hself, hunlinked]
    · rw [hother b hba, I.live b th']
      simp [hba]
  · rw [hf]
    have hnew : a ∉ s.freed := by
      intro hfreed
      cases hthread.symm.trans ((I.freed a).mp hfreed).2
    rw [← List.concat_eq_append]
    exact I.freedOnce.concat hnew
  · intro b
    rw [hf, hlen, List.mem_append, List.mem_singleton]
    by_cases hba : b = a
    · subst hba
      exact iff_of_true (Or.inr rfl) ⟨I.below _ hcreated, hself⟩
    · rw [hother b hba, ← I.freed b]
      simp [hba]
  · intro p
    rw [hj, hc, hu, hb, hbusy, List.mem_append, List.mem_singleton, I.joined p]
    by_cases hpa : p.1 = a
    · subst hpa
      have hp : p = (p.1, th) ↔ p ∈ s.created := by
        constructor
        · intro heq
          rw [heq]
          exact hcreated
        · intro hmem
          exact Prod.ext rfl (I.thread_eq (a := p.1) hmem hcreated)
      simp [ha, hunlinked, hp]
    · have hp : p ≠ (a, th) := fun heq => hpa (congrArg Prod.fst heq)
      simp [hpa, hp]
  · have hnew : a ∉ s.joined.map (·.1) := by
      intro hjoined
      obtain ⟨p, hp, rfl⟩ := List.mem_map.mp hjoined
      exact ((I.joined p).mp hp).2.2 ha
    rw [hj, List.map_append, List.map_singleton, ← List.concat_eq_append]
    exact I.joinedOnce.concat hnew

theorem Inv.registered_starts (I : Inv s) (hc : t.created = (s.ctx.infos.cells.length, th) :: s.created)
    (hu : t.unlinked = s.unlinked) : t.registered = (s.ctx.infos.cells.length, th) :: s.registered := by
  have hunlinked : s.ctx.infos.cells.length ∉ s.unlinked := by
    intro hmem
    obtain ⟨th', hth'⟩ := I.known _ hmem
    exact Nat.lt_irrefl _ (I.below _ hth')
  rw [State.registered, hc, hu, List.filter_cons_of_pos (by simpa using hunlinked)]
  rfl

/-- A thread is created in front of the others. -/
theorem Inv.starts (I : Inv s) (hc : t.created = (s.ctx.infos.cells.length, th) :: s.created)
    (hctx : t.ctx = ⟨(s.ctx.infos.alloc ⟨th, s.ctx.threads⟩).2, some s.ctx.infos.cells.length⟩)
    (hu : t.unlinked = s.unlinked) (hb : t.busy = s.busy) (hf : t.freed = s.freed) (hj : t.joined = s.joined) :
    Inv t := by
  have hnew : ∀ th', (s.ctx.infos.cells.length, th') ∉ s.created := fun th' hmem => Nat.lt_irrefl _ (I.below _ hmem)
  have hunlinked : s.ctx.infos.cells.length ∉ s.unlinked := by
    intro hmem
    obtain ⟨th', hth'⟩ := I.known _ hmem
    exact hnew th' hth'
  have hlen : t.ctx.infos.cells.length = s.ctx.infos.cells.length + 1 := by
    rw [hctx]
    simp [Heap.alloc]
  have hself : t.ctx.threadOf s.ctx.infos.cells.length = some th := by
    rw [hctx]
    exact congrArg (Option.map _) Heap.get_alloc_self
  have hother : ∀ b, b ≠ s.ctx.infos.cells.length → t.ctx.threadOf b = s.ctx.threadOf b := by
    intro b hb
    rw [hctx]
    exact congrArg (Option.map _) (Heap.get_alloc_ne hb)
  constructor
  · rw [I.registered_starts hc hu, Ctx.Lists, hctx]
    refine ⟨rfl, _, Heap.get_alloc_self, rfl, Segment.congr I.lists fun m hm => ?_⟩
    obtain ⟨v, hv, -⟩ := Segment.get I.lists hm
    exact Heap.get_alloc_ne (Heap.ne_length_of_get hv)
  · rw [hc, List.map_cons]
    refine List.nodup_cons.mpr ⟨?_, I.once⟩
    intro hmem
    obtain ⟨p, hp, hpn⟩ := List.mem_map.mp hmem
    exact Nat.lt_irrefl _ (hpn ▸ I.below p hp)
  · rw [hc, hlen]
    intro p hp
    rcases List.mem_cons.mp hp with rfl | hp
    · exact Nat.lt_succ_self _
    · exact Nat.lt_succ_of_lt (I.below p hp)
  · rw [hc, hu]
    intro b hb
    obtain ⟨th', hth'⟩ := I.known b hb
    exact ⟨th', List.mem_cons_of_mem _ hth'⟩
  · rw [hb]
    exact I.busyOnce
  · rw [hb, hu]
    exact I.busyUnlinked
  · intro b th'
    rw [hc, hu, hb, List.mem_cons]
    by_cases hbn : b = s.ctx.infos.cells.length
    · subst hbn
      simp [hself, hunlinked, hnew, eq_comm]
    · rw [hother b hbn, I.live b th']
      simp [hbn]
  · rw [hf]
    exact I.freedOnce
  · intro b
    rw [hf, hlen, I.freed b]
    by_cases hbn : b = s.ctx.infos.cells.length
    · subst hbn
      simp [hself]
    · rw [hother b hbn, Nat.lt_succ_iff_lt_or_eq, or_iff_left hbn]
  · intro p
    rw [hj, hc, hu, hb, I.joined p, List.mem_cons]
    by_cases hp : p = (s.ctx.infos.cells.length, th)
    · subst hp
      simp [hunlinked]
    · simp [hp]
  · rw [hj]
    exact I.joinedOnce

/-- No thread is started, and the info that was made for it is freed. -/
theorem Inv.fails (I : Inv s) {infos : Heap Info} (hget : infos.get = s.ctx.infos.get)
    (hlen : infos.cells.length = s.ctx.infos.cells.length + 1) (hctx : t.ctx = { s.ctx with infos := infos })
    (hc : t.created = s.created) (hu : t.unlinked = s.unlinked) (hb : t.busy = s.busy)
    (hf : t.freed = s.freed ++ [s.ctx.infos.cells.length]) (hj : t.joined = s.joined) : Inv t := by
  have hthread : t.ctx.threadOf = s.ctx.threadOf := by
    funext a
    rw [hctx, Ctx.threadOf, Ctx.threadOf, hget]
  have hnone : s.ctx.threadOf s.ctx.infos.cells.length = none := by
    simp [Ctx.threadOf, Heap.get]
  have hlen' : t.ctx.infos.cells.length = s.ctx.infos.cells.length + 1 := by rw [hctx, hlen]
  constructor
  · rw [State.registered, hc, hu, hctx]
    exact Segment.congr I.lists fun m _ => congrFun hget m.1
  · rw [hc]
    exact I.once
  · rw [hc, hlen']
    exact fun p hp => Nat.lt_succ_of_lt (I.below p hp)
  · rw [hc, hu]
    exact I.known
  · rw [hb]
    exact I.busyOnce
  · rw [hb, hu]
    exact I.busyUnlinked
  · rw [hthread, hc, hu, hb]
    exact I.live
  · rw [hf]
    rw [← List.concat_eq_append]
    exact I.freedOnce.concat fun hfreed => Nat.lt_irrefl _ ((I.freed _).mp hfreed).1
  · intro b
    rw [hf, hlen', hthread, List.mem_append, List.mem_singleton, I.freed b]
    by_cases hbn : b = s.ctx.infos.cells.length
    · subst hbn
      simp [hnone]
    · rw [or_iff_left hbn, Nat.lt_succ_iff_lt_or_eq, or_iff_left hbn]
  · rw [hj, hc, hu, hb]
    exact I.joined
  · rw [hj]
    exact I.joinedOnce

/-- What does not touch the infos keeps them. -/
theorem Inv.congr (I : Inv s) (hctx : t.ctx = s.ctx) (hc : t.created = s.created) (hu : t.unlinked = s.unlinked)
    (hb : t.busy = s.busy) (hf : t.freed = s.freed) (hj : t.joined = s.joined) : Inv t := by
  have hreg : t.registered = s.registered := by rw [State.registered, hc, hu]; rfl
  obtain ⟨h1, h2, h3, h4, h5, h6, h7, h8, h9, h10, h11⟩ := I
  constructor <;> simp only [hreg, hctx, hc, hu, hb, hf, hj] <;> assumption

/-! ### Destroying the context -/

/-- What the destruction of the context is still to join. -/
def State.toJoin (s : State) : List (Addr × Nat) :=
  match s.destroying with
  | .waiting info => (s.created.filter fun p => p.1 = info) ++ s.registered
  | _ => s.registered

/-- Of the threads that were left, those have been joined that are not still to be joined. -/
structure DestroyInv (s : State) : Prop where
  before : s.destroying = .no → s.joinedLeft = []
  during : s.destroying ≠ .no → s.left = s.joinedLeft ++ s.toJoin
  after : s.destroying = .done → s.registered = []

theorem Inv.filter_eq (I : Inv s) (h : (a, th) ∈ s.created) : (s.created.filter fun p => p.1 = a) = [(a, th)] := by
  obtain ⟨as, bs, hsplit⟩ := List.append_of_mem h
  obtain ⟨has, hbs⟩ := ne_of_split hsplit I.once
  have hleft : as.filter (fun p => p.1 = a) = [] :=
    List.filter_eq_nil_iff.mpr fun p hp heq => has p hp (of_decide_eq_true heq)
  have hright : bs.filter (fun p => p.1 = a) = [] :=
    List.filter_eq_nil_iff.mpr fun p hp heq => hbs p hp (of_decide_eq_true heq)
  rw [hsplit, List.filter_append, List.filter_cons_of_pos (by simp), hleft, hright, List.nil_append]

/-- The first info of the list is that of the thread that was created last. -/
theorem Inv.threads_some (I : Inv s) (h : s.ctx.threads = some a) : ∃ th more, s.registered = (a, th) :: more := by
  have hlists := I.lists
  cases hreg : s.registered with
  | nil =>
    rw [hreg, Ctx.Lists, Segment] at hlists
    cases h.symm.trans hlists
  | cons p more =>
    rw [hreg, Ctx.Lists] at hlists
    obtain ⟨hp, -⟩ := hlists
    obtain rfl : a = p.1 := Option.some.inj (h.symm.trans hp)
    exact ⟨p.2, more, rfl⟩

theorem Inv.threads_none (I : Inv s) (h : s.ctx.threads = none) : s.registered = [] := by
  have hlists := I.lists
  cases hreg : s.registered with
  | nil => rfl
  | cons p more =>
    rw [hreg, Ctx.Lists] at hlists
    obtain ⟨hp, -⟩ := hlists
    cases h.symm.trans hp

theorem unlocked_iff : s.unlocked = true ↔ s.destroying = .no := beq_iff_eq

/-- At the condition of the loop, the list is still to be joined. -/
theorem DestroyInv.left_eq (D : DestroyInv s) (hlooping : s.destroying = .looping) :
    s.left = s.joinedLeft ++ s.registered := by
  have hleft := D.during (by rw [hlooping]; nofun)
  simpa only [State.toJoin, hlooping] using hleft

theorem DestroyInv.of_no (hd : t.destroying = .no) (hj : t.joinedLeft = []) : DestroyInv t :=
  ⟨fun _ => hj, fun hne => absurd hd hne, fun hdone => by rw [hd] at hdone; cases hdone⟩

theorem create_inv (c : Creation) (I : Inv s) (D : DestroyInv s) (hok : s.unlocked = true) :
    ∃ t, step s (.create c) = some t ∧ Inv t ∧ DestroyInv t := by
  have hno := unlocked_iff.mp hok
  cases c with
  | noMemory => exact ⟨_, rfl, I.congr rfl rfl rfl rfl rfl rfl, .of_no hno (D.before hno)⟩
  | fails err =>
    obtain ⟨infos, hcode, hget, hlen⟩ := nlCreateThread_fails err s.ctx
    refine ⟨_, congrArg (Option.map _) hcode, I.fails hget hlen rfl rfl rfl rfl rfl rfl, .of_no hno (D.before hno)⟩
  | starts th =>
    refine ⟨_, congrArg (Option.map _) (nlCreateThread_starts th s.ctx), ?_, .of_no hno (D.before hno)⟩
    exact I.starts rfl rfl rfl rfl rfl rfl

theorem unlink_inv (I : Inv s) (D : DestroyInv s) (hok : ok s (.unlink a)) :
    ∃ t, step s (.unlink a) = some t ∧ Inv t ∧ DestroyInv t := by
  obtain ⟨hunlocked, hmem, hnew⟩ := hok
  have hno := unlocked_iff.mp hunlocked
  obtain ⟨p, hp, rfl⟩ := List.mem_map.mp hmem
  obtain ⟨ctx, hcode, hinv⟩ := I.unlink (List.mem_filter.mpr ⟨hp, decide_eq_true hnew⟩)
  refine ⟨_, congrArg (Option.map _) hcode, hinv _ rfl rfl rfl ?_ rfl rfl, .of_no hno (D.before hno)⟩
  simp [State.busy, hno]

theorem join_inv (I : Inv s) (D : DestroyInv s) (hok : ok s (.join a)) :
    ∃ t, step s (.join a) = some t ∧ Inv t ∧ DestroyInv t := by
  have hwaiting : a ∈ s.waiting := hok
  have hbusy : a ∈ s.busy := by
    cases hd : s.destroying <;> simp [State.busy, hd, hwaiting]
  obtain ⟨th, ctx, hcode, -, hinv⟩ := I.join hbusy
  refine ⟨_, congrArg (Option.map _) hcode, hinv _ rfl rfl rfl ?_ rfl rfl, ⟨D.before, D.during, D.after⟩⟩
  have hnodup := I.busyOnce
  cases hd : s.destroying with
  | waiting info =>
    have hne : info ≠ a := by
      rintro rfl
      simp only [State.busy, hd, List.nodup_cons] at hnodup
      exact hnodup.1 hwaiting
    simp [State.busy, hd, List.erase_cons_tail, hne]
  | no => simp [State.busy, hd]
  | looping => simp [State.busy, hd]
  | done => simp [State.busy, hd]

/-- The first thread is taken out of the list, to be joined. -/
theorem destroyUnlink_inv (I : Inv s) (D : DestroyInv s) (hok : ok s .destroyUnlink) :
    ∃ t, step s .destroyUnlink = some t ∧ Inv t ∧ DestroyInv t ∧ t.destroying.isWaiting = true ∧ t.left = s.left ∧
      t.registered.length + 1 = s.registered.length := by
  obtain ⟨hlooping, hne⟩ := hok
  obtain ⟨a, ha⟩ := Option.ne_none_iff_exists'.mp hne
  obtain ⟨th, more, hreg⟩ := I.threads_some ha
  have hmem : (a, th) ∈ s.registered := hreg ▸ List.mem_cons_self
  obtain ⟨ctx, hcode, hinv⟩ := I.unlink hmem
  obtain ⟨v, hget, -⟩ := Segment.get I.lists hmem
  have hstep : step s .destroyUnlink =
      some { s with ctx := ctx, destroying := .waiting a, unlinked := a :: s.unlinked } := by
    simp [step, ha, hget, hcode]
  have hbusy : s.busy = s.waiting := by simp [State.busy, hlooping]
  have hI := hinv { s with ctx := ctx, destroying := .waiting a, unlinked := a :: s.unlinked } rfl rfl rfl
    (by rw [hbusy]; rfl) rfl rfl
  have hrest := registered_unlink (s := s)
    (t := { s with ctx := ctx, destroying := .waiting a, unlinked := a :: s.unlinked }) rfl rfl
  have hfirst : s.registered = [] ++ (a, th) :: more := hreg
  rw [filter_ne hfirst (Segment.nodup I.lists), List.nil_append] at hrest
  refine ⟨_, hstep, hI, ⟨nofun, fun _ => ?_, nofun⟩, rfl, rfl, by rw [hrest, hreg]; rfl⟩
  have hcreated : (a, th) ∈ s.created := (List.mem_filter.mp hmem).1
  simp only [State.toJoin, hrest, I.filter_eq hcreated]
  exact (D.left_eq hlooping).trans (congrArg _ hreg)

/-- It has been joined. -/
theorem destroyJoin_inv (I : Inv s) (D : DestroyInv s) (hok : ok s .destroyJoin) :
    ∃ t, step s .destroyJoin = some t ∧ Inv t ∧ DestroyInv t ∧ t.destroying = .looping ∧ t.left = s.left ∧
      t.registered = s.registered := by
  obtain ⟨a, hwaiting⟩ : ∃ a, s.destroying = .waiting a := by
    have hok : s.destroying.isWaiting = true := hok
    cases hd : s.destroying with
    | waiting a => exact ⟨a, rfl⟩
    | no => rw [hd] at hok; cases hok
    | looping => rw [hd] at hok; cases hok
    | done => rw [hd] at hok; cases hok
  have hbusy : s.busy = a :: s.waiting := by simp [State.busy, hwaiting]
  obtain ⟨th, ctx, hcode, hcreated, hinv⟩ := I.join (a := a) (by simp [hbusy])
  have hstep : step s .destroyJoin = some { s with
      ctx := ctx
      destroying := .looping
      joined := s.joined ++ [(a, th)]
      joinedLeft := s.joinedLeft ++ [(a, th)]
      freed := s.freed ++ [a] } := by
    simp [step, hwaiting, hcode]
  refine ⟨_, hstep, hinv _ rfl rfl rfl ?_ rfl rfl, ⟨nofun, fun _ => ?_, nofun⟩, rfl, rfl, rfl⟩
  · rw [hbusy, List.erase_cons_head]
    rfl
  · have hleft := D.during (by rw [hwaiting]; nofun)
    simp only [State.toJoin, hwaiting, I.filter_eq hcreated] at hleft
    rw [hleft, ← List.append_assoc]
    rfl

/-- Every call that can happen finds the memory that it uses, and keeps the list. -/
theorem step_inv (act : Action) (I : Inv s) (D : DestroyInv s) (hok : ok s act) :
    ∃ t, step s act = some t ∧ Inv t ∧ DestroyInv t := by
  cases act with
  | create c => exact create_inv c I D hok
  | iterate =>
    have hno := unlocked_iff.mp hok
    refine ⟨_, congrArg (Option.map _) (nlIterateThreads_eq I.lists), ?_, .of_no hno (D.before hno)⟩
    exact I.congr rfl rfl rfl rfl rfl rfl
  | unlink info => exact unlink_inv I D hok
  | join info => exact join_inv I D hok
  | destroyBegin =>
    have hno := unlocked_iff.mp hok
    refine ⟨_, rfl, I.congr rfl rfl rfl ?_ rfl rfl, nofun, fun _ => ?_, nofun⟩
    · simp [State.busy, hno]
    · simp only [D.before hno, List.nil_append]
      rfl
  | destroyUnlink =>
    obtain ⟨t, hstep, I', D', -⟩ := destroyUnlink_inv I D hok
    exact ⟨t, hstep, I', D'⟩
  | destroyJoin =>
    obtain ⟨t, hstep, I', D', -⟩ := destroyJoin_inv I D hok
    exact ⟨t, hstep, I', D'⟩
  | destroyEnd =>
    obtain ⟨hlooping, hnone⟩ := hok
    refine ⟨_, rfl, I.congr rfl rfl rfl ?_ rfl rfl, nofun, fun _ => D.left_eq hlooping, fun _ => I.threads_none hnone⟩
    simp [State.busy, hlooping]

theorem inv_init : Inv {} where
  lists := rfl
  once := List.nodup_nil
  below := nofun
  known := nofun
  busyOnce := List.nodup_nil
  busyUnlinked := nofun
  live _ _ := iff_of_false nofun fun h => List.not_mem_nil h.1
  freedOnce := List.nodup_nil
  freed a := iff_of_false List.not_mem_nil fun h => Nat.not_lt_zero a h.1
  joined _ := iff_of_false List.not_mem_nil fun h => List.not_mem_nil h.1
  joinedOnce := List.nodup_nil

theorem reach_inv (h : context.Reach ok s) : Inv s ∧ DestroyInv s := by
  refine h.invariant (I := fun s => Inv s ∧ DestroyInv s) ⟨inv_init, .of_no rfl rfl⟩ ?_
  rintro s act t ⟨I, D⟩ hok hstep
  obtain ⟨t', hstep', hinv⟩ := step_inv act I D hok
  obtain rfl : t' = t := Option.some.inj (hstep'.symm.trans hstep)
  exact hinv

/-- An info that has not been freed is in the list, or waited for. -/
theorem Inv.freed_iff (I : Inv s) (ha : a < s.ctx.infos.cells.length) :
    a ∈ s.freed ↔ a ∉ s.registered.map (·.1) ∧ a ∉ s.busy := by
  rw [I.freed a, and_iff_right ha, ← not_or, Option.eq_none_iff_forall_ne_some]
  constructor
  · rintro hnone (hlisted | hbusy)
    · obtain ⟨⟨b, th⟩, hmem, rfl⟩ := List.mem_map.mp hlisted
      obtain ⟨hcreated, hnew⟩ := List.mem_filter.mp hmem
      exact hnone th ((I.live b th).mpr ⟨hcreated, Or.inl (of_decide_eq_true hnew)⟩)
    · obtain ⟨th, hcreated⟩ := I.known a (I.busyUnlinked a hbusy)
      exact hnone th ((I.live a th).mpr ⟨hcreated, Or.inr hbusy⟩)
  · intro hneither th hth
    obtain ⟨hcreated, hnew | hbusy⟩ := (I.live a th).mp hth
    · exact hneither (Or.inl (List.mem_map_of_mem (List.mem_filter.mpr ⟨hcreated, decide_eq_true hnew⟩)))
    · exact hneither (Or.inr hbusy)

/-- Each round of the loop makes the list shorter, up to its end. -/
theorem destroyLoop_eq (I : Inv s) (D : DestroyInv s) (hlooping : s.destroying = .looping) {n : Nat}
    (hn : s.registered.length < n) : ∃ t, destroyLoop n s = some t ∧ t.destroying = .done ∧ t.ctx.threads = none ∧
      t.joinedLeft = s.left := by
  induction n generalizing s with
  | zero => cases hn
  | succ n ih =>
    rw [destroyLoop]
    by_cases hnone : s.ctx.threads = none
    · have hleft := D.left_eq hlooping
      rw [I.threads_none hnone, List.append_nil] at hleft
      rw [if_pos hnone]
      exact ⟨_, rfl, rfl, hnone, hleft.symm⟩
    · obtain ⟨s₁, hstep₁, I₁, D₁, hwaiting, hleft₁, hlen₁⟩ := destroyUnlink_inv I D ⟨hlooping, hnone⟩
      obtain ⟨s₂, hstep₂, I₂, D₂, hlooping₂, hleft₂, hreg₂⟩ := destroyJoin_inv I₁ D₁ hwaiting
      have hlen₂ : s₂.registered.length < n := by
        rw [hreg₂]
        omega
      obtain ⟨t, hloop, hdone, hnil, hleft⟩ := ih I₂ D₂ hlooping₂ hlen₂
      refine ⟨t, ?_, hdone, hnil, ?_⟩
      · rw [if_neg hnone, hstep₁, Option.bind_some, hstep₂, Option.bind_some, hloop]
      · rw [hleft, hleft₂, hleft₁]

end

/-- The list of a context holds the threads that have been created and not yet joined, the last of them first, and
    these are visited. No call uses memory that has been freed. Every info that is neither in the list nor waited for
    has been freed once and is not in memory any more, and every thread that such an info was for has been joined once.
    What is left when the context is destroyed is joined in the order of the list. -/
structure Registry (s : State) : Prop where
  lists : s.ctx.Lists s.registered
  once : (s.created.map (·.1)).Nodup
  returns : ∀ act, ok s act → ∃ t, step s act = some t
  visits : ∀ t, step s .iterate = some t → t.visited = s.registered.map (·.1)
  freedOnce : s.freed.Nodup
  freed : ∀ a < s.ctx.infos.cells.length, a ∈ s.freed ↔ a ∉ s.registered.map (·.1) ∧ a ∉ s.busy
  gone : ∀ a < s.ctx.infos.cells.length, a ∈ s.freed ↔ s.ctx.infos.get a = none
  joinedOnce : (s.joined.map (·.1)).Nodup
  joined : ∀ p, p ∈ s.joined ↔ p ∈ s.created ∧ p.1 ∈ s.unlinked ∧ p.1 ∉ s.busy
  destroys : s.destroying ≠ .no → s.left = s.joinedLeft ++ s.toJoin
  destroyed : s.destroying = .done → s.registered = [] ∧ s.joinedLeft = s.left
  ends : s.destroying = .looping → ∃ t, destroyLoop (s.registered.length + 1) s = some t ∧ t.destroying = .done ∧
    t.ctx.threads = none ∧ t.joinedLeft = s.left

/-- In every interleaving of the calls. -/
theorem registry_kept (s : State) (h : context.Reach ok s) : Registry s := by
  obtain ⟨I, D⟩ := reach_inv h
  constructor
  · exact I.lists
  · exact I.once
  · intro act hok
    obtain ⟨t, hstep, -⟩ := step_inv act I D hok
    exact ⟨t, hstep⟩
  · intro t hstep
    obtain rfl := Option.some.inj ((congrArg (Option.map _) (nlIterateThreads_eq I.lists)).symm.trans hstep)
    rfl
  · exact I.freedOnce
  · exact fun a ha => I.freed_iff ha
  · intro a ha
    rw [I.freed a, and_iff_right ha, Ctx.threadOf, Option.map_eq_none_iff]
  · exact I.joinedOnce
  · exact I.joined
  · exact D.during
  · intro hdone
    have hreg := D.after hdone
    have hleft := D.during (by rw [hdone]; nofun)
    simp only [State.toJoin, hdone, hreg, List.append_nil] at hleft
    exact ⟨hreg, hleft.symm⟩
  · exact fun hlooping => destroyLoop_eq I D hlooping (Nat.lt_succ_self _)

/-- Three threads, of which one was not to be had, and the other two joined: the first by a call, the last when the
    context was destroyed. -/
theorem registry_kept_destroyed : ∃ s, context.Reach ok s ∧ s.created = [(2, 8), (0, 7)] ∧ s.destroying = .done ∧
    Registry s := by
  obtain ⟨s, hreach, hs⟩ := Machine.exists_reach_of_run (M := context) (fun s a => decide (ok s a))
    [.create (.starts 7), .create (.fails 11), .create (.starts 8), .unlink 0, .iterate, .destroyBegin, .join 0,
      .destroyUnlink, .destroyJoin, .destroyEnd]
    (fun s => decide (s.created = [(2, 8), (0, 7)] ∧ s.destroying = .done)) (fun _ _ => of_decide_eq_true) (by decide)
  obtain ⟨hcreated, hdone⟩ := of_decide_eq_true hs
  exact ⟨s, hreach, hcreated, hdone, registry_kept s hreach⟩

end Nlutils.Thread
