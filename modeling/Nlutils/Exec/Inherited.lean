import Mathlib.Data.List.ReduceOption
import Nlutils.Exec.Child
import Nlutils.Lib.Machine

/-! # What children inherit from each other

A process that keeps its standard streams opens files and starts children, one after another. Of what belongs to a
child, a later one inherits the descriptor for the errors of an earlier one, as long as its parent has not closed or
marked it, and nothing else. -/

namespace Nlutils.Parent
open Lib

/-- The descriptors of the process, those that have been stored in `*errfd`, and its own files that it has not opened as
    marked; of both, the ones that since then have neither been closed nor marked. -/
structure State where
  fds : Fds
  errfds : List Nat := []
  own : List (Nat × OpenFile) := []

inductive Action
  | popen (env : PopenEnv) (wanted : Std → Bool)
  /-- A file of the process itself. -/
  | openFile (f : OpenFile) (cloexec : Bool)
  | close (n : Nat)
  | mark (n : Nat)

/-- The number has been closed or marked. -/
def State.without (s : State) (n : Nat) (t : Fds) : State :=
  { fds := t, errfds := s.errfds.filter (· ≠ n), own := s.own.filter fun p => p.1 ≠ n }

def step (s : State) : Action → Option State
  | .popen env wanted => (nlPopen3vec env wanted s.fds).map fun r =>
      { s with fds := r.2.2, errfds := s.errfds ++ (r.2.1.errfd.map Int.toNat).toList }
  | .openFile f cloexec =>
    let (n, t) := s.fds.install ⟨f, cloexec⟩
    some { s with fds := t, own := if cloexec then s.own else s.own ++ [(n, f)] }
  | .close n => (s.fds.close n).map (s.without n)
  | .mark n => some (s.without n (nlSetCloexec n s.fds))

/-- The standard streams are not closed. -/
def keepsStreams (_ : State) : Action → Prop
  | .close n => 2 < n
  | _ => True

instance (s : State) : DecidablePred (keepsStreams s)
  | .popen _ _ => inferInstanceAs (Decidable True)
  | .openFile _ _ => inferInstanceAs (Decidable True)
  | .close n => inferInstanceAs (Decidable (2 < n))
  | .mark _ => inferInstanceAs (Decidable True)

/-- The files beyond the standard streams that a process has when it starts, and has not marked. -/
def ownFiles (t : Fds) : List (Nat × OpenFile) :=
  (List.range t.entries.length).filterMap fun n => if 2 < n then (t.exec.get n).map fun d => (n, d.file) else none

def parent (t : Fds) : Machine State Action := ⟨⟨t, [], ownFiles t⟩, step⟩

/-- What a program inherits beyond its standard streams: descriptors for the errors of children, and files of the
    process itself. -/
def State.Passes (s : State) (n : Nat) (d : Descriptor OpenFile) : Prop :=
  n ∈ s.errfds ∧ d = ⟨.readEnd .stderr, false⟩ ∨ ∃ f, (n, f) ∈ s.own ∧ d = ⟨f, false⟩

/-- The standard streams are open, and of the others a program inherits those. -/
structure Inv (s : State) : Prop where
  streams : ∀ n ≤ 2, s.fds.get n ≠ none
  inherited : ∀ n, 2 < n → ∀ d, s.fds.exec.get n = some d ↔ s.Passes n d

section
variable {s s' : State} {t t' : Fds} {n m : Nat} {d : Descriptor OpenFile} {out : PopenOut}

theorem exec_congr (h : t'.get n = t.get n) : t'.exec.get n = t.exec.get n := by
  rw [FdTable.get_exec, FdTable.get_exec, h]

theorem exec_eq_none (h : t.get n = none) : t.exec.get n = none := by
  rw [FdTable.get_exec, h]
  rfl

theorem Inv.not_passes (I : Inv s) (hn : 2 < n) (h : s.fds.get n = none) : ¬s.Passes n d := by
  intro hpasses
  have hsome := (I.inherited n hn d).mpr hpasses
  rw [exec_eq_none h] at hsome
  cases hsome

theorem passes_without : (s.without n t).Passes m d ↔ m ≠ n ∧ s.Passes m d := by
  simp only [State.Passes, State.without, List.mem_filter, decide_eq_true_eq]
  constructor
  · rintro (⟨⟨hmem, hne⟩, hd⟩ | ⟨f, ⟨hmem, hne⟩, hd⟩)
    · exact ⟨hne, Or.inl ⟨hmem, hd⟩⟩
    · exact ⟨hne, Or.inr ⟨f, hmem, hd⟩⟩
  · rintro ⟨hne, ⟨hmem, hd⟩ | ⟨f, hmem, hd⟩⟩
    · exact Or.inl ⟨⟨hmem, hne⟩, hd⟩
    · exact Or.inr ⟨f, ⟨hmem, hne⟩, hd⟩

/-- A number that is not inherited any more. -/
theorem Inv.dropped (I : Inv s) (hother : ∀ m, m ≠ n → t.get m = s.fds.get m) (hself : t.exec.get n = none)
    (hstreams : ∀ m ≤ 2, t.get m ≠ none) : Inv (s.without n t) := by
  refine ⟨hstreams, fun m hm d => ?_⟩
  show t.exec.get m = some d ↔ _
  rw [passes_without]
  by_cases hmn : m = n
  · subst hmn
    rw [hself]
    exact iff_of_false nofun fun h => h.1 rfl
  · rw [exec_congr (hother m hmn), I.inherited m hm, and_iff_right hmn]

theorem Inv.openFile (I : Inv s) (f : OpenFile) (cloexec : Bool) : Inv
    { s with
      fds := (s.fds.install ⟨f, cloexec⟩).2
      own := if cloexec then s.own else s.own ++ [(s.fds.lowest, f)] } := by
  have hstreams : ∀ m ≤ 2, m ≠ s.fds.lowest := by
    rintro m hm rfl
    exact I.streams _ hm FdTable.get_lowest
  refine ⟨fun m hm => ?_, fun m hm d => ?_⟩
  · show (s.fds.install ⟨f, cloexec⟩).2.get m ≠ none
    rw [FdTable.get_install_ne (hstreams m hm)]
    exact I.streams m hm
  · show (s.fds.install ⟨f, cloexec⟩).2.exec.get m = some d ↔ _
    by_cases hnew : m = s.fds.lowest
    · subst hnew
      have hfresh := not_or.mp (I.not_passes (d := d) hm FdTable.get_lowest)
      rw [FdTable.get_exec, FdTable.get_install_self]
      cases cloexec with
      | true => exact iff_of_false nofun (not_or.mpr hfresh)
      | false =>
        refine Iff.trans ?_ (or_iff_right hfresh.1).symm
        constructor
        · intro hd
          obtain rfl := Option.some.inj hd
          exact ⟨f, List.mem_append_right s.own (List.mem_singleton_self _), rfl⟩
        · rintro ⟨g, hmem, rfl⟩
          rcases List.mem_append.mp hmem with hold | hg
          · exact absurd ⟨g, hold, rfl⟩ hfresh.2
          · cases List.mem_singleton.mp hg
            rfl
    · rw [exec_congr (FdTable.get_install_ne hnew), I.inherited m hm]
      have hown (g : OpenFile) :
          (m, g) ∈ (if cloexec then s.own else s.own ++ [(s.fds.lowest, f)]) ↔ (m, g) ∈ s.own := by
        split
        · rfl
        · simp [hnew]
      simp only [State.Passes, hown]

theorem Inv.close (I : Inv s) (hn : 2 < n) (h : s.fds.close n = some t) : Inv (s.without n t) := by
  obtain ⟨d, hd, -⟩ := Option.map_eq_some_iff.mp h
  obtain ⟨t', hclose, hself, hother, -, -⟩ := FdTable.close_eq hd
  obtain rfl := Option.some.inj (hclose.symm.trans h)
  refine I.dropped hother (exec_eq_none hself) fun m hm => ?_
  rw [hother m (by omega)]
  exact I.streams m hm

theorem Inv.mark (I : Inv s) : Inv (s.without n (nlSetCloexec n s.fds)) := by
  have hset : nlSetCloexec n s.fds = s.fds.setCloexec n := if_neg (Int.not_lt.mpr (Int.natCast_nonneg n))
  rw [hset]
  refine I.dropped (fun m hm => FdTable.get_setCloexec_ne hm) FdTable.exec_setCloexec_self fun m hm => ?_
  by_cases hmn : m = n
  · subst hmn
    obtain ⟨d, hd⟩ := Option.ne_none_iff_exists'.mp (I.streams m hm)
    rw [FdTable.get_setCloexec_self hd]
    nofun
  · rw [FdTable.get_setCloexec_ne hmn]
    exact I.streams m hm

/-- The descriptors of the parent that a call has stored, by their streams. -/
theorem mem_fds : n ∈ out.fds ↔ ∃ std fd, out.get std = some fd ∧ fd.toNat = n := by
  rw [PopenOut.fds, List.mem_map]
  constructor
  · rintro ⟨fd, hfd, rfl⟩
    rw [List.reduceOption_mem_iff] at hfd
    simp only [List.mem_cons, List.not_mem_nil, or_false] at hfd
    rcases hfd with hfd | hfd | hfd
    · exact ⟨.stdin, fd, hfd.symm, rfl⟩
    · exact ⟨.stdout, fd, hfd.symm, rfl⟩
    · exact ⟨.stderr, fd, hfd.symm, rfl⟩
  · rintro ⟨std, fd, hget, rfl⟩
    refine ⟨fd, List.reduceOption_mem_iff.mpr ?_, rfl⟩
    rw [← hget]
    cases std
    · exact List.mem_cons_self
    · exact List.mem_cons_of_mem _ List.mem_cons_self
    · exact List.mem_cons_of_mem _ (List.mem_cons_of_mem _ List.mem_cons_self)

/-- New descriptors, of which those in `errs` are for the errors of a child, and the others are marked. -/
theorem Inv.opened (I : Inv s) {held errs : List Nat} (S : s.fds.Since t held) (herrs : ∀ n ∈ errs, n ∈ held)
    (hget : ∀ n ∈ held, t.exec.get n = if n ∈ errs then some ⟨.readEnd .stderr, false⟩ else none) :
    Inv { s with fds := t, errfds := s.errfds ++ errs } := by
  refine ⟨fun m hm => ?_, fun m hm d => ?_⟩
  · have hold : m ∉ held := fun hmem => I.streams m hm (S.fresh m hmem)
    show t.get m ≠ none
    rw [S.kept m hold]
    exact I.streams m hm
  · show t.exec.get m = some d ↔ _
    by_cases hnew : m ∈ held
    · have hfresh := not_or.mp (I.not_passes (d := d) hm (S.fresh m hnew))
      refine Iff.trans ?_ (or_iff_left hfresh.2).symm
      rw [hget m hnew]
      constructor
      · intro hd
        obtain ⟨herr, hd⟩ := Option.ite_none_right_eq_some.mp hd
        exact ⟨List.mem_append_right s.errfds herr, (Option.some.inj hd).symm⟩
      · rintro ⟨hmem, rfl⟩
        rcases List.mem_append.mp hmem with hold | herr
        · exact absurd ⟨hold, rfl⟩ hfresh.1
        · exact if_pos herr
    · have hmem : m ∈ s.errfds ++ errs ↔ m ∈ s.errfds := by
        rw [List.mem_append, or_iff_left (mt (herrs m) hnew)]
      rw [exec_congr (S.kept m hnew), I.inherited m hm]
      simp only [State.Passes, hmem]

theorem Inv.popen (I : Inv s) {env : PopenEnv} {wanted : Std → Bool} (h : step s (.popen env wanted) = some s') :
    Inv s' := by
  rcases nlPopen3vec_cases env wanted s.fds with ⟨-, t', hcode, S⟩ | ⟨-, pid, out, t', -, hcode, S, hget⟩
  · obtain rfl := Option.some.inj ((congrArg (Option.map _) hcode).symm.trans h)
    exact I.opened S nofun nofun
  obtain rfl := Option.some.inj ((congrArg (Option.map _) hcode).symm.trans h)
  have hstored {std : Std} {fd : Int} (hfd : out.get std = some fd) :
      t'.get fd.toNat = some ⟨parentEnd std, std ≠ .stderr⟩ := by
    have hstd := hget std
    rw [hfd] at hstd
    split at hstd
    · obtain ⟨n, hn, hopen⟩ := hstd
      obtain rfl := Option.some.inj hn
      exact hopen
    · cases hstd
  have herr {n : Nat} (hn : n ∈ (out.errfd.map Int.toNat).toList) : ∃ fd, out.get .stderr = some fd ∧ fd.toNat = n := by
    obtain ⟨fd, hfd, hn⟩ := Option.map_eq_some_iff.mp (Option.mem_toList.mp hn)
    exact ⟨fd, hfd, hn⟩
  refine I.opened S (fun n hn => mem_fds.mpr ⟨.stderr, herr hn⟩) fun n hn => ?_
  obtain ⟨std, fd, hfd, rfl⟩ := mem_fds.mp hn
  rw [FdTable.get_exec, hstored hfd]
  by_cases hstd : std = .stderr
  · subst hstd
    have hmem : fd.toNat ∈ (out.errfd.map Int.toNat).toList :=
      Option.mem_toList.mpr (congrArg (Option.map Int.toNat) hfd)
    rw [if_pos hmem]
    rfl
  · have hnot : fd.toNat ∉ (out.errfd.map Int.toNat).toList := by
      intro hmem
      obtain ⟨fd', hfd', heq⟩ := herr hmem
      have hboth := hstored hfd'
      rw [heq, hstored hfd] at hboth
      simp [hstd] at hboth
    rw [if_neg hnot, decide_eq_true hstd]
    rfl

theorem step_inv (I : Inv s) {a : Action} (hok : keepsStreams s a) (h : step s a = some s') : Inv s' := by
  cases a with
  | popen env wanted => exact I.popen h
  | openFile f cloexec =>
    cases h
    exact I.openFile f cloexec
  | close n =>
    obtain ⟨t, hclose, rfl⟩ := Option.map_eq_some_iff.mp h
    exact I.close hok hclose
  | mark n =>
    cases h
    exact I.mark

theorem mem_ownFiles {f : OpenFile} (hn : 2 < n) : (n, f) ∈ ownFiles t ↔ t.exec.get n = some ⟨f, false⟩ := by
  have hflag {d : Descriptor OpenFile} (hd : t.exec.get n = some d) : d.cloexec = false := by
    rw [FdTable.get_exec] at hd
    simpa using (Option.filter_eq_some_iff.mp hd).2
  rw [ownFiles, List.mem_filterMap]
  constructor
  · rintro ⟨m, -, hm⟩
    obtain ⟨-, hm⟩ := Option.ite_none_right_eq_some.mp hm
    obtain ⟨⟨g, cloexec⟩, hd, hm⟩ := Option.map_eq_some_iff.mp hm
    cases hm
    obtain rfl : cloexec = false := hflag hd
    exact hd
  · intro hd
    have hlt : n < t.entries.length := by
      by_contra hge
      rw [FdTable.get_exec, FdTable.get, List.getElem?_eq_none (Nat.not_lt.mp hge)] at hd
      cases hd
    refine ⟨n, List.mem_range.mpr hlt, ?_⟩
    rw [if_pos hn, hd]
    rfl

theorem reach_inv {t₀ : Fds} (h : ∀ n ≤ 2, t₀.get n ≠ none) (hs : (parent t₀).Reach keepsStreams s) : Inv s := by
  refine hs.invariant ⟨h, fun n hn d => ?_⟩ fun s a t I hok hstep => step_inv I hok hstep
  show t₀.exec.get n = some d ↔ _
  constructor
  · intro hd
    obtain ⟨f, cloexec⟩ := d
    obtain rfl : cloexec = false := by
      rw [FdTable.get_exec] at hd
      simpa using (Option.filter_eq_some_iff.mp hd).2
    exact Or.inr ⟨f, (mem_ownFiles hn).mpr hd, rfl⟩
  · rintro (⟨hmem, -⟩ | ⟨f, hmem, rfl⟩)
    · cases hmem
    · exact (mem_ownFiles hn).mp hmem

end

/-- In every run, a child that is started has its ends of the pipes as the streams that are wanted, and of the other
    streams those of its parent. Beyond them its program inherits exactly the descriptors for the errors of earlier
    children and the unmarked files of the process itself, as long as these have neither been closed nor marked. -/
theorem child_inherits (t₀ : Fds) (h : ∀ n ≤ 2, t₀.get n ≠ none) (s : State) (hs : (parent t₀).Reach keepsStreams s)
    (env : PopenEnv) (child : ChildEnv) (wanted : Std → Bool) (henv : env.Succeeds wanted)
    (hchild : child.Succeeds wanted) (hcallback : ∀ callback ∈ child.callback, ∀ t, callback t = t) :
    ∃ c, nlPopen3vecChild env child wanted s.fds = some (some (.executed c)) ∧
      (∀ std, c.get std.number =
        if wanted std then some ⟨childEnd std, false⟩ else (s.fds.get std.number).filter fun d => !d.cloexec) ∧
      ∀ n, 2 < n → ∀ d, c.get n = some d ↔ s.Passes n d := by
  have I := reach_inv h hs
  obtain ⟨-, c, hcode, hstreams⟩ | ⟨hno, -⟩ := nlPopen3vecChild_spec henv hcallback
  · refine ⟨c, hcode, fun std => ?_, fun n hn d => ?_⟩
    · rw [hstreams.streams, collides_of_open I.streams]
      rfl
    · rw [hstreams.others n hn, ← FdTable.get_exec]
      exact I.inherited n hn d
  · exact absurd hchild hno

/-- A process with its standard streams, a file that it has marked, and one that it has not. -/
def shell : Fds :=
  { entries := List.replicate 3 (some ⟨.other 0, false⟩) ++ [some ⟨.other 7, true⟩, some ⟨.other 8, false⟩] }

/-- The third child of a process that has kept the descriptors of the first one and marked those of the second. -/
theorem child_inherits_third : ∃ s, (parent shell).Reach keepsStreams s ∧ s.errfds = [9] ∧
    s.own = [(4, .other 8), (5, .other 9)] ∧
    ∃ c, nlPopen3vecChild { fork := some 42 } {} (fun _ => true) s.fds = some (some (.executed c)) ∧
      (∀ std, c.get std.number = if true then some ⟨childEnd std, false⟩
        else (s.fds.get std.number).filter fun d => !d.cloexec) ∧
      ∀ n, 2 < n → ∀ d, c.get n = some d ↔ s.Passes n d := by
  obtain ⟨s, hreach, hs⟩ := Machine.exists_reach_of_run (M := parent shell) (fun s a => decide (keepsStreams s a))
    [.popen { fork := some 40 } fun _ => true, .popen { fork := some 41 } fun _ => true, .mark 12,
      .openFile (.other 9) false]
    (fun s => decide (s.errfds = [9] ∧ s.own = [(4, .other 8), (5, .other 9)])) (fun _ _ => of_decide_eq_true)
    (by decide)
  obtain ⟨herrfds, hown⟩ := of_decide_eq_true hs
  refine ⟨s, hreach, herrfds, hown, child_inherits shell (by decide) s hreach { fork := some 42 } {} (fun _ => true)
    ⟨rfl, rfl, fun _ _ => rfl, rfl⟩ ⟨fun _ _ => rfl, rfl⟩ ?_⟩
  intro callback hcallback
  cases hcallback

end Nlutils.Parent
