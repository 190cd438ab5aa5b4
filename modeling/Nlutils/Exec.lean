import Nlutils.Lib.Descriptors

/-! # Child processes with pipes (`nl_popen3vec` of `exec.c`)

What the parent does to its descriptors. Every end of a pipe that it has made is closed or handed out; but the flag that
is meant for the read end of the third pipe is set on that of the second. -/

namespace Nlutils
open Lib

inductive Std
  | stdin | stdout | stderr
  deriving DecidableEq, Repr

/-- What a descriptor stands for. -/
inductive OpenFile
  | readEnd (std : Std)
  | writeEnd (std : Std)
  | fifo
  | other (n : Nat)
  deriving DecidableEq, Repr

abbrev Fds := FdTable OpenFile

/-- Whether the calls succeed; `fork` gives the process id of the child. -/
structure PopenEnv where
  notNull : Bool := true
  access : Bool := true
  pipe : Std → Bool := fun _ => true
  fork : Option Nat

/-- An `int[2]` for a pipe: the read end and the write end, or -1. -/
abbrev PipeVar := Int × Int

/-- What is stored in `*writefd`, `*readfd` and `*errfd`. -/
structure PopenOut where
  writefd : Option Int := none
  readfd : Option Int := none
  errfd : Option Int := none
  deriving DecidableEq, Repr

def PopenOut.get (out : PopenOut) : Std → Option Int
  | .stdin => out.writefd
  | .stdout => out.readfd
  | .stderr => out.errfd

def pipe (std : Std) (t : Fds) : PipeVar × Fds :=
  let (r, t) := t.install ⟨.readEnd std, false⟩
  let (w, t) := t.install ⟨.writeEnd std, false⟩
  ((r, w), t)

/-- A pipe is made if it is wanted. Whether this fails, the variable, and the table. -/
def openPipe (env : PopenEnv) (std : Std) (wanted : Bool) (t : Fds) : Bool × PipeVar × Fds :=
  if wanted then if env.pipe std then (false, pipe std t) else (true, (-1, -1), t) else (false, (-1, -1), t)

def closeFd (fd : Int) (t : Fds) : Option Fds := if fd < 0 then none else t.close fd.toNat

/-- The result of `nl_set_cloexec` is not looked at; there is nothing to set for a negative number. -/
def nlSetCloexec (fd : Int) (t : Fds) : Fds := if fd < 0 then t else t.setCloexec fd.toNat

def closeIfOpen (fd : Int) (t : Fds) : Option Fds := if fd ≥ 0 then closeFd fd t else some t

/-- The label `error` of `nl_popen3vec`. -/
def popenError (inPipe outPipe errPipe : PipeVar) (t : Fds) : Option (Int × PopenOut × Fds) := do
  let t ← closeIfOpen inPipe.1 t
  let t ← closeIfOpen inPipe.2 t
  let t ← closeIfOpen outPipe.1 t
  let t ← closeIfOpen outPipe.2 t
  let t ← closeIfOpen errPipe.1 t
  let t ← closeIfOpen errPipe.2 t
  return (-1, {}, t)

/-- What the parent does with a pipe that is wanted: it closes the end of the child, sets a flag, and stores its own
    end. -/
def parentPipe (wanted : Bool) (childEnd cloexecEnd parentEnd : Int) (t : Fds) : Option (Option Int × Fds) :=
  if wanted then (closeFd childEnd t).map fun t => (some parentEnd, nlSetCloexec cloexecEnd t) else some (none, t)

/-- `nl_popen3vec` in the parent. `wanted` tells which of `writefd`, `readfd` and `errfd` are not NULL. -/
def nlPopen3vec (env : PopenEnv) (wanted : Std → Bool) (t : Fds) : Option (Int × PopenOut × Fds) :=
  if !env.notNull then popenError (-1, -1) (-1, -1) (-1, -1) t
  else if !env.access then popenError (-1, -1) (-1, -1) (-1, -1) t
  else
    let (bad, inPipe, t) := openPipe env .stdin (wanted .stdin) t
    if bad then popenError inPipe (-1, -1) (-1, -1) t
    else
      let (bad, outPipe, t) := openPipe env .stdout (wanted .stdout) t
      if bad then popenError inPipe outPipe (-1, -1) t
      else
        let (bad, errPipe, t) := openPipe env .stderr (wanted .stderr) t
        if bad then popenError inPipe outPipe errPipe t
        else
          match env.fork with
          | none => popenError inPipe outPipe errPipe t
          | some pid => do
            let (writefd, t) ← parentPipe (wanted .stdin) inPipe.1 inPipe.2 inPipe.2 t
            let (readfd, t) ← parentPipe (wanted .stdout) outPipe.2 outPipe.1 outPipe.1 t
            -- The flag is set on an end of the second pipe.
            let (errfd, t) ← parentPipe (wanted .stderr) errPipe.2 outPipe.1 errPipe.1 t
            return (pid, ⟨writefd, readfd, errfd⟩, t)

/-- The end of a pipe that the parent keeps. -/
def parentEnd : Std → OpenFile
  | .stdin => .writeEnd .stdin
  | .stdout => .readEnd .stdout
  | .stderr => .readEnd .stderr

/-- No call fails. -/
def PopenEnv.Succeeds (env : PopenEnv) (wanted : Std → Bool) : Prop :=
  env.notNull = true ∧ env.access = true ∧ (∀ std, wanted std = true → env.pipe std = true) ∧ env.fork.isSome = true

/-- The descriptors that have been stored. -/
def PopenOut.fds (out : PopenOut) : List Nat := [out.writefd, out.readfd, out.errfd].reduceOption.map Int.toNat

/-- On success, of all descriptors that have been opened only the wanted ends of the parent are open, each of them in
    its output and not to be inherited, and the others have been closed once; on failure, all of them have. -/
structure KeepsDescriptors (env : PopenEnv) (wanted : Std → Bool) (t : Fds) (r : Int) (out : PopenOut) (t' : Fds) :
    Prop where
  succeeded : env.Succeeds wanted → (∃ pid, env.fork = some pid ∧ r = pid) ∧ FdTable.Since t t' out.fds ∧ ∀ std,
    if wanted std then ∃ n : Nat, out.get std = some (n : Int) ∧ t'.get n = some ⟨parentEnd std, true⟩
    else out.get std = none
  failed : ¬env.Succeeds wanted → r = -1 ∧ out = {} ∧ FdTable.Since t t' []

section
variable {env : PopenEnv} {wanted : Std → Bool} {std : Std} {t₀ t t' : Fds} {p : PipeVar} {ends held rest : List Nat}
  {made : Bool} {inPipe outPipe errPipe : PipeVar} {a b c : List Nat}

/-! ### The ends of a pipe -/

/-- The ends that a variable names. -/
inductive Ends (t : Fds) (std : Std) : Bool → PipeVar → List Nat → Prop
  | unused : Ends t std false (-1, -1) []
  | made (r w : Nat) (hr : t.get r = some ⟨.readEnd std, false⟩) (hw : t.get w = some ⟨.writeEnd std, false⟩) :
      Ends t std true (r, w) [r, w]

theorem Ends.congr (h : Ends t std made p ends) (hkept : ∀ n ∈ ends, t'.get n = t.get n) : Ends t' std made p ends := by
  cases h with
  | unused => exact .unused
  | made r w hr hw =>
    exact .made r w ((hkept r (by simp)).trans hr) ((hkept w (by simp)).trans hw)

theorem pipe_spec (std : Std) (S : t₀.Since t held) : ∃ (r w : Nat) (t' : Fds),
    pipe std t = (((r : Int), (w : Int)), t') ∧ t₀.Since t' (held ++ [r, w]) ∧
    Ends t' std true (r, w) [r, w] ∧ ∀ n ∈ held, t'.get n = t.get n := by
  have S₁ := S.install ⟨.readEnd std, false⟩
  have S₂ := S₁.install ⟨.writeEnd std, false⟩
  rw [List.append_assoc] at S₂
  have hne : t.lowest ≠ (t.install ⟨.readEnd std, false⟩).2.lowest := by
    intro heq
    have hfree := (t.install ⟨.readEnd std, false⟩).2.get_lowest
    rw [← heq, FdTable.get_install_self] at hfree
    cases hfree
  refine ⟨_, _, _, rfl, S₂, .made _ _ ?_ FdTable.get_install_self, ?_⟩
  · exact (FdTable.get_install_ne hne).trans FdTable.get_install_self
  · intro n hn
    have hn₁ : n ≠ t.lowest := by
      rintro rfl
      exact S.not_mem_of_free FdTable.get_lowest hn
    have hn₂ : n ≠ (t.install ⟨.readEnd std, false⟩).2.lowest := by
      rintro rfl
      exact S₁.not_mem_of_free FdTable.get_lowest (List.mem_append_left _ hn)
    exact (FdTable.get_install_ne hn₂).trans (FdTable.get_install_ne hn₁)

/-- A pipe is wanted and cannot be made, or its ends are open if it is wanted. -/
theorem openPipe_spec (env : PopenEnv) (wanted : Std → Bool) (std : Std) (S : t₀.Since t held) :
    (wanted std = true ∧ env.pipe std = false ∧ openPipe env std (wanted std) t = (true, (-1, -1), t)) ∨
    (wanted std = true → env.pipe std = true) ∧ ∃ p ends t', openPipe env std (wanted std) t = (false, p, t') ∧
      t₀.Since t' (held ++ ends) ∧ Ends t' std (wanted std) p ends ∧ ∀ n ∈ held, t'.get n = t.get n := by
  rw [openPipe]
  cases hw : wanted std with
  | false =>
    refine Or.inr ⟨nofun, (-1, -1), [], t, rfl, ?_, .unused, fun _ _ => rfl⟩
    rwa [List.append_nil]
  | true =>
    cases hp : env.pipe std with
    | false => exact Or.inl ⟨rfl, rfl, rfl⟩
    | true =>
      obtain ⟨r, w, t', hpipe, S', hends, hkept⟩ := pipe_spec std S
      exact Or.inr ⟨fun _ => rfl, (r, w), [r, w], t', congrArg (Prod.mk false) hpipe, S', hends, hkept⟩

/-! ### The error path -/

theorem closeFd_nat (n : Nat) : closeFd n t = t.close n := if_neg (Int.not_lt.mpr (Int.natCast_nonneg n))

theorem closeIfOpen_nat (n : Nat) : closeIfOpen n t = t.close n :=
  (if_pos (Int.natCast_nonneg n)).trans (closeFd_nat n)

theorem closeEnds {β : Type} (h : Ends t₀ std made p ends) (k : Fds → Option β) :
    ((closeIfOpen p.1 t).bind fun t => (closeIfOpen p.2 t).bind k) = (t.closeAll ends).bind k := by
  cases h with
  | unused => rfl
  | made r w hr hw =>
    simp only [closeIfOpen_nat, FdTable.closeAll, Option.bind_assoc, Option.bind_some]

/-- The error path closes exactly the ends that have been made. -/
theorem popenError_spec (S : t₀.Since t (a ++ b ++ c)) {made' made'' : Bool} (ha : Ends t .stdin made inPipe a)
    (hb : Ends t .stdout made' outPipe b) (hc : Ends t .stderr made'' errPipe c) :
    ∃ t', popenError inPipe outPipe errPipe t = some (-1, {}, t') ∧ t₀.Since t' [] := by
  obtain ⟨t', hall, S'⟩ := S.closeAll
  refine ⟨t', ?_, S'⟩
  rw [FdTable.closeAll_append, FdTable.closeAll_append, Option.bind_assoc] at hall
  have hcode : popenError inPipe outPipe errPipe t = (t.closeAll a).bind fun t => (t.closeAll b).bind fun t =>
      (t.closeAll c).bind fun t => some (-1, {}, t) := by
    rw [← closeEnds ha]
    simp only [← closeEnds hb, ← closeEnds hc]
    rfl
  obtain ⟨t₁, h₁, hall⟩ := Option.bind_eq_some_iff.mp hall
  obtain ⟨t₂, h₂, h₃⟩ := Option.bind_eq_some_iff.mp hall
  simp only [hcode, h₁, h₂, h₃, Option.bind_some]

/-! ### The parent's side -/

/-- What has become of a pipe that was made: the end that is not the parent's is closed, the other one is stored. -/
structure Kept (t₀ t t' : Fds) (std : Std) (cloexec made : Bool) (out : Option Int) (kept rest : List Nat) : Prop where
  since : t₀.Since t' (kept ++ rest)
  unused : made = false → out = none ∧ kept = []
  used : made = true → ∃ n : Nat, out = some (n : Int) ∧ kept = [n] ∧ t'.get n = some ⟨parentEnd std, cloexec⟩
  others : ∀ n ∈ rest, t'.get n = t.get n

/-- One end is closed and the other one stored. -/
theorem parentPipe_eq {child parent : Nat} (S : t₀.Since t (child :: parent :: rest)) (cloexecEnd : Int) :
    ∃ t₁, parentPipe true child cloexecEnd parent t = some (some (parent : Int), nlSetCloexec cloexecEnd t₁) ∧
      t₀.Since t₁ (parent :: rest) ∧ ∀ n ∈ parent :: rest, t₁.get n = t.get n := by
  obtain ⟨t₁, hclose, S₁, hothers⟩ := S.close
  refine ⟨t₁, ?_, S₁, ?_⟩
  · rw [parentPipe, if_pos rfl, closeFd_nat, hclose]
    rfl
  · intro n hn
    refine hothers n ?_
    rintro rfl
    exact (List.nodup_cons.mp S.nodup).1 hn

/-- With the flag set on the end that is stored. -/
theorem parentPipe_own (std : Std) {child parent : Nat} (S : t₀.Since t (child :: parent :: rest))
    (hparent : t.get parent = some ⟨parentEnd std, false⟩) :
    ∃ out t', parentPipe true child parent parent t = some (out, t') ∧
      Kept t₀ t t' std true true out [parent] rest := by
  obtain ⟨t₁, hcode, S₁, hothers⟩ := parentPipe_eq S parent
  have hset : nlSetCloexec parent t₁ = t₁.setCloexec parent := if_neg (Int.not_lt.mpr (Int.natCast_nonneg parent))
  rw [hset] at hcode
  refine ⟨_, _, hcode, S₁.setCloexec List.mem_cons_self, nofun, fun _ => ⟨parent, rfl, rfl, ?_⟩, ?_⟩
  · exact FdTable.get_setCloexec_self ((hothers parent List.mem_cons_self).trans hparent)
  · intro n hn
    have hne : n ≠ parent := by
      rintro rfl
      exact (List.nodup_cons.mp S₁.nodup).1 hn
    rw [FdTable.get_setCloexec_ne hne]
    exact hothers n (List.mem_cons_of_mem parent hn)

theorem parentPipe_unused (S : t₀.Since t rest) (cloexec : Bool) (x y z : Int) :
    ∃ out t', parentPipe false x y z t = some (out, t') ∧ Kept t₀ t t' std cloexec false out [] rest :=
  ⟨none, t, rfl, S, fun _ => ⟨rfl, rfl⟩, nofun, fun _ _ => rfl⟩

theorem parentPipe_stdin (S : t₀.Since t (ends ++ rest)) (h : Ends t .stdin made p ends) :
    ∃ out t' kept, parentPipe made p.1 p.2 p.2 t = some (out, t') ∧ Kept t₀ t t' .stdin true made out kept rest := by
  cases h with
  | unused =>
    obtain ⟨out, t', hcode, hkept⟩ := parentPipe_unused S true (-1) (-1) (-1)
    exact ⟨out, t', [], hcode, hkept⟩
  | made r w hr hw =>
    obtain ⟨out, t', hcode, hkept⟩ := parentPipe_own .stdin S hw
    exact ⟨out, t', [w], hcode, hkept⟩

theorem parentPipe_stdout (S : t₀.Since t (ends ++ rest)) (h : Ends t .stdout made p ends) :
    ∃ out t' kept, parentPipe made p.2 p.1 p.1 t = some (out, t') ∧ Kept t₀ t t' .stdout true made out kept rest ∧
      out = if made then some p.1 else none := by
  cases h with
  | unused =>
    obtain ⟨out, t', hcode, hkept⟩ := parentPipe_unused S true (-1) (-1) (-1)
    exact ⟨out, t', [], hcode, hkept, (hkept.unused rfl).1⟩
  | made r w hr hw =>
    have S₁ : t₀.Since t (w :: r :: rest) := S.perm (List.Perm.swap w r rest)
    obtain ⟨out, t', hcode, hkept⟩ := parentPipe_own .stdout S₁ hr
    obtain ⟨n, hout, hn, -⟩ := hkept.used rfl
    cases hn
    exact ⟨out, t', [r], hcode, hkept, hout⟩

/-- For the third pipe, the flag is set on an end that has it, or on none. -/
theorem parentPipe_stderr {x : Int} (S : t₀.Since t (ends ++ rest)) (h : Ends t .stderr made p ends)
    (hx : x < 0 ∨ ∃ (n : Nat) (f : OpenFile), x = n ∧ n ∈ rest ∧ t.get n = some ⟨f, true⟩) :
    ∃ out t' kept, parentPipe made p.2 x p.1 t = some (out, t') ∧ Kept t₀ t t' .stderr false made out kept rest := by
  cases h with
  | unused =>
    obtain ⟨out, t', hcode, hkept⟩ := parentPipe_unused S false (-1) x (-1)
    exact ⟨out, t', [], hcode, hkept⟩
  | made r w hr hw =>
    have S₁ : t₀.Since t (w :: r :: rest) := S.perm (List.Perm.swap w r rest)
    obtain ⟨t₁, hcode, S₂, hothers⟩ := parentPipe_eq S₁ x
    refine ⟨_, _, [r], hcode, ?_⟩
    rcases hx with hneg | ⟨n, f, rfl, hn, hget⟩
    · have hset : nlSetCloexec x t₁ = t₁ := if_pos hneg
      rw [hset]
      refine ⟨S₂, nofun, fun _ => ⟨r, rfl, rfl, ?_⟩, ?_⟩
      · exact (hothers r List.mem_cons_self).trans hr
      · exact fun m hm => hothers m (List.mem_cons_of_mem r hm)
    · have hset : nlSetCloexec n t₁ = t₁.setCloexec n := if_neg (Int.not_lt.mpr (Int.natCast_nonneg n))
      have hrn : r ≠ n := by
        rintro rfl
        exact (List.nodup_cons.mp S₂.nodup).1 hn
      rw [hset]
      refine ⟨S₂.setCloexec (List.mem_cons_of_mem r hn), nofun, fun _ => ⟨r, rfl, rfl, ?_⟩, ?_⟩
      · rw [FdTable.get_setCloexec_ne hrn]
        exact (hothers r List.mem_cons_self).trans hr
      · intro m hm
        by_cases hmn : m = n
        · rw [hmn, hget]
          exact FdTable.get_setCloexec_self ((hothers n (List.mem_cons_of_mem r hn)).trans hget)
        · rw [FdTable.get_setCloexec_ne hmn]
          exact hothers m (List.mem_cons_of_mem r hm)

/-! ### The whole call -/

theorem Kept.get_ite {cloexec : Bool} {out : Option Int} {kept : List Nat} {t'' : Fds}
    (h : Kept t₀ t t' std cloexec made out kept rest) (hlater : ∀ n ∈ kept, t''.get n = t'.get n) :
    if made then ∃ n : Nat, out = some (n : Int) ∧ t''.get n = some ⟨parentEnd std, cloexec⟩ else out = none := by
  cases made with
  | false => exact (h.unused rfl).1
  | true =>
    obtain ⟨n, hout, rfl, hget⟩ := h.used rfl
    exact ⟨n, hout, (hlater n (List.mem_singleton_self n)).trans hget⟩

theorem Kept.toNat {cloexec : Bool} {out : Option Int} {kept : List Nat}
    (h : Kept t₀ t t' std cloexec made out kept rest) : [out].reduceOption.map Int.toNat = kept := by
  cases made with
  | false =>
    obtain ⟨rfl, rfl⟩ := h.unused rfl
    rfl
  | true =>
    obtain ⟨n, rfl, rfl, -⟩ := h.used rfl
    rfl

/-- What the parent does with the three pipes: its own ends are open and stored, and the flag is missing on the last of
    them. -/
theorem parentPipes_spec (S : t₀.Since t (a ++ (b ++ c))) (ha : Ends t .stdin (wanted .stdin) inPipe a)
    (hb : Ends t .stdout (wanted .stdout) outPipe b) (hc : Ends t .stderr (wanted .stderr) errPipe c) :
    ∃ writefd t₁ readfd t₂ errfd t₃, parentPipe (wanted .stdin) inPipe.1 inPipe.2 inPipe.2 t = some (writefd, t₁) ∧
      parentPipe (wanted .stdout) outPipe.2 outPipe.1 outPipe.1 t₁ = some (readfd, t₂) ∧
      parentPipe (wanted .stderr) errPipe.2 outPipe.1 errPipe.1 t₂ = some (errfd, t₃) ∧
      t₀.Since t₃ (PopenOut.fds ⟨writefd, readfd, errfd⟩) ∧ ∀ std,
        if wanted std then ∃ n : Nat, PopenOut.get ⟨writefd, readfd, errfd⟩ std = some (n : Int) ∧
          t₃.get n = some ⟨parentEnd std, std ≠ .stderr⟩
        else PopenOut.get ⟨writefd, readfd, errfd⟩ std = none := by
  obtain ⟨writefd, t₁, kw, hcode₁, K₁⟩ := parentPipe_stdin S ha
  have hb := hb.congr fun n hn => K₁.others n (List.mem_append_left c hn)
  have hc := hc.congr fun n hn => K₁.others n (List.mem_append_right b hn)
  have S₁ : t₀.Since t₁ (b ++ (kw ++ c)) := by
    refine K₁.since.perm ?_
    rw [← List.append_assoc, ← List.append_assoc]
    exact List.perm_append_comm.append_right c
  obtain ⟨readfd, t₂, kr, hcode₂, K₂, hreadfd⟩ := parentPipe_stdout S₁ hb
  have hc := hc.congr fun n hn => K₂.others n (List.mem_append_right kw hn)
  have S₂ : t₀.Since t₂ (c ++ (kr ++ kw)) := by
    refine K₂.since.perm ?_
    rw [← List.append_assoc]
    exact List.perm_append_comm
  have hx : outPipe.1 < 0 ∨ ∃ (n : Nat) (f : OpenFile), outPipe.1 = n ∧ n ∈ kr ++ kw ∧ t₂.get n = some ⟨f, true⟩ := by
    cases hw : wanted .stdout with
    | false =>
      rw [hw] at hb
      cases hb
      exact Or.inl (by decide)
    | true =>
      obtain ⟨n, hn, rfl, hget⟩ := K₂.used hw
      rw [hreadfd, hw, if_pos rfl] at hn
      exact Or.inr ⟨n, _, Option.some.inj hn, List.mem_append_left kw (List.mem_singleton_self n), hget⟩
  obtain ⟨errfd, t₃, ke, hcode₃, K₃⟩ := parentPipe_stderr S₂ hc hx
  refine ⟨writefd, t₁, readfd, t₂, errfd, t₃, hcode₁, hcode₂, hcode₃, ?_, ?_⟩
  · have hfds : PopenOut.fds ⟨writefd, readfd, errfd⟩ = kw ++ (kr ++ ke) := by
      rw [← K₁.toNat, ← K₂.toNat, ← K₃.toNat]
      cases writefd <;> cases readfd <;> cases errfd <;> rfl
    rw [hfds]
    refine K₃.since.perm (List.perm_append_comm.trans ?_)
    rw [← List.append_assoc]
    exact List.perm_append_comm.append_right ke
  · have hlater : ∀ n ∈ kw, t₃.get n = t₁.get n := fun n hn =>
      (K₃.others n (List.mem_append_right kr hn)).trans (K₂.others n (List.mem_append_left c hn))
    rintro (_ | _ | _)
    · exact K₁.get_ite hlater
    · exact K₂.get_ite fun n hn => K₃.others n (List.mem_append_left kw hn)
    · exact K₃.get_ite fun _ _ => rfl

/-- A call fails, and everything is closed again, or the ends of the parent are stored; the flag is missing on the last
    of them. -/
theorem nlPopen3vec_cases (env : PopenEnv) (wanted : Std → Bool) (t : Fds) :
    (¬env.Succeeds wanted ∧ ∃ t', nlPopen3vec env wanted t = some (-1, {}, t') ∧ t.Since t' []) ∨
    env.Succeeds wanted ∧ ∃ (pid : Nat) (out : PopenOut) (t' : Fds), env.fork = some pid ∧
      nlPopen3vec env wanted t = some ((pid : Int), out, t') ∧ t.Since t' out.fds ∧ ∀ std,
        if wanted std then ∃ n : Nat, out.get std = some (n : Int) ∧ t'.get n = some ⟨parentEnd std, std ≠ .stderr⟩
        else out.get std = none := by
  have S := FdTable.Since.refl t
  have hfails : ∀ {std : Std}, wanted std = true → env.pipe std = false → ¬env.Succeeds wanted := by
    intro std hw hp h
    cases hp.symm.trans (h.2.2.1 std hw)
  by_cases hnull : env.notNull = true
  case neg =>
    refine Or.inl ⟨fun h => hnull h.1, t, ?_, S⟩
    simp only [nlPopen3vec, hnull]
    rfl
  by_cases haccess : env.access = true
  case neg =>
    refine Or.inl ⟨fun h => haccess h.2.1, t, ?_, S⟩
    simp only [nlPopen3vec, hnull, haccess]
    rfl
  rcases openPipe_spec env wanted .stdin S with ⟨hw, hp, h₁⟩ | ⟨hin, inPipe, a, t₁, h₁, S₁, ha, -⟩
  · obtain ⟨t', herr, S'⟩ := popenError_spec (a := []) (b := []) (c := []) S .unused .unused .unused
    refine Or.inl ⟨hfails hw hp, t', ?_, S'⟩
    simp only [nlPopen3vec, hnull, haccess, h₁]
    exact herr
  rcases openPipe_spec env wanted .stdout S₁ with ⟨hw, hp, h₂⟩ | ⟨hout, outPipe, b, t₂, h₂, S₂, hb, hkept₂⟩
  · obtain ⟨t', herr, S'⟩ := popenError_spec (b := []) (c := []) (by simpa using S₁) ha .unused .unused
    refine Or.inl ⟨hfails hw hp, t', ?_, S'⟩
    simp only [nlPopen3vec, hnull, haccess, h₁, h₂]
    exact herr
  have ha := ha.congr hkept₂
  rcases openPipe_spec env wanted .stderr S₂ with ⟨hw, hp, h₃⟩ | ⟨herr, errPipe, c, t₃, h₃, S₃, hc, hkept₃⟩
  · obtain ⟨t', herr, S'⟩ := popenError_spec (c := []) (by simpa using S₂) ha hb .unused
    refine Or.inl ⟨hfails hw hp, t', ?_, S'⟩
    simp only [nlPopen3vec, hnull, haccess, h₁, h₂, h₃]
    exact herr
  have ha := ha.congr fun n hn => hkept₃ n (List.mem_append_left b hn)
  have hb := hb.congr fun n hn => hkept₃ n (List.mem_append_right a hn)
  cases hfork : env.fork with
  | none =>
    obtain ⟨t', herr, S'⟩ := popenError_spec S₃ ha hb hc
    refine Or.inl ⟨fun h => ?_, t', ?_, S'⟩
    · have hsome := h.2.2.2
      rw [hfork] at hsome
      cases hsome
    · simp only [nlPopen3vec, hnull, haccess, h₁, h₂, h₃, hfork]
      exact herr
  | some pid =>
    have hsucceeds : env.Succeeds wanted := by
      refine ⟨hnull, haccess, ?_, by rw [hfork]; rfl⟩
      rintro (_ | _ | _) hw
      · exact hin hw
      · exact hout hw
      · exact herr hw
    rw [List.append_assoc] at S₃
    obtain ⟨writefd, t₄, readfd, t₅, errfd, t₆, h₄, h₅, h₆, S₆, hget⟩ := parentPipes_spec S₃ ha hb hc
    refine Or.inr ⟨hsucceeds, pid, ⟨writefd, readfd, errfd⟩, t₆, rfl, ?_, S₆, hget⟩
    simp [nlPopen3vec, hnull, haccess, h₁, h₂, h₃, hfork, h₄, h₅, h₆]

end

/-- The descriptors are kept in order when no descriptor is asked for that reads the standard error output, or when a
    call fails; otherwise this descriptor can be inherited. -/
theorem keepsDescriptors_iff (env : PopenEnv) (wanted : Std → Bool) (t : Fds) :
    (∃ r out t', nlPopen3vec env wanted t = some (r, out, t') ∧ KeepsDescriptors env wanted t r out t') ↔
      (wanted .stderr = false ∨ ¬env.Succeeds wanted) := by
  rcases nlPopen3vec_cases env wanted t with ⟨hno, t', hcode, S⟩ | ⟨hyes, pid, out, t', hfork, hcode, S, hget⟩
  · exact iff_of_true ⟨-1, {}, t', hcode, fun h => absurd h hno, fun _ => ⟨rfl, rfl, S⟩⟩ (Or.inr hno)
  · constructor
    · rintro ⟨r, out', t'', hcode', hkeeps⟩
      obtain ⟨rfl, rfl, rfl⟩ : (pid : Int) = r ∧ out = out' ∧ t' = t'' := by
        simpa using hcode.symm.trans hcode'
      refine Or.inl (Bool.eq_false_iff.mpr fun hw => ?_)
      have hwrong := hget .stderr
      have hright := (hkeeps.succeeded hyes).2.2 .stderr
      rw [if_pos hw] at hwrong hright
      obtain ⟨n, hn, hflag⟩ := hwrong
      obtain ⟨m, hm, hset⟩ := hright
      obtain rfl : n = m := Int.ofNat.inj (Option.some.inj (hn.symm.trans hm))
      cases hflag.symm.trans hset
    · rintro (hw | hno)
      · refine ⟨pid, out, t', hcode, fun _ => ⟨⟨pid, hfork, rfl⟩, S, ?_⟩, fun hno => absurd hyes hno⟩
        intro std
        by_cases hstd : std = .stderr
        · rw [hstd, if_neg (by rw [hw]; exact Bool.false_ne_true)]
          have hnone := hget .stderr
          rwa [if_neg (by rw [hw]; exact Bool.false_ne_true)] at hnone
        · have hkept := hget std
          rwa [decide_eq_true hstd] at hkept
      · exact absurd hyes hno

/-- A child with all three pipes, in a process that has its standard descriptors open. -/
theorem not_keepsDescriptors : ∃ (env : PopenEnv) (wanted : Std → Bool) (t : Fds),
    ¬∃ r out t', nlPopen3vec env wanted t = some (r, out, t') ∧ KeepsDescriptors env wanted t r out t' := by
  refine ⟨{ fork := some 42 }, fun _ => true, { entries := List.replicate 3 (some ⟨.other 0, false⟩) }, ?_⟩
  rintro ⟨r, out, t', hcode, hkeeps⟩
  have hsucceeds : PopenEnv.Succeeds { fork := some 42 } fun _ => true := ⟨rfl, rfl, fun _ _ => rfl, rfl⟩
  obtain ⟨-, -, hget⟩ := hkeeps.succeeded hsucceeds
  obtain ⟨n, hn, hset⟩ := hget .stderr
  have hresult : nlPopen3vec { fork := some 42 } (fun _ => true)
      { entries := List.replicate 3 (some ⟨.other 0, false⟩) } =
      some (42, ⟨some 4, some 5, some 7⟩, ⟨List.replicate 3 (some ⟨.other 0, false⟩) ++
        [none, some ⟨.writeEnd .stdin, true⟩, some ⟨.readEnd .stdout, true⟩, none, some ⟨.readEnd .stderr, false⟩,
          none],
        [3, 4, 5, 6, 7, 8], [3, 6, 8]⟩) := by
    decide
  cases hresult.symm.trans hcode
  cases hn
  cases hset

end Nlutils
