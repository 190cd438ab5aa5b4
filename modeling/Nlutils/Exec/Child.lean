import Nlutils.Exec

/-! # The child of `nl_popen3vec`

The child has a copy of the descriptors of its parent. It makes its ends of the pipes its standard streams, closes all
ends, and executes the program. An end that already has the number of its stream is closed as well, so that the program
does without this stream: this happens, and exactly when is shown, to a parent that has closed a standard stream. -/

namespace Nlutils
open Lib

/-! ### The code -/

/-- What the callback does to the descriptors, if there is one, and whether the calls of the child succeed. -/
structure ChildEnv where
  callback : Option (Fds → Fds) := none
  dup2 : Std → Bool := fun _ => true
  execve : Bool := true

/-- The number of a standard stream. -/
def Std.number : Std → Nat
  | .stdin => 0
  | .stdout => 1
  | .stderr => 2

/-- The end of a pipe that the child uses. -/
def childEnd : Std → OpenFile
  | .stdin => .readEnd .stdin
  | .stdout => .writeEnd .stdout
  | .stderr => .writeEnd .stderr

inductive ChildEnd
  /-- By `exit(-1)`. -/
  | exited
  /-- The program runs with these descriptors. -/
  | executed (t : Fds)
  deriving DecidableEq, Repr

/-- `dup2(fd, number)` -/
def dup2Fd (ok : Bool) (fd : Int) (std : Std) (t : Fds) : Option Fds :=
  if ok ∧ fd ≥ 0 then t.dup2 fd.toNat std.number else none

/-- What the child does with a pipe that is wanted, unless it exits. There is no result where a number is closed that is
    not open. -/
def childPipe (ok : Bool) (std : Std) (wanted : Bool) (parentFd childFd : Int) (t : Fds) : Option (Option Fds) :=
  if wanted then do
    let t ← closeFd parentFd t
    match dup2Fd ok childFd std t with
    | none => return none
    | some t => return some (← closeFd childFd t)
  else some (some t)

/-- The child from the fork on. -/
def popenChild (env : ChildEnv) (wanted : Std → Bool) (inPipe outPipe errPipe : PipeVar) (t : Fds) :
    Option ChildEnd := do
  let t := match env.callback with
    | none => t
    | some callback => callback t
  match ← childPipe (env.dup2 .stdin) .stdin (wanted .stdin) inPipe.2 inPipe.1 t with
  | none => return .exited
  | some t =>
    match ← childPipe (env.dup2 .stdout) .stdout (wanted .stdout) outPipe.1 outPipe.2 t with
    | none => return .exited
    | some t =>
      match ← childPipe (env.dup2 .stderr) .stderr (wanted .stderr) errPipe.1 errPipe.2 t with
      | none => return .exited
      | some t => return if env.execve then .executed t.exec else .exited

/-- `nl_popen3vec` up to the fork and in the child, if there is one. -/
def nlPopen3vecChild (env : PopenEnv) (child : ChildEnv) (wanted : Std → Bool) (t : Fds) : Option (Option ChildEnd) :=
  if !env.notNull then some none
  else if !env.access then some none
  else
    let (bad, inPipe, t) := openPipe env .stdin (wanted .stdin) t
    if bad then some none
    else
      let (bad, outPipe, t) := openPipe env .stdout (wanted .stdout) t
      if bad then some none
      else
        let (bad, errPipe, t) := openPipe env .stderr (wanted .stderr) t
        if bad then some none
        else
          match env.fork with
          | none => some none
          | some _ => (popenChild child wanted inPipe outPipe errPipe t).map some

/-! ### What the child gets -/

/-- The child's end of a pipe has the number of its stream. The numbers that are free are used from below, for the pipes
    in their order. -/
def collides (wanted : Std → Bool) (t : Fds) : Std → Bool
  | .stdin => (t.get 0).isNone
  | .stdout => !wanted .stdin && (t.get 0).isNone && (t.get 1).isNone
  | .stderr => !wanted .stdin && !wanted .stdout && (t.get 2).isNone && ((t.get 0).isNone != (t.get 1).isNone)

/-- The descriptors of the program. -/
structure ChildStreams (wanted : Std → Bool) (t c : Fds) : Prop where
  streams : ∀ std, c.get std.number =
    if wanted std then if collides wanted t std then none else some ⟨childEnd std, false⟩
    else (t.get std.number).filter fun d => !d.cloexec
  others : ∀ n, 2 < n → c.get n = (t.get n).filter fun d => !d.cloexec

/-- No call of the child fails. -/
def ChildEnv.Succeeds (child : ChildEnv) (wanted : Std → Bool) : Prop :=
  (∀ std, wanted std = true → child.dup2 std = true) ∧ child.execve = true

section
variable {env : PopenEnv} {child : ChildEnv} {wanted : Std → Bool} {std : Std} {t₀ t t' c : Fds} {made ok : Bool}
  {p inPipe outPipe errPipe : PipeVar} {ends held : List Nat}

/-! ### One pipe -/

/-- The numbers of the ends as the child uses them: first the parent's end. -/
def childFds (std : Std) (p : PipeVar) : PipeVar :=
  match std with
  | .stdin => (p.2, p.1)
  | .stdout => p
  | .stderr => p

/-- What the step for one pipe leaves for a number. -/
def afterPipe (std : Std) (made : Bool) (p : PipeVar) (ends : List Nat) (t : Fds) (n : Nat) :
    Option (Descriptor OpenFile) :=
  if made ∧ n = std.number then if (childFds std p).2 = n then none else some ⟨childEnd std, false⟩
  else if n ∈ ends then none
  else t.get n

/-- Both numbers of a pipe that is made. -/
theorem childFds_spec (h : Ends t std true p ends) : ∃ a b : Nat, childFds std p = ((a : Int), (b : Int)) ∧
    (∃ d, t.get a = some d) ∧ t.get b = some ⟨childEnd std, false⟩ ∧ a ≠ b ∧ ∀ n, n ∈ ends ↔ n = a ∨ n = b := by
  cases h with
  | made r w hr hw =>
    have hne : r ≠ w := by
      rintro rfl
      cases hr.symm.trans hw
    cases std with
    | stdin =>
      refine ⟨w, r, rfl, ⟨_, hw⟩, hr, hne.symm, fun n => ?_⟩
      rw [List.mem_cons, List.mem_singleton, or_comm]
    | stdout => exact ⟨r, w, rfl, ⟨_, hr⟩, hw, hne, fun n => by rw [List.mem_cons, List.mem_singleton]⟩
    | stderr => exact ⟨r, w, rfl, ⟨_, hr⟩, hw, hne, fun n => by rw [List.mem_cons, List.mem_singleton]⟩

theorem childPipe_spec (h : Ends t std made p ends) (hok : made = true → ok = true) : ∃ t',
    childPipe ok std made (childFds std p).1 (childFds std p).2 t = some (some t') ∧
      ∀ n, t'.get n = afterPipe std made p ends t n := by
  cases made with
  | false =>
    cases h
    refine ⟨t, rfl, fun n => ?_⟩
    rw [afterPipe, if_neg (by simp), if_neg List.not_mem_nil]
  | true =>
    obtain ⟨a, b, hfds, ⟨d, ha⟩, hb, hne, hmem⟩ := childFds_spec h
    obtain ⟨t₁, hclose, hself, hother, -, -⟩ := FdTable.close_eq ha
    have hb₁ : t₁.get b = some ⟨childEnd std, false⟩ := (hother b hne.symm).trans hb
    obtain ⟨t₂, t₃, hcopy, hclose', hget⟩ := FdTable.dup2_close hb₁ std.number
    have hdup : dup2Fd ok b std t₁ = some t₂ := (if_pos ⟨hok rfl, Int.natCast_nonneg b⟩).trans hcopy
    refine ⟨t₃, ?_, fun n => ?_⟩
    · simp only [childPipe, if_true, hfds, closeFd_nat, hclose, hdup, hclose', Option.bind_eq_bind, Option.bind_some]
      rfl
    · rw [hget, afterPipe, hfds]
      by_cases hn : n = std.number
      · have hmade : true = true ∧ n = std.number := ⟨rfl, hn⟩
        rw [if_pos hn, if_pos hmade, hn]
        simp only [Int.natCast_inj]
      · have hother' : ¬(true = true ∧ n = std.number) := fun h => hn h.2
        rw [if_neg hn, if_neg hother']
        by_cases hnb : n = b
        · rw [if_pos hnb, if_pos ((hmem n).mpr (Or.inr hnb))]
        · by_cases hna : n = a
          · rw [if_neg hnb, if_pos ((hmem n).mpr (Or.inl hna)), hna, hself]
          · have hkept : n ∉ ends := fun h => ((hmem n).mp h).elim hna hnb
            rw [if_neg hnb, if_neg hkept, hother n hna]

theorem childPipe_exits (h : Ends t std true p ends) (hok : ok = false) :
    childPipe ok std true (childFds std p).1 (childFds std p).2 t = some none := by
  obtain ⟨a, b, hfds, ⟨d, ha⟩, -, -, -⟩ := childFds_spec h
  obtain ⟨t₁, hclose, -⟩ := FdTable.close_eq ha
  have hdup : dup2Fd ok b std t₁ = none := if_neg fun h => Bool.false_ne_true (hok.symm.trans h.1)
  simp only [childPipe, if_true, hfds, closeFd_nat, hclose, hdup, Option.bind_eq_bind, Option.bind_some]
  rfl

theorem childPipe_cases (ok : Bool) (h : Ends t std made p ends) :
    made = true ∧ ok = false ∧ childPipe ok std made (childFds std p).1 (childFds std p).2 t = some none ∨
      (made = true → ok = true) ∧ ∃ t', childPipe ok std made (childFds std p).1 (childFds std p).2 t = some (some t') ∧
        ∀ n, t'.get n = afterPipe std made p ends t n := by
  by_cases hok : made = true → ok = true
  · exact Or.inr ⟨hok, childPipe_spec h hok⟩
  · rw [Classical.not_imp, Bool.not_eq_true] at hok
    obtain ⟨rfl, hok⟩ := hok
    exact Or.inl ⟨rfl, hok, childPipe_exits h hok⟩

theorem afterPipe_other {n : Nat} (hn : ¬(made = true ∧ n = std.number)) :
    afterPipe std made p ends t n = if n ∈ ends then none else t.get n := if_neg hn

theorem afterPipe_self (hmade : made = true) : afterPipe std made p ends t std.number =
    if (childFds std p).2 = std.number then none else some ⟨childEnd std, false⟩ := if_pos ⟨hmade, rfl⟩

/-! ### The pipes -/

/-- A pipe gets the lowest numbers. -/
theorem openPipe_lowest (L : t₀.Lowest held) (S : t₀.Since t held) (h : openPipe env std made t = (false, p, t'))
    (hends : Ends t' std made p ends) : t₀.Lowest (held ++ ends) := by
  cases hends with
  | unused => rwa [List.append_nil]
  | made r w hr hw =>
    have hpipe : pipe std t = (((r : Int), (w : Int)), t') := by
      rw [openPipe, if_pos rfl] at h
      split at h
      · exact (Prod.mk.inj h).2
      · cases h
    have L₂ := (L.next S).next (S.install ⟨.readEnd std, false⟩)
    obtain ⟨hends, -⟩ := Prod.mk.inj hpipe
    obtain ⟨hr, hw⟩ := Prod.mk.inj hends
    rw [List.append_assoc] at L₂
    rw [← Int.ofNat.inj hr, ← Int.ofNat.inj hw]
    exact L₂

/-- The descriptors at the time of the fork: the ends of the three pipes, and what was open before. -/
structure Forked (env : PopenEnv) (wanted : Std → Bool) (t t' : Fds) (inPipe outPipe errPipe : PipeVar)
    (a b c : List Nat) : Prop where
  since : t.Since t' (a ++ b ++ c)
  lowest : t.Lowest (a ++ b ++ c)
  stdin : Ends t' .stdin (wanted .stdin) inPipe a
  stdout : Ends t' .stdout (wanted .stdout) outPipe b
  stderr : Ends t' .stderr (wanted .stderr) errPipe c

theorem openPipe_forked (h : env.Succeeds wanted) (t : Fds) : ∃ inPipe t₁ outPipe t₂ errPipe t₃ a b c,
    openPipe env .stdin (wanted .stdin) t = (false, inPipe, t₁) ∧
      openPipe env .stdout (wanted .stdout) t₁ = (false, outPipe, t₂) ∧
      openPipe env .stderr (wanted .stderr) t₂ = (false, errPipe, t₃) ∧
      Forked env wanted t t₃ inPipe outPipe errPipe a b c := by
  have hmade {std : Std} {q : Prop} : ¬(wanted std = true ∧ env.pipe std = false ∧ q) := fun hno =>
    Bool.false_ne_true (hno.2.1.symm.trans (h.2.2.1 std hno.1))
  have S := FdTable.Since.refl t
  obtain ⟨-, inPipe, a, t₁, h₁, S₁, ha, -⟩ := (openPipe_spec env wanted .stdin S).resolve_left hmade
  obtain ⟨-, outPipe, b, t₂, h₂, S₂, hb, hkept₂⟩ := (openPipe_spec env wanted .stdout S₁).resolve_left hmade
  obtain ⟨-, errPipe, c, t₃, h₃, S₃, hc, hkept₃⟩ := (openPipe_spec env wanted .stderr S₂).resolve_left hmade
  have L₁ := openPipe_lowest (FdTable.Lowest.nil t) S h₁ ha
  have L₂ := openPipe_lowest L₁ S₁ h₂ hb
  have L₃ := openPipe_lowest L₂ S₂ h₃ hc
  rw [List.nil_append] at S₁ S₂ S₃ L₃ hkept₂ hkept₃
  refine ⟨inPipe, t₁, outPipe, t₂, errPipe, t₃, a, b, c, h₁, h₂, h₃, S₃, L₃, ?_, ?_, hc⟩
  · exact (ha.congr hkept₂).congr fun n hn => hkept₃ n (List.mem_append_left b hn)
  · exact hb.congr fun n hn => hkept₃ n (List.mem_append_right a hn)

/-! ### Their numbers -/

theorem Ends.numbers (h : Ends t std made p ends) :
    made = false ∧ ends = [] ∨ made = true ∧ ∃ r w : Nat, p = ((r : Int), (w : Int)) ∧ ends = [r, w] := by
  cases h with
  | unused => exact Or.inl ⟨rfl, rfl⟩
  | made r w hr hw => exact Or.inr ⟨rfl, r, w, rfl, rfl⟩

/-- What lies behind a pipe has a number of at least 2. -/
theorem Ends.le_of_later (h : Ends t std true p ends) (before : List Nat) {later : List Nat}
    (L : (before ++ ends ++ later).Pairwise (· < ·)) {n : Nat} (hn : n ∈ later) : 2 ≤ n := by
  obtain ⟨hmade, -⟩ | ⟨-, r, w, -, rfl⟩ := h.numbers
  · cases hmade
  obtain ⟨hends, -, hlater⟩ := List.pairwise_append.mp L
  obtain ⟨-, hends, -⟩ := List.pairwise_append.mp hends
  have hrw : r < w := List.rel_of_pairwise_cons hends (List.mem_singleton_self w)
  have hwn : w < n := hlater w (List.mem_append_right before (by simp)) n hn
  omega

theorem Forked.le_of_stdin {a b c : List Nat} (h : Forked env wanted t t' inPipe outPipe errPipe a b c)
    (hw : wanted .stdin = true) {n : Nat} (hn : n ∈ b ++ c) : 2 ≤ n := by
  have hends := h.stdin
  have L := h.lowest.sorted
  rw [hw] at hends
  rw [List.append_assoc] at L
  exact hends.le_of_later [] L hn

theorem Forked.le_of_stdout {a b c : List Nat} (h : Forked env wanted t t' inPipe outPipe errPipe a b c)
    (hw : wanted .stdout = true) {n : Nat} (hn : n ∈ c) : 2 ≤ n := by
  have hends := h.stdout
  rw [hw] at hends
  exact hends.le_of_later a h.lowest.sorted hn

theorem Ends.eq_nil (h : Ends t std made p ends) (hmade : made = false) : ends = [] := by
  obtain ⟨-, hnil⟩ | ⟨hyes, -⟩ := h.numbers
  · exact hnil
  · cases hmade.symm.trans hyes

theorem Ends.made_numbers (h : Ends t std made p ends) (hmade : made = true) :
    ∃ r w : Nat, p = ((r : Int), (w : Int)) ∧ ends = [r, w] := by
  obtain ⟨hno, -⟩ | ⟨-, hnumbers⟩ := h.numbers
  · cases hmade.symm.trans hno
  · exact hnumbers

section
variable {a b c : List Nat}

theorem Forked.collides_stdin (h : Forked env wanted t t' inPipe outPipe errPipe a b c) (hw : wanted .stdin = true) :
    inPipe.1 = 0 ↔ collides wanted t .stdin = true := by
  obtain ⟨r, w, rfl, rfl⟩ := h.stdin.made_numbers hw
  have L := h.lowest
  rw [collides, Option.isNone_iff_eq_none]
  constructor
  · intro hr
    have hr : r = 0 := Int.ofNat.inj hr
    rw [← hr]
    exact L.free r (by simp)
  · intro hfree
    have hr : r ≤ 0 := L.head_le hfree
    exact Int.natCast_eq_zero.mpr (Nat.le_zero.mp hr)

theorem Forked.collides_stdout (h : Forked env wanted t t' inPipe outPipe errPipe a b c)
    (hw : wanted .stdout = true) : outPipe.2 = 1 ↔ collides wanted t .stdout = true := by
  obtain ⟨r, w, rfl, rfl⟩ := h.stdout.made_numbers hw
  have L := h.lowest
  simp only [collides, Bool.and_eq_true, Bool.not_eq_true', Option.isNone_iff_eq_none]
  constructor
  · intro hone
    have hone : w = 1 := Int.ofNat.inj hone
    have hstdin : wanted .stdin = false := by
      rw [← Bool.not_eq_true]
      intro hw
      have hle : 2 ≤ w := h.le_of_stdin hw (by simp)
      omega
    obtain rfl := h.stdin.eq_nil hstdin
    have hrw : r < w := List.rel_of_pairwise_cons L.sorted (by simp)
    obtain rfl : r = 0 := by omega
    refine ⟨⟨hstdin, L.free 0 (by simp)⟩, ?_⟩
    rw [← hone]
    exact L.free w (by simp)
  · rintro ⟨⟨hstdin, hzero⟩, hone⟩
    obtain rfl := h.stdin.eq_nil hstdin
    have hrw : r < w := List.rel_of_pairwise_cons L.sorted (by simp)
    have hr : r ≤ 0 := L.head_le hzero
    have hw : 1 = r ∨ w ≤ 1 := L.second_le hone
    have heq : w = 1 := by omega
    exact congrArg Int.ofNat heq

theorem Forked.collides_stderr (h : Forked env wanted t t' inPipe outPipe errPipe a b c)
    (hw : wanted .stderr = true) : errPipe.2 = 2 ↔ collides wanted t .stderr = true := by
  obtain ⟨r, w, rfl, rfl⟩ := h.stderr.made_numbers hw
  have L := h.lowest
  have hrw : r < w := by
    obtain ⟨-, hsorted, -⟩ := List.pairwise_append.mp L.sorted
    exact List.rel_of_pairwise_cons hsorted (by simp)
  have hrfree : t.get r = none := L.free r (by simp)
  have hwfree : t.get w = none := L.free w (by simp)
  simp only [collides, Bool.and_eq_true, Bool.not_eq_true', Option.isNone_iff_eq_none, bne_iff_ne]
  constructor
  · intro htwo
    have htwo : w = 2 := Int.ofNat.inj htwo
    have hstdin : wanted .stdin = false := by
      rw [← Bool.not_eq_true]
      intro hw
      have hle : 2 ≤ r := h.le_of_stdin hw (by simp)
      omega
    have hstdout : wanted .stdout = false := by
      rw [← Bool.not_eq_true]
      intro hw
      have hle : 2 ≤ r := h.le_of_stdout hw (by simp)
      omega
    obtain rfl := h.stdin.eq_nil hstdin
    obtain rfl := h.stdout.eq_nil hstdout
    refine ⟨⟨⟨hstdin, hstdout⟩, ?_⟩, fun heq => ?_⟩
    · rw [← htwo]
      exact hwfree
    · -- The read end has the number that is free, 0 or 1, and both are free or none.
      have hboth : t.get 0 = none ↔ t.get 1 = none := by
        rw [← Option.isNone_iff_eq_none, ← Option.isNone_iff_eq_none, heq]
      have hr : r = 0 ∨ r = 1 := by omega
      rcases hr with rfl | rfl
      · have hone : 1 = 0 ∨ w ≤ 1 := L.second_le (hboth.mp hrfree)
        omega
      · have hzero : 1 ≤ 0 := L.head_le (hboth.mpr hrfree)
        omega
  · rintro ⟨⟨⟨hstdin, hstdout⟩, htwo⟩, hone⟩
    obtain rfl := h.stdin.eq_nil hstdin
    obtain rfl := h.stdout.eq_nil hstdout
    have hlast : 2 = r ∨ w ≤ 2 := L.second_le htwo
    have heq : w = 2 := by
      cases h0 : t.get 0 with
      | none =>
        have hr : r ≤ 0 := L.head_le h0
        have hne : w ≠ 1 := by
          rintro rfl
          rw [h0, hwfree] at hone
          exact hone rfl
        omega
      | some d =>
        have h1 : t.get 1 = none := by
          cases h1 : t.get 1 with
          | none => rfl
          | some e =>
            rw [h0, h1] at hone
            exact absurd rfl hone
        have hr : r ≤ 1 := L.head_le h1
        have hne : r ≠ 0 := by
          rintro rfl
          cases h0.symm.trans hrfree
        omega
    exact congrArg Int.ofNat heq

/-! ### The whole child -/

/-- A number that no wanted stream has is what it was before the call. -/
theorem Forked.get_other (h : Forked env wanted t t' inPipe outPipe errPipe a b c) (n : Nat) :
    (if n ∈ c then none else if n ∈ b then none else if n ∈ a then none else t'.get n) = t.get n := by
  by_cases hmem : n ∈ a ++ b ++ c
  · rw [h.lowest.free n hmem]
    rcases List.mem_append.mp hmem with hab | hc
    · rcases List.mem_append.mp hab with ha | hb
      · rw [if_pos ha, ite_self, ite_self]
      · rw [if_pos hb, ite_self]
    · rw [if_pos hc]
  · rw [List.mem_append, List.mem_append, not_or, not_or] at hmem
    rw [if_neg hmem.2, if_neg hmem.1.2, if_neg hmem.1.1]
    exact h.since.kept n (by simp [hmem])

/-- The descriptors of the child before it executes the program. -/
structure Assigned (wanted : Std → Bool) (t c : Fds) : Prop where
  streams : ∀ std, c.get std.number =
    if wanted std then if collides wanted t std then none else some ⟨childEnd std, false⟩ else t.get std.number
  others : ∀ n, 2 < n → c.get n = t.get n

theorem Forked.assigned (h : Forked env wanted t t' inPipe outPipe errPipe a b c) {c₁ c₂ c₃ : Fds}
    (h₁ : ∀ n, c₁.get n = afterPipe .stdin (wanted .stdin) inPipe a t' n)
    (h₂ : ∀ n, c₂.get n = afterPipe .stdout (wanted .stdout) outPipe b c₁ n)
    (h₃ : ∀ n, c₃.get n = afterPipe .stderr (wanted .stderr) errPipe c c₂ n) : Assigned wanted t c₃ := by
  have hplain (n : Nat) (hin : ¬(wanted .stdin = true ∧ n = 0)) (hout : ¬(wanted .stdout = true ∧ n = 1))
      (herr : ¬(wanted .stderr = true ∧ n = 2)) : c₃.get n = t.get n := by
    rw [h₃, afterPipe_other herr, h₂, afterPipe_other hout, h₁, afterPipe_other hin]
    exact h.get_other n
  refine ⟨?_, fun n hn => hplain n (by omega) (by omega) (by omega)⟩
  rintro (_ | _ | _)
  · show c₃.get 0 = _
    cases hw : wanted .stdin with
    | false => exact hplain 0 (by simp [hw]) (by simp) (by simp)
    | true =>
      have hb : 0 ∉ b := fun hn => absurd (h.le_of_stdin hw (List.mem_append_left c hn)) (by decide)
      have hc : 0 ∉ c := fun hn => absurd (h.le_of_stdin hw (List.mem_append_right b hn)) (by decide)
      have hself : c₁.get 0 = if inPipe.1 = 0 then none else some ⟨childEnd .stdin, false⟩ :=
        (h₁ 0).trans (afterPipe_self hw)
      rw [h₃, afterPipe_other (by simp [Std.number]), if_neg hc, h₂, afterPipe_other (by simp [Std.number]), if_neg hb,
        hself, if_pos rfl]
      exact if_congr (h.collides_stdin hw) rfl rfl
  · show c₃.get 1 = _
    cases hw : wanted .stdout with
    | false => exact hplain 1 (by simp) (by simp [hw]) (by simp)
    | true =>
      have hc : 1 ∉ c := fun hn => absurd (h.le_of_stdout hw hn) (by decide)
      have hself : c₂.get 1 = if outPipe.2 = 1 then none else some ⟨childEnd .stdout, false⟩ :=
        (h₂ 1).trans (afterPipe_self hw)
      rw [h₃, afterPipe_other (by simp [Std.number]), if_neg hc, hself, if_pos rfl]
      exact if_congr (h.collides_stdout hw) rfl rfl
  · show c₃.get 2 = _
    cases hw : wanted .stderr with
    | false => exact hplain 2 (by simp) (by simp) (by simp [hw])
    | true =>
      have hself : c₃.get 2 = if errPipe.2 = 2 then none else some ⟨childEnd .stderr, false⟩ :=
        (h₃ 2).trans (afterPipe_self hw)
      rw [hself, if_pos rfl]
      exact if_congr (h.collides_stderr hw) rfl rfl

theorem Assigned.exec (h : Assigned wanted t c') : ChildStreams wanted t c'.exec := by
  constructor
  · intro std
    rw [FdTable.get_exec, h.streams]
    split
    · split <;> rfl
    · rfl
  · intro n hn
    rw [FdTable.get_exec, h.others n hn]

/-- The child executes the program, or a call fails and it exits. -/
theorem Forked.popenChild_eq (h : Forked env wanted t t' inPipe outPipe errPipe a b c)
    (hcallback : ∀ callback ∈ child.callback, ∀ t, callback t = t) :
    child.Succeeds wanted ∧ (∃ c', popenChild child wanted inPipe outPipe errPipe t' = some (.executed c') ∧
        ChildStreams wanted t c') ∨
      ¬child.Succeeds wanted ∧ popenChild child wanted inPipe outPipe errPipe t' = some .exited := by
  have hstart : (match child.callback with
      | none => t'
      | some callback => callback t') = t' := by
    cases hcb : child.callback with
    | none => rfl
    | some callback => exact hcallback callback hcb t'
  have hfails {std : Std} (hw : wanted std = true) (hok : child.dup2 std = false) : ¬child.Succeeds wanted := fun h =>
    Bool.false_ne_true (hok.symm.trans (h.1 std hw))
  have hnodup := h.since.nodup
  obtain ⟨hab, -, hc⟩ := List.nodup_append.mp hnodup
  obtain ⟨-, -, hb⟩ := List.nodup_append.mp hab
  rcases childPipe_cases (child.dup2 .stdin) h.stdin with ⟨hw, hok, h₁⟩ | ⟨hin, c₁, h₁, hget₁⟩
  · have h₁ : childPipe (child.dup2 .stdin) .stdin (wanted .stdin) inPipe.2 inPipe.1 t' = some none := h₁
    refine Or.inr ⟨hfails hw hok, ?_⟩
    simp only [popenChild, hstart, h₁, Option.bind_eq_bind, Option.bind_some]
    rfl
  have h₁ : childPipe (child.dup2 .stdin) .stdin (wanted .stdin) inPipe.2 inPipe.1 t' = some (some c₁) := h₁
  have hother₁ {n : Nat} (hn : n ∈ b ++ c) : ¬(wanted .stdin = true ∧ n = Std.number .stdin) := by
    rintro ⟨hw, rfl⟩
    exact absurd (h.le_of_stdin hw hn) (by decide)
  have hstdout : Ends c₁ .stdout (wanted .stdout) outPipe b := h.stdout.congr fun n hn => by
    rw [hget₁, afterPipe_other (hother₁ (List.mem_append_left c hn)), if_neg fun ha => hb n ha n hn rfl]
  rcases childPipe_cases (child.dup2 .stdout) hstdout with ⟨hw, hok, h₂⟩ | ⟨hout, c₂, h₂, hget₂⟩
  · have h₂ : childPipe (child.dup2 .stdout) .stdout (wanted .stdout) outPipe.1 outPipe.2 c₁ = some none := h₂
    refine Or.inr ⟨hfails hw hok, ?_⟩
    simp only [popenChild, hstart, h₁, h₂, Option.bind_eq_bind, Option.bind_some]
    rfl
  have h₂ : childPipe (child.dup2 .stdout) .stdout (wanted .stdout) outPipe.1 outPipe.2 c₁ = some (some c₂) := h₂
  have hother₂ {n : Nat} (hn : n ∈ c) : ¬(wanted .stdout = true ∧ n = Std.number .stdout) := by
    rintro ⟨hw, rfl⟩
    exact absurd (h.le_of_stdout hw hn) (by decide)
  have hstderr : Ends c₂ .stderr (wanted .stderr) errPipe c := h.stderr.congr fun n hn => by
    have hnot : n ∉ a ++ b := fun hab => hc n hab n hn rfl
    rw [List.mem_append, not_or] at hnot
    have hlater : n ∈ b ++ c := List.mem_append_right b hn
    rw [hget₂, afterPipe_other (hother₂ hn), if_neg hnot.2, hget₁, afterPipe_other (hother₁ hlater), if_neg hnot.1]
  rcases childPipe_cases (child.dup2 .stderr) hstderr with ⟨hw, hok, h₃⟩ | ⟨herr, c₃, h₃, hget₃⟩
  · have h₃ : childPipe (child.dup2 .stderr) .stderr (wanted .stderr) errPipe.1 errPipe.2 c₂ = some none := h₃
    refine Or.inr ⟨hfails hw hok, ?_⟩
    simp only [popenChild, hstart, h₁, h₂, h₃, Option.bind_eq_bind, Option.bind_some]
    rfl
  have h₃ : childPipe (child.dup2 .stderr) .stderr (wanted .stderr) errPipe.1 errPipe.2 c₂ = some (some c₃) := h₃
  have hcode : popenChild child wanted inPipe outPipe errPipe t' =
      some (if child.execve then .executed c₃.exec else .exited) := by
    simp only [popenChild, hstart, h₁, h₂, h₃, Option.bind_eq_bind, Option.bind_some]
    rfl
  cases hexecve : child.execve with
  | true =>
    rw [hexecve, if_pos rfl] at hcode
    refine Or.inl ⟨⟨?_, hexecve⟩, c₃.exec, hcode, (h.assigned hget₁ hget₂ hget₃).exec⟩
    rintro (_ | _ | _) hw
    · exact hin hw
    · exact hout hw
    · exact herr hw
  | false =>
    rw [hexecve, if_neg Bool.false_ne_true] at hcode
    exact Or.inr ⟨fun h => Bool.false_ne_true (hexecve.symm.trans h.2), hcode⟩

end

theorem nlPopen3vecChild_spec (henv : env.Succeeds wanted)
    (hcallback : ∀ callback ∈ child.callback, ∀ t, callback t = t) :
    child.Succeeds wanted ∧ (∃ c, nlPopen3vecChild env child wanted t = some (some (.executed c)) ∧
        ChildStreams wanted t c) ∨
      ¬child.Succeeds wanted ∧ nlPopen3vecChild env child wanted t = some (some .exited) := by
  obtain ⟨inPipe, t₁, outPipe, t₂, errPipe, t₃, a, b, c, h₁, h₂, h₃, h⟩ := openPipe_forked henv t
  obtain ⟨hnull, haccess, -, hfork⟩ := henv
  obtain ⟨pid, hfork⟩ := Option.isSome_iff_exists.mp hfork
  have hcode : nlPopen3vecChild env child wanted t = (popenChild child wanted inPipe outPipe errPipe t₃).map some := by
    simp [nlPopen3vecChild, hnull, haccess, h₁, h₂, h₃, hfork]
  rw [hcode]
  rcases h.popenChild_eq hcallback with ⟨hyes, c', hchild, hstreams⟩ | ⟨hno, hchild⟩
  · rw [hchild]
    exact Or.inl ⟨hyes, c', rfl, hstreams⟩
  · rw [hchild]
    exact Or.inr ⟨hno, rfl⟩

/-- A parent that has its standard streams has no end of a pipe among them. -/
theorem collides_of_open (h : ∀ n ≤ 2, t.get n ≠ none) : collides wanted t std = false := by
  have hopen {n : Nat} (hn : n ≤ 2) : (t.get n).isNone = false := by
    rw [← Bool.not_eq_true, Option.isNone_iff_eq_none]
    exact h n hn
  cases std <;> simp [collides, hopen]

end

/-- The program that a child executes: each wanted stream is its end of the pipe, but for a stream whose end of the pipe
    has its number, which is closed, and this happens only when the parent has closed a standard stream. No other end of
    a pipe is open, and everything else is inherited from the parent. Without a program the child exits. -/
theorem popenChild_streams (env : PopenEnv) (child : ChildEnv) (wanted : Std → Bool) (t : Fds)
    (henv : env.Succeeds wanted) (hcallback : ∀ callback ∈ child.callback, ∀ t, callback t = t) :
    child.Succeeds wanted ∧ (∃ c, nlPopen3vecChild env child wanted t = some (some (.executed c)) ∧
        ChildStreams wanted t c ∧ ((∀ n ≤ 2, t.get n ≠ none) → ∀ std, wanted std = true →
          c.get std.number = some ⟨childEnd std, false⟩)) ∨
      ¬child.Succeeds wanted ∧ nlPopen3vecChild env child wanted t = some (some .exited) := by
  obtain ⟨hyes, c, hcode, hstreams⟩ | hexits := nlPopen3vecChild_spec henv hcallback
  · refine Or.inl ⟨hyes, c, hcode, hstreams, fun hopen std hw => ?_⟩
    rw [hstreams.streams, if_pos hw, collides_of_open hopen]
    rfl
  · exact Or.inr hexits

/-- The descriptors of a parent that has closed its standard input. -/
def withoutStdin : Fds := { entries := [none, some ⟨.other 1, false⟩, some ⟨.other 2, false⟩] }

/-- Only the input of its child is wanted. -/
theorem popenChild_streams_closed :
    ChildEnv.Succeeds {} (· == .stdin) ∧ (∃ c,
        nlPopen3vecChild { fork := some 42 } {} (· == .stdin) withoutStdin = some (some (.executed c)) ∧
        ChildStreams (· == .stdin) withoutStdin c ∧ ((∀ n ≤ 2, withoutStdin.get n ≠ none) →
          ∀ std : Std, (std == .stdin) = true → c.get std.number = some ⟨childEnd std, false⟩)) ∨
      ¬ChildEnv.Succeeds {} (· == .stdin) ∧
        nlPopen3vecChild { fork := some 42 } {} (· == .stdin) withoutStdin = some (some .exited) :=
  popenChild_streams { fork := some 42 } {} (· == .stdin) withoutStdin ⟨rfl, rfl, fun _ _ => rfl, rfl⟩ nofun

end Nlutils
