import Nlutils.Timespec
import Nlutils.Thread.Code

/-! # Waiting for a lock (`nl_timeout_lock` of `thread.c` and `nl_usleep` of `nl_time.c`)

The lock is tried about every millisecond. Signals may interrupt the sleeps, each of which goes on for the time that is
left of it. -/

namespace Nlutils.Thread

/-- What `nanosleep` answers: it has slept for the whole time, a signal has come and this time is left, or it has
    failed. -/
inductive Nap
  | done
  | interrupted (rem : Timespec)
  | failed
  deriving DecidableEq, Repr

/-- The loop of `nl_usleep`: the times that `nanosleep` is called with. There is no result where a call is not
    answered. -/
def usleepLoop : List Nap → Timespec → Option (List Timespec)
  | [], _ => none
  | .interrupted rem :: naps, ts => (usleepLoop naps rem).map (ts :: ·)
  | .done :: _, ts | .failed :: _, ts => some [ts]

/-- The time that `nl_usleep` asks for first. -/
def usleepTime (usecs : Nat) : Timespec :=
  if usecs ≥ 1000000 then ⟨usecs / 1000000, usecs % 1000000 * 1000⟩ else ⟨0, usecs * 1000⟩

def nlUsleep (naps : List Nap) (usecs : Nat) : Option (List Timespec) := usleepLoop naps (usleepTime usecs)

def ebusy : Int := 16

/-- A call of `pthread_mutex_trylock`, and the sleep after it if the mutex is busy. -/
structure Attempt where
  trylock : Int
  naps : List Nap := [.done]
  deriving DecidableEq, Repr

/-- The loop of `nl_timeout_lock`: the result, and the sleeps. There is no result where `slept` overflows. -/
def timeoutLockLoop (timeoutUs : Int) : List Attempt → Int → Option (Int × List (List Timespec))
  | [], _ => none
  | a :: attempts, slept =>
    if a.trylock = ebusy then
      (nlUsleep a.naps 1000).bind fun sleep =>
        let slept := slept + 1000
        if slept ≥ 2 ^ 31 then none
        else if slept < timeoutUs then
          (timeoutLockLoop timeoutUs attempts slept).map fun r => (r.1, sleep :: r.2)
        else some (ebusy, [sleep])
    else some (a.trylock, [])

/-- The parameters are what `pthread_mutex_lock` and the calls of `pthread_mutex_trylock` return. -/
def nlTimeoutLock (lock : Int) (attempts : List Attempt) (timeoutUs : Int) : Option (Int × List (List Timespec)) :=
  if timeoutUs ≤ 0 then some (lock, []) else timeoutLockLoop timeoutUs attempts 0

/-! ### Sleeping -/

/-- A time that `nanosleep` takes. -/
structure IsTime (ts : Timespec) : Prop where
  sec : 0 ≤ ts.sec
  nsec : 0 ≤ ts.nsec
  lt : ts.nsec < 1000000000

/-- Any number of interruptions, each of which leaves some of the time, and then the end of the sleep. -/
inductive Sleeps : List Nap → Timespec → Prop
  | done {more : List Nap} {ts : Timespec} : Sleeps (.done :: more) ts
  | interrupted {rem ts : Timespec} {naps : List Nap} : IsTime rem → rem.posVal ≤ ts.posVal → Sleeps naps rem →
    Sleeps (.interrupted rem :: naps) ts

/-- For how many nanoseconds a call of `nanosleep` has slept. -/
def Nap.slept (ts : Timespec) : Nap → Int
  | .done => ts.posVal
  | .interrupted rem => ts.posVal - rem.posVal
  | .failed => 0

/-- The same for the calls that `nl_usleep` has made. -/
def slept (calls : List Timespec) (naps : List Nap) : Int := (List.zipWith Nap.slept calls naps).sum

/-- The sleeps of `nl_timeout_lock` after this number of attempts: `nanosleep` can take the times that it is called
    with, and has slept for a millisecond after each attempt. -/
structure Slept (attempts : List Attempt) (n : Nat) (sleeps : List (List Timespec)) : Prop where
  length : sleeps.length = n
  times : ∀ sleep ∈ sleeps, ∀ c ∈ sleep, IsTime c
  total : (List.zipWith (fun sleep a => slept sleep a.naps) sleeps attempts).sum = 1000000 * n

section
variable {naps : List Nap} {ts : Timespec} {attempts : List Attempt} {timeoutUs passed : Int} {n : Nat}
  {a : Attempt} {sleep : List Timespec} {sleeps : List (List Timespec)}

theorem isTime_usleepTime (n : Nat) : IsTime (usleepTime n) ∧ (usleepTime n).posVal = n * 1000 := by
  rw [usleepTime]
  split
  · refine ⟨⟨?_, ?_, ?_⟩, ?_⟩
    all_goals simp only [Timespec.posVal]
    all_goals omega
  · refine ⟨⟨?_, ?_, ?_⟩, ?_⟩
    all_goals simp only [Timespec.posVal]
    all_goals omega

/-- After an interruption, what is left is asked for, and altogether it is slept for the whole time. -/
theorem usleepLoop_spec (h : Sleeps naps ts) (hts : IsTime ts) : ∃ calls, usleepLoop naps ts = some calls ∧
    (∀ c ∈ calls, IsTime c) ∧ slept calls naps = ts.posVal := by
  induction h with
  | @done more ts =>
    refine ⟨[ts], rfl, by simp [hts], ?_⟩
    simp [slept, Nap.slept]
  | @interrupted rem ts naps hrem hle _ ih =>
    obtain ⟨calls, hcalls, htimes, hslept⟩ := ih hrem
    refine ⟨ts :: calls, ?_, List.forall_mem_cons.mpr ⟨hts, htimes⟩, ?_⟩
    · rw [usleepLoop, hcalls]
      rfl
    · rw [slept] at hslept ⊢
      rw [List.zipWith_cons_cons, List.sum_cons, hslept, Nap.slept]
      omega

theorem nlUsleep_spec (h : Sleeps naps (usleepTime n)) : ∃ calls, nlUsleep naps n = some calls ∧
    (∀ c ∈ calls, IsTime c) ∧ slept calls naps = n * 1000 := by
  obtain ⟨htime, hval⟩ := isTime_usleepTime n
  rw [← hval]
  exact usleepLoop_spec h htime

theorem Slept.nil : Slept attempts 0 [] := ⟨rfl, nofun, rfl⟩

theorem Slept.cons (h : Slept attempts n sleeps) (htimes : ∀ c ∈ sleep, IsTime c)
    (hslept : slept sleep a.naps = 1000000) : Slept (a :: attempts) (n + 1) (sleep :: sleeps) := by
  refine ⟨congrArg Nat.succ h.length, List.forall_mem_cons.mpr ⟨htimes, h.times⟩, ?_⟩
  rw [List.zipWith_cons_cons, List.sum_cons, h.total, hslept]
  omega

/-! ### The attempts -/

/-- The mutex is got, or the call fails, before the time is over. -/
structure Gets (timeoutUs passed : Int) (attempts : List Attempt) (n : Nat) (r : Option (Int × List (List Timespec))) :
    Prop where
  busy : ∀ a ∈ attempts.take n, a.trylock = ebusy
  early : passed + 1000 * n < timeoutUs
  result : ∃ a sleeps, attempts[n]? = some a ∧ a.trylock ≠ ebusy ∧ r = some (a.trylock, sleeps) ∧
    Slept attempts n sleeps

/-- The mutex is busy until the time is over; that is when an `int` has no room for it any more. -/
structure TimesOut (timeoutUs passed : Int) (attempts : List Attempt) (n : Nat)
    (r : Option (Int × List (List Timespec))) : Prop where
  busy : ∀ a ∈ attempts.take n, a.trylock = ebusy
  late : timeoutUs ≤ passed + 1000 * n
  soon : passed + 1000 * n < timeoutUs + 1000
  result : passed + 1000 * n < 2 ^ 31 → ∃ sleeps, r = some (ebusy, sleeps) ∧ Slept attempts n sleeps
  overflow : 2 ^ 31 ≤ passed + 1000 * n → r = none

theorem timeoutLockLoop_spec (hmax : timeoutUs < 2 ^ 31) (hpassed : passed < timeoutUs)
    (hnaps : ∀ a ∈ attempts, Sleeps a.naps (usleepTime 1000)) (hlong : timeoutUs ≤ passed + 1000 * attempts.length) :
    ∃ n, Gets timeoutUs passed attempts n (timeoutLockLoop timeoutUs attempts passed) ∨
      TimesOut timeoutUs passed attempts n (timeoutLockLoop timeoutUs attempts passed) := by
  induction attempts generalizing passed with
  | nil =>
    rw [List.length_nil] at hlong
    omega
  | cons a attempts ih =>
    obtain ⟨ha, hnaps⟩ := List.forall_mem_cons.mp hnaps
    rw [timeoutLockLoop]
    by_cases hbusy : a.trylock = ebusy
    · obtain ⟨sleep, hsleep, htimes, hslept⟩ := nlUsleep_spec ha
      rw [if_pos hbusy, hsleep, Option.bind_some]
      by_cases hover : passed + 1000 ≥ 2 ^ 31
      · rw [if_pos hover]
        refine ⟨1, Or.inr ⟨by simpa using hbusy, ?_, ?_, ?_, fun _ => rfl⟩⟩
        all_goals omega
      · rw [if_neg hover]
        by_cases hmore : passed + 1000 < timeoutUs
        · rw [if_pos hmore]
          rw [List.length_cons] at hlong
          obtain ⟨n, hgets | hout⟩ := ih hmore hnaps (by omega)
          · refine ⟨n + 1, Or.inl ⟨?_, ?_, ?_⟩⟩
            · rw [List.take_succ_cons]
              exact List.forall_mem_cons.mpr ⟨hbusy, hgets.busy⟩
            · have hearly := hgets.early
              omega
            · obtain ⟨b, sleeps, hb, hfree, hr, hsleeps⟩ := hgets.result
              exact ⟨b, sleep :: sleeps, hb, hfree, by rw [hr]; rfl, hsleeps.cons htimes hslept⟩
          · have hlate := hout.late
            have hsoon := hout.soon
            refine ⟨n + 1, Or.inr ⟨?_, by omega, by omega, ?_, ?_⟩⟩
            · rw [List.take_succ_cons]
              exact List.forall_mem_cons.mpr ⟨hbusy, hout.busy⟩
            · intro hroom
              obtain ⟨sleeps, hr, hsleeps⟩ := hout.result (by omega)
              exact ⟨sleep :: sleeps, by rw [hr]; rfl, hsleeps.cons htimes hslept⟩
            · intro hfull
              rw [hout.overflow (by omega)]
              rfl
        · rw [if_neg hmore]
          have hone : Slept (a :: attempts) 1 [sleep] := Slept.nil.cons htimes hslept
          refine ⟨1, Or.inr ⟨by simpa using hbusy, by omega, by omega, fun _ => ⟨[sleep], rfl, hone⟩, ?_⟩⟩
          intro hfull
          omega
    · rw [if_neg hbusy]
      exact ⟨0, Or.inl ⟨by simp, by omega, a, [], rfl, hbusy, rfl, .nil⟩⟩

end

/-- However often the sleeps are interrupted: the mutex is got, or the error returned, after as many milliseconds of
    sleep as there were attempts that found it busy, and less than the timeout. Otherwise the call gives up when the
    timeout is over, and less than a millisecond later; but where that takes 2^31 microseconds, `slept` overflows. -/
theorem nlTimeoutLock_waits (lock : Int) (attempts : List Attempt) (timeoutUs : Int) (hpos : 0 < timeoutUs)
    (hmax : timeoutUs < 2 ^ 31) (hnaps : ∀ a ∈ attempts, Sleeps a.naps (usleepTime 1000))
    (hlong : timeoutUs ≤ 1000 * attempts.length) :
    ∃ n, Gets timeoutUs 0 attempts n (nlTimeoutLock lock attempts timeoutUs) ∨
      TimesOut timeoutUs 0 attempts n (nlTimeoutLock lock attempts timeoutUs) := by
  obtain ⟨n, h⟩ := timeoutLockLoop_spec hmax hpos hnaps (by omega)
  rw [nlTimeoutLock, if_neg (Int.not_le.mpr hpos)]
  exact ⟨n, h⟩

/-- The mutex is busy twice, and a signal comes during the first sleep. -/
def busyTwice : List Attempt :=
  [⟨ebusy, [.interrupted ⟨0, 400000⟩, .done]⟩, ⟨ebusy, [.done]⟩, ⟨0, [.done]⟩]

theorem nlTimeoutLock_waits_busyTwice : ∃ n, Gets 2500 0 busyTwice n (nlTimeoutLock 0 busyTwice 2500) ∨
    TimesOut 2500 0 busyTwice n (nlTimeoutLock 0 busyTwice 2500) := by
  refine nlTimeoutLock_waits 0 busyTwice 2500 (by decide) (by decide) ?_ (by decide)
  have hinterrupted : Sleeps [.interrupted ⟨0, 400000⟩, .done] (usleepTime 1000) :=
    .interrupted ⟨by decide, by decide, by decide⟩ (by decide) .done
  simp [busyTwice, hinterrupted, Sleeps.done]

end Nlutils.Thread
