import Nlutils.Lib.While
import Mathlib.Algebra.Ring.Int.Defs

/-! # Timespec arithmetic (`nl_time.h`)

Seconds and nanoseconds are unbounded integers. A timespec in away-from-zero form counts its nanoseconds away from
zero, one in positive nanosecond form counts them toward positive infinity. -/

namespace Nlutils

/-- `struct timespec` -/
@[ext] structure Timespec where
  sec : Int
  nsec : Int
  deriving DecidableEq, Repr

/-- From away-from-zero form to positive nanosecond form. -/
def nlTimespecToPos (ts : Timespec) : Timespec :=
  if ts.sec < 0 then ⟨ts.sec - 1, 1000000000 - ts.nsec⟩
  else if ts.nsec < 0 then ⟨ts.sec - 1, 1000000000 + ts.nsec⟩
  else ts

/-- From positive nanosecond form to away-from-zero form. -/
def nlTimespecFromPos (ts : Timespec) : Timespec :=
  if ts.nsec ≠ 0 then
    if ts.sec = -1 then ⟨0, ts.nsec - 1000000000⟩
    else if ts.sec < -1 then ⟨ts.sec + 1, 1000000000 - ts.nsec⟩
    else ts
  else ts

/-- As many rounds as a loop over the nanoseconds is given. -/
def Timespec.rounds (ts : Timespec) : Nat := ts.nsec.natAbs / 1000000000 + 1

/-- There is no result where one of the loops does not end. -/
def nlNormalizeTimespec (ts : Timespec) : Option Timespec := do
  let ts := nlTimespecToPos ts
  let ts ← Lib.whileLoop (fun ts => ts.nsec < 0) (fun ts => some ⟨ts.sec - 1, ts.nsec + 1000000000⟩) ts.rounds ts
  let ts ← Lib.whileLoop (fun ts => ts.nsec ≥ 1000000000) (fun ts => some ⟨ts.sec + 1, ts.nsec - 1000000000⟩)
    ts.rounds ts
  pure (nlTimespecFromPos ts)

def nlNegateTimespec (ts : Timespec) : Timespec :=
  if ts.sec = 0 then ⟨0, -ts.nsec⟩ else ⟨-ts.sec, ts.nsec⟩

/-- There is no result where the loop does not end. -/
def nlAddTimespec (a b : Timespec) : Option Timespec := do
  let aPos := nlTimespecToPos a
  let bPos := nlTimespecToPos b
  let ts : Timespec := ⟨aPos.sec + bPos.sec, aPos.nsec + bPos.nsec⟩
  let sign := if ts.nsec < 0 then -1 else 1
  let offs := sign * 1000000000
  let ts ← Lib.whileLoop (fun ts => ts.nsec ≥ 1000000000 || ts.nsec < 0)
    (fun ts => some ⟨ts.sec + sign, ts.nsec - offs⟩) ts.rounds ts
  pure (nlTimespecFromPos ts)

def nlSubTimespec (a b : Timespec) : Option Timespec := nlAddTimespec a (nlNegateTimespec b)

namespace Timespec

/-- The time that a timespec in away-from-zero form stands for, in nanoseconds. -/
def val (ts : Timespec) : Int :=
  if ts.sec < 0 then ts.sec * 1000000000 - ts.nsec else ts.sec * 1000000000 + ts.nsec

/-- The nanoseconds of a timespec in positive nanosecond form. -/
def posVal (ts : Timespec) : Int := ts.sec * 1000000000 + ts.nsec

structure IsNormal (ts : Timespec) : Prop where
  lt : ts.nsec.natAbs < 1000000000
  neg : ts.nsec < 0 → ts.sec = 0

/-- The timespec in normal form that stands for a time. -/
def ofVal (v : Int) : Timespec :=
  if 0 ≤ v then ⟨v / 1000000000, v % 1000000000⟩
  else if v > -1000000000 then ⟨0, v⟩
  else ⟨-(-v / 1000000000), -v % 1000000000⟩

section
variable {a b ts : Timespec} {v : Int}

theorem val_ofVal : (ofVal v).val = v := by
  unfold ofVal val
  split
  · simp only
    split <;> omega
  · split
    · simp
    · simp only
      split <;> omega

theorem isNormal_ofVal : (ofVal v).IsNormal := by
  unfold ofVal
  split
  · exact ⟨by simp only; omega, by simp only; omega⟩
  · split
    · exact ⟨by simp only; omega, fun _ => rfl⟩
    · exact ⟨by simp only; omega, by simp only; omega⟩

/-- A time has one normal form. -/
theorem IsNormal.ext (ha : a.IsNormal) (hb : b.IsNormal) (h : a.val = b.val) : a = b := by
  obtain ⟨ha1, ha2⟩ := ha
  obtain ⟨hb1, hb2⟩ := hb
  unfold val at h
  ext
  · split at h <;> split at h <;> omega
  · split at h <;> split at h <;> omega

theorem posVal_toPos : (nlTimespecToPos ts).posVal = ts.val := by
  unfold nlTimespecToPos posVal val
  split
  · simp only
    omega
  · split
    · simp only
      omega
    · rfl

theorem fromPos_eq (h0 : 0 ≤ ts.nsec) (h1 : ts.nsec < 1000000000) : nlTimespecFromPos ts = ofVal ts.posVal := by
  have hval : (nlTimespecFromPos ts).val = ts.posVal := by
    unfold nlTimespecFromPos posVal val
    split
    · split
      · simp only
        omega
      · split
        · simp only
          split <;> omega
        · rw [if_neg (by omega)]
    · split <;> omega
  have hnormal : (nlTimespecFromPos ts).IsNormal := by
    unfold nlTimespecFromPos
    split
    · split
      · exact ⟨by simp only; omega, fun _ => rfl⟩
      · split
        · exact ⟨by simp only; omega, by simp only; omega⟩
        · exact ⟨by omega, by omega⟩
    · exact ⟨by omega, by omega⟩
  exact hnormal.ext isNormal_ofVal (hval.trans val_ofVal.symm)

theorem val_negate : (nlNegateTimespec ts).val = -ts.val := by
  unfold nlNegateTimespec val
  split
  · simp only
    split <;> omega
  · simp only
    split <;> split <;> omega

/-- From nanoseconds that are not negative on, the loop of an addition only carries. -/
theorem carry_iff (h : 0 ≤ ts.nsec) :
    (ts.nsec ≥ 1000000000 || ts.nsec < 0) = true ↔ ts.nsec ≥ 1000000000 := by
  rw [Bool.or_eq_true, decide_eq_true_iff, decide_eq_true_iff]
  exact or_iff_left (Int.not_lt.mpr h)

/-- Carrying seconds out of the nanoseconds. -/
theorem carry_spec {cond : Timespec → Bool} {body : Timespec → Option Timespec}
    (hcond : ∀ t, 0 ≤ t.nsec → (cond t = true ↔ t.nsec ≥ 1000000000))
    (hbody : ∀ t, body t = some ⟨t.sec + 1, t.nsec - 1000000000⟩) (h : 0 ≤ ts.nsec) :
    ∃ t, Lib.whileLoop cond body ts.rounds ts = some t ∧ 0 ≤ t.nsec ∧ t.nsec < 1000000000 ∧ t.posVal = ts.posVal := by
  have hround : ∀ t, (0 ≤ t.nsec ∧ t.posVal = ts.posVal) → cond t = true →
      ∃ u, body t = some u ∧ (0 ≤ u.nsec ∧ u.posVal = ts.posVal) ∧
        u.nsec.natAbs / 1000000000 < t.nsec.natAbs / 1000000000 := by
    rintro t ⟨h0, hv⟩ hc
    have hge := (hcond t h0).mp hc
    unfold posVal at hv ⊢
    refine ⟨_, hbody t, ⟨?_, ?_⟩, ?_⟩
    · simp only
      omega
    · simp only
      omega
    · simp only
      omega
  obtain ⟨t, ht, hc, h0, hv⟩ := Lib.whileLoop_spec (fun t : Timespec => 0 ≤ t.nsec ∧ t.posVal = ts.posVal)
    (fun t : Timespec => t.nsec.natAbs / 1000000000) hround ⟨h, rfl⟩ (Nat.le_succ _)
  have hlt : ¬t.nsec ≥ 1000000000 := by
    rw [← hcond t h0, hc]
    exact Bool.false_ne_true
  exact ⟨t, ht, h0, Int.not_le.mp hlt, hv⟩

/-- Borrowing seconds for negative nanoseconds. -/
theorem borrow_spec {cond : Timespec → Bool} {body : Timespec → Option Timespec}
    (hcond : ∀ t, t.nsec < 1000000000 → (cond t = true ↔ t.nsec < 0))
    (hbody : ∀ t, body t = some ⟨t.sec - 1, t.nsec + 1000000000⟩) (h : ts.nsec < 0) :
    ∃ t, Lib.whileLoop cond body ts.rounds ts = some t ∧ 0 ≤ t.nsec ∧ t.nsec < 1000000000 ∧ t.posVal = ts.posVal := by
  have hround : ∀ t, (t.nsec < 1000000000 ∧ t.posVal = ts.posVal) → cond t = true →
      ∃ u, body t = some u ∧ (u.nsec < 1000000000 ∧ u.posVal = ts.posVal) ∧
        (1000000000 - u.nsec).toNat / 1000000000 < (1000000000 - t.nsec).toNat / 1000000000 := by
    rintro t ⟨h1, hv⟩ hc
    have hneg := (hcond t h1).mp hc
    unfold posVal at hv ⊢
    refine ⟨_, hbody t, ⟨?_, ?_⟩, ?_⟩
    · simp only
      omega
    · simp only
      omega
    · simp only
      omega
  have hrounds : (1000000000 - ts.nsec).toNat / 1000000000 ≤ ts.rounds := by
    unfold rounds
    omega
  obtain ⟨t, ht, hc, h1, hv⟩ := Lib.whileLoop_spec (fun t : Timespec => t.nsec < 1000000000 ∧ t.posVal = ts.posVal)
    (fun t : Timespec => (1000000000 - t.nsec).toNat / 1000000000) hround ⟨by omega, rfl⟩ hrounds
  have hge : ¬t.nsec < 0 := by
    rw [← hcond t h1, hc]
    exact Bool.false_ne_true
  exact ⟨t, ht, Int.not_lt.mp hge, h1, hv⟩

/-- Normalizing gives the normal form of the same time. -/
theorem normalize_eq : nlNormalizeTimespec ts = some (ofVal ts.val) := by
  have hborrow : ∃ t,
      Lib.whileLoop (fun ts : Timespec => ts.nsec < 0) (fun ts => some ⟨ts.sec - 1, ts.nsec + 1000000000⟩)
        (nlTimespecToPos ts).rounds (nlTimespecToPos ts) = some t ∧ 0 ≤ t.nsec ∧ t.posVal = ts.val := by
    by_cases hneg : (nlTimespecToPos ts).nsec < 0
    · obtain ⟨t, ht, h0, -, hv⟩ := borrow_spec (fun _ _ => decide_eq_true_iff) (fun _ => rfl) hneg
      exact ⟨t, ht, h0, hv.trans posVal_toPos⟩
    · exact ⟨_, Lib.whileLoop_done (decide_eq_false hneg), Int.not_lt.mp hneg, posVal_toPos⟩
  obtain ⟨t, ht, h0, hv⟩ := hborrow
  obtain ⟨u, hu, hu0, hu1, huv⟩ := @carry_spec t (fun ts => ts.nsec ≥ 1000000000)
    (fun ts => some ⟨ts.sec + 1, ts.nsec - 1000000000⟩)
    (fun _ _ => decide_eq_true_iff) (fun _ => rfl) h0
  unfold nlNormalizeTimespec
  simp only [ht, hu, Option.bind_eq_bind, Option.bind_some, Option.pure_def, fromPos_eq hu0 hu1, huv, hv]

/-- The carry goes the way of the sign at the start, and gives the normal form of the sum. -/
theorem add_eq : nlAddTimespec a b = some (ofVal (a.val + b.val)) := by
  let sum : Timespec :=
    ⟨(nlTimespecToPos a).sec + (nlTimespecToPos b).sec, (nlTimespecToPos a).nsec + (nlTimespecToPos b).nsec⟩
  have hsum : sum.posVal = a.val + b.val := by
    rw [← posVal_toPos, ← posVal_toPos]
    simp only [sum, posVal]
    omega
  let sign : Int := if sum.nsec < 0 then -1 else 1
  have hloop : ∃ t, Lib.whileLoop (fun ts : Timespec => ts.nsec ≥ 1000000000 || ts.nsec < 0)
      (fun ts => some ⟨ts.sec + sign, ts.nsec - sign * 1000000000⟩) sum.rounds sum = some t ∧
      0 ≤ t.nsec ∧ t.nsec < 1000000000 ∧ t.posVal = sum.posVal := by
    by_cases hneg : sum.nsec < 0
    · have hsign : sign = -1 := if_pos hneg
      refine borrow_spec ?_ ?_ hneg
      · intro t h1
        simp only [Bool.or_eq_true, decide_eq_true_iff]
        omega
      · intro t
        rw [hsign]
        refine congrArg some (Timespec.ext rfl ?_)
        simp only
        omega
    · have hsign : sign = 1 := if_neg hneg
      refine carry_spec (fun _ => carry_iff) ?_ (Int.not_lt.mp hneg)
      · intro t
        rw [hsign]
        refine congrArg some (Timespec.ext rfl ?_)
        simp only
        omega
  obtain ⟨t, ht, h0, h1, hv⟩ := hloop
  have hrun : nlAddTimespec a b = some (nlTimespecFromPos t) := congrArg (Option.bind · _) ht
  rw [hrun, fromPos_eq h0 h1, hv, hsum]

theorem sub_eq : nlSubTimespec a b = some (ofVal (a.val - b.val)) := by
  rw [nlSubTimespec, add_eq, val_negate]
  rfl

end

/-- What holds of the arithmetic on two timespecs. -/
structure IsExact (a b : Timespec) : Prop where
  negate : (nlNegateTimespec a).val = -a.val
  add : ∃ ts, nlAddTimespec a b = some ts ∧ ts.val = a.val + b.val ∧ ts.IsNormal
  sub : ∃ ts, nlSubTimespec a b = some ts ∧ ts.val = a.val - b.val ∧ ts.IsNormal
  normalize : ∃ ts, nlNormalizeTimespec a = some ts ∧ ts.val = a.val ∧ ts.IsNormal
  prenormalize : ∀ ts, nlNormalizeTimespec a = some ts →
    nlAddTimespec ts b = nlAddTimespec a b ∧ nlAddTimespec b ts = nlAddTimespec b a ∧
    nlSubTimespec ts b = nlSubTimespec a b ∧ nlSubTimespec b ts = nlSubTimespec b a ∧
    nlNormalizeTimespec ts = nlNormalizeTimespec a ∧
    nlNormalizeTimespec (nlNegateTimespec ts) = nlNormalizeTimespec (nlNegateTimespec a)

end Timespec
open Timespec

/-- Timespec arithmetic is exact on any two timespecs, normalized or not. -/
theorem timespec_isExact (a b : Timespec) : IsExact a b where
  negate := val_negate
  add := ⟨_, add_eq, val_ofVal, isNormal_ofVal⟩
  sub := ⟨_, sub_eq, val_ofVal, isNormal_ofVal⟩
  normalize := ⟨_, normalize_eq, val_ofVal, isNormal_ofVal⟩
  prenormalize ts h := by
    have hts : ts.val = a.val := by
      rw [normalize_eq, Option.some.injEq] at h
      rw [← h, val_ofVal]
    refine ⟨?_, ?_, ?_, ?_, ?_, ?_⟩
    · rw [add_eq, add_eq, hts]
    · rw [add_eq, add_eq, hts]
    · rw [sub_eq, sub_eq, hts]
    · rw [sub_eq, sub_eq, hts]
    · rw [normalize_eq, normalize_eq, hts]
    · rw [normalize_eq, normalize_eq, val_negate, val_negate, hts]

example : nlSubTimespec ⟨0, 1⟩ ⟨1, -2500000000⟩ = some ⟨1, 500000001⟩ := by decide

end Nlutils
