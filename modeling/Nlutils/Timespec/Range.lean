import Nlutils.Timespec

/-! # Nanoseconds in range

Nanoseconds are a `long`, which has 32 bits on some targets. Counted toward positive infinity, those of a whole
negative second are a full second, so that two timespecs in normal form have up to two seconds of them. -/

namespace Nlutils

/-- A number in a signed type of so many bits. There is none where it overflows. -/
def signed (bits : Nat) (n : Int) : Option Int := if -2 ^ (bits - 1) ≤ n ∧ n < 2 ^ (bits - 1) then some n else none

section
variable (long : Int → Option Int)

def nlTimespecToPosIn (ts : Timespec) : Option Timespec :=
  if ts.sec < 0 then (long (1000000000 - ts.nsec)).map fun nsec => ⟨ts.sec - 1, nsec⟩
  else if ts.nsec < 0 then (long (1000000000 + ts.nsec)).map fun nsec => ⟨ts.sec - 1, nsec⟩
  else some ts

def nlTimespecFromPosIn (ts : Timespec) : Option Timespec :=
  if ts.nsec ≠ 0 then
    if ts.sec = -1 then (long (ts.nsec - 1000000000)).map fun nsec => ⟨0, nsec⟩
    else if ts.sec < -1 then (long (1000000000 - ts.nsec)).map fun nsec => ⟨ts.sec + 1, nsec⟩
    else some ts
  else some ts

def nlNegateTimespecIn (ts : Timespec) : Option Timespec :=
  if ts.sec = 0 then (long (-ts.nsec)).map fun nsec => ⟨0, nsec⟩ else some ⟨-ts.sec, ts.nsec⟩

/-- The offset is an `int`. -/
def nlAddTimespecIn (a b : Timespec) : Option Timespec := do
  let aPos ← nlTimespecToPosIn long a
  let bPos ← nlTimespecToPosIn long b
  let nsec ← long (aPos.nsec + bPos.nsec)
  let ts : Timespec := ⟨aPos.sec + bPos.sec, nsec⟩
  let sign := if ts.nsec < 0 then -1 else 1
  let offs ← signed 32 (sign * 1000000000)
  let ts ← Lib.whileLoop (fun ts => ts.nsec ≥ 1000000000 || ts.nsec < 0)
    (fun ts => (long (ts.nsec - offs)).map fun nsec => ⟨ts.sec + sign, nsec⟩) ts.rounds ts
  nlTimespecFromPosIn long ts

def nlSubTimespecIn (a b : Timespec) : Option Timespec := do
  let b ← nlNegateTimespecIn long b
  nlAddTimespecIn long a b

end

namespace Timespec

/-- The arithmetic on two timespecs never overflows their nanoseconds, and is what it is without a bound. -/
structure FitsIn (long : Int → Option Int) (a b : Timespec) : Prop where
  toPos : nlTimespecToPosIn long a = some (nlTimespecToPos a)
  fromPos : ∀ ts : Timespec, ts.nsec.natAbs ≤ 1000000000 → nlTimespecFromPosIn long ts = some (nlTimespecFromPos ts)
  negate : nlNegateTimespecIn long a = some (nlNegateTimespec a)
  add : ∃ ts, nlAddTimespecIn long a b = some ts ∧ nlAddTimespec a b = some ts
  sub : ∃ ts, nlSubTimespecIn long a b = some ts ∧ nlSubTimespec a b = some ts

/-- The type holds two seconds of nanoseconds. -/
def TwoSeconds (long : Int → Option Int) : Prop := ∀ n : Int, n.natAbs ≤ 2000000000 → long n = some n

section
variable {long : Int → Option Int} {a b ts : Timespec}

theorem signed_twoSeconds {bits : Nat} (h : 32 ≤ bits) : TwoSeconds (signed bits) := by
  intro n hn
  have hpow : (2 : Int) ^ 31 ≤ 2 ^ (bits - 1) := by
    exact_mod_cast Nat.pow_le_pow_right (by decide) (by omega : 31 ≤ bits - 1)
  exact if_pos ⟨by omega, by omega⟩

/-- In positive nanosecond form there may be a full second of nanoseconds. -/
theorem IsNormal.toPos_nsec (ha : a.IsNormal) :
    0 ≤ (nlTimespecToPos a).nsec ∧ (nlTimespecToPos a).nsec ≤ 1000000000 := by
  obtain ⟨hlt, hneg⟩ := ha
  unfold nlTimespecToPos
  split
  · simp only
    omega
  · split
    · simp only
      omega
    · omega

theorem IsNormal.negate (ha : a.IsNormal) : (nlNegateTimespec a).IsNormal := by
  obtain ⟨hlt, hneg⟩ := ha
  unfold nlNegateTimespec
  split
  · exact ⟨by simpa using hlt, fun _ => rfl⟩
  · next hsec => exact ⟨hlt, fun h => absurd (hneg h) hsec⟩

theorem toPosIn_eq (hlong : TwoSeconds long) (ha : a.IsNormal) :
    nlTimespecToPosIn long a = some (nlTimespecToPos a) := by
  have hlt := ha.lt
  unfold nlTimespecToPosIn nlTimespecToPos
  split
  · rw [hlong _ (by omega), Option.map_some]
  · split
    · rw [hlong _ (by omega), Option.map_some]
    · rfl

theorem fromPosIn_eq (hlong : TwoSeconds long) (h : ts.nsec.natAbs ≤ 1000000000) :
    nlTimespecFromPosIn long ts = some (nlTimespecFromPos ts) := by
  unfold nlTimespecFromPosIn nlTimespecFromPos
  split
  · split
    · rw [hlong _ (by omega), Option.map_some]
    · split
      · rw [hlong _ (by omega), Option.map_some]
      · rfl
  · rfl

theorem negateIn_eq (hlong : TwoSeconds long) (ha : a.IsNormal) :
    nlNegateTimespecIn long a = some (nlNegateTimespec a) := by
  have hlt := ha.lt
  unfold nlNegateTimespecIn nlNegateTimespec
  split
  · rw [hlong _ (by omega), Option.map_some]
  · rfl

/-- The carry starts at two seconds of nanoseconds at most, and only takes whole seconds off them. -/
theorem addIn_eq (hlong : TwoSeconds long) (ha : a.IsNormal) (hb : b.IsNormal) :
    ∃ ts, nlAddTimespecIn long a b = some ts ∧ nlAddTimespec a b = some ts := by
  obtain ⟨ha0, ha1⟩ := ha.toPos_nsec
  obtain ⟨hb0, hb1⟩ := hb.toPos_nsec
  let sum : Timespec :=
    ⟨(nlTimespecToPos a).sec + (nlTimespecToPos b).sec, (nlTimespecToPos a).nsec + (nlTimespecToPos b).nsec⟩
  have hsum0 : 0 ≤ sum.nsec := by
    simp only [sum]
    omega
  have hsum1 : sum.nsec ≤ 2000000000 := by
    simp only [sum]
    omega
  have hsign : (if sum.nsec < 0 then (-1 : Int) else 1) = 1 := if_neg (Int.not_lt.mpr hsum0)
  let cond : Timespec → Bool := fun ts => ts.nsec ≥ 1000000000 || ts.nsec < 0
  have hcond : ∀ t : Timespec, 0 ≤ t.nsec → (cond t = true ↔ t.nsec ≥ 1000000000) := fun _ => carry_iff
  obtain ⟨t, ht, h0, h1, -⟩ := carry_spec hcond (fun _ => rfl) hsum0
  have hchecked : Lib.whileLoop cond
      (fun t => (long (t.nsec - 1000000000)).map fun nsec => ⟨t.sec + 1, nsec⟩) sum.rounds sum = some t := by
    rw [← ht]
    refine Lib.whileLoop_congr (fun t => 0 ≤ t.nsec ∧ t.nsec ≤ 2000000000) ?_ ⟨hsum0, hsum1⟩
    rintro t ⟨ht0, ht1⟩ hc
    have hge := (hcond t ht0).mp hc
    refine ⟨by rw [hlong _ (by omega), Option.map_some], ?_⟩
    rintro u hu
    obtain rfl := Option.some.inj hu
    exact ⟨by simp only; omega, by simp only; omega⟩
  have hfrom : t.nsec.natAbs ≤ 1000000000 := by omega
  have hoffs : signed 32 ((if sum.nsec < 0 then -1 else 1) * 1000000000) = some 1000000000 := by
    rw [hsign]
    rfl
  refine ⟨nlTimespecFromPos t, ?_, ?_⟩
  · have hrun : nlAddTimespecIn long a b = (signed 32 ((if sum.nsec < 0 then -1 else 1) * 1000000000)).bind fun offs =>
        (Lib.whileLoop cond (fun t => (long (t.nsec - offs)).map fun nsec =>
          ⟨t.sec + (if sum.nsec < 0 then -1 else 1), nsec⟩) sum.rounds sum).bind (nlTimespecFromPosIn long) := by
      unfold nlAddTimespecIn
      rw [toPosIn_eq hlong ha, toPosIn_eq hlong hb]
      have hnsec : long ((nlTimespecToPos a).nsec + (nlTimespecToPos b).nsec) = some sum.nsec := hlong _ (by omega)
      simp only [Option.bind_eq_bind, Option.bind_some, hnsec]
      rfl
    rw [hrun, hoffs, Option.bind_some, hsign, hchecked, Option.bind_some, fromPosIn_eq hlong hfrom]
  · have hrun : nlAddTimespec a b = (Lib.whileLoop cond (fun t =>
        some ⟨t.sec + (if sum.nsec < 0 then -1 else 1), t.nsec - (if sum.nsec < 0 then -1 else 1) * 1000000000⟩)
          sum.rounds sum).bind (fun t => some (nlTimespecFromPos t)) := rfl
    rw [hrun, hsign, Int.one_mul, ht, Option.bind_some]

theorem subIn_eq (hlong : TwoSeconds long) (ha : a.IsNormal) (hb : b.IsNormal) :
    ∃ ts, nlSubTimespecIn long a b = some ts ∧ nlSubTimespec a b = some ts := by
  unfold nlSubTimespecIn
  rw [negateIn_eq hlong hb]
  exact addIn_eq hlong ha hb.negate

end
end Timespec
open Timespec

/-- Nanoseconds never overflow in 32 bits, as long as the timespecs are in normal form. -/
theorem timespec_fits (a b : Timespec) (ha : a.IsNormal) (hb : b.IsNormal) : FitsIn (signed 32) a b :=
  have hlong := signed_twoSeconds (Nat.le_refl 32)
  { toPos := toPosIn_eq hlong ha
    fromPos := fun _ => fromPosIn_eq hlong
    negate := negateIn_eq hlong ha
    add := addIn_eq hlong ha hb
    sub := subIn_eq hlong ha hb }

/-- Two whole negative seconds, which have the most nanoseconds. -/
theorem timespec_fits_seconds : FitsIn (signed 32) ⟨-1, 0⟩ ⟨-1, 0⟩ :=
  timespec_fits ⟨-1, 0⟩ ⟨-1, 0⟩ ⟨by decide, by decide⟩ ⟨by decide, by decide⟩

-- One bit less does not hold their sum.
example : nlAddTimespecIn (signed 31) ⟨-1, 0⟩ ⟨-1, 0⟩ = none := by decide

end Nlutils
