import Nlutils.Lib.Comparison
import Nlutils.Timespec

/-! # Comparing timespecs

Within one second nanoseconds count down below zero and up from zero on, so that the direction of the comparison
depends on the second. -/

namespace Nlutils

def nlCompareTimespec (a b : Timespec) : Int :=
  if a.sec < b.sec then -1
  else if a.sec = b.sec then
    if a.nsec = b.nsec then 0
    else if a.sec < 0 then if a.nsec > b.nsec then -1 else 1
    else if a.nsec < b.nsec then -1
    else 1
  else 1

example : nlCompareTimespec ⟨-1, 500⟩ ⟨-1, 600⟩ = 1 := by decide

/-- On timespecs in normal form, a comparison goes by time, as subtraction does, and addition keeps it. -/
structure IsTimeOrder (cmp : Timespec → Timespec → Int) : Prop where
  sign : ∀ a b : Timespec, a.IsNormal → b.IsNormal → cmp a b = (a.val - b.val).sign
  preorder : Lib.IsTotalPreorder (fun a b => some (cmp a b)) {ts | ts.IsNormal}
  antisymm : ∀ a b : Timespec, a.IsNormal → b.IsNormal → cmp a b = 0 → a = b
  sub : ∀ a b : Timespec, a.IsNormal → b.IsNormal → ∃ d, nlSubTimespec a b = some d ∧ cmp a b = cmp d ⟨0, 0⟩
  add : ∀ a b c : Timespec, a.IsNormal → b.IsNormal → c.IsNormal →
    ∃ x y, nlAddTimespec a c = some x ∧ nlAddTimespec b c = some y ∧ cmp x y = cmp a b

namespace Timespec
variable {a b ts : Timespec}

/-- A later second is a later time, whatever the nanoseconds. -/
theorem IsNormal.val_lt (ha : a.IsNormal) (hb : b.IsNormal) (h : a.sec < b.sec) : a.val < b.val := by
  obtain ⟨ha1, ha2⟩ := ha
  obtain ⟨hb1, hb2⟩ := hb
  unfold val
  split <;> split <;> omega

theorem compare_eq_sign (ha : a.IsNormal) (hb : b.IsNormal) : nlCompareTimespec a b = (a.val - b.val).sign := by
  have hneg : ∀ {n : Int}, n < 0 → -1 = n.sign := fun h => (Int.sign_eq_neg_one_of_neg h).symm
  have hpos : ∀ {n : Int}, 0 < n → 1 = n.sign := fun h => (Int.sign_eq_one_of_pos h).symm
  unfold nlCompareTimespec
  split
  · next hlt => exact hneg (Int.sub_neg_of_lt (ha.val_lt hb hlt))
  · next hge =>
    split
    · next hsec =>
      split
      · next hnsec =>
        rw [Timespec.ext hsec hnsec, Int.sub_self]
        rfl
      · next hne =>
        unfold val
        rw [← hsec]
        split
        · split
          · exact hneg (by omega)
          · exact hpos (by omega)
        · split
          · exact hneg (by omega)
          · exact hpos (by omega)
    · next hsec => exact hpos (Int.sub_pos_of_lt (hb.val_lt ha (by omega)))

theorem compare_agrees (ha : a.IsNormal) (hb : b.IsNormal) :
    Lib.Agrees (some (nlCompareTimespec a b)) a.val b.val := by
  refine ⟨_, rfl, ?_⟩
  rw [compare_eq_sign ha hb, Int.sign_neg_iff, Int.sign_pos_iff]
  constructor
  · omega
  · omega

end Timespec
open Timespec

theorem nlCompareTimespec_isTimeOrder : IsTimeOrder nlCompareTimespec where
  sign _ _ := compare_eq_sign
  preorder := Lib.isTotalPreorder_of_key val fun _ ha _ hb => compare_agrees ha hb
  antisymm a b ha hb h := by
    rw [compare_eq_sign ha hb, Int.sign_eq_zero_iff_zero] at h
    exact ha.ext hb (Int.sub_eq_zero.mp h)
  sub a b ha hb := by
    have hzero : (⟨0, 0⟩ : Timespec).IsNormal := ⟨by decide, fun _ => rfl⟩
    refine ⟨_, sub_eq, ?_⟩
    rw [compare_eq_sign ha hb, compare_eq_sign isNormal_ofVal hzero, val_ofVal]
    exact congrArg Int.sign (Int.sub_zero _).symm
  add a b c ha hb _ := by
    refine ⟨_, _, add_eq, add_eq, ?_⟩
    rw [compare_eq_sign isNormal_ofVal isNormal_ofVal, compare_eq_sign ha hb, val_ofVal, val_ofVal]
    exact congrArg Int.sign (by omega)

end Nlutils
