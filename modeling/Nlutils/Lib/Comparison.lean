import Mathlib.Order.WithBot
import Mathlib.Data.Set.Operations

/-! # Comparison functions

A comparison function gives a negative number, zero or a positive number, and may fail. -/

namespace Lib
variable {α κ ι : Type} [LinearOrder κ] [LinearOrder ι] {cmp : α → α → Option Int} {S : Set α}

/-- The result says how two keys compare. -/
def Agrees (r : Option Int) (k l : κ) : Prop := ∃ n, r = some n ∧ (n < 0 ↔ k < l) ∧ (0 < n ↔ l < k)

/-- On a set, comparing never fails and is a total preorder. -/
structure IsTotalPreorder (cmp : α → α → Option Int) (S : Set α) : Prop where
  total : ∀ a ∈ S, ∀ b ∈ S, ∃ m n, cmp a b = some m ∧ cmp b a = some n ∧ m.sign = -n.sign
  refl : ∀ a ∈ S, cmp a a = some 0
  trans : ∀ a ∈ S, ∀ b ∈ S, ∀ c ∈ S, ∀ m n, cmp a b = some m → cmp b c = some n → m ≤ 0 → n ≤ 0 →
    ∃ k ≤ 0, cmp a c = some k

theorem Agrees.le_iff {r : Option Int} {k l : κ} {n : Int} (A : Agrees r k l) (h : r = some n) : n ≤ 0 ↔ k ≤ l := by
  obtain ⟨m, hm, -, hpos⟩ := A
  obtain rfl := Option.some.inj (h.symm.trans hm)
  rw [← Int.not_lt, hpos, not_lt]

theorem Agrees.of_self {r : Option Int} {k : κ} (A : Agrees r k k) : r = some 0 := by
  obtain ⟨n, hn, hneg, hpos⟩ := A
  have hle : n ≤ 0 := Int.not_lt.mp fun h => lt_irrefl k (hpos.mp h)
  have hge : 0 ≤ n := Int.not_lt.mp fun h => lt_irrefl k (hneg.mp h)
  rw [hn, Int.le_antisymm hle hge]

theorem Agrees.of_eq {k : κ} : Agrees (some 0) k k :=
  ⟨0, rfl, iff_of_false (Int.lt_irrefl 0) (lt_irrefl k), iff_of_false (Int.lt_irrefl 0) (lt_irrefl k)⟩

theorem Agrees.of_lt {k l : κ} (h : k < l) : Agrees (some (-1)) k l :=
  ⟨-1, rfl, iff_of_true (by omega) h, iff_of_false (by omega) h.not_gt⟩

theorem Agrees.of_gt {k l : κ} (h : l < k) : Agrees (some 1) k l :=
  ⟨1, rfl, iff_of_false (by omega) h.not_gt, iff_of_true (by omega) h⟩

/-- Keys that may be missing. -/
theorem agrees_coe {r : Option Int} {k l : κ} : Agrees r (k : WithBot κ) (l : WithBot κ) ↔ Agrees r k l := by
  simp only [Agrees, WithBot.coe_lt_coe]

/-- Comparing the other way round. -/
theorem Agrees.swap {r r' : Option Int} {k l : κ} (A : Agrees r k l) (B : Agrees r' l k) :
    ∃ m n, r = some m ∧ r' = some n ∧ m.sign = -n.sign := by
  rcases lt_trichotomy k l with hlt | rfl | hgt
  · obtain ⟨m, hm, hmneg, -⟩ := A
    obtain ⟨n, hn, -, hnpos⟩ := B
    refine ⟨m, n, hm, hn, ?_⟩
    rw [Int.sign_eq_neg_one_of_neg (hmneg.mpr hlt), Int.sign_eq_one_of_pos (hnpos.mpr hlt)]
  · exact ⟨0, 0, A.of_self, B.of_self, rfl⟩
  · obtain ⟨m, hm, -, hmpos⟩ := A
    obtain ⟨n, hn, hnneg, -⟩ := B
    refine ⟨m, n, hm, hn, ?_⟩
    rw [Int.sign_eq_one_of_pos (hmpos.mpr hgt), Int.sign_eq_neg_one_of_neg (hnneg.mpr hgt)]
    rfl

/-- Comparing by a key. -/
theorem isTotalPreorder_of_key (key : α → κ) (h : ∀ a ∈ S, ∀ b ∈ S, Agrees (cmp a b) (key a) (key b)) :
    IsTotalPreorder cmp S where
  total a ha b hb := (h a ha b hb).swap (h b hb a ha)
  refl a ha := (h a ha a ha).of_self
  trans a ha b hb c hc m n hm hn hm0 hn0 := by
    obtain ⟨k, hk, -⟩ := h a ha c hc
    have hab := ((h a ha b hb).le_iff hm).mp hm0
    have hbc := ((h b hb c hc).le_iff hn).mp hn0
    exact ⟨k, ((h a ha c hc).le_iff hk).mpr (hab.trans hbc), hk⟩

/-- Comparing by rank first, and otherwise among those of one rank. -/
theorem isTotalPreorder_of_rank (rank : α → ι)
    (hrank : ∀ a ∈ S, ∀ b ∈ S, rank a ≠ rank b → Agrees (cmp a b) (rank a) (rank b))
    (h : ∀ v ∈ S, IsTotalPreorder cmp {a ∈ S | rank a = rank v}) : IsTotalPreorder cmp S where
  total a ha b hb := by
    by_cases heq : rank a = rank b
    · exact (h b hb).total a ⟨ha, heq⟩ b ⟨hb, rfl⟩
    · exact (hrank a ha b hb heq).swap (hrank b hb a ha (Ne.symm heq))
  refl a ha := (h a ha).refl a ⟨ha, rfl⟩
  trans a ha b hb c hc m n hm hn hm0 hn0 := by
    have hle : ∀ {a b m}, a ∈ S → b ∈ S → cmp a b = some m → m ≤ 0 → rank a ≤ rank b := by
      intro a b m ha hb hm hm0
      by_cases heq : rank a = rank b
      · exact heq.le
      · exact ((hrank a ha b hb heq).le_iff hm).mp hm0
    have hab := hle ha hb hm hm0
    have hbc := hle hb hc hn hn0
    by_cases heq : rank a = rank c
    · have hba : rank b = rank c := le_antisymm hbc (heq ▸ hab)
      exact (h c hc).trans a ⟨ha, heq⟩ b ⟨hb, hba⟩ c ⟨hc, rfl⟩ m n hm hn hm0 hn0
    · obtain ⟨k, hk, -⟩ := hrank a ha c hc heq
      exact ⟨k, ((hrank a ha c hc heq).le_iff hk).mpr (hab.trans hbc), hk⟩

end Lib
