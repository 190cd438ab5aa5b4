import Nlutils.Variant.Code
import Nlutils.Lib.Comparison
import Mathlib.Order.WithBot
import Mathlib.Data.List.Lex

/-! # Comparing variants

Comparing is a total preorder on the variants whose sizes are close together. The difference of two sizes is
returned as an `int`, and of two raw data without contents the first one comes first, whichever it is. -/

namespace Nlutils

/-- `strcmp`: the difference of the first two characters that differ, as unsigned characters. -/
def strcmp : Bytes → Bytes → Int
  | [], [] => 0
  | [], d :: _ => -d.toNat
  | c :: _, [] => c.toNat
  | c :: a, d :: b => if c ≠ d then c.toNat - d.toNat else strcmp a b

/-- The conversion of a `size_t` to `int`, modulo 2^32. -/
def sizeToInt (n : UInt64) : Int := (n.toNat : Int).bmod (2 ^ 32)

/-- The branch for `STRING`. -/
def compareStrings (h : VariantHeap) (val1 val2 : Option Lib.Addr) : Option Int :=
  if val1 = val2 then some 0
  else if val1 = none then some (-1)
  else if val2 = none then some 1
  else do
    let string1 ← h.strings.deref val1
    let string2 ← h.strings.deref val2
    some (strcmp string1 string2)

/-- The branch for `DATA`. -/
def compareData (h : VariantHeap) (val1 val2 : Option Lib.Addr) : Option Int :=
  if val1 = val2 then some 0
  else if val1 = none then some (-1)
  else if val2 = none then some 1
  else do
    let data1 ← h.data.deref val1
    let data2 ← h.data.deref val2
    if data1.data = data2.data ∧ data1.size = data2.size then some 0
    else if data1.data = none then some (-1)
    else if data2.data = none then some 1
    else some (sizeToInt (data1.size - data2.size))

/-- For two values of the same type. There is no result where a pointer that is followed points to nothing. -/
def nlCompareVarvalues (h : VariantHeap) : Variant → Variant → Option Int
  | .integer val1, .integer val2 => some ((if val1 > val2 then 1 else 0) - (if val2 > val1 then 1 else 0))
  | .floating val1, .floating val2 => some (if val1 > val2 then 1 else if val1 == val2 then 0 else -1)
  | .data val1, .data val2 => compareData h val1 val2
  | .string val1, .string val2 => compareStrings h val1 val2
  | _, _ => some 1

def nlCompareVariants (h : VariantHeap) (val1 val2 : Variant) : Option Int :=
  if val1.type ≠ val2.type then
    some ((if val1.type > val2.type then 1 else 0) - (if val2.type > val1.type then 1 else 0))
  else nlCompareVarvalues h val1 val2

/-! ### Variants that can be compared -/

/-- The raw data structure that a variant points to. -/
def Variant.cell (h : VariantHeap) : Variant → Option RawDataCell
  | .data p => h.data.deref p
  | _ => none

/-- On a set of variants, comparing is a total preorder that goes by the size of the contents. -/
structure IsOrdered (h : VariantHeap) (S : Set (ValidVariant h)) : Prop where
  preorder : Lib.IsTotalPreorder (fun a b => nlCompareVariants h a.1 b.1) S
  sizes : ∀ a ∈ S, ∀ b ∈ S, ∀ c d, a.1.cell h = some c → b.1.cell h = some d → c.data ≠ none → d.data ≠ none →
    Lib.Agrees (nlCompareVariants h a.1 b.1) c.size.toNat d.size.toNat

/-- The differences of the sizes are positive as an `int`, and without contents there is only one size. -/
structure SizesFit (h : VariantHeap) (S : Set (ValidVariant h)) : Prop where
  contents : ∀ a ∈ S, ∀ b ∈ S, ∀ c d, a.1.cell h = some c → b.1.cell h = some d → c.data ≠ none → d.data ≠ none →
    d.size < c.size → 0 < (c.size - d.size).toNat % 2 ^ 32 ∧ (c.size - d.size).toNat % 2 ^ 32 < 2 ^ 31
  null : ∀ a ∈ S, ∀ b ∈ S, ∀ c d, a.1.cell h = some c → b.1.cell h = some d → c.data = none → d.data = none →
    c.size = d.size

section
variable {h : VariantHeap} {S : Set (ValidVariant h)} {p q : Option Lib.Addr} {c d : RawDataCell}

/-! ### Keys -/

theorem strcmp_agrees {a b : Bytes} (ha : 0 ∉ a) (hb : 0 ∉ b) :
    Lib.Agrees (some (strcmp a b)) (a.map UInt8.toNat) (b.map UInt8.toNat) := by
  refine ⟨_, rfl, ?_⟩
  induction a generalizing b with
  | nil =>
    cases b with
    | nil => simp [strcmp]
    | cons d b =>
      have hd : d.toNat ≠ 0 := fun h0 => hb (List.mem_cons.mpr (Or.inl (UInt8.toNat_inj.mp h0.symm)))
      rw [strcmp, List.map_nil, List.map_cons]
      exact ⟨iff_of_true (by omega) (List.nil_lt_cons _ _), iff_of_false (by omega) (List.not_lt_nil _)⟩
  | cons c a ih =>
    cases b with
    | nil =>
      have hc : c.toNat ≠ 0 := fun h0 => ha (List.mem_cons.mpr (Or.inl (UInt8.toNat_inj.mp h0.symm)))
      rw [strcmp, List.map_nil, List.map_cons]
      exact ⟨iff_of_false (by omega) (List.not_lt_nil _), iff_of_true (by omega) (List.nil_lt_cons _ _)⟩
    | cons d b =>
      obtain ⟨-, ha⟩ := not_or.mp (List.mem_cons.not.mp ha)
      obtain ⟨-, hb⟩ := not_or.mp (List.mem_cons.not.mp hb)
      obtain ⟨hneg, hpos⟩ := ih ha hb
      rw [strcmp, List.map_cons, List.map_cons, List.cons_lt_cons_iff, List.cons_lt_cons_iff]
      split
      · next hne =>
        have hne : c.toNat ≠ d.toNat := fun h => hne (UInt8.toNat_inj.mp h)
        omega
      · next heq =>
        obtain rfl := not_not.mp heq
        rw [hneg, hpos]
        simp

theorem sizeToInt_pos {n : UInt64} : 0 < sizeToInt n ↔ 0 < n.toNat % 2 ^ 32 ∧ n.toNat % 2 ^ 32 < 2 ^ 31 := by
  unfold sizeToInt
  rw [Int.bmod_def]
  omega

theorem sizeToInt_agrees {m n : UInt64}
    (hgt : n < m → 0 < (m - n).toNat % 2 ^ 32 ∧ (m - n).toNat % 2 ^ 32 < 2 ^ 31)
    (hlt : m < n → 0 < (n - m).toNat % 2 ^ 32 ∧ (n - m).toNat % 2 ^ 32 < 2 ^ 31) :
    Lib.Agrees (some (sizeToInt (m - n))) m.toNat n.toNat := by
  refine ⟨_, rfl, ?_⟩
  simp only [UInt64.lt_iff_toNat_lt, UInt64.toNat_sub] at hgt hlt
  have hm := m.toNat_lt
  have hn := n.toNat_lt
  unfold sizeToInt
  rw [Int.bmod_def, UInt64.toNat_sub]
  omega

/-- Where a string comes in the order of strings. -/
def stringKey (h : VariantHeap) (p : Option Lib.Addr) : WithBot (List Nat) :=
  match h.strings.deref p with
  | none => ⊥
  | some s => (s.map UInt8.toNat : List Nat)

/-- Where a raw data structure comes in the order of raw data structures. -/
def cellKey (c : RawDataCell) : WithBot Nat := if c.data = none then ⊥ else WithBot.some c.size.toNat

/-- Where raw data comes in the order of raw data. -/
def dataKey (h : VariantHeap) (p : Option Lib.Addr) : WithBot (WithBot Nat) :=
  match h.data.deref p with
  | none => ⊥
  | some c => cellKey c

theorem compareStrings_agrees (hp : Variant.IsValid h (.string p)) (hq : Variant.IsValid h (.string q)) :
    Lib.Agrees (compareStrings h p q) (stringKey h p) (stringKey h q) := by
  unfold compareStrings
  split
  · next heq => exact heq ▸ .of_eq
  · next hne =>
    cases hp with
    | nullString =>
      cases hq with
      | nullString => exact absurd rfl hne
      | string hs h0 =>
        refine .of_lt ?_
        simp [stringKey, Lib.Heap.deref, hs]
    | string hs h0 =>
      cases hq with
      | nullString =>
        refine .of_gt ?_
        simp [stringKey, Lib.Heap.deref, hs]
      | string hs' h0' =>
        simpa [stringKey, Lib.Heap.deref, hs, hs'] using Lib.agrees_coe.mpr (strcmp_agrees h0 h0')

theorem compareData_agrees (hp : Variant.IsValid h (.data p)) (hq : Variant.IsValid h (.data q))
    (hnull : ∀ c d, h.data.deref p = some c → h.data.deref q = some d → c.data = none → d.data = none → c.size = d.size)
    (hsize : ∀ c d, h.data.deref p = some c → h.data.deref q = some d → c.data ≠ none → d.data ≠ none →
      Lib.Agrees (some (sizeToInt (c.size - d.size))) c.size.toNat d.size.toNat) :
    Lib.Agrees (compareData h p q) (dataKey h p) (dataKey h q) := by
  unfold compareData
  split
  · next heq => exact heq ▸ .of_eq
  · next hne =>
    cases hp with
    | nullData =>
      cases hq with
      | nullData => exact absurd rfl hne
      | data hd =>
        refine .of_lt ?_
        simp [dataKey, Lib.Heap.deref, hd]
    | data hc =>
      cases hq with
      | nullData =>
        refine .of_gt ?_
        simp [dataKey, Lib.Heap.deref, hc]
      | data hd =>
        rw [Lib.Heap.deref_some, Lib.Heap.deref_some] at hnull hsize
        simp only [dataKey, Lib.Heap.deref_some, hc, hd, reduceCtorEq, if_false, Option.bind_eq_bind, Option.bind_some]
        refine Lib.agrees_coe.mpr ?_
        unfold cellKey
        split
        · next heq =>
          rw [heq.1, heq.2]
          exact .of_eq
        · next hdiff =>
          split
          · next hcn =>
            have hdn : _ ≠ none := fun hdn => hdiff ⟨hcn.trans hdn.symm, hnull _ _ hc hd hcn hdn⟩
            rw [if_neg hdn]
            exact .of_lt (WithBot.bot_lt_coe _)
          · next hcn =>
            split
            · exact .of_gt (WithBot.bot_lt_coe _)
            · next hdn => exact Lib.agrees_coe.mpr (hsize _ _ hc hd hcn hdn)

/-! ### Sets of variants -/

theorem agrees_type {a b : Variant} (hne : a.type ≠ b.type) : Lib.Agrees (nlCompareVariants h a b) a.type b.type := by
  rw [nlCompareVariants, if_pos hne]
  rcases lt_or_gt_of_ne hne with hlt | hgt
  · rw [if_neg hlt.not_gt, if_pos hlt]
    exact .of_lt hlt
  · rw [if_pos hgt, if_neg hgt.not_gt]
    exact .of_gt hgt

theorem agrees_integer (m n : Int32) :
    Lib.Agrees (nlCompareVariants h (.integer m) (.integer n)) m.toInt n.toInt := by
  have hcompare : nlCompareVariants h (.integer m) (.integer n) =
      some ((if m > n then 1 else 0) - (if n > m then 1 else 0)) := rfl
  rw [hcompare]
  simp only [gt_iff_lt, Int32.lt_iff_toInt_lt]
  rcases lt_trichotomy m.toInt n.toInt with hlt | heq | hgt
  · rw [if_neg hlt.not_gt, if_pos hlt]
    exact .of_lt hlt
  · rw [heq, if_neg (lt_irrefl _)]
    exact .of_eq
  · rw [if_pos hgt, if_neg hgt.not_gt]
    exact .of_gt hgt

theorem eq_integer {v : Variant} (hv : v.type = 1) : ∃ n, v = .integer n := by
  cases v <;> simp [Variant.type] at hv ⊢

theorem eq_string {v : Variant} (hv : v.type = 3) : ∃ p, v = .string p := by
  cases v <;> simp [Variant.type] at hv ⊢

theorem eq_data {v : Variant} (hv : v.type = 4) : ∃ p, v = .data p := by
  cases v <;> simp [Variant.type] at hv ⊢

theorem eq_data_of_cell {v : Variant} (hv : v.cell h = some c) : ∃ p, v = .data p ∧ h.data.deref p = some c := by
  cases v with
  | data p => exact ⟨p, rfl, hv⟩
  | _ => cases hv

def Variant.intValue : Variant → Int
  | .integer n => n.toInt
  | _ => 0

def Variant.pointer : Variant → Option Lib.Addr
  | .string p | .data p => p
  | _ => none

theorem agrees_data (F : SizesFit h S) {a b : ValidVariant h} (ha : a ∈ S) (hb : b ∈ S) (hp : a.1 = .data p)
    (hq : b.1 = .data q) : Lib.Agrees (nlCompareVariants h a.1 b.1) (dataKey h p) (dataKey h q) := by
  have hcompare : nlCompareVariants h a.1 b.1 = compareData h p q := by rw [hp, hq]; rfl
  have hcell : a.1.cell h = h.data.deref p ∧ b.1.cell h = h.data.deref q := by rw [hp, hq]; exact ⟨rfl, rfl⟩
  have hvalid : Variant.IsValid h (.data p) ∧ Variant.IsValid h (.data q) := ⟨hp ▸ a.2, hq ▸ b.2⟩
  rw [hcompare]
  refine compareData_agrees hvalid.1 hvalid.2 ?_ ?_
  · intro c d hc hd
    exact F.null a ha b hb c d (hcell.1.trans hc) (hcell.2.trans hd)
  · intro c d hc hd hcn hdn
    exact sizeToInt_agrees (F.contents a ha b hb c d (hcell.1.trans hc) (hcell.2.trans hd) hcn hdn)
      (F.contents b hb a ha d c (hcell.2.trans hd) (hcell.1.trans hc) hdn hcn)

theorem isOrdered_of_sizesFit (F : SizesFit h S) : IsOrdered h S where
  preorder := by
    refine Lib.isTotalPreorder_of_rank (fun v => v.1.type) (fun a _ b _ => agrees_type) ?_
    rintro ⟨v, hv⟩ -
    cases hv with
    | integer n =>
      refine Lib.isTotalPreorder_of_key (fun a => a.1.intValue) ?_
      rintro a ⟨-, ha⟩ b ⟨-, hb⟩
      obtain ⟨m, hm⟩ := eq_integer ha
      obtain ⟨n, hn⟩ := eq_integer hb
      simp only [hm, hn]
      exact agrees_integer m n
    | nullString | string =>
      refine Lib.isTotalPreorder_of_key (fun a => stringKey h a.1.pointer) ?_
      rintro ⟨a, ha'⟩ ⟨-, ha⟩ ⟨b, hb'⟩ ⟨-, hb⟩
      obtain ⟨p, rfl⟩ := eq_string ha
      obtain ⟨q, rfl⟩ := eq_string hb
      exact compareStrings_agrees ha' hb'
    | nullData | data =>
      refine Lib.isTotalPreorder_of_key (fun a => dataKey h a.1.pointer) ?_
      rintro a ⟨haS, ha⟩ b ⟨hbS, hb⟩
      obtain ⟨p, hp⟩ := eq_data ha
      obtain ⟨q, hq⟩ := eq_data hb
      have hagrees := agrees_data F haS hbS hp hq
      simp only [hp, hq] at hagrees ⊢
      exact hagrees
  sizes a ha b hb c d hc hd hcn hdn := by
    obtain ⟨p, hp, hpc⟩ := eq_data_of_cell hc
    obtain ⟨q, hq, hqd⟩ := eq_data_of_cell hd
    have hagrees := agrees_data F ha hb hp hq
    simp only [dataKey, hpc, hqd, cellKey, if_neg hcn, if_neg hdn, Lib.agrees_coe] at hagrees
    exact hagrees

theorem ne_of_deref (hp : h.data.deref p = some c) (hq : h.data.deref q = some d) (hne : c.size ≠ d.size) :
    p ≠ q ∧ p ≠ none ∧ q ≠ none ∧ ¬(c.data = d.data ∧ c.size = d.size) := by
  refine ⟨?_, ?_, ?_, fun heq => hne heq.2⟩
  · rintro rfl
    rw [hp, Option.some.injEq] at hq
    exact hne (congrArg _ hq)
  · rintro rfl
    cases hp
  · rintro rfl
    cases hq

theorem compareData_contents (hp : h.data.deref p = some c) (hq : h.data.deref q = some d) (hne : c.size ≠ d.size)
    (hc : c.data ≠ none) (hd : d.data ≠ none) : compareData h p q = some (sizeToInt (c.size - d.size)) := by
  obtain ⟨hpq, hpn, hqn, hcd⟩ := ne_of_deref hp hq hne
  simp only [compareData, if_neg hpq, if_neg hpn, if_neg hqn, hp, hq, Option.bind_eq_bind, Option.bind_some, if_neg hcd,
    if_neg hc, if_neg hd]

theorem compareData_null (hp : h.data.deref p = some c) (hq : h.data.deref q = some d) (hne : c.size ≠ d.size)
    (hc : c.data = none) : compareData h p q = some (-1) := by
  obtain ⟨hpq, hpn, hqn, hcd⟩ := ne_of_deref hp hq hne
  simp only [compareData, if_neg hpq, if_neg hpn, if_neg hqn, hp, hq, Option.bind_eq_bind, Option.bind_some, if_neg hcd,
    if_pos hc]

theorem sizesFit_of_isOrdered (O : IsOrdered h S) : SizesFit h S where
  contents a ha b hb c d hc hd hcn hdn hlt := by
    obtain ⟨n, hn, -, hpos⟩ := O.sizes a ha b hb c d hc hd hcn hdn
    obtain ⟨p, hp, hpc⟩ := eq_data_of_cell hc
    obtain ⟨q, hq, hqd⟩ := eq_data_of_cell hd
    have hcompare : nlCompareVariants h a.1 b.1 = compareData h p q := by rw [hp, hq]; rfl
    have hne : c.size ≠ d.size := (UInt64.ne_of_lt hlt).symm
    rw [hcompare, compareData_contents hpc hqd hne hcn hdn, Option.some.injEq] at hn
    rw [← sizeToInt_pos, hn]
    exact hpos.mpr (UInt64.lt_iff_toNat_lt.mp hlt)
  null a ha b hb c d hc hd hcn hdn := by
    by_contra hne
    obtain ⟨m, n, hm, hn, hsign⟩ := O.preorder.total a ha b hb
    obtain ⟨p, hp, hpc⟩ := eq_data_of_cell hc
    obtain ⟨q, hq, hqd⟩ := eq_data_of_cell hd
    have hab : nlCompareVariants h a.1 b.1 = compareData h p q := by rw [hp, hq]; rfl
    have hba : nlCompareVariants h b.1 a.1 = compareData h q p := by rw [hp, hq]; rfl
    rw [hab, compareData_null hpc hqd hne hcn, Option.some.injEq] at hm
    rw [hba, compareData_null hqd hpc (Ne.symm hne) hdn, Option.some.injEq] at hn
    rw [← hm, ← hn] at hsign
    cases hsign

end

/-- Comparing orders a set of variants if and only if their sizes fit. -/
theorem isOrdered_iff (h : VariantHeap) (S : Set (ValidVariant h)) : IsOrdered h S ↔ SizesFit h S :=
  ⟨sizesFit_of_isOrdered, isOrdered_of_sizesFit⟩

/-- Raw data of 2^31 bytes does not come after raw data of none. -/
theorem not_isOrdered_far : ¬∀ h, IsOrdered h Set.univ := by
  intro hall
  let h : VariantHeap := { data := ⟨[some ⟨2 ^ 31, some 0⟩, some ⟨0, some 1⟩]⟩ }
  have F := sizesFit_of_isOrdered (hall h)
  let a : ValidVariant h := ⟨.data (some 0), .data (c := ⟨2 ^ 31, some 0⟩) rfl⟩
  let b : ValidVariant h := ⟨.data (some 1), .data (c := ⟨0, some 1⟩) rfl⟩
  have hlt := F.contents a trivial b trivial ⟨2 ^ 31, some 0⟩ ⟨0, some 1⟩ rfl rfl (Option.some_ne_none _)
    (Option.some_ne_none _) (by decide)
  exact absurd hlt.2 (by decide)

end Nlutils
