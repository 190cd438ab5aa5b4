import Nlutils.RawData
import Nlutils.Variant.Compare

/-! # Copying variants

A copy compares equal to its original, except that of raw data of size zero: it has no contents, and comparing tells it
from an original with contents. -/

namespace Nlutils

/-- The heap with the contents of raw data. -/
structure ContentHeap extends VariantHeap where
  contents : Lib.Heap Bytes := {}

/-- What `nl_copy_data` returns on error: size `SIZE_MAX` and no data. -/
def RawDataCell.error : RawDataCell := ⟨18446744073709551615, none⟩

/-- `nl_copy_data` with the contents on the heap. There is no result where they cannot be read. -/
def copyDataCell (mallocOk : Bool) (h : ContentHeap) (data : RawDataCell) : Option (RawDataCell × ContentHeap) :=
  if data.size ≠ 0 ∧ data.data = none then some (.error, h)
  else if data.size > 0 then
    if !mallocOk then some (.error, h)
    else do
      let contents ← h.contents.deref data.data
      if contents.length < data.size.toNat then none
      else
        let (p, copied) := h.contents.alloc (contents.take data.size.toNat)
        some (⟨data.size, some p⟩, { h with contents := copied })
  else some (⟨0, none⟩, h)

/-- The parameters are whether the allocations of the structure and of its contents succeed. There is no result where
    a pointer points to nothing. -/
def nlDuplicateData (mallocOk copyOk : Bool) (h : ContentHeap) (data : Option Lib.Addr) :
    Option (Option Lib.Addr × ContentHeap) :=
  match data with
  | none => some (none, h)
  | some p => do
    let cell ← h.data.get p
    if cell.size ≠ 0 ∧ cell.data = none then some (none, h)
    else if !mallocOk then some (none, h)
    else
      let (d, h) ← copyDataCell copyOk h cell
      if d.size = 18446744073709551615 ∧ d.data = none then some (none, h)
      else
        let (q, cells) := h.data.alloc d
        some (some q, { h with data := cells })

/-- The first parameter is whether the allocation of a string, or of the structure, succeeds. -/
def nlDuplicateVariant (mallocOk copyOk : Bool) (h : ContentHeap) : Variant → Option (Variant × ContentHeap)
  | .string (some p) => do
    let string ← h.strings.get p
    if !mallocOk then some (.invalid, h)
    else
      let (q, strings) := h.strings.alloc string
      some (.string (some q), { h with strings })
  | .data (some p) => do
    let (data, h) ← nlDuplicateData mallocOk copyOk h (some p)
    match data with
    | none => some (.invalid, h)
    | some q => some (.data (some q), h)
  | value => some (value, h)

/-- What a raw data structure stands for. -/
def RawDataCell.load (h : ContentHeap) (c : RawDataCell) : Option RawData :=
  match c.data with
  | none => some ⟨c.size.toNat, none⟩
  | some p => (h.contents.get p).map fun bs => ⟨c.size.toNat, some bs⟩

/-- Raw data of size zero with contents. -/
def HasEmptyContents (h : VariantHeap) (v : Variant) : Prop := ∃ c, v.cell h = some c ∧ c.size = 0 ∧ c.data ≠ none

/-- Comparing with the copy tells raw data of size zero with contents from its copy, which has none, and nothing
    else. -/
structure ComparesAsCopy (h h' : ContentHeap) (v copy : Variant) : Prop where
  equal : ¬HasEmptyContents h.toVariantHeap v → nlCompareVariants h'.toVariantHeap v copy = some 0
  empty : HasEmptyContents h.toVariantHeap v → nlCompareVariants h'.toVariantHeap v copy = some 1
  contents : HasEmptyContents h.toVariantHeap v → ∃ d, copy.cell h'.toVariantHeap = some d ∧ d.size = 0 ∧ d.data = none

section
variable {h h' : ContentHeap} {c d : RawDataCell} {p q : Lib.Addr} {ok : Bool} {v copy : Variant}

theorem not_hasEmptyContents (hv : v.cell h.toVariantHeap = none) : ¬HasEmptyContents h.toVariantHeap v := by
  rintro ⟨c, hc, -⟩
  rw [hv] at hc
  cases hc

/-- A copy has the size of its original, and contents unless the size is zero. -/
theorem copyDataCell_spec (hnull : ¬(c.size ≠ 0 ∧ c.data = none)) (hcopy : copyDataCell true h c = some (d, h')) :
    d.size = c.size ∧ (d.data = none ↔ c.size = 0) ∧ h'.data = h.data := by
  unfold copyDataCell at hcopy
  rw [if_neg hnull] at hcopy
  split at hcopy
  · next hpos =>
    simp only [Bool.not_true, Bool.false_eq_true, if_false, Option.bind_eq_bind, Option.bind_eq_some_iff] at hcopy
    obtain ⟨contents, -, hcopy⟩ := hcopy
    split at hcopy
    · cases hcopy
    · obtain ⟨rfl, rfl⟩ := Prod.mk.inj (Option.some.inj hcopy)
      have hne : c.size ≠ 0 := (UInt64.ne_of_lt hpos).symm
      exact ⟨rfl, iff_of_false (by simp) hne, rfl⟩
  · next hpos =>
    obtain ⟨rfl, rfl⟩ := Prod.mk.inj (Option.some.inj hcopy)
    have hzero : c.size = 0 := by
      have hle := UInt64.not_lt.mp hpos
      exact UInt64.le_antisymm hle (UInt64.zero_le)
    exact ⟨hzero.symm, iff_of_true rfl hzero, rfl⟩

theorem compareData_copy (hp : h.data.get p = some c)
    (hdup : nlDuplicateData true true h (some p) = some (some q, h')) :
    (¬(c.size = 0 ∧ c.data ≠ none) → compareData h'.toVariantHeap (some p) (some q) = some 0) ∧
      (c.size = 0 ∧ c.data ≠ none → compareData h'.toVariantHeap (some p) (some q) = some 1) ∧
      ∃ d, h'.data.get q = some d ∧ d.size = c.size ∧ (d.data = none ↔ c.size = 0) := by
  simp only [nlDuplicateData, hp, Option.bind_eq_bind, Option.bind_some] at hdup
  split at hdup
  · simp at hdup
  · next hnull =>
    simp only [Bool.not_true, Bool.false_eq_true, if_false, Option.bind_eq_some_iff] at hdup
    obtain ⟨⟨d, h₁⟩, hcopy, hdup⟩ := hdup
    obtain ⟨hsize, hcontents, hdata⟩ := copyDataCell_spec hnull hcopy
    simp only at hdup hdata
    split at hdup
    · simp at hdup
    · simp only [Option.some.injEq, Prod.mk.injEq] at hdup
      obtain ⟨rfl, rfl⟩ := hdup
      have hne : p ≠ (h₁.data.alloc d).1 := hdata ▸ Lib.Heap.ne_length_of_get hp
      have hp' : (h₁.data.alloc d).2.get p = some c := Lib.Heap.get_alloc (hdata ▸ hp)
      have hq' := Lib.Heap.get_alloc_self (h := h₁.data) (v := d)
      have hcompare : compareData { h₁ with data := (h₁.data.alloc d).2 }.toVariantHeap (some p)
          (some (h₁.data.alloc d).1) =
          if c.data = d.data ∧ c.size = d.size then some 0
          else if c.data = none then some (-1)
          else if d.data = none then some 1
          else some (sizeToInt (c.size - d.size)) := by
        unfold compareData
        rw [if_neg (by simpa using hne), if_neg (by simp), if_neg (by simp), Lib.Heap.deref_some, Lib.Heap.deref_some,
          hp', hq']
        rfl
      rw [hcompare, hsize]
      refine ⟨?_, ?_, d, hq', hsize, hcontents⟩
      · intro hfull
        by_cases hnone : c.data = none
        · have hzero : c.size = 0 := not_not.mp fun h => hnull ⟨h, hnone⟩
          rw [hnone, hcontents.mpr hzero, if_pos ⟨rfl, rfl⟩]
        · have hsome : d.data ≠ none := fun h => hfull ⟨hcontents.mp h, hnone⟩
          have hsame : sizeToInt 0 = 0 := by decide
          rw [if_neg hnone, if_neg hsome, UInt64.sub_self, hsame, ite_self]
      · rintro ⟨hzero, hsome⟩
        have hnone := hcontents.mpr hzero
        rw [hnone, if_neg fun h => hsome h.1, if_neg hsome, if_pos rfl]

theorem strcmp_self (s : Bytes) : strcmp s s = 0 := by
  induction s with
  | nil => rfl
  | cons c s ih => exact (if_neg (not_not.mpr rfl)).trans ih

theorem compareStrings_copy {s : Bytes} (hp : h.strings.get p = some s) :
    compareStrings { h with strings := (h.strings.alloc s).2 }.toVariantHeap (some p) (some (h.strings.alloc s).1) =
      some 0 := by
  have hne : p ≠ (h.strings.alloc s).1 := Lib.Heap.ne_length_of_get hp
  have hp' : (h.strings.alloc s).2.get p = some s := Lib.Heap.get_alloc hp
  have hq' := Lib.Heap.get_alloc_self (h := h.strings) (v := s)
  unfold compareStrings
  rw [if_neg (by simpa using hne), if_neg (by simp), if_neg (by simp), Lib.Heap.deref_some, Lib.Heap.deref_some]
  simp only [hp', hq', Option.bind_eq_bind, Option.bind_some, strcmp_self]

end

/-- With no allocation failing, a variant compares equal to its copy, except raw data of size zero with contents. -/
theorem comparesAsCopy (h h' : ContentHeap) (v : ValidVariant h.toVariantHeap) (copy : Variant)
    (hdup : nlDuplicateVariant true true h v.1 = some (copy, h')) (hvalid : copy.type ≠ -1) :
    ComparesAsCopy h h' v.1 copy := by
  obtain ⟨v, hv⟩ := v
  cases hv with
  | integer n =>
    obtain ⟨rfl, rfl⟩ := Prod.mk.inj (Option.some.inj hdup)
    have hno := not_hasEmptyContents (h := h) (v := .integer n) rfl
    exact ⟨fun _ => by simp [nlCompareVariants, nlCompareVarvalues], fun h => absurd h hno, fun h => absurd h hno⟩
  | nullString =>
    obtain ⟨rfl, rfl⟩ := Prod.mk.inj (Option.some.inj hdup)
    have hno := not_hasEmptyContents (h := h) (v := .string none) rfl
    exact ⟨fun _ => rfl, fun h => absurd h hno, fun h => absurd h hno⟩
  | nullData =>
    obtain ⟨rfl, rfl⟩ := Prod.mk.inj (Option.some.inj hdup)
    have hno := not_hasEmptyContents (h := h) (v := .data none) rfl
    exact ⟨fun _ => rfl, fun h => absurd h hno, fun h => absurd h hno⟩
  | @string p s hs _ =>
    simp only [nlDuplicateVariant, hs, Option.bind_eq_bind, Option.bind_some, Bool.not_true, Bool.false_eq_true,
      if_false, Option.some.injEq, Prod.mk.injEq] at hdup
    obtain ⟨rfl, rfl⟩ := hdup
    have hno := not_hasEmptyContents (h := h) (v := .string (some p)) rfl
    exact ⟨fun _ => compareStrings_copy hs, fun h => absurd h hno, fun h => absurd h hno⟩
  | @data p c hc =>
    simp only [nlDuplicateVariant, Option.bind_eq_bind, Option.bind_eq_some_iff] at hdup
    obtain ⟨⟨_ | q, h₁⟩, hdata, hdup⟩ := hdup
    · obtain ⟨rfl, rfl⟩ := Prod.mk.inj (Option.some.inj hdup)
      exact absurd rfl hvalid
    · obtain ⟨rfl, rfl⟩ := Prod.mk.inj (Option.some.inj hdup)
      obtain ⟨hequal, hempty, d, hd, hsize, hcontents⟩ := compareData_copy hc hdata
      have hcell : HasEmptyContents h.toVariantHeap (.data (some p)) ↔ c.size = 0 ∧ c.data ≠ none := by
        constructor
        · rintro ⟨c', hc', hz⟩
          obtain rfl : c = c' := Option.some.inj (hc.symm.trans hc')
          exact hz
        · exact fun hz => ⟨c, hc, hz⟩
      refine ⟨fun h => hequal (hcell.not.mp h), fun h => hempty (hcell.mp h), fun h => ⟨d, hd, ?_⟩⟩
      obtain ⟨hzero, -⟩ := hcell.mp h
      exact ⟨hsize.trans hzero, hcontents.mpr hzero⟩

/-- A copy of three bytes. -/
theorem comparesAsCopy_data :
    ComparesAsCopy ⟨⟨{}, ⟨[some ⟨3, some 0⟩]⟩⟩, ⟨[some [1, 2, 3]]⟩⟩
      ⟨⟨{}, ⟨[some ⟨3, some 0⟩, some ⟨3, some 1⟩]⟩⟩, ⟨[some [1, 2, 3], some [1, 2, 3]]⟩⟩
      (.data (some 0)) (.data (some 1)) :=
  comparesAsCopy ⟨⟨{}, ⟨[some ⟨3, some 0⟩]⟩⟩, ⟨[some [1, 2, 3]]⟩⟩ _ ⟨.data (some 0), .data rfl⟩ _ rfl (by decide)

/-- Raw data of size zero whose contents are an empty string. -/
theorem compare_emptyContents :
    ∃ copy h', nlDuplicateVariant true true ⟨⟨{}, ⟨[some ⟨0, some 0⟩]⟩⟩, ⟨[some []]⟩⟩ (.data (some 0)) =
        some (copy, h') ∧
      copy.type ≠ -1 ∧ nlCompareVariants h'.toVariantHeap (.data (some 0)) copy = some 1 :=
  ⟨.data (some 1), ⟨⟨{}, ⟨[some ⟨0, some 0⟩, some ⟨0, none⟩]⟩⟩, ⟨[some []]⟩⟩, rfl, by decide, rfl⟩

end Nlutils
