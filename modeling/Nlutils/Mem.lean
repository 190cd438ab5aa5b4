import Nlutils.Bytes
import Nlutils.Lib.Heap

/-! # Reallocation (`nl_crealloc` of `mem.c`)

A heap of blocks of bytes. There is no result where the code writes outside a block. -/

namespace Nlutils
open Lib

/-- What a call of `realloc` does: it fails, or it changes the block where it is or elsewhere, with any bytes behind
    those that it keeps. -/
inductive Realloc
  | fails
  | inPlace (fill : Nat → Byte)
  | moves (fill : Nat → Byte)

/-- The first `n` bytes of a block, with more bytes behind them where it is too short. -/
def resized (old : Bytes) (n : Nat) (fill : Nat → Byte) : Bytes := old.take n ++ (List.range (n - old.length)).map fill

def realloc (r : Realloc) (h : Heap Bytes) (p : Option Addr) (n : Nat) : Option (Option Addr × Heap Bytes) :=
  match p with
  | none =>
    match r with
    | .fails => some (none, h)
    | .inPlace fill | .moves fill =>
      let (a, h) := h.alloc (resized [] n fill)
      some (some a, h)
  | some a =>
    (h.get a).bind fun old =>
      -- No bytes at all are a call of `free`.
      if n = 0 then (h.free a).map fun h => (none, h)
      else
        match r with
        | .fails => some (none, h)
        | .inPlace fill => (h.set a (resized old n fill)).map fun h => (some a, h)
        | .moves fill =>
          (h.free a).map fun h =>
            let (b, h) := h.alloc (resized old n fill)
            (some b, h)

/-- Clears `n` bytes of a block. -/
def memset (h : Heap Bytes) (a : Addr) (start n : Nat) : Option (Heap Bytes) :=
  (h.get a).bind fun b =>
    if start + n ≤ b.length then h.set a (b.take start ++ List.replicate n 0 ++ b.drop (start + n)) else none

/-- The result, `*ptr` afterwards, and the heap. -/
def nlCrealloc (r : Realloc) (h : Heap Bytes) (ptr : Option Addr) (elemSize oldCount count : UInt64) :
    Option (Option Addr × Option Addr × Heap Bytes) :=
  if count = 0 then
    match ptr with
    | none => some (none, none, h)
    | some a => (h.free a).map fun h => (none, none, h)
  else
    (realloc r h ptr (elemSize * count).toNat).bind fun (tmp, h) =>
      match tmp with
      | none => some (none, ptr, h)
      | some a =>
        (if count > oldCount then memset h a (oldCount * elemSize).toNat ((count - oldCount) * elemSize).toNat
          else some h).map fun h => (some a, some a, h)

/-- The block at `ptr`, which is empty for NULL. -/
def IsBlock (h : Heap Bytes) (ptr : Option Addr) (old : Bytes) : Prop :=
  match ptr with
  | none => old = []
  | some a => h.get a = some old

/-- `old` has been freed, is still there, or has been replaced by as many of its bytes as are asked for, with zero bytes
    behind them. -/
structure Crealloced (h : Heap Bytes) (ptr : Option Addr) (old : Bytes) (elemSize oldCount count : Nat)
    (res ptr' : Option Addr) (h' : Heap Bytes) : Prop where
  freed : count = 0 → res = none ∧ ptr' = none ∧ ∀ a ∈ ptr, h'.get a = none
  failed : count ≠ 0 → res = none → ptr' = ptr ∧ h' = h
  stored : ∀ a ∈ res, ptr' = some a ∧ ∃ b, h'.get a = some b ∧ elemSize * count ≤ b.length ∧
    b.take (elemSize * count) = old.take (elemSize * min oldCount count) ++
      List.replicate (elemSize * count - elemSize * min oldCount count) 0
  others : ∀ a b, h.get a = some b → ptr ≠ some a → h'.get a = some b

section
variable {h h' : Heap Bytes} {ptr res : Option Addr} {old b : Bytes} {r : Realloc} {n : Nat} {a : Addr}

theorem resized_length (fill : Nat → Byte) : (resized old n fill).length = n := by
  simp only [resized, List.length_append, List.length_take, List.length_map, List.length_range]
  omega

theorem resized_take {k : Nat} (hk : k ≤ n) (hold : k ≤ old.length) (fill : Nat → Byte) :
    (resized old n fill).take k = old.take k := by
  have hlen : k ≤ (old.take n).length := by
    rw [List.length_take]
    omega
  rw [resized, List.take_append_of_le_length hlen, List.take_take, Nat.min_eq_left hk]

/-- A call of `realloc` for at least one byte fails and changes nothing, or gives a block of the size that is asked
    for. -/
theorem realloc_spec (r : Realloc) (hblock : IsBlock h ptr old) (hn : n ≠ 0) :
    realloc r h ptr n = some (none, h) ∨
    ∃ a h' fill, realloc r h ptr n = some (some a, h') ∧ h'.get a = some (resized old n fill) ∧
      ∀ c v, h.get c = some v → ptr ≠ some c → h'.get c = some v ∧ c ≠ a := by
  cases ptr with
  | none =>
    obtain rfl : old = [] := hblock
    have hothers : ∀ c v w, h.get c = some v → (h.alloc w).2.get c = some v ∧ c ≠ (h.alloc w).1 :=
      fun c v w hc => ⟨Heap.get_alloc hc, Heap.ne_length_of_get hc⟩
    cases r with
    | fails => exact Or.inl rfl
    | inPlace fill => exact Or.inr ⟨_, _, fill, rfl, Heap.get_alloc_self, fun c v hc _ => hothers c v _ hc⟩
    | moves fill => exact Or.inr ⟨_, _, fill, rfl, Heap.get_alloc_self, fun c v hc _ => hothers c v _ hc⟩
  | some p =>
    have hget : h.get p = some old := hblock
    cases r with
    | fails =>
      left
      simp only [realloc, hget, Option.bind_some, if_neg hn]
    | inPlace fill =>
      right
      obtain ⟨h', hset, hself, hother, -⟩ := Heap.set_eq_some (v := resized old n fill) hget
      refine ⟨p, h', fill, ?_, hself, ?_⟩
      · simp only [realloc, hget, Option.bind_some, if_neg hn, hset, Option.map_some]
      · intro c v hc hne
        have hcp : c ≠ p := fun heq => hne (congrArg some heq.symm)
        exact ⟨(hother c hcp).trans hc, hcp⟩
    | moves fill =>
      right
      obtain ⟨h', hfree, hself, hother, -⟩ := Heap.free_eq_some hget
      refine ⟨(h'.alloc (resized old n fill)).1, (h'.alloc (resized old n fill)).2, fill, ?_, Heap.get_alloc_self, ?_⟩
      · simp only [realloc, hget, Option.bind_some, if_neg hn, hfree, Option.map_some]
      · intro c v hc hne
        have hcp : c ≠ p := fun heq => hne (congrArg some heq.symm)
        have hc' : h'.get c = some v := (hother c hcp).trans hc
        exact ⟨Heap.get_alloc hc', Heap.ne_length_of_get hc'⟩

/-- The bytes that a block has more than are kept are cleared. -/
theorem memset_resized {k : Nat} {fill : Nat → Byte} (hget : h.get a = some (resized old n fill)) (hk : k ≤ n)
    (hold : k ≤ old.length) : ∃ h', memset h a k (n - k) = some h' ∧
      h'.get a = some (old.take k ++ List.replicate (n - k) 0) ∧ ∀ c, c ≠ a → h'.get c = h.get c := by
  have hall : k + (n - k) = n := Nat.add_sub_cancel' hk
  have hlen : (resized old n fill).length = n := resized_length fill
  have hdrop : (resized old n fill).drop n = [] := List.drop_eq_nil_of_le (Nat.le_of_eq hlen)
  obtain ⟨h', hset, hself, hother, -⟩ := Heap.set_eq_some (v := old.take k ++ List.replicate (n - k) 0) hget
  refine ⟨h', ?_, hself, hother⟩
  rw [memset, hget, Option.bind_some, hall, if_pos (Nat.le_of_eq hlen.symm), hdrop, resized_take hk hold,
    List.append_nil, hset]

theorem toNat_mul_of_lt {x y : UInt64} (h : x.toNat * y.toNat < 2 ^ 64) : (x * y).toNat = x.toNat * y.toNat :=
  (UInt64.toNat_mul x y).trans (Nat.mod_eq_of_lt h)

/-- Where the size fits in a `size_t`, the bounds of what is cleared do not wrap either. -/
theorem cleared_bounds {elemSize oldCount count : UInt64} (hsize : elemSize.toNat * count.toNat < 2 ^ 64)
    (hlt : oldCount.toNat < count.toNat) : (oldCount * elemSize).toNat = elemSize.toNat * oldCount.toNat ∧
    ((count - oldCount) * elemSize).toNat = elemSize.toNat * count.toNat - elemSize.toNat * oldCount.toNat := by
  have hstart : oldCount.toNat * elemSize.toNat < 2 ^ 64 := by
    rw [Nat.mul_comm]
    exact Nat.lt_of_le_of_lt (Nat.mul_le_mul_left _ (Nat.le_of_lt hlt)) hsize
  have hsub : (count - oldCount).toNat = count.toNat - oldCount.toNat :=
    UInt64.toNat_sub_of_le _ _ (UInt64.le_iff_toNat_le.mpr (Nat.le_of_lt hlt))
  have hmore : (count - oldCount).toNat * elemSize.toNat < 2 ^ 64 := by
    rw [hsub, Nat.mul_comm]
    exact Nat.lt_of_le_of_lt (Nat.mul_le_mul_left _ (Nat.sub_le _ _)) hsize
  constructor
  · rw [toNat_mul_of_lt hstart, Nat.mul_comm]
  · rw [toNat_mul_of_lt hmore, hsub, Nat.mul_comm, Nat.mul_sub]

end

/-- With a size that fits in a `size_t`, the block that is stored has that size, and everything behind the old contents
    is zero. -/
theorem nlCrealloc_spec (r : Realloc) (h : Heap Bytes) (ptr : Option Addr) (old : Bytes)
    (elemSize oldCount count : UInt64) (hblock : IsBlock h ptr old) (helem : 0 < elemSize)
    (hold : elemSize.toNat * oldCount.toNat ≤ old.length) (hsize : elemSize.toNat * count.toNat < 2 ^ 64) :
    ∃ res ptr' h', nlCrealloc r h ptr elemSize oldCount count = some (res, ptr', h') ∧
      Crealloced h ptr old elemSize.toNat oldCount.toNat count.toNat res ptr' h' := by
  by_cases hc : count = 0
  · have hzero : ¬count.toNat ≠ 0 := by simp [hc]
    cases ptr with
    | none =>
      refine ⟨none, none, h, if_pos hc, ?_⟩
      exact ⟨fun _ => ⟨rfl, rfl, nofun⟩, fun hne => absurd hne hzero, nofun, fun a b hab _ => hab⟩
    | some p =>
      obtain ⟨h', hfree, hself, hother, -⟩ := Heap.free_eq_some hblock
      refine ⟨none, none, h', ?_, ?_, fun hne => absurd hne hzero, nofun, ?_⟩
      · rw [nlCrealloc, if_pos hc]
        simp only [hfree, Option.map_some]
      · refine fun _ => ⟨rfl, rfl, ?_⟩
        rintro a ⟨⟩
        exact hself
      · intro a b hab hne
        exact (hother a fun heq => hne (congrArg some heq.symm)).trans hab
  · have hpos : count.toNat ≠ 0 := fun heq => hc (UInt64.toNat_inj.mp heq)
    have hmul : (elemSize * count).toNat = elemSize.toNat * count.toNat := toNat_mul_of_lt hsize
    have helem : 0 < elemSize.toNat := UInt64.lt_iff_toNat_lt.mp helem
    have hn : elemSize.toNat * count.toNat ≠ 0 := Nat.mul_ne_zero (Nat.ne_of_gt helem) hpos
    rcases realloc_spec r hblock hn with hfail | ⟨a, h', fill, hres, hget, hothers⟩
    · refine ⟨none, ptr, h, ?_, fun heq => absurd heq hpos, fun _ _ => ⟨rfl, rfl⟩, nofun, fun a b hab _ => hab⟩
      simp only [nlCrealloc, if_neg hc, hmul, hfail, Option.bind_some]
    · by_cases hgrow : count > oldCount
      · have hlt : oldCount.toNat < count.toNat := UInt64.lt_iff_toNat_lt.mp hgrow
        have hmin : min oldCount.toNat count.toNat = oldCount.toNat := Nat.min_eq_left (Nat.le_of_lt hlt)
        have hle : elemSize.toNat * oldCount.toNat ≤ elemSize.toNat * count.toNat :=
          Nat.mul_le_mul_left _ (Nat.le_of_lt hlt)
        obtain ⟨hstart, hmore⟩ := cleared_bounds hsize hlt
        obtain ⟨h'', hset, hself, hother⟩ := memset_resized hget hle hold
        have hlength : (old.take (elemSize.toNat * oldCount.toNat) ++ List.replicate
            (elemSize.toNat * count.toNat - elemSize.toNat * oldCount.toNat) (0 : Byte)).length =
            elemSize.toNat * count.toNat := by
          rw [List.length_append, List.length_take, List.length_replicate, Nat.min_eq_left hold,
            Nat.add_sub_cancel' hle]
        refine ⟨some a, some a, h'', ?_, fun heq => absurd heq hpos, nofun, ?_, ?_⟩
        · simp only [nlCrealloc, if_neg hc, hmul, hres, Option.bind_some, if_pos hgrow, hstart, hmore, hset,
            Option.map_some]
        · rintro _ ⟨⟩
          rw [hmin]
          exact ⟨rfl, _, hself, Nat.le_of_eq hlength.symm, List.take_of_length_le (Nat.le_of_eq hlength)⟩
        · intro c v hcv hne
          obtain ⟨hkept, hca⟩ := hothers c v hcv hne
          exact (hother c hca).trans hkept
      · have hle : count.toNat ≤ oldCount.toNat := Nat.le_of_not_lt (mt UInt64.lt_iff_toNat_lt.mpr hgrow)
        have hmem : elemSize.toNat * count.toNat ≤ old.length := Nat.le_trans (Nat.mul_le_mul_left _ hle) hold
        refine ⟨some a, some a, h', ?_, fun heq => absurd heq hpos, nofun, ?_, ?_⟩
        · simp only [nlCrealloc, if_neg hc, hmul, hres, Option.bind_some, if_neg hgrow, Option.map_some]
        · rintro _ ⟨⟩
          refine ⟨rfl, _, hget, Nat.le_of_eq (resized_length fill).symm, ?_⟩
          rw [resized_take (Nat.le_refl _) hmem, Nat.min_eq_right hle, Nat.sub_self, List.replicate_zero,
            List.append_nil]
        · exact fun c v hcv hne => (hothers c v hcv hne).1

/-- A block of two elements is grown to three elements of two bytes. -/
theorem nlCrealloc_three : ∃ res ptr' h', nlCrealloc (.moves fun _ => 9) ⟨[some [1, 2, 3, 4]]⟩ (some 0) 2 2 3 =
    some (res, ptr', h') ∧ Crealloced ⟨[some [1, 2, 3, 4]]⟩ (some 0) [1, 2, 3, 4] 2 2 3 res ptr' h' :=
  nlCrealloc_spec (.moves fun _ => 9) ⟨[some [1, 2, 3, 4]]⟩ (some 0) [1, 2, 3, 4] 2 2 3 rfl (by decide) (by decide)
    (by decide)

/-- Where the size does not fit in a `size_t`, the block that is stored is smaller: the size of eight elements of
    `2 ^ 61 + 1` bytes wraps to eight bytes. -/
theorem not_nlCrealloc : ¬∀ (r : Realloc) (h : Heap Bytes) (ptr : Option Addr) (old : Bytes)
    (elemSize oldCount count : UInt64), IsBlock h ptr old → 0 < elemSize →
    elemSize.toNat * oldCount.toNat ≤ old.length →
    ∃ res ptr' h', nlCrealloc r h ptr elemSize oldCount count = some (res, ptr', h') ∧
      Crealloced h ptr old elemSize.toNat oldCount.toNat count.toNat res ptr' h' := by
  intro hall
  obtain ⟨res, ptr', h', hres, hdone⟩ :=
    hall (.inPlace fun _ => 9) ⟨[]⟩ none [] 2305843009213693953 0 8 rfl (by decide) (by decide)
  have hcode : nlCrealloc (.inPlace fun _ => 9) ⟨[]⟩ none 2305843009213693953 0 8 =
      some (some 0, some 0, ⟨[some [0, 0, 0, 0, 0, 0, 0, 0]]⟩) := by
    decide +kernel
  obtain ⟨rfl, rfl, rfl⟩ : some 0 = res ∧ some 0 = ptr' ∧ (⟨[some [0, 0, 0, 0, 0, 0, 0, 0]]⟩ : Heap Bytes) = h' := by
    simpa using hcode.symm.trans hres
  obtain ⟨-, b, hget, hlen, -⟩ := hdone.stored 0 rfl
  cases hget
  exact absurd hlen (by decide)

end Nlutils
