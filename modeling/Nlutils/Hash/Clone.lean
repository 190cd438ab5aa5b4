import Nlutils.Hash.Operations

/-! # Making and filling a hash -/

namespace Nlutils
open Lib

section
variable {m m' : HashMem} {h t : Addr} {xs : List Slot} {M : OrderedMap Bytes Bytes}

/-! ### `nl_hash_create` -/

/-- The memory with a new hash. -/
def HashMem.withHash (m : HashMem) : HashMem :=
  { m with
    hashes := (m.hashes.alloc ⟨some m.fifo.fifos.cells.length, 0⟩).2
    fifo := { m.fifo with fifos := (m.fifo.fifos.alloc {}).2 }
    allocs := m.allocs + 2 }

theorem hashCreate_eq : nlHashCreate allocated m = some (some m.hashes.cells.length, m.withHash) := by
  have hset := Heap.set_alloc_self (h := m.hashes) (v := {}) (w := ⟨some m.fifo.fifos.cells.length, 0⟩)
  have hcell : (m.hashes.alloc {}).1 = m.hashes.cells.length := rfl
  have hnew : nlFifoCreate true m.fifo =
      (some m.fifo.fifos.cells.length, { m.fifo with fifos := (m.fifo.fifos.alloc {}).2 }) := rfl
  simp [nlHashCreate, allocated, hnew, HashMem.setHash, hcell, hset, HashMem.withHash]

/-- A new hash is empty, and apart from all that are there. -/
theorem hashCreate_rep (m : HashMem) : ∃ h t m', nlHashCreate allocated m = some (some h, m') ∧ HashRep m' h t [] ∧
    Changes h t [] [] m m' ∧ ∀ k u zs, HashRep m k u zs → Apart ⟨h, t, []⟩ ⟨k, u, zs⟩ := by
  refine ⟨m.hashes.cells.length, m.fifo.fifos.cells.length, m.withHash, hashCreate_eq, ?_, ?_, ?_⟩
  · have hstored : ∀ {m s}, s ∈ ([] : List Slot) → Stored m s := fun hs => absurd hs List.not_mem_nil
    exact ⟨⟨⟨Heap.get_alloc_self, rfl⟩, fun _ => hstored, List.nodup_nil, List.nodup_nil, List.nodup_nil⟩,
      Heap.get_alloc_self⟩
  · refine ⟨⟨?_, fun _ _ he _ => he, Nat.le_refl _⟩, fun a ha => Heap.get_alloc_ne ha,
      .refl fun _ ha => ha, .refl fun _ ha => ha⟩
    intro l hl
    have hne : l ≠ m.fifo.fifos.cells.length := by simpa using hl
    exact Heap.get_alloc_ne hne
  · intro k u zs R
    exact ⟨(Heap.ne_length_of_get R.hash).symm, (Heap.ne_length_of_get R.table.fifo).symm,
      fun _ he => absurd he List.not_mem_nil, fun _ he => absurd he List.not_mem_nil⟩

/-- The entries of a table as a map. -/
def TableRep.toMap (T : TableRep m t xs) : OrderedMap Bytes Bytes :=
  ⟨xs.map Slot.pair, by
    rw [List.map_map]
    exact T.keys⟩

/-! ### `nl_hash_parse` -/

/-- What the callback of `nl_hash_parse` does to the map. -/
def buildEdit (call : KvpCall) : OrderedMap.Edit Bytes Bytes := .set call.1 call.2.1

theorem buildHash_rep {calls : List KvpCall} (R : HashRep m h t xs) (I : IsMap xs M) (hlen : xs.length < 2 ^ 31)
    (hfit : OrderedMap.FitIn (2 ^ 31 - 1) M (calls.map buildEdit)) :
    ∃ m' xs', buildHash allocated h calls m = some m' ∧ HashRep m' h t xs' ∧
      IsMap xs' ((calls.map buildEdit).foldl OrderedMap.Edit.apply M) ∧ Changes h t xs xs' m m' := by
  induction calls generalizing m xs M with
  | nil => exact ⟨m, xs, rfl, R, I, .refl⟩
  | cons c calls ih =>
    obtain ⟨hc, hcalls⟩ := hfit
    have hsize : ((buildEdit c).apply M).size ≤ 2 ^ 31 - 1 :=
      OrderedMap.size_apply_le (I.size ▸ Nat.le_sub_one_of_lt hlen) hc
    obtain ⟨m₁, xs₁, hset, R₁, I₁, C₁⟩ := hashSet_rep R I (lt_int hsize)
    have hlen₁ : xs₁.length < 2 ^ 31 := I₁.size ▸ lt_int hsize
    obtain ⟨m', xs', hbuild, R', I', C'⟩ := ih R₁ I₁ hlen₁ hcalls
    refine ⟨m', xs', ?_, R', I', C₁.trans C'⟩
    simp [buildHash, hset, hbuild]

end
end Nlutils
