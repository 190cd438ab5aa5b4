import Mathlib.Data.List.Perm.Subperm
import Nlutils.Fifo.Code

/-! # The sequence that a fifo holds

`Rep m l ns`: the fifo at `l` consists of the elements `ns`, each with its address and its data. A function of
`fifo.c` on one fifo changes no element of another one (`Frame`). -/

namespace Nlutils
open Lib

variable {D : Type}

/-- The elements of fifo `l` from one pointer to another. -/
def Chain (m : FifoMem D) (l : Addr) (p : Option Addr) (ns : List (Addr × D)) (q : Option Addr) : Prop :=
  Segment FifoElement.next (fun e => (e.data, e.l)) m.elems p (ns.map fun n => (n.1, n.2, l)) q

def firstOf (ns : List (Addr × D)) : Option Addr := ns.head?.map (·.1)

def lastOf (ns : List (Addr × D)) : Option Addr := ns.getLast?.map (·.1)

structure Rep (m : FifoMem D) (l : Addr) (ns : List (Addr × D)) : Prop where
  fifo : m.fifos.get l = some ⟨firstOf ns, lastOf ns, FifoSpec.count ns⟩
  chain : Chain m l (firstOf ns) ns none

/-- Fifos other than these keep their elements. -/
structure Frame (ls : List Addr) (m m' : FifoMem D) : Prop where
  fifos : ∀ l, l ∉ ls → m'.fifos.get l = m.fifos.get l
  elems : ∀ a e, m.elems.get a = some e → e.l ∉ ls → m'.elems.get a = some e
  grows : m.elems.cells.length ≤ m'.elems.cells.length

/-! ### Chains -/

section
variable {m m' : FifoMem D} {l l' : Addr} {p q r : Option Addr} {n : Addr × D} {ns ms : List (Addr × D)}

@[simp] theorem firstOf_nil : firstOf ([] : List (Addr × D)) = none := rfl

@[simp] theorem firstOf_cons : firstOf (n :: ns) = some n.1 := rfl

@[simp] theorem lastOf_nil : lastOf ([] : List (Addr × D)) = none := rfl

@[simp] theorem lastOf_snoc : lastOf (ns ++ [n]) = some n.1 := by simp [lastOf]

theorem firstOf_append (h : ns ≠ []) : firstOf (ns ++ ms) = firstOf ns := by
  cases ns with
  | nil => exact absurd rfl h
  | cons n ns => rfl

theorem lastOf_append (h : ms ≠ []) : lastOf (ns ++ ms) = lastOf ms := by
  rcases List.eq_nil_or_concat ms with rfl | ⟨ks, k, rfl⟩
  · exact absurd rfl h
  · rw [List.concat_eq_append, ← List.append_assoc, lastOf_snoc, lastOf_snoc]

theorem firstOf_eq_none : firstOf ns = none ↔ ns = [] := by cases ns <;> simp

theorem lastOf_eq_none : lastOf ns = none ↔ ns = [] := by simp [lastOf]

theorem chain_nil : Chain m l p [] q ↔ p = q := Iff.rfl

theorem chain_cons : Chain m l p (n :: ns) q ↔
    p = some n.1 ∧ ∃ nx, m.elems.get n.1 = some ⟨nx, n.2, l⟩ ∧ Chain m l nx ns q := by
  simp only [Chain, List.map_cons, Segment]
  constructor
  · rintro ⟨hp, ⟨nx, x, k⟩, hg, hv, hns⟩
    obtain ⟨rfl, rfl⟩ := Prod.mk.inj hv
    exact ⟨hp, nx, hg, hns⟩
  · rintro ⟨hp, nx, hg, hns⟩
    exact ⟨hp, _, hg, rfl, hns⟩

theorem chain_append : Chain m l p (ns ++ ms) q ↔ ∃ r, Chain m l p ns r ∧ Chain m l r ms q := by
  unfold Chain
  rw [List.map_append]
  exact segment_append

theorem Chain.get (h : Chain m l p ns q) (hn : n ∈ ns) : ∃ nx, m.elems.get n.1 = some ⟨nx, n.2, l⟩ := by
  obtain ⟨⟨nx, x, k⟩, hg, hv⟩ := Segment.get h (List.mem_map_of_mem hn)
  obtain ⟨rfl, rfl⟩ := Prod.mk.inj hv
  exact ⟨nx, hg⟩

theorem Chain.congr (h : Chain m l p ns q) (hc : ∀ n ∈ ns, m'.elems.get n.1 = m.elems.get n.1) :
    Chain m' l p ns q := by
  refine Segment.congr h ?_
  intro k hk
  obtain ⟨n, hn, rfl⟩ := List.mem_map.mp hk
  exact hc n hn

theorem Chain.nodup (h : Chain m l p ns none) : (ns.map (·.1)).Nodup := by
  have hn := Segment.nodup h
  rwa [List.map_map] at hn

/-- A chain that ends starts at its first element. -/
theorem Chain.first (h : Chain m l p ns none) : p = firstOf ns := by
  cases ns with
  | nil => exact h
  | cons n ns => exact h.1

theorem Chain.relink (h : Chain m l p (ns ++ [n]) q) (hg : m'.elems.get n.1 = some ⟨r, n.2, l⟩)
    (hc : ∀ k ∈ ns, m'.elems.get k.1 = m.elems.get k.1) : Chain m' l p (ns ++ [n]) r := by
  unfold Chain at h ⊢
  rw [List.map_append] at h ⊢
  refine Segment.relink h hg rfl ?_
  intro k hk
  obtain ⟨j, hj, rfl⟩ := List.mem_map.mp hk
  exact hc j hj

theorem ne_of_nodup_cons (h : ((n :: ns).map (·.1)).Nodup) {j : Addr × D} (hj : j ∈ ns) : j.1 ≠ n.1 := fun he =>
  (List.nodup_cons.mp h).1 (List.mem_map.mpr ⟨j, hj, he⟩)

theorem ne_of_nodup_append {ks : List (Addr × D)} (h : ((ns ++ ks).map (·.1)).Nodup) {k : Addr × D} (hk : k ∈ ns)
    {k' : Addr × D} (hk' : k' ∈ ks) : k.1 ≠ k'.1 := by
  rw [List.map_append] at h
  exact (List.nodup_append.mp h).2.2 _ (List.mem_map_of_mem hk) _ (List.mem_map_of_mem hk')

end

/-! ### Frames -/

section
variable {m m' m'' : FifoMem D} {l : Addr} {ls : List Addr} {ns : List (Addr × D)}

theorem Frame.refl : Frame ls m m := ⟨fun _ _ => rfl, fun _ _ h _ => h, Nat.le_refl _⟩

theorem Frame.trans (h : Frame ls m m') (h' : Frame ls m' m'') : Frame ls m m'' where
  fifos l hl := (h'.fifos l hl).trans (h.fifos l hl)
  elems a e ha hl := h'.elems a e (h.elems a e ha hl) hl
  grows := Nat.le_trans h.grows h'.grows

/-- A fifo that an operation leaves alone. -/
theorem Rep.frame (R : Rep m l ns) (h : Frame ls m m') (hl : l ∉ ls) : Rep m' l ns where
  fifo := (h.fifos l hl).trans R.fifo
  chain := R.chain.congr fun n hn => by
    obtain ⟨nx, hg⟩ := R.chain.get hn
    rw [hg, h.elems _ _ hg hl]

end

/-! ### One write -/

section
variable {m : FifoMem D} {l a : Addr} {f g : Fifo} {e : FifoElement D}

theorem setFifo_eq (h : m.fifos.get l = some f) : ∃ m', m.setFifo l g = some m' ∧ m'.fifos.get l = some g ∧
    (∀ k, k ≠ l → m'.fifos.get k = m.fifos.get k) ∧ m'.elems = m.elems := by
  obtain ⟨h', hs, hg, hne, -⟩ := Heap.set_eq_some (v := g) h
  exact ⟨{ m with fifos := h' }, by simp [FifoMem.setFifo, hs], hg, hne, rfl⟩

theorem setElem_eq (e' : FifoElement D) (h : m.elems.get a = some e) :
    ∃ m', m.setElem a e' = some m' ∧ m'.elems.get a = some e' ∧
    (∀ b, b ≠ a → m'.elems.get b = m.elems.get b) ∧ m'.fifos = m.fifos ∧
    m'.elems.cells.length = m.elems.cells.length := by
  obtain ⟨h', hs, hg, hne, hlen⟩ := Heap.set_eq_some (v := e') h
  exact ⟨{ m with elems := h' }, by simp [FifoMem.setElem, hs], hg, hne, rfl, hlen⟩

theorem freeElem_eq (h : m.elems.get a = some e) : ∃ m', m.freeElem a = some m' ∧ m'.elems.get a = none ∧
    (∀ b, b ≠ a → m'.elems.get b = m.elems.get b) ∧ m'.fifos = m.fifos ∧
    m'.elems.cells.length = m.elems.cells.length := by
  obtain ⟨h', hs, hg, hne, hlen⟩ := Heap.free_eq_some h
  exact ⟨{ m with elems := h' }, by simp [FifoMem.freeElem, hs], hg, hne, rfl, hlen⟩

theorem setFifo_elems {m' : FifoMem D} (h : m.setFifo l f = some m') : m'.elems = m.elems := by
  obtain ⟨fifos, -, rfl⟩ := Option.map_eq_some_iff.mp h
  rfl

theorem setElem_elems {m' : FifoMem D} (h : m.setElem a e = some m') : m.elems.set a e = some m'.elems := by
  obtain ⟨elems, hs, rfl⟩ := Option.map_eq_some_iff.mp h
  exact hs

theorem freeElem_elems {m' : FifoMem D} (h : m.freeElem a = some m') : m.elems.free a = some m'.elems := by
  obtain ⟨elems, hs, rfl⟩ := Option.map_eq_some_iff.mp h
  exact hs

end

/-! ### What a represented fifo is like -/

section
variable {m : FifoMem D} {l : Addr} {ns : List (Addr × D)}

theorem count_concat {α : Type} {xs : List α} {y : α} : FifoSpec.count (xs ++ [y]) = FifoSpec.count xs + 1 := by
  simp [FifoSpec.count]

theorem count_cons {α : Type} {xs : List α} {y : α} : FifoSpec.count (y :: xs) = FifoSpec.count xs + 1 := by
  simp [FifoSpec.count]

theorem Frame.of_setFifo {m' : FifoMem D} (h : ∀ k, k ≠ l → m'.fifos.get k = m.fifos.get k)
    (he : m'.elems = m.elems) : Frame [l] m m' where
  fifos k hk := h k (by simpa using hk)
  elems a e ha _ := he ▸ ha
  grows := Nat.le_of_eq (he ▸ rfl)

/-- A write to an element of the fifo. -/
theorem Frame.of_setElem {m' : FifoMem D} {a : Addr} {e : FifoElement D} (hg : m.elems.get a = some e) (hl : e.l = l)
    (h : ∀ b, b ≠ a → m'.elems.get b = m.elems.get b) (hf : m'.fifos = m.fifos)
    (hlen : m'.elems.cells.length = m.elems.cells.length) : Frame [l] m m' where
  fifos _ _ := hf ▸ rfl
  elems b e' hb hne := by
    have hba : b ≠ a := by
      rintro rfl
      rw [hg] at hb
      obtain rfl := Option.some.inj hb
      exact hne (by simp [hl])
    rw [h b hba, hb]
  grows := Nat.le_of_eq hlen.symm

/-- The last element of a chain that ends names no next one. -/
theorem Chain.last {p : Option Addr} {k : Addr × D} (h : Chain m l p (ns ++ [k]) none) :
    m.elems.get k.1 = some ⟨none, k.2, l⟩ := by
  obtain ⟨r, -, hk⟩ := chain_append.mp h
  obtain ⟨-, nx, hg, hnx⟩ := chain_cons.mp hk
  rwa [chain_nil.mp hnx] at hg

theorem eq_nil_or_snoc {α : Type} (xs : List α) : xs = [] ∨ ∃ ys y, xs = ys ++ [y] := by
  rcases List.eq_nil_or_concat xs with h | ⟨ys, y, h⟩
  · exact Or.inl h
  · exact Or.inr ⟨ys, y, by rw [h, List.concat_eq_append]⟩

/-- The loops over the elements of a fifo have enough fuel. -/
theorem Rep.length_lt_bound (R : Rep m l ns) : ns.length < m.bound := by
  have hlt : ∀ a ∈ ns.map (·.1), a < m.elems.cells.length := by
    intro a ha
    obtain ⟨n, hn, rfl⟩ := List.mem_map.mp ha
    obtain ⟨nx, hg⟩ := R.chain.get hn
    exact Heap.lt_of_get hg
  have hle := (List.subperm_of_subset R.chain.nodup fun a ha => List.mem_range.mpr (hlt a ha)).length_le
  rw [List.length_map, List.length_range] at hle
  exact Nat.lt_succ_of_le hle

end
end Nlutils
