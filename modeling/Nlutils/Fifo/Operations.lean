import Nlutils.Fifo.Represents

/-! # Insertion, reading and iteration

What the functions that insert one element, read one or step from one to the next do to the sequence that a
fifo holds. -/

namespace Nlutils
open Lib

variable {D : Type}

/-! ### `nl_fifo_put` and `nl_fifo_prepend` -/

section
variable {m : FifoMem D} {l : Addr} {ns : List (Addr × D)} {x : D}

theorem nlFifoPut_failed : nlFifoPut false (some l) (some x) m = some (-1, m) := rfl

/-- The memory with a new element, which is not linked yet. -/
def FifoMem.allocated (m : FifoMem D) (l : Addr) (x : D) : FifoMem D :=
  { m with elems := (m.elems.alloc ⟨none, x, l⟩).2 }

theorem get_allocated_self : (m.allocated l x).elems.get m.elems.cells.length = some ⟨none, x, l⟩ :=
  Heap.get_alloc_self

theorem get_allocated {a : Addr} {e : FifoElement D} (h : m.elems.get a = some e) :
    (m.allocated l x).elems.get a = some e := Heap.get_alloc h

theorem allocated_frame {ls : List Addr} : Frame ls m (m.allocated l x) where
  fifos _ _ := rfl
  elems _ _ h _ := get_allocated h
  grows := by simp [FifoMem.allocated, Heap.alloc]

theorem nlFifoAllocateNewElement_ok : nlFifoAllocateNewElement true (some l) (some x) m =
    (some m.elems.cells.length, m.allocated l x) := rfl

theorem put_rep (R : Rep m l ns) (hlen : ns.length < 2 ^ 32) : ∃ m', nlFifoPut true (some l) (some x) m =
      some (FifoSpec.toInt (FifoSpec.count ns + 1), m') ∧
    Rep m' l (ns ++ [(m.elems.cells.length, x)]) ∧ Frame [l] m m' := by
  have hzero := FifoSpec.count_eq_zero_iff hlen
  have hfifo : (m.allocated l x).fifos.get l = _ := R.fifo
  unfold nlFifoPut
  rw [nlFifoAllocateNewElement_ok]
  rcases eq_nil_or_snoc ns with rfl | ⟨ms, k, rfl⟩
  · obtain ⟨m', hs, hf, hne, hel⟩ := setFifo_eq (g := ⟨some m.elems.cells.length, some m.elems.cells.length, 1⟩) hfifo
    have hnew : m'.elems.get m.elems.cells.length = some ⟨none, x, l⟩ := by
      rw [hel]
      exact get_allocated_self
    refine ⟨m', ?_, ⟨hf, chain_cons.mpr ⟨rfl, none, hnew, rfl⟩⟩, allocated_frame.trans (.of_setFifo hne hel)⟩
    simp [hfifo, hzero.mpr rfl, hs]
  · have hk := get_allocated (l := l) (x := x) R.chain.last
    obtain ⟨m₁, hs₁, hk₁, hne₁, hf₁, hlen₁⟩ := setElem_eq ⟨some m.elems.cells.length, k.2, l⟩ hk
    have hfifo₁ : m₁.fifos.get l = _ := hf₁ ▸ hfifo
    obtain ⟨m', hs, hf, hne, hel⟩ := setFifo_eq (g := ⟨firstOf (ms ++ [k]), some m.elems.cells.length,
      FifoSpec.count (ms ++ [k]) + 1⟩) hfifo₁
    have hnz : FifoSpec.count (ms ++ [k]) ≠ 0 := by simp [hzero]
    refine ⟨m', ?_, ⟨?_, ?_⟩, ?_⟩
    · simp [hfifo, hnz, hk, hs₁, hs]
    · rw [firstOf_append (by simp), lastOf_snoc, count_concat]
      exact hf
    · rw [firstOf_append (by simp)]
      have hnd := R.chain.nodup
      have hold : Chain m' l (firstOf (ms ++ [k])) (ms ++ [k]) (some m.elems.cells.length) := by
        refine R.chain.relink (hel ▸ hk₁) ?_
        intro j hj
        obtain ⟨nx, hg⟩ := R.chain.get (List.mem_append_left _ hj)
        rw [hel, hne₁ _ (ne_of_nodup_append hnd hj List.mem_cons_self), get_allocated hg, hg]
      have hnew : m'.elems.get m.elems.cells.length = some ⟨none, x, l⟩ := by
        rw [hel, hne₁ _ (Heap.ne_length_of_get R.chain.last).symm]
        exact get_allocated_self
      exact chain_append.mpr ⟨_, hold, chain_cons.mpr ⟨rfl, none, hnew, rfl⟩⟩
    · exact allocated_frame.trans ((Frame.of_setElem hk rfl hne₁ hf₁ hlen₁).trans (.of_setFifo hne hel))

/-- The only element cells that change are the fifo's own and the new one. -/
theorem put_outside {m' : FifoMem D} {r : Int} (R : Rep m l ns)
    (h : nlFifoPut true (some l) (some x) m = some (r, m')) :
    m'.elems.outside (m.elems.cells.length :: ns.map (·.1)) = m.elems.outside (ns.map (·.1)) := by
  have hnew : (m.allocated l x).elems.outside (m.elems.cells.length :: ns.map (·.1)) = m.elems.outside (ns.map (·.1)) :=
    Heap.outside_alloc
  have hfifo : (m.allocated l x).fifos.get l = _ := R.fifo
  unfold nlFifoPut at h
  rw [nlFifoAllocateNewElement_ok] at h
  simp only [hfifo, Option.bind_eq_bind, Option.bind_some] at h
  split at h
  · obtain ⟨m₁, hs, heq⟩ := Option.bind_eq_some_iff.mp h
    cases heq
    rw [setFifo_elems hs, hnew]
  · obtain ⟨a, ha, h⟩ := Option.bind_eq_some_iff.mp h
    obtain ⟨e, -, h⟩ := Option.bind_eq_some_iff.mp h
    obtain ⟨m₁, hs₁, h⟩ := Option.bind_eq_some_iff.mp h
    obtain ⟨m₂, hs₂, heq⟩ := Option.bind_eq_some_iff.mp h
    cases heq
    have hlast : a ∈ ns.map (·.1) := by
      obtain ⟨n, hn, rfl⟩ := Option.map_eq_some_iff.mp ha
      exact List.mem_map_of_mem (List.mem_of_getLast? hn)
    rw [setFifo_elems hs₂, Heap.outside_set (setElem_elems hs₁) (List.mem_cons_of_mem _ hlast), hnew]

theorem prepend_rep (R : Rep m l ns) (hlen : ns.length < 2 ^ 32) : ∃ m', nlFifoPrepend true (some l) (some x) m =
      some (FifoSpec.toInt (FifoSpec.count ns + 1), m') ∧
    Rep m' l ((m.elems.cells.length, x) :: ns) ∧ Frame [l] m m' := by
  have hzero := FifoSpec.count_eq_zero_iff hlen
  have hfifo : (m.allocated l x).fifos.get l = _ := R.fifo
  have hself : (m.allocated l x).elems.get m.elems.cells.length = _ := get_allocated_self
  unfold nlFifoPrepend
  rw [nlFifoAllocateNewElement_ok]
  rcases eq_nil_or_snoc ns with rfl | ⟨ms, k, rfl⟩
  · obtain ⟨m', hs, hf, hne, hel⟩ := setFifo_eq (g := ⟨some m.elems.cells.length, some m.elems.cells.length, 1⟩) hfifo
    refine ⟨m', ?_, ⟨hf, chain_cons.mpr ⟨rfl, none, by rw [hel, hself], rfl⟩⟩,
      allocated_frame.trans (.of_setFifo hne hel)⟩
    simp [hfifo, hzero.mpr rfl, hs]
  · obtain ⟨m₁, hs₁, hk₁, hne₁, hf₁, hlen₁⟩ := setElem_eq ⟨firstOf (ms ++ [k]), x, l⟩ hself
    have hfifo₁ : m₁.fifos.get l = _ := hf₁ ▸ hfifo
    obtain ⟨m', hs, hf, hne, hel⟩ := setFifo_eq (g := ⟨some m.elems.cells.length, some k.1,
      FifoSpec.count (ms ++ [k]) + 1⟩) hfifo₁
    have hnz : FifoSpec.count (ms ++ [k]) ≠ 0 := by simp [hzero]
    refine ⟨m', ?_, ⟨?_, ?_⟩, ?_⟩
    · simp [hfifo, hnz, hself, hs₁, hs]
    · rw [count_cons, ← List.cons_append, lastOf_snoc]
      exact hf
    · refine chain_cons.mpr ⟨rfl, _, by rw [hel, hk₁], R.chain.congr ?_⟩
      intro j hj
      obtain ⟨nx, hg⟩ := R.chain.get hj
      rw [hel, hne₁ _ (Heap.ne_length_of_get hg), get_allocated hg, hg]
    · exact allocated_frame.trans ((Frame.of_setElem hself rfl hne₁ hf₁ hlen₁).trans (.of_setFifo hne hel))

/-! ### `nl_fifo_get` and the peeks -/

theorem get_nil (R : Rep m l []) : nlFifoGet (some l) m = some (none, m) := by
  simp [nlFifoGet, R.fifo, FifoSpec.count]

theorem get_cons {n : Addr × D} (R : Rep m l (n :: ns)) (hlen : (n :: ns).length < 2 ^ 32) :
    ∃ m', nlFifoGet (some l) m = some (some n.2, m') ∧ Rep m' l ns ∧ Frame [l] m m' := by
  obtain ⟨-, nx, hg, hns⟩ := chain_cons.mp R.chain
  obtain rfl := hns.first
  obtain ⟨m₁, hs₁, -, hne₁, hf₁, hlen₁⟩ := freeElem_eq hg
  have hfifo₁ : m₁.fifos.get l = _ := hf₁ ▸ R.fifo
  obtain ⟨m', hs, hf, hne, hel⟩ := setFifo_eq (g := ⟨firstOf ns, lastOf ns, FifoSpec.count ns⟩) hfifo₁
  have hlast : (if firstOf ns = none then none else lastOf (n :: ns)) = lastOf ns := by
    split
    · next h => rw [firstOf_eq_none.mp h, lastOf_nil]
    · next h =>
      have hne : ns ≠ [] := fun h' => h (h' ▸ rfl)
      rw [← List.singleton_append, lastOf_append hne]
  have hcount : FifoSpec.count (n :: ns) - 1 = FifoSpec.count ns := by rw [count_cons, UInt32.add_sub_cancel]
  have hnz : FifoSpec.count (n :: ns) ≠ 0 := by simp [FifoSpec.count_eq_zero_iff hlen]
  refine ⟨m', ?_, ⟨hf, hns.congr ?_⟩, (Frame.of_setElem hg rfl hne₁ hf₁ hlen₁).trans (.of_setFifo hne hel)⟩
  · simp [nlFifoGet, R.fifo, hnz, hg, hs₁, hlast, hcount, hs]
  · intro j hj
    have hnd := R.chain.nodup
    rw [hel, hne₁ _ (ne_of_nodup_cons hnd hj)]

theorem get_outside {m' : FifoMem D} {n : Addr × D} {x : Option D} (R : Rep m l (n :: ns))
    (hlen : (n :: ns).length < 2 ^ 32) (h : nlFifoGet (some l) m = some (x, m')) :
    m'.elems.outside (ns.map (·.1)) = m.elems.outside ((n :: ns).map (·.1)) := by
  have hnz : FifoSpec.count (n :: ns) ≠ 0 := by simp [FifoSpec.count_eq_zero_iff hlen]
  obtain ⟨-, nx, hg, -⟩ := chain_cons.mp R.chain
  simp only [nlFifoGet, R.fifo, hnz, if_false, firstOf_cons, hg, Option.bind_eq_bind, Option.bind_some] at h
  obtain ⟨m₁, hs₁, h⟩ := Option.bind_eq_some_iff.mp h
  obtain ⟨m₂, hs₂, heq⟩ := Option.bind_eq_some_iff.mp h
  cases heq
  rw [setFifo_elems hs₂, Heap.outside_free (freeElem_elems hs₁)]
  rfl

theorem peek_rep (R : Rep m l ns) (hlen : ns.length < 2 ^ 32) :
    nlFifoPeek (some l) m = some (FifoSpec.peek (ns.map (·.2))) := by
  have hzero := FifoSpec.count_eq_zero_iff hlen
  cases ns with
  | nil => simp [nlFifoPeek, R.fifo, hzero, FifoSpec.peek]
  | cons n ns =>
    obtain ⟨-, nx, hg, -⟩ := chain_cons.mp R.chain
    have hnz : FifoSpec.count (n :: ns) ≠ 0 := by simp [hzero]
    simp [nlFifoPeek, R.fifo, hnz, hg, FifoSpec.peek]

theorem peekLast_rep (R : Rep m l ns) (hlen : ns.length < 2 ^ 32) :
    nlFifoPeekLast (some l) m = some (FifoSpec.peekLast (ns.map (·.2))) := by
  have hzero := FifoSpec.count_eq_zero_iff hlen
  rcases eq_nil_or_snoc ns with rfl | ⟨ms, k, rfl⟩
  · simp [nlFifoPeekLast, R.fifo, hzero, FifoSpec.peekLast]
  · have hnz : FifoSpec.count (ms ++ [k]) ≠ 0 := by simp [hzero]
    simp [nlFifoPeekLast, R.fifo, hnz, R.chain.last, FifoSpec.peekLast]

/-! ### `nl_fifo_next` and `nl_fifo_peek_index` -/

/-- The iterator before the next element. -/
theorem next_start (R : Rep m l ns) (hlen : ns.length < 2 ^ 32) :
    nlFifoNext (some l) .null m = some (ns.head?.map (·.2), .ofPtr (firstOf ns)) := by
  have hzero := FifoSpec.count_eq_zero_iff hlen
  cases ns with
  | nil => simp [nlFifoNext, R.fifo, hzero, FifoIter.ofPtr]
  | cons n ns =>
    obtain ⟨-, nx, hg, -⟩ := chain_cons.mp R.chain
    have hnz : FifoSpec.count (n :: ns) ≠ 0 := by simp [hzero]
    simp [nlFifoNext, R.fifo, hnz, hg, FifoIter.ofPtr]

theorem next_node {n : Addr × D} {ms : List (Addr × D)} (R : Rep m l (ns ++ n :: ms))
    (hlen : (ns ++ n :: ms).length < 2 ^ 32) :
    nlFifoNext (some l) (.node n.1) m = some (ms.head?.map (·.2), .ofPtr (firstOf ms)) := by
  have hnz : FifoSpec.count (ns ++ n :: ms) ≠ 0 := by simp [FifoSpec.count_eq_zero_iff hlen]
  obtain ⟨r, -, hr⟩ := chain_append.mp R.chain
  obtain ⟨-, nx, hg, hms⟩ := chain_cons.mp hr
  obtain rfl := hms.first
  cases ms with
  | nil => simp [nlFifoNext, R.fifo, hnz, hg, FifoIter.ofPtr]
  | cons k ms =>
    obtain ⟨-, nx, hg', -⟩ := chain_cons.mp hms
    simp [nlFifoNext, R.fifo, hnz, hg, hg', FifoIter.ofPtr]

theorem next_at {as bs : List (Addr × D)} (R : Rep m l (as ++ bs)) (hlen : (as ++ bs).length < 2 ^ 32) :
    nlFifoNext (some l) (.ofPtr (lastOf as)) m = some (bs.head?.map (·.2), .ofPtr (firstOf bs)) := by
  rcases eq_nil_or_snoc as with rfl | ⟨ms, k, rfl⟩
  · exact next_start R hlen
  · rw [List.append_assoc] at R hlen
    rw [lastOf_snoc]
    exact next_node R hlen

theorem skipElems_rep {as bs cs : List (Addr × D)} (R : Rep m l (as ++ (cs ++ bs)))
    (hlen : (as ++ (cs ++ bs)).length < 2 ^ 32) :
    skipElems l m cs.length (.ofPtr (lastOf as)) = some (.ofPtr (lastOf (as ++ cs))) := by
  induction cs generalizing as with
  | nil => rw [List.append_nil]; rfl
  | cons c cs ih =>
    have hnext := next_at R hlen
    have hassoc : as ++ (c :: cs ++ bs) = (as ++ [c]) ++ (cs ++ bs) := by simp
    rw [hassoc] at R hlen
    have hskip := ih R hlen
    rw [lastOf_snoc, List.append_assoc, List.singleton_append] at hskip
    simpa [skipElems, hnext] using hskip

theorem peekIndex_rep (R : Rep m l ns) (hlen : ns.length < 2 ^ 32) (i : Int) :
    nlFifoPeekIndex (some l) i m = some (FifoSpec.peekIndex (ns.map (·.2)) i) := by
  have hcount := FifoSpec.toNat_count hlen
  have hzero := FifoSpec.count_eq_zero_iff hlen
  unfold nlFifoPeekIndex FifoSpec.peekIndex
  simp only [R.fifo, Option.bind_eq_bind, Option.bind_some, hcount, List.length_map]
  generalize hj : (if i < 0 then i + (ns.length : Int) else i) = j
  split
  · next h0 =>
    have hnil := hzero.mp h0
    simp [hnil]
  · split
    · next h0 hr =>
      rcases hr with hr | hr
      · simp [hr]
      · have : ns.length ≤ j.toNat := by omega
        simp [this]
    · next h0 hr =>
      have hneg : ¬j < 0 := fun h => hr (Or.inl h)
      have hlt : j.toNat < ns.length := by omega
      have hsplit : ns.take j.toNat ++ ns.drop j.toNat = ns := List.take_append_drop _ _
      have hlen' : (ns.take j.toNat).length = j.toNat := by
        rw [List.length_take]
        omega
      have R' : Rep m l (ns.take j.toNat ++ ns.drop j.toNat) := hsplit.symm ▸ R
      have hskip : skipElems l m j.toNat .null = some (.ofPtr (lastOf (ns.take j.toNat))) := by
        have R₀ : Rep m l ([] ++ (ns.take j.toNat ++ ns.drop j.toNat)) := R'
        have h := skipElems_rep R₀ (hsplit.symm ▸ hlen)
        rw [hlen'] at h
        exact h
      have hnext := next_at R' (hsplit.symm ▸ hlen)
      simp [hneg, hskip, hnext, List.head?_drop]

end
end Nlutils
