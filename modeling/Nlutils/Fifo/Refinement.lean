import Nlutils.Fifo.Concat

/-! # Any number of fifos behave as sequences

A sequence of calls on some fifos gives the results that the same operations give on lists, as long as the
number of elements fits an `int`. -/

namespace Nlutils
open Lib

/-- The calls, each with the fifos it is made on. -/
inductive FifoOp (D : Type)
  | put (l : Addr) (x : D) (mallocOk : Bool)
  | prepend (l : Addr) (x : D) (mallocOk : Bool)
  | get (l : Addr)
  | peek (l : Addr)
  | peekLast (l : Addr)
  | peekIndex (l : Addr) (i : Int)
  | remove (l : Addr) (x : D)
  | removeStart (l : Addr) (n : UInt32)
  | removeEnd (l : Addr) (n : UInt32)
  | clear (l : Addr)
  | concatStart (src dest : Addr)
  | concatEnd (src dest : Addr)

/-- What a call returns; where it takes a callback, also the data that the callback is called with. -/
inductive FifoResult (D : Type)
  | int (n : Int)
  | data (x : Option D)
  | unsigned (n : UInt32)
  | removed (n : UInt32) (calls : List D)
  | void
  deriving DecidableEq, Repr

variable {D : Type} [DecidableEq D]

/-- The call of the C function. -/
def FifoOp.run (m : FifoMem D) : FifoOp D → Option (FifoResult D × FifoMem D)
  | put l x ok => (nlFifoPut ok (some l) (some x) m).map fun r => (.int r.1, r.2)
  | prepend l x ok => (nlFifoPrepend ok (some l) (some x) m).map fun r => (.int r.1, r.2)
  | get l => (nlFifoGet (some l) m).map fun r => (.data r.1, r.2)
  | peek l => (nlFifoPeek (some l) m).map fun r => (.data r, m)
  | peekLast l => (nlFifoPeekLast (some l) m).map fun r => (.data r, m)
  | peekIndex l i => (nlFifoPeekIndex (some l) i m).map fun r => (.data r, m)
  | remove l x => (nlFifoRemove (some l) (some x) m).map fun r => (.int r.1, r.2)
  | removeStart l n => (nlFifoRemoveStart (some l) n m).map fun r => (.removed r.1 r.2.1, r.2.2)
  | removeEnd l n => (nlFifoRemoveEnd (some l) n m).map fun r => (.removed r.1 r.2.1, r.2.2)
  | clear l => (nlFifoClear (some l) m).map fun r => (.void, r)
  | concatStart src dest => (nlFifoConcatStart (some src) (some dest) m).map fun r => (.unsigned r.1, r.2)
  | concatEnd src dest => (nlFifoConcatEnd (some src) (some dest) m).map fun r => (.unsigned r.1, r.2)

def seqAt (σ : List (List D)) (l : Addr) : List D := σ.getD l []

/-- The operation on the lists. -/
def FifoOp.spec (σ : List (List D)) : FifoOp D → FifoResult D × List (List D)
  | put l x ok => let r := FifoSpec.put ok (seqAt σ l) x; (.int r.1, σ.set l r.2)
  | prepend l x ok => let r := FifoSpec.prepend ok (seqAt σ l) x; (.int r.1, σ.set l r.2)
  | get l => let r := FifoSpec.get (seqAt σ l); (.data r.1, σ.set l r.2)
  | peek l => (.data (FifoSpec.peek (seqAt σ l)), σ)
  | peekLast l => (.data (FifoSpec.peekLast (seqAt σ l)), σ)
  | peekIndex l i => (.data (FifoSpec.peekIndex (seqAt σ l) i), σ)
  | remove l x => let r := FifoSpec.remove (seqAt σ l) x; (.int r.1, σ.set l r.2)
  | removeStart l n => let r := FifoSpec.removeStart (seqAt σ l) n; (.removed r.1 r.2.1, σ.set l r.2.2)
  | removeEnd l n => let r := FifoSpec.removeEnd (seqAt σ l) n; (.removed r.1 r.2.1, σ.set l r.2.2)
  | clear l => (.void, σ.set l [])
  | concatStart src dest =>
    let xs := seqAt σ src ++ seqAt σ dest
    (.unsigned (FifoSpec.count xs), (σ.set src []).set dest xs)
  | concatEnd src dest =>
    let xs := seqAt σ dest ++ seqAt σ src
    (.unsigned (FifoSpec.count xs), (σ.set src []).set dest xs)

/-- The call is made on some of the first `k` fifos, a concatenation on two different ones. -/
def FifoOp.valid (k : Nat) : FifoOp D → Prop
  | put l _ _ | prepend l _ _ | get l | peek l | peekLast l | peekIndex l _ | remove l _ | removeStart l _
  | removeEnd l _ | clear l => l < k
  | concatStart src dest | concatEnd src dest => src < k ∧ dest < k ∧ src ≠ dest

/-- A sequence of calls. -/
def runFifos : List (FifoOp D) → FifoMem D → Option (List (FifoResult D) × FifoMem D)
  | [], m => some ([], m)
  | op :: ops, m => do
    let (r, m) ← op.run m
    let (rs, m) ← runFifos ops m
    return (r :: rs, m)

def runLists : List (FifoOp D) → List (List D) → List (FifoResult D) × List (List D)
  | [], σ => ([], σ)
  | op :: ops, σ => ((op.spec σ).1 :: (runLists ops (op.spec σ).2).1, (runLists ops (op.spec σ).2).2)

/-- There are fewer than 2^31 elements in all before each of the calls, and after the last one. -/
def Fits : List (FifoOp D) → List (List D) → Prop
  | [], σ => (σ.map List.length).sum < 2 ^ 31
  | op :: ops, σ => (σ.map List.length).sum < 2 ^ 31 ∧ Fits ops (op.spec σ).2

instance Fits.decidable : ∀ (ops : List (FifoOp D)) (σ : List (List D)), Decidable (Fits ops σ)
  | [], σ => inferInstanceAs (Decidable ((σ.map List.length).sum < 2 ^ 31))
  | op :: ops, σ =>
    have := Fits.decidable ops (op.spec σ).2
    inferInstanceAs (Decidable ((σ.map List.length).sum < 2 ^ 31 ∧ Fits ops (op.spec σ).2))

/-- The memory in which `nl_fifo_create` has been called `k` times. -/
def createFifos : Nat → FifoMem D
  | 0 => {}
  | k + 1 => (nlFifoCreate true (createFifos k)).2

/-- Fifo `f` at `l` has exactly these elements. -/
structure WellFormed (m : FifoMem D) (l : Addr) (f : Fifo) (ns : List (Addr × D)) : Prop where
  visits : Chain m l f.first ns none
  distinct : (ns.map (·.1)).Nodup
  count : f.count.toNat = ns.length
  last : f.last = lastOf ns
  last_next : ∀ a, f.last = some a → ∃ e, m.elems.get a = some e ∧ e.next = none
  first_null : f.first = none ↔ f.last = none
  last_null : f.last = none ↔ f.count = 0
  owner : ∀ n ∈ ns, ∃ e, m.elems.get n.1 = some e ∧ e.l = l

/-- The fifos hold these lists, in elements of their own. -/
structure Holds (m : FifoMem D) (σ : List (List D)) : Prop where
  fifo : ∀ l xs, σ[l]? = some xs → ∃ f ns, m.fifos.get l = some f ∧ WellFormed m l f ns ∧ ns.map (·.2) = xs
  disjoint : ∀ l l' f f' ns ns', l ≠ l' → WellFormed m l f ns → WellFormed m l' f' ns' →
    ∀ n ∈ ns, ∀ n' ∈ ns', n.1 ≠ n'.1

/-- Each list is that of a represented fifo. -/
def Reps (m : FifoMem D) (σ : List (List D)) : Prop :=
  ∀ l xs, σ[l]? = some xs → ∃ ns, Rep m l ns ∧ ns.map (·.2) = xs

section
variable {m m' : FifoMem D} {σ : List (List D)} {l : Addr} {xs : List D} {ns : List (Addr × D)} {op : FifoOp D}

omit [DecidableEq D] in
theorem Rep.wellFormed (R : Rep m l ns) (hlen : ns.length < 2 ^ 32) :
    WellFormed m l ⟨firstOf ns, lastOf ns, FifoSpec.count ns⟩ ns where
  visits := R.chain
  distinct := R.chain.nodup
  count := FifoSpec.toNat_count hlen
  last := rfl
  last_next a ha := by
    rcases eq_nil_or_snoc ns with rfl | ⟨ms, k, rfl⟩
    · cases ha
    · have hlast : lastOf (ms ++ [k]) = some k.1 := lastOf_snoc
      obtain rfl := Option.some.inj (hlast.symm.trans ha)
      exact ⟨_, R.chain.last, rfl⟩
  first_null := firstOf_eq_none.trans lastOf_eq_none.symm
  last_null := lastOf_eq_none.trans (FifoSpec.count_eq_zero_iff hlen).symm
  owner n hn := by
    obtain ⟨nx, hg⟩ := R.chain.get hn
    exact ⟨_, hg, rfl⟩

omit [DecidableEq D] in
theorem length_lt_of_sum (hsum : (σ.map List.length).sum < 2 ^ 31) (h : σ[l]? = some xs) : xs.length < 2 ^ 32 := by
  obtain ⟨as, bs, rfl⟩ := List.append_of_mem (List.mem_of_getElem? h)
  simp only [List.map_append, List.map_cons, List.sum_append, List.sum_cons] at hsum
  omega

omit [DecidableEq D] in
/-- An operation leaves the fifos that it is not about. -/
theorem Reps.frame {ls : List Addr} (S : Reps m σ) (hF : Frame ls m m') {σ' : List (List D)}
    (hother : ∀ l, l ∉ ls → σ'[l]? = σ[l]?)
    (hls : ∀ l ∈ ls, ∀ xs, σ'[l]? = some xs → ∃ ns, Rep m' l ns ∧ ns.map (·.2) = xs) : Reps m' σ' := by
  intro l xs h
  by_cases hl : l ∈ ls
  · exact hls l hl xs h
  · rw [hother l hl] at h
    obtain ⟨ns, R, hns⟩ := S l xs h
    exact ⟨ns, R.frame hF hl, hns⟩

omit [DecidableEq D] in
theorem getElem?_set_inj {ys : List D} (h : (σ.set l xs)[l]? = some ys) : xs = ys := by
  have hlt : l < σ.length := by
    obtain ⟨h', -⟩ := List.getElem?_eq_some_iff.mp h
    simpa using h'
  rw [List.getElem?_set_self hlt] at h
  exact Option.some.inj h

omit [DecidableEq D] in
/-- An operation on one fifo. -/
theorem Reps.set (S : Reps m σ) (R : Rep m' l ns) (hF : Frame [l] m m') (hxs : ns.map (·.2) = xs) :
    Reps m' (σ.set l xs) := by
  refine S.frame hF ?_ ?_
  · intro l' hl
    exact List.getElem?_set_ne fun h => hl (List.mem_singleton.mpr h.symm)
  · intro l' hl xs' h
    obtain rfl := List.mem_singleton.mp hl
    exact ⟨ns, R, hxs.trans (getElem?_set_inj h)⟩

omit [DecidableEq D] in
/-- An operation that moves all elements of one fifo to another one. -/
theorem Reps.set_two {src dest : Addr} (S : Reps m σ) (R : Rep m' src []) (R' : Rep m' dest ns)
    (hF : Frame [src, dest] m m') (hxs : ns.map (·.2) = xs) : Reps m' ((σ.set src []).set dest xs) := by
  refine S.frame hF ?_ ?_
  · intro l hl
    have hsrc : src ≠ l := fun h => hl (h ▸ List.mem_cons_self)
    have hdest : dest ≠ l := fun h => hl (h ▸ List.mem_cons_of_mem _ List.mem_cons_self)
    rw [List.getElem?_set_ne hdest, List.getElem?_set_ne hsrc]
  · intro l hl xs' h
    by_cases hdest : dest = l
    · subst hdest
      exact ⟨ns, R', hxs.trans (getElem?_set_inj h)⟩
    · obtain rfl : l = src := (List.mem_cons.mp hl).resolve_right fun h => hdest (List.mem_singleton.mp h).symm
      rw [List.getElem?_set_ne hdest] at h
      exact ⟨[], R, getElem?_set_inj h⟩

omit [DecidableEq D] in
theorem getElem?_seqAt (hl : l < σ.length) : σ[l]? = some (seqAt σ l) := by
  rw [seqAt, List.getD_eq_getElem?_getD, List.getElem?_eq_getElem hl, Option.getD_some]

omit [DecidableEq D] in
theorem set_seqAt (hl : l < σ.length) : σ.set l (seqAt σ l) = σ := by
  rw [seqAt, List.getD_eq_getElem?_getD, List.getElem?_eq_getElem hl, Option.getD_some, List.set_getElem_self]

omit [DecidableEq D] in
theorem Reps.get (S : Reps m σ) (hsum : (σ.map List.length).sum < 2 ^ 31) (hl : l < σ.length) :
    ∃ ns, Rep m l ns ∧ ns.map (·.2) = seqAt σ l ∧ ns.length < 2 ^ 32 := by
  obtain ⟨ns, R, hns⟩ := S l _ (getElem?_seqAt hl)
  have hlen := length_lt_of_sum hsum (getElem?_seqAt hl)
  rw [← hns, List.length_map] at hlen
  exact ⟨ns, R, hns, hlen⟩

omit [DecidableEq D] in
@[simp] theorem count_map : FifoSpec.count (ns.map (·.2)) = FifoSpec.count ns := by simp [FifoSpec.count]

theorem map_eraseP {x : D} : (ns.eraseP (·.2 == x)).map (·.2) = (ns.map (·.2)).erase x := by
  rw [List.erase_eq_eraseP, List.eraseP_map]
  congr 2
  funext n
  exact Bool.eq_iff_iff.mpr ⟨fun h => beq_iff_eq.mpr (beq_iff_eq.mp h).symm,
    fun h => beq_iff_eq.mpr (beq_iff_eq.mp h).symm⟩

/-- Each call gives the result of the list operation, and the fifos go on to hold the lists. -/
theorem run_spec (S : Reps m σ) (hv : op.valid σ.length) (hsum : (σ.map List.length).sum < 2 ^ 31) :
    ∃ m', op.run m = some ((op.spec σ).1, m') ∧ Reps m' (op.spec σ).2 := by
  cases op with
  | put l x ok =>
    obtain ⟨ns, R, hns, hlen⟩ := S.get hsum hv
    cases ok with
    | false => exact ⟨m, rfl, by simpa [FifoOp.spec, FifoSpec.put, set_seqAt hv] using S⟩
    | true =>
      obtain ⟨m', hm, R', hF⟩ := put_rep (x := x) R hlen
      refine ⟨m', ?_, S.set R' hF ?_⟩
      · simp [FifoOp.run, hm, FifoOp.spec, FifoSpec.put, ← hns, count_concat]
      · simp [FifoSpec.put, ← hns]
  | prepend l x ok =>
    obtain ⟨ns, R, hns, hlen⟩ := S.get hsum hv
    cases ok with
    | false => exact ⟨m, rfl, by simpa [FifoOp.spec, FifoSpec.prepend, set_seqAt hv] using S⟩
    | true =>
      obtain ⟨m', hm, R', hF⟩ := prepend_rep (x := x) R hlen
      refine ⟨m', ?_, S.set R' hF ?_⟩
      · simp [FifoOp.run, hm, FifoOp.spec, FifoSpec.prepend, ← hns, count_cons]
      · simp [FifoSpec.prepend, ← hns]
  | get l =>
    obtain ⟨ns, R, hns, hlen⟩ := S.get hsum hv
    cases ns with
    | nil =>
      refine ⟨m, ?_, S.set R .refl ?_⟩
      · simp [FifoOp.run, get_nil R, FifoOp.spec, ← hns, FifoSpec.get]
      · simp [← hns, FifoSpec.get]
    | cons n ns =>
      obtain ⟨m', hm, R', hF⟩ := get_cons R hlen
      refine ⟨m', ?_, S.set R' hF ?_⟩
      · simp [FifoOp.run, hm, FifoOp.spec, ← hns, FifoSpec.get]
      · simp [← hns, FifoSpec.get]
  | peek l =>
    obtain ⟨ns, R, hns, hlen⟩ := S.get hsum hv
    exact ⟨m, by simp only [FifoOp.run, peek_rep R hlen, Option.map_some, FifoOp.spec, hns], S⟩
  | peekLast l =>
    obtain ⟨ns, R, hns, hlen⟩ := S.get hsum hv
    exact ⟨m, by simp only [FifoOp.run, peekLast_rep R hlen, Option.map_some, FifoOp.spec, hns], S⟩
  | peekIndex l i =>
    obtain ⟨ns, R, hns, hlen⟩ := S.get hsum hv
    exact ⟨m, by simp only [FifoOp.run, peekIndex_rep R hlen, Option.map_some, FifoOp.spec, hns], S⟩
  | remove l x =>
    obtain ⟨ns, R, hns, hlen⟩ := S.get hsum hv
    obtain ⟨m', hm, R', hF⟩ := remove_rep (x := x) R hlen
    refine ⟨m', ?_, S.set R' hF ?_⟩
    · rw [FifoOp.run, hm, hns]
      simp only [Option.map_some, FifoOp.spec, FifoSpec.remove]
      split <;> rfl
    · rw [map_eraseP, hns, FifoSpec.remove]
      split
      · rfl
      · next h => exact List.erase_of_not_mem h
  | removeStart l n =>
    obtain ⟨ns, R, hns, -⟩ := S.get hsum hv
    obtain ⟨m', hm, R', hF⟩ := removeStart_rep (n := n) R
    refine ⟨m', ?_, S.set R' hF ?_⟩
    · simp [FifoOp.run, hm, FifoOp.spec, FifoSpec.removeStart, ← hns, ← List.map_drop, ← List.map_take]
    · simp [FifoSpec.removeStart, ← hns, ← List.map_drop]
  | removeEnd l n =>
    obtain ⟨ns, R, hns, hlen⟩ := S.get hsum hv
    obtain ⟨m', hm, R', hF⟩ := removeEnd_rep (n := n) R hlen
    refine ⟨m', ?_, S.set R' hF ?_⟩
    · simp [FifoOp.run, hm, FifoOp.spec, FifoSpec.removeEnd, ← hns, ← List.map_drop, ← List.map_take]
    · simp [FifoSpec.removeEnd, ← hns, ← List.map_take]
  | clear l =>
    obtain ⟨ns, R, -, hlen⟩ := S.get hsum hv
    obtain ⟨m', hm, R', hF⟩ := clear_rep R hlen
    exact ⟨m', by simp [FifoOp.run, nlFifoClear, hm, FifoOp.spec], S.set R' hF rfl⟩
  | concatStart src dest =>
    obtain ⟨hs, hd, hne⟩ := hv
    obtain ⟨ss, R, hss, hlen⟩ := S.get hsum hs
    obtain ⟨ds, R', hds, hlen'⟩ := S.get hsum hd
    obtain ⟨m', hm, R₁, R₂, hF⟩ := concatStart_rep hne R R' hlen hlen'
    refine ⟨m', ?_, S.set_two R₁ R₂ hF ?_⟩
    · simp only [FifoOp.run, hm, Option.map_some, FifoOp.spec, ← hss, ← hds, ← List.map_append, count_map]
    · rw [List.map_append, hss, hds]
  | concatEnd src dest =>
    obtain ⟨hs, hd, hne⟩ := hv
    obtain ⟨ss, R, hss, hlen⟩ := S.get hsum hs
    obtain ⟨ds, R', hds, -⟩ := S.get hsum hd
    obtain ⟨m', hm, R₁, R₂, hF⟩ := concatEnd_rep hne R R' hlen
    refine ⟨m', ?_, S.set_two R₁ R₂ hF ?_⟩
    · simp only [FifoOp.run, hm, Option.map_some, FifoOp.spec, ← hss, ← hds, ← List.map_append, count_map]
    · rw [List.map_append, hss, hds]

theorem length_spec : (op.spec σ).2.length = σ.length := by
  cases op <;> simp only [FifoOp.spec, List.length_set]

theorem runFifos_spec {ops : List (FifoOp D)} (S : Reps m σ) (hv : ∀ op ∈ ops, op.valid σ.length) (hf : Fits ops σ) :
    ∃ m', runFifos ops m = some ((runLists ops σ).1, m') ∧ Reps m' (runLists ops σ).2 := by
  induction ops generalizing m σ with
  | nil => exact ⟨m, rfl, S⟩
  | cons op ops ih =>
    obtain ⟨hsum, hf⟩ := hf
    obtain ⟨m₁, hm₁, S₁⟩ := run_spec S (hv op List.mem_cons_self) hsum
    have hv' : ∀ op' ∈ ops, op'.valid (op.spec σ).2.length := by
      intro op' h
      rw [length_spec]
      exact hv op' (List.mem_cons_of_mem _ h)
    obtain ⟨m', hm', S'⟩ := ih S₁ hv' hf
    refine ⟨m', ?_, S'⟩
    simp only [runFifos, hm₁, hm', Option.bind_eq_bind, Option.bind_some, runLists]
    rfl

omit [DecidableEq D] in
theorem createFifos_reps : ∀ {k : Nat}, (createFifos k : FifoMem D).fifos.cells.length = k ∧
    Reps (createFifos k : FifoMem D) (List.replicate k [])
  | 0 => ⟨rfl, fun l xs h => by simp at h⟩
  | k + 1 => by
    obtain ⟨hlen, S⟩ := createFifos_reps (k := k)
    have hfifos : (createFifos (k + 1) : FifoMem D).fifos = ((createFifos k : FifoMem D).fifos.alloc {}).2 := rfl
    have hnew := Heap.get_alloc_self (h := (createFifos k : FifoMem D).fifos) (v := {})
    refine ⟨by rw [hfifos]; simp [Heap.alloc, hlen], ?_⟩
    intro l xs h
    obtain ⟨hl, rfl⟩ : l < k + 1 ∧ [] = xs := by
      rw [List.getElem?_replicate] at h
      split at h
      · next hl => exact ⟨hl, Option.some.inj h⟩
      · cases h
    refine ⟨[], ⟨?_, rfl⟩, rfl⟩
    rw [hfifos]
    rcases Nat.lt_or_ge l k with hlt | hge
    · obtain ⟨ns, R, hns⟩ := S l [] (by simp [hlt])
      obtain rfl := List.map_eq_nil_iff.mp hns
      exact Heap.get_alloc R.fifo
    · have hk : l = (createFifos k : FifoMem D).fifos.cells.length :=
        (Nat.le_antisymm (Nat.le_of_lt_succ hl) hge).trans hlen.symm
      rw [hk]
      exact hnew

omit [DecidableEq D] in
theorem Reps.holds (S : Reps m σ) (hsum : (σ.map List.length).sum < 2 ^ 31) : Holds m σ where
  fifo l xs h := by
    obtain ⟨ns, R, hns⟩ := S l xs h
    have hlen := length_lt_of_sum hsum h
    rw [← hns, List.length_map] at hlen
    exact ⟨_, ns, R.fifo, R.wellFormed hlen, hns⟩
  disjoint l l' f f' ns ns' hne W W' n hn n' hn' he := by
    obtain ⟨e, hg, hl⟩ := W.owner n hn
    obtain ⟨e', hg', hl'⟩ := W'.owner n' hn'
    rw [he, hg'] at hg
    obtain rfl := Option.some.inj hg
    exact hne (hl.symm.trans hl')

theorem fits_last {ops : List (FifoOp D)} (hf : Fits ops σ) : ((runLists ops σ).2.map List.length).sum < 2 ^ 31 := by
  induction ops generalizing σ with
  | nil => exact hf
  | cons op ops ih => exact ih hf.2

end

/-- Every sequence of calls on `k` new fifos gives the results of the list operations, no call uses memory that
    is not there, and afterwards every fifo is well formed and holds its list. -/
theorem fifos_refine_lists (k : Nat) (ops : List (FifoOp D)) (hv : ∀ op ∈ ops, op.valid k)
    (hf : Fits ops (List.replicate k [])) :
    ∃ m, runFifos ops (createFifos k) = some ((runLists ops (List.replicate k [])).1, m) ∧
      Holds m (runLists ops (List.replicate k [])).2 := by
  obtain ⟨-, S⟩ := createFifos_reps (k := k) (D := D)
  have hv' : ∀ op ∈ ops, op.valid (List.replicate k ([] : List D)).length := by
    rw [List.length_replicate]
    exact hv
  obtain ⟨m, hm, S'⟩ := runFifos_spec S hv' hf
  exact ⟨m, hm, S'.holds (fits_last hf)⟩

theorem fifos_refine_lists_two : ∃ m : FifoMem Nat, runFifos [.put 0 5 true, .put 0 6 true, .prepend 1 7 true,
    .concatEnd 0 1, .remove 1 5, .peekIndex 1 (-1)] (createFifos 2) =
      some ([.int 1, .int 2, .int 1, .unsigned 3, .int 0, .data (some 6)], m) ∧ Holds m [[], [7, 6]] :=
  fifos_refine_lists 2 _ (by simp [FifoOp.valid]) (by decide)

end Nlutils
