import Nlutils.Fifo.Concat
import Nlutils.Fifo.Iteration

/-! # What single calls promise

Each theorem is about one call on a well-formed fifo. -/

namespace Nlutils
open Lib

variable {D : Type}

/-- The fifo is well formed, and has all of these elements. -/
def KeepsElements (m : FifoMem D) (l : Addr) (ns : List (Addr × D)) : Prop :=
  ∃ f ns', m.fifos.get l = some f ∧ WellFormed m l f ns' ∧ ∀ n ∈ ns, n ∈ ns'

/-- What the status `r` of an insertion is to say: whether the fifo is as it was, or has one more element. -/
structure TellsInsertion (m : FifoMem D) (l : Addr) (ns : List (Addr × D)) (x : D) (r : Int) (m' : FifoMem D) :
    Prop where
  failed : r < 0 ↔ m'.fifos.get l = m.fifos.get l ∧ ∀ n ∈ ns, m'.elems.get n.1 = m.elems.get n.1
  inserted : ¬r < 0 → ∃ f as bs a, m'.fifos.get l = some f ∧ ns = as ++ bs ∧ WellFormed m' l f (as ++ (a, x) :: bs)

section
variable {m m' : FifoMem D} {l a : Addr} {f : Fifo} {ns as bs : List (Addr × D)} {x : D}
  {p q : Option Addr}

theorem exists_call {α β : Type} {o : Option (α × β)} {r : α} {t : β} {P : α → β → Prop} (ho : o = some (r, t)) :
    (∃ r t, o = some (r, t) ∧ P r t) ↔ P r t := by
  constructor
  · rintro ⟨r', t', ho', h⟩
    obtain ⟨rfl, rfl⟩ := Prod.mk.inj (Option.some.inj (ho.symm.trans ho'))
    exact h
  · exact fun h => ⟨r, t, ho, h⟩

/-! ### Concatenation with itself -/

theorem moveCount_self (hf : m.fifos.get l = some f) :
    ∃ m', moveCount l l m = some (0, m') ∧ m'.fifos.get l = some { f with count := 0 } ∧ m'.elems = m.elems := by
  obtain ⟨m₁, hs₁, hf₁, -, hel₁⟩ := setFifo_eq (g := { f with count := f.count + f.count }) hf
  obtain ⟨m₂, hs₂, hf₂, -, hel₂⟩ := setFifo_eq (g := { f with count := 0 }) hf₁
  refine ⟨m₂, ?_, hf₂, hel₂.trans hel₁⟩
  simp only [moveCount, hf, hs₁, hf₁, hs₂, hf₂, Option.bind_eq_bind, Option.bind_some]
  rfl

/-- The elements stay linked, but the count and, at the start, the last one are gone. -/
theorem concatStart_self (R : Rep m l ns) (hlen : ns.length < 2 ^ 32) :
    ∃ m', nlFifoConcatStart (some l) (some l) m = some (0, m') ∧ m'.fifos.get l = some ⟨firstOf ns, none, 0⟩ := by
  obtain ⟨m₁, hs₁, hf₁, -, hC₁, -, -⟩ := takeElems_eq l R
  rcases eq_nil_or_snoc ns with rfl | ⟨ms, k, rfl⟩
  · obtain ⟨m', hs', hf', -⟩ := moveCount_self hf₁
    refine ⟨m', ?_, hf'⟩
    simp only [nlFifoConcatStart, hs₁, Option.bind_eq_bind, Option.bind_some]
    exact hs'
  · have hpos := count_pos hlen (show ms ++ [k] ≠ [] by simp)
    have hnz : FifoSpec.count (ms ++ [k]) ≠ 0 := by simp [FifoSpec.count_eq_zero_iff hlen]
    obtain ⟨m₂, hs₂, -, -, hff₂, -⟩ := setElem_eq ⟨none, k.2, l⟩ hC₁.last
    have hf₂ : m₂.fifos.get l = _ := hff₂ ▸ hf₁
    obtain ⟨m₃, hs₃, hf₃, -, -⟩ := setFifo_eq (g := ⟨firstOf (ms ++ [k]), none, FifoSpec.count (ms ++ [k])⟩) hf₂
    obtain ⟨m', hs', hf', -⟩ := moveCount_self hf₃
    refine ⟨m', ?_, hf'⟩
    simp only [nlFifoConcatStart, hs₁, Option.bind_eq_bind, Option.bind_some, if_pos hpos, hf₁, lastOf_snoc, hC₁.last,
      hs₂, if_neg hnz, hs₃, hs']

theorem concatEnd_self (R : Rep m l ns) (hlen : ns.length < 2 ^ 32) :
    ∃ m', nlFifoConcatEnd (some l) (some l) m = some (0, m') ∧ m'.fifos.get l = some ⟨firstOf ns, lastOf ns, 0⟩ := by
  obtain ⟨m₁, hs₁, hf₁, -, hC₁, -, -⟩ := takeElems_eq l R
  rcases eq_nil_or_snoc ns with rfl | ⟨ms, k, rfl⟩
  · obtain ⟨m', hs', hf', -⟩ := moveCount_self hf₁
    refine ⟨m', ?_, hf'⟩
    simp only [nlFifoConcatEnd, hs₁, Option.bind_eq_bind, Option.bind_some]
    exact hs'
  · have hpos := count_pos hlen (show ms ++ [k] ≠ [] by simp)
    obtain ⟨m₂, hs₂, hf₂, -, -⟩ := setFifo_eq (g := ⟨firstOf (ms ++ [k]), lastOf (ms ++ [k]),
      FifoSpec.count (ms ++ [k])⟩) hf₁
    obtain ⟨m', hs', hf', -⟩ := moveCount_self hf₂
    refine ⟨m', ?_, hf'⟩
    simp only [nlFifoConcatEnd, hs₁, Option.bind_eq_bind, Option.bind_some, if_pos hpos, hf₁, hs₂, hs']

/-- A fifo without a count keeps its elements only if it has none. -/
theorem nil_of_keeps (hf : m.fifos.get l = some ⟨p, q, 0⟩) (K : KeepsElements m l ns) : ns = [] := by
  obtain ⟨f, ns', hf', W, hall⟩ := K
  rw [hf] at hf'
  obtain rfl := Option.some.inj hf'
  obtain rfl : ns' = [] := List.length_eq_zero_iff.mp W.count.symm
  exact List.eq_nil_iff_forall_not_mem.mpr fun n hn => List.not_mem_nil (hall n hn)

theorem keeps_iff (hf : m.fifos.get l = some ⟨firstOf ns, p, 0⟩) (hp : ns = [] → p = none) :
    KeepsElements m l ns ↔ ns = [] := by
  refine ⟨nil_of_keeps hf, ?_⟩
  rintro rfl
  rw [hp rfl] at hf
  have R : Rep m l [] := ⟨hf, rfl⟩
  exact ⟨_, [], hf, R.wellFormed (Nat.two_pow_pos 32), nofun⟩

/-! ### The status of an insertion -/

theorem tellsInsertion_iff (hns : ns = as ++ bs) (R : Rep m l ns) (R' : Rep m' l (as ++ (a, x) :: bs))
    (hlen : ns.length < 2 ^ 32) :
    TellsInsertion m l ns x (FifoSpec.toInt (FifoSpec.count ns + 1)) m' ↔ ns.length + 1 < 2 ^ 31 := by
  have hlength : (as ++ (a, x) :: bs).length = ns.length + 1 := by
    rw [hns]
    simp only [List.length_append, List.length_cons]
    omega
  have hcount : FifoSpec.count ns + 1 = FifoSpec.count (as ++ (a, x) :: bs) := by
    rw [FifoSpec.count, FifoSpec.count, hlength]
    simp
  have hchanged : m'.fifos.get l ≠ m.fifos.get l := by
    intro heq
    rw [R.fifo, R'.fifo, Option.some.injEq, Fifo.mk.injEq, ← hcount] at heq
    simp at heq
  rw [hcount]
  constructor
  · intro T
    by_contra hge
    by_cases hwrap : (as ++ (a, x) :: bs).length < 2 ^ 32
    · have hneg := FifoSpec.toInt_count_neg (by omega) hwrap
      exact hchanged (T.failed.mp hneg).1
    · -- the count has wrapped around, and the status with it
      have hlength' : (as ++ (a, x) :: bs).length = 2 ^ 32 := by omega
      have hzero : FifoSpec.count (as ++ (a, x) :: bs) = 0 := by
        rw [FifoSpec.count, hlength']
        rfl
      obtain ⟨f, as', bs', a', hf, -, W⟩ := T.inserted (by rw [hzero]; decide)
      rw [R'.fifo, hzero] at hf
      obtain rfl := Option.some.inj hf
      have hnone := W.count
      simp at hnone
  · intro hsmall
    have hpos : ¬FifoSpec.toInt (FifoSpec.count (as ++ (a, x) :: bs)) < 0 := by
      rw [FifoSpec.toInt_count (by omega)]
      omega
    exact ⟨iff_of_false hpos fun h => hchanged h.1,
      fun _ => ⟨_, as, bs, a, R'.fifo, hns, R'.wellFormed (by omega)⟩⟩

theorem tellsInsertion_failed : TellsInsertion m l ns x (-1) m :=
  ⟨iff_of_true (by decide) ⟨rfl, fun _ _ => rfl⟩, fun h => absurd (by decide) h⟩

end

/-- Removal at either end calls the callback with the elements that it removes, in their order, and stores and
    returns how many remain. -/
theorem removal_calls (m : FifoMem D) (l : Addr) (f : Fifo) (ns : List (Addr × D)) (count : UInt32)
    (W : WellFormed m l f ns) (hf : m.fifos.get l = some f) :
    (∃ m' f', nlFifoRemoveStart (some l) count m = some (f'.count, (ns.take count.toNat).map (·.2), m') ∧
      m'.fifos.get l = some f' ∧ WellFormed m' l f' (ns.drop count.toNat)) ∧
    ∃ m' f', nlFifoRemoveEnd (some l) count m =
        some (f'.count, (ns.drop (ns.length - count.toNat)).map (·.2), m') ∧
      m'.fifos.get l = some f' ∧ WellFormed m' l f' (ns.take (ns.length - count.toNat)) := by
  obtain ⟨R, hlen⟩ := W.rep hf
  constructor
  · obtain ⟨m', hm, R', -⟩ := removeStart_rep (n := count) R
    exact ⟨m', _, hm, R'.fifo, R'.wellFormed (by rw [List.length_drop]; omega)⟩
  · obtain ⟨m', hm, R', -⟩ := removeEnd_rep (n := count) R hlen
    exact ⟨m', _, hm, R'.fifo, R'.wellFormed (by rw [List.length_take]; omega)⟩

/-- One of two elements. -/
theorem removal_calls_fiveSix :
    (∃ m' f', nlFifoRemoveStart (some 0) 1 fiveSix = some (f'.count, [5], m') ∧
      m'.fifos.get 0 = some f' ∧ WellFormed m' 0 f' [(1, 6)]) ∧
    ∃ m' f', nlFifoRemoveEnd (some 0) 1 fiveSix = some (f'.count, [6], m') ∧
      m'.fifos.get 0 = some f' ∧ WellFormed m' 0 f' [(0, 5)] :=
  removal_calls fiveSix 0 _ [(0, 5), (1, 6)] 1 (fiveSix_rep.wellFormed (by decide)) rfl

/-- A fifo that is concatenated with itself keeps its elements if and only if it has none. -/
theorem selfConcat_iff (m : FifoMem D) (l : Addr) (f : Fifo) (ns : List (Addr × D)) (W : WellFormed m l f ns)
    (hf : m.fifos.get l = some f) :
    ((∃ r m', nlFifoConcatStart (some l) (some l) m = some (r, m') ∧ KeepsElements m' l ns) ↔ ns = []) ∧
    ((∃ r m', nlFifoConcatEnd (some l) (some l) m = some (r, m') ∧ KeepsElements m' l ns) ↔ ns = []) := by
  obtain ⟨R, hlen⟩ := W.rep hf
  constructor
  · obtain ⟨m', hm, hf'⟩ := concatStart_self R hlen
    rw [exists_call hm]
    exact keeps_iff hf' fun _ => rfl
  · obtain ⟨m', hm, hf'⟩ := concatEnd_self R hlen
    rw [exists_call hm]
    exact keeps_iff hf' lastOf_eq_none.mpr

/-- Two elements. -/
theorem selfConcat_iff_fiveSix :
    ((∃ r m', nlFifoConcatStart (some 0) (some 0) fiveSix = some (r, m') ∧ KeepsElements m' 0 [(0, 5), (1, 6)]) ↔
      [(0, 5), (1, 6)] = []) ∧
    ((∃ r m', nlFifoConcatEnd (some 0) (some 0) fiveSix = some (r, m') ∧ KeepsElements m' 0 [(0, 5), (1, 6)]) ↔
      [(0, 5), (1, 6)] = []) :=
  selfConcat_iff fiveSix 0 _ [(0, 5), (1, 6)] (fiveSix_rep.wellFormed (by decide)) rfl

/-- Both elements are lost. -/
theorem not_selfConcat_fiveSix :
    (¬∃ r m', nlFifoConcatStart (some 0) (some 0) fiveSix = some (r, m') ∧ KeepsElements m' 0 [(0, 5), (1, 6)]) ∧
    ¬∃ r m', nlFifoConcatEnd (some 0) (some 0) fiveSix = some (r, m') ∧ KeepsElements m' 0 [(0, 5), (1, 6)] := by
  obtain ⟨m₁, hm₁, hf₁⟩ := concatStart_self fiveSix_rep (by decide)
  obtain ⟨m₂, hm₂, hf₂⟩ := concatEnd_self fiveSix_rep (by decide)
  rw [exists_call hm₁, exists_call hm₂]
  exact ⟨fun K => List.cons_ne_nil _ _ (nil_of_keeps hf₁ K), fun K => List.cons_ne_nil _ _ (nil_of_keeps hf₂ K)⟩

/-- The status of an insertion is right if and only if there is no memory for the element, or the new number of
    elements fits the `int`. -/
theorem insertion_status_iff (m : FifoMem D) (l : Addr) (f : Fifo) (ns : List (Addr × D)) (x : D) (mallocOk : Bool)
    (W : WellFormed m l f ns) (hf : m.fifos.get l = some f) :
    ((∃ r m', nlFifoPut mallocOk (some l) (some x) m = some (r, m') ∧ TellsInsertion m l ns x r m') ↔
      mallocOk = false ∨ ns.length + 1 < 2 ^ 31) ∧
    ((∃ r m', nlFifoPrepend mallocOk (some l) (some x) m = some (r, m') ∧ TellsInsertion m l ns x r m') ↔
      mallocOk = false ∨ ns.length + 1 < 2 ^ 31) := by
  obtain ⟨R, hlen⟩ := W.rep hf
  cases mallocOk with
  | false =>
    have hfailed : ∃ r m', some ((-1 : Int), m) = some (r, m') ∧ TellsInsertion m l ns x r m' :=
      ⟨-1, m, rfl, tellsInsertion_failed⟩
    exact ⟨iff_of_true hfailed (Or.inl rfl), iff_of_true hfailed (Or.inl rfl)⟩
  | true =>
    rw [or_iff_right (by decide)]
    constructor
    · obtain ⟨m', hm, R', -⟩ := put_rep (x := x) R hlen
      rw [exists_call hm]
      exact tellsInsertion_iff (List.append_nil ns).symm R R' hlen
    · obtain ⟨m', hm, R', -⟩ := prepend_rep (x := x) R hlen
      rw [exists_call hm]
      have hns : ns = [] ++ ns := rfl
      exact tellsInsertion_iff hns R R' hlen

/-- A third element. -/
theorem insertion_status_iff_fiveSix :
    ((∃ r m', nlFifoPut true (some 0) (some 7) fiveSix = some (r, m') ∧
        TellsInsertion fiveSix 0 [(0, 5), (1, 6)] 7 r m') ↔
      true = false ∨ [(0, 5), (1, 6)].length + 1 < 2 ^ 31) ∧
    ((∃ r m', nlFifoPrepend true (some 0) (some 7) fiveSix = some (r, m') ∧
        TellsInsertion fiveSix 0 [(0, 5), (1, 6)] 7 r m') ↔
      true = false ∨ [(0, 5), (1, 6)].length + 1 < 2 ^ 31) :=
  insertion_status_iff fiveSix 0 _ [(0, 5), (1, 6)] 7 true (fiveSix_rep.wellFormed (by decide)) rfl

/-- Element 2147483648 is in the fifo, and the status is negative. -/
theorem not_insertion_status : ∃ (m : FifoMem Nat) (f : Fifo) (ns : List (Addr × Nat)),
    m.fifos.get 0 = some f ∧ WellFormed m 0 f ns ∧ ns.length = 2147483647 ∧
      ¬∃ r m', nlFifoPut true (some 0) (some 7) m = some (r, m') ∧ TellsInsertion m 0 ns 7 r m' := by
  obtain ⟨m, ns, R, hlen⟩ := exists_rep (D := Nat) 7 (n := 2147483647) (by decide)
  have hlt : ns.length < 2 ^ 32 := by
    rw [hlen]
    decide
  refine ⟨m, _, ns, R.fifo, R.wellFormed hlt, hlen, ?_⟩
  obtain ⟨m', hm, R', -⟩ := put_rep (x := 7) R hlt
  rw [exists_call hm, tellsInsertion_iff (List.append_nil ns).symm R R' hlt, hlen]
  decide

end Nlutils
