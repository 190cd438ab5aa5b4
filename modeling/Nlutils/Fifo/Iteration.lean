import Nlutils.Lib.Machine
import Nlutils.Fifo.Refinement
import Mathlib.Data.List.Nodup

/-! # Iteration over a fifo that changes

An iteration starts at NULL. Between two calls of `nl_fifo_next`, elements may be added at the end and elements
other than the current one removed. -/

namespace Nlutils
open Lib

variable {D : Type} [DecidableEq D]

/-- An iteration over one fifo. The history has the elements that the fifo has had since the start, in their
    order; the last two fields are set when a call uses memory that is not there, and when `nl_fifo_next` has
    returned NULL. -/
structure Iterating (D : Type) where
  mem : FifoMem D
  iter : FifoIter := .null
  returned : List Addr := []
  history : List Addr
  fault : Bool := false
  done : Bool := false
  deriving DecidableEq

inductive IterAction (D : Type)
  | next
  | put (x : D) (mallocOk : Bool)
  | remove (x : D)

/-- The element that `nl_fifo_remove` unlinks, from `p` on. -/
def firstWith (x : D) (m : FifoMem D) : Nat → Option Addr → Option Addr
  | 0, _ => none
  | _, none => none
  | fuel + 1, some a =>
    match m.elems.get a with
    | none => none
    | some e => if e.data = x then some a else firstWith x m fuel e.next

/-- The elements from `p` on. -/
def elemsFrom (m : FifoMem D) : Nat → Option Addr → List Addr
  | 0, _ => []
  | _, none => []
  | fuel + 1, some a => a :: elemsFrom m fuel ((m.elems.get a).bind (·.next))

namespace Iterating

def fifo (s : Iterating D) (l : Addr) : Fifo := (s.mem.fifos.get l).getD {}

/-- The removal of `x` leaves the current element alone. -/
def mayRemove (s : Iterating D) (l : Addr) (x : D) : Bool :=
  match firstWith x s.mem s.mem.bound (s.fifo l).first, s.iter with
  | some a, .node b => a != b
  | _, _ => true

def step (l : Addr) (s : Iterating D) : IterAction D → Option (Iterating D)
  | .next =>
    if s.done then none else
    match nlFifoNext (some l) s.iter s.mem with
    | none => some { s with fault := true }
    | some (some _, .node a) => some { s with iter := .node a, returned := s.returned ++ [a] }
    | some (_, iter) => some { s with iter := iter, done := true }
  | .put x ok =>
    if s.done then none else
    match nlFifoPut ok (some l) (some x) s.mem with
    | none => some { s with fault := true }
    | some (_, m) => some { s with
        mem := m
        history := if ok then s.history ++ ((m.fifos.get l).bind (·.last)).toList else s.history }
  | .remove x =>
    if s.done ∨ !s.mayRemove l x then none else
    match nlFifoRemove (some l) (some x) s.mem with
    | none => some { s with fault := true }
    | some (_, m) => some { s with mem := m }

end Iterating

/-- The iterations over the fifo at `l`. -/
def iteration (m : FifoMem D) (l : Addr) : Machine (Iterating D) (IterAction D) where
  init := { mem := m, history := elemsFrom m m.bound ((m.fifos.get l).getD {}).first }
  step := Iterating.step l

/-- Not an insertion into a fifo whose count is the largest that its field can hold. -/
def countFits (l : Addr) (s : Iterating D) : IterAction D → Bool
  | .put _ ok => !ok || (s.fifo l).count != 4294967295
  | _ => true

/-- What an iteration does: no call uses memory that is not there, the current element is one of the list,
    each element is returned at most once, in the order of the list, and when NULL is returned all elements of
    the list have been returned. -/
structure Iterates (l : Addr) (s : Iterating D) : Prop where
  safe : s.fault = false
  current : ∃ f ns, s.mem.fifos.get l = some f ∧ Chain s.mem l f.first ns none ∧
    (ns.map (·.1)).Sublist s.history ∧ (∀ a, s.iter = .node a → a ∈ ns.map (·.1)) ∧
    (s.done = true → ∀ a ∈ ns.map (·.1), a ∈ s.returned)
  once : s.returned.Nodup
  order : s.returned.Sublist s.history
  distinct : s.history.Nodup

section
variable {m : FifoMem D} {l : Addr} {ns : List (Addr × D)} {f : Fifo} {x : D}

omit [DecidableEq D] in
theorem WellFormed.rep (W : WellFormed m l f ns) (hf : m.fifos.get l = some f) : Rep m l ns ∧ ns.length < 2 ^ 32 := by
  have hfirst : f.first = firstOf ns := W.visits.first
  have hcount : f.count = FifoSpec.count ns := by
    rw [FifoSpec.count, ← W.count, UInt32.ofNat_toNat]
  have hlen : ns.length < 2 ^ 32 := W.count ▸ f.count.toNat_lt
  refine ⟨⟨?_, hfirst ▸ W.visits⟩, hlen⟩
  rw [hf, ← hfirst, ← W.last, ← hcount]

omit [DecidableEq D] in
theorem elemsFrom_chain {p : Option Addr} {fuel : Nat} (h : Chain m l p ns none) (hfuel : ns.length < fuel) :
    elemsFrom m fuel p = ns.map (·.1) := by
  induction ns generalizing p fuel with
  | nil =>
    rw [chain_nil] at h
    subst h
    cases fuel <;> rfl
  | cons n ns ih =>
    rcases fuel with _ | fuel
    · simp at hfuel
    obtain ⟨rfl, nx, hg, hns⟩ := chain_cons.mp h
    have hrec := ih hns (Nat.lt_of_succ_lt_succ hfuel)
    simp [elemsFrom, hg, hrec]

theorem firstWith_chain {p : Option Addr} {fuel : Nat} (h : Chain m l p ns none) (hfuel : ns.length < fuel) :
    firstWith x m fuel p = (ns.find? (·.2 == x)).map (·.1) := by
  induction ns generalizing p fuel with
  | nil =>
    rw [chain_nil] at h
    subst h
    cases fuel <;> rfl
  | cons n ns ih =>
    rcases fuel with _ | fuel
    · simp at hfuel
    obtain ⟨rfl, nx, hg, hns⟩ := chain_cons.mp h
    have hrec := ih hns (Nat.lt_of_succ_lt_succ hfuel)
    by_cases hx : n.2 = x
    · simp [firstWith, hg, hx]
    · simp [firstWith, hg, hx, hrec]

end

/-- The list is what has been passed and what is still to come; the current element is the last one passed. -/
structure IterInv (l : Addr) (s : Iterating D) (pre rest : List (Addr × D)) (h₁ h₂ : List Addr) : Prop where
  rep : Rep s.mem l (pre ++ rest)
  len : (pre ++ rest).length < 2 ^ 32
  safe : s.fault = false
  iter : s.done = false → s.iter = .ofPtr (lastOf pre)
  ended : s.done = true → s.iter = .null ∧ rest = []
  passed : ∀ n ∈ pre, n.1 ∈ s.returned
  history : s.history = h₁ ++ h₂
  distinct : s.history.Nodup
  known : ∀ a ∈ s.history, a < s.mem.elems.cells.length
  behind : (pre.map (·.1)).Sublist h₁
  order : s.returned.Sublist h₁
  ahead : (rest.map (·.1)).Sublist h₂

section
variable {l : Addr} {s t : Iterating D} {pre rest : List (Addr × D)} {h₁ h₂ : List Addr}

omit [DecidableEq D] in
theorem IterInv.toIterates (J : IterInv l s pre rest h₁ h₂) : Iterates l s where
  safe := J.safe
  current := by
    refine ⟨_, pre ++ rest, J.rep.fifo, J.rep.chain, ?_, ?_, ?_⟩
    · rw [List.map_append, J.history]
      exact J.behind.append J.ahead
    · intro a ha
      cases hd : s.done with
      | true =>
        rw [(J.ended hd).1] at ha
        cases ha
      | false =>
        rw [J.iter hd] at ha
        rcases eq_nil_or_snoc pre with rfl | ⟨ms, k, rfl⟩
        · cases ha
        · rw [lastOf_snoc] at ha
          obtain rfl := FifoIter.node.inj ha
          simp
    · intro hd a ha
      rw [(J.ended hd).2, List.append_nil] at ha
      obtain ⟨n, hn, rfl⟩ := List.mem_map.mp ha
      exact J.passed n hn
  once := J.distinct.sublist (J.history ▸ J.order.trans (List.sublist_append_left _ _))
  order := J.history ▸ J.order.trans (List.sublist_append_left _ _)
  distinct := J.distinct

/-- An iteration that goes on has not reached the end. -/
theorem not_done_of_step {a : IterAction D} (h : s.step l a = some t) : s.done = false := by
  rcases hd : s.done with _ | _
  · rfl
  · cases a <;> simp [Iterating.step, hd] at h

theorem next_inv (J : IterInv l s pre rest h₁ h₂) (h : s.step l .next = some t) :
    ∃ pre' rest' h₁' h₂', IterInv l t pre' rest' h₁' h₂' := by
  have hd := not_done_of_step h
  have hnext := next_at J.rep J.len
  rw [← J.iter hd] at hnext
  cases rest with
  | nil =>
    have ht : t = { s with iter := .null, done := true } := by
      simpa [Iterating.step, hd, hnext, FifoIter.ofPtr] using h.symm
    subst ht
    exact ⟨pre, [], h₁, h₂, { J with iter := fun hf => Bool.noConfusion hf, ended := fun _ => ⟨rfl, rfl⟩ }⟩
  | cons r rest =>
    have ht : t = { s with iter := .node r.1, returned := s.returned ++ [r.1] } := by
      simpa [Iterating.step, hd, hnext, FifoIter.ofPtr] using h.symm
    subst ht
    -- What comes before the next element in the history has been removed.
    obtain ⟨u, v, rfl, hu, hv⟩ := List.cons_sublist_iff.mp J.ahead
    have hr : [r.1].Sublist u := List.singleton_sublist.mpr hu
    have happ : pre ++ r :: rest = (pre ++ [r]) ++ rest := List.append_cons ..
    refine ⟨pre ++ [r], rest, h₁ ++ u, v, ?_⟩
    exact {
      rep := happ ▸ J.rep
      len := happ ▸ J.len
      safe := J.safe
      iter := fun _ => by rw [lastOf_snoc]; rfl
      ended := fun he => by rw [hd] at he; cases he
      passed := by
        intro n hn
        rcases List.mem_append.mp hn with hn | hn
        · exact List.mem_append_left _ (J.passed n hn)
        · obtain rfl := List.mem_singleton.mp hn
          exact List.mem_append_right _ List.mem_cons_self
      history := by rw [J.history, List.append_assoc]
      distinct := J.distinct
      known := J.known
      behind := by
        rw [List.map_append]
        exact J.behind.append hr
      order := J.order.append hr
      ahead := hv }

theorem put_inv {x : D} {ok : Bool} (J : IterInv l s pre rest h₁ h₂) (hfits : countFits l s (.put x ok) = true)
    (h : s.step l (.put x ok) = some t) : ∃ pre' rest' h₁' h₂', IterInv l t pre' rest' h₁' h₂' := by
  have hd := not_done_of_step h
  cases ok with
  | false =>
    rw [Iterating.step, if_neg (by simp [hd]), nlFifoPut_failed] at h
    obtain rfl := Option.some.inj h
    exact ⟨pre, rest, h₁, h₂, J⟩
  | true =>
    obtain ⟨m, hm, R, hF⟩ := put_rep (x := x) J.rep J.len
    have hlast : (m.fifos.get l).bind (·.last) = some s.mem.elems.cells.length := by
      rw [R.fifo, lastOf_snoc]
      rfl
    have ht : t = { s with mem := m, history := s.history ++ [s.mem.elems.cells.length] } := by
      simpa [Iterating.step, hd, hm, hlast] using h.symm
    subst ht
    have hlt : s.mem.elems.cells.length < m.elems.cells.length := by
      obtain ⟨nx, hg⟩ := R.chain.get (List.mem_append_right _ List.mem_cons_self)
      exact Heap.lt_of_get hg
    have hnew : s.mem.elems.cells.length ∉ s.history := fun hmem => Nat.lt_irrefl _ (J.known _ hmem)
    have hcount : (pre ++ rest).length ≠ 4294967295 := by
      have hne : FifoSpec.count (pre ++ rest) ≠ 4294967295 := by
        simpa [countFits, Iterating.fifo, J.rep.fifo] using hfits
      intro he
      exact hne (UInt32.toNat_inj.mp ((FifoSpec.toNat_count J.len).trans he))
    rw [List.append_assoc] at R
    refine ⟨pre, rest ++ [(s.mem.elems.cells.length, x)], h₁, h₂ ++ [s.mem.elems.cells.length], ?_⟩
    exact {
      rep := R
      len := by
        have := J.len
        simp only [List.length_append, List.length_cons, List.length_nil] at this hcount ⊢
        omega
      safe := J.safe
      iter := J.iter
      ended := fun he => by rw [hd] at he; cases he
      passed := J.passed
      history := by rw [J.history, List.append_assoc]
      distinct := List.concat_eq_append ▸ J.distinct.concat hnew
      known := by
        intro a ha
        rcases List.mem_append.mp ha with ha | ha
        · exact Nat.lt_of_lt_of_le (J.known a ha) hF.grows
        · exact List.mem_singleton.mp ha ▸ hlt
      behind := J.behind
      order := J.order
      ahead := by
        rw [List.map_append]
        exact J.ahead.append (List.Sublist.refl _) }

omit [DecidableEq D] in
/-- The last element stays when another one goes. -/
theorem lastOf_eraseP {p : Addr × D → Bool} {ns : List (Addr × D)}
    (h : ∀ b, ns.find? p = some b → some b.1 ≠ lastOf ns) : lastOf (ns.eraseP p) = lastOf ns := by
  rcases eq_nil_or_snoc ns with rfl | ⟨ms, k, rfl⟩
  · rfl
  · by_cases hms : ∃ b ∈ ms, p b = true
    · obtain ⟨b, hb, hp⟩ := hms
      rw [List.eraseP_append_left hp _ hb, lastOf_snoc, lastOf_snoc]
    · have hno : ∀ b ∈ ms, ¬p b = true := fun b hb hp => hms ⟨b, hb, hp⟩
      have hk : p k = false := by
        rw [← Bool.not_eq_true]
        intro hp
        refine h k ?_ lastOf_snoc.symm
        rw [List.find?_append, List.find?_eq_none.mpr hno]
        simp [hp]
      rw [List.eraseP_append_right _ hno]
      simp [hk]

theorem remove_inv {x : D} (J : IterInv l s pre rest h₁ h₂) (h : s.step l (.remove x) = some t) :
    ∃ pre' rest' h₁' h₂', IterInv l t pre' rest' h₁' h₂' := by
  have hd := not_done_of_step h
  obtain ⟨m, hm, R, hF⟩ := remove_rep (x := x) J.rep J.len
  rcases hmay : s.mayRemove l x with _ | _
  · simp [Iterating.step, hmay] at h
  have ht : t = { s with mem := m } := by simpa [Iterating.step, hd, hmay, hm] using h.symm
  subst ht
  have hfirst : firstWith x s.mem s.mem.bound (s.fifo l).first =
      ((pre ++ rest).find? (·.2 == x)).map (·.1) := by
    rw [Iterating.fifo, J.rep.fifo]
    exact firstWith_chain J.rep.chain J.rep.length_lt_bound
  have hlen := Nat.lt_of_le_of_lt (List.length_eraseP_le (p := (·.2 == x)) (l := pre ++ rest)) J.len
  by_cases hpre : ∃ b ∈ pre, (b.2 == x) = true
  · obtain ⟨b, hb, hbx⟩ := hpre
    have hlast : lastOf (pre.eraseP (·.2 == x)) = lastOf pre := by
      refine lastOf_eraseP ?_
      intro c hc he
      rw [List.find?_append, hc] at hfirst
      simp [Iterating.mayRemove, hfirst, J.iter hd, ← he, FifoIter.ofPtr] at hmay
    have happ : (pre ++ rest).eraseP (·.2 == x) = pre.eraseP (·.2 == x) ++ rest :=
      List.eraseP_append_left (p := fun n : Addr × D => n.2 == x) hbx _ hb
    rw [happ] at R hlen
    refine ⟨pre.eraseP (·.2 == x), rest, h₁, h₂, { J with
      rep := R, len := hlen, iter := ?_, passed := ?_, known := ?_, behind := ?_ }⟩
    · intro hd'
      rw [hlast]
      exact J.iter hd'
    · exact fun n hn => J.passed n (List.mem_of_mem_eraseP hn)
    · exact fun a ha => Nat.lt_of_lt_of_le (J.known a ha) hF.grows
    · exact (List.eraseP_sublist.map _).trans J.behind
  · have hno : ∀ b ∈ pre, ¬(b.2 == x) = true := fun b hb hbx => hpre ⟨b, hb, hbx⟩
    rw [List.eraseP_append_right _ hno] at R hlen
    refine ⟨pre, rest.eraseP (·.2 == x), h₁, h₂, { J with
      rep := R, len := hlen, ended := ?_, known := ?_, ahead := ?_ }⟩
    · intro hd'
      rw [hd] at hd'
      cases hd'
    · exact fun a ha => Nat.lt_of_lt_of_le (J.known a ha) hF.grows
    · exact (List.eraseP_sublist.map _).trans J.ahead

theorem step_inv {a : IterAction D} (J : IterInv l s pre rest h₁ h₂) (hfits : countFits l s a = true)
    (h : s.step l a = some t) : ∃ pre' rest' h₁' h₂', IterInv l t pre' rest' h₁' h₂' := by
  cases a with
  | next => exact next_inv J h
  | put x ok => exact put_inv J hfits h
  | remove x => exact remove_inv J h

end

/-- As long as the count fits its field, an iteration over a well-formed fifo finds all its elements. -/
theorem iterates {m : FifoMem D} {l : Addr} {f : Fifo} {ns : List (Addr × D)} {s : Iterating D}
    (W : WellFormed m l f ns) (hf : m.fifos.get l = some f)
    (hr : (iteration m l).Reach (fun s a => countFits l s a = true) s) : Iterates l s := by
  obtain ⟨R, hlen⟩ := W.rep hf
  have hhist : elemsFrom m m.bound ((m.fifos.get l).getD {}).first = ns.map (·.1) := by
    rw [R.fifo]
    exact elemsFrom_chain R.chain R.length_lt_bound
  have hinit : IterInv l (iteration m l).init [] ns [] (ns.map (·.1)) := {
    rep := R
    len := hlen
    safe := rfl
    iter := fun _ => rfl
    ended := nofun
    passed := nofun
    history := hhist
    distinct := by
      show (elemsFrom m m.bound ((m.fifos.get l).getD {}).first).Nodup
      rw [hhist]
      exact R.chain.nodup
    known := by
      intro a ha
      have ha : a ∈ elemsFrom m m.bound ((m.fifos.get l).getD {}).first := ha
      rw [hhist] at ha
      obtain ⟨n, hn, rfl⟩ := List.mem_map.mp ha
      obtain ⟨nx, hg⟩ := R.chain.get hn
      exact Heap.lt_of_get hg
    behind := List.Sublist.refl _
    order := List.Sublist.refl _
    ahead := List.Sublist.refl _ }
  have hinv : ∃ pre rest h₁ h₂, IterInv l s pre rest h₁ h₂ := by
    refine Machine.Reach.invariant (I := fun s => ∃ pre rest h₁ h₂, IterInv l s pre rest h₁ h₂)
      ⟨_, _, _, _, hinit⟩ ?_ hr
    rintro s a t ⟨pre, rest, h₁, h₂, J⟩ ha hs
    exact step_inv J ha hs
  obtain ⟨pre, rest, h₁, h₂, J⟩ := hinv
  exact J.toIterates

/-- A fifo with the elements 5 and 6. -/
def fiveSix : FifoMem Nat where
  fifos := ⟨[some ⟨some 0, some 1, 2⟩]⟩
  elems := ⟨[some ⟨some 1, 5, 0⟩, some ⟨none, 6, 0⟩]⟩

theorem fiveSix_rep : Rep fiveSix 0 [(0, 5), (1, 6)] :=
  ⟨rfl, chain_cons.mpr ⟨rfl, _, rfl, chain_cons.mpr ⟨rfl, _, rfl, rfl⟩⟩⟩

/-- After 5 has been returned, 6 is removed and 7 added. -/
theorem iterates_fiveSix : ∃ s, (iteration fiveSix 0).Reach (fun s a => countFits 0 s a = true) s ∧
    s.done = true ∧ s.returned = [0, 2] ∧ Iterates 0 s := by
  obtain ⟨s, hr, hs⟩ := Machine.exists_reach_of_run (M := iteration fiveSix 0) (countFits 0)
    [.next, .put 7 true, .remove 6, .next, .next] (fun s => s.done && s.returned == [0, 2])
    (fun s a h => h) (by decide)
  obtain ⟨hd, hret⟩ := Bool.and_eq_true_iff.mp hs
  exact ⟨s, hr, hd, beq_iff_eq.mp hret, iterates (fiveSix_rep.wellFormed (by decide)) rfl hr⟩

omit [DecidableEq D] in
/-- A fifo can have any number of elements that its count can say. -/
theorem exists_rep (x : D) : ∀ {n : Nat}, n < 2 ^ 32 → ∃ (m : FifoMem D) (ns : List (Addr × D)),
    Rep m 0 ns ∧ ns.length = n
  | 0, _ => ⟨createFifos 1, [], ⟨rfl, rfl⟩, rfl⟩
  | n + 1, h => by
    obtain ⟨m, ns, R, hlen⟩ := exists_rep x (Nat.lt_of_succ_lt h)
    obtain ⟨m', -, R', -⟩ := put_rep (x := x) R (hlen ▸ Nat.lt_of_succ_lt h)
    exact ⟨m', _, R', by rw [List.length_append, hlen]; rfl⟩

/-- The insertion that the count wraps around at makes the fifo look empty: `nl_fifo_next` returns NULL at once. -/
theorem not_iterates_fullFifo : ∃ (m : FifoMem Nat) (f : Fifo) (ns : List (Addr × Nat)),
    m.fifos.get 0 = some f ∧ WellFormed m 0 f ns ∧ ns.length = 4294967295 ∧
      ∃ s, (iteration m 0).Reach Machine.anyStep s ∧ ¬Iterates 0 s := by
  obtain ⟨m, ns, R, hlen⟩ := exists_rep (D := Nat) 7 (n := 4294967295) (by decide)
  have hlt : ns.length < 2 ^ 32 := by rw [hlen]; decide
  obtain ⟨m', hm, R', -⟩ := put_rep (x := 7) R hlt
  have hcount : FifoSpec.count (ns ++ [(m.elems.cells.length, 7)]) = 0 := by
    rw [count_concat, FifoSpec.count, hlen]
    rfl
  have hnext : nlFifoNext (some 0) .null m' = some (none, .null) := by
    simp [nlFifoNext, R'.fifo, hcount]
  let hist := elemsFrom m m.bound ((m.fifos.get 0).getD {}).first
  let s₁ : Iterating Nat := { mem := m', history := hist ++ [m.elems.cells.length] }
  have hput : (iteration m 0).step (iteration m 0).init (.put 7 true) = some s₁ := by
    simp [iteration, Iterating.step, hm, R'.fifo, s₁, hist]
  have hend : (iteration m 0).step s₁ .next = some { s₁ with done := true } := by
    simp [iteration, Iterating.step, hnext, s₁]
  refine ⟨m, _, ns, R.fifo, R.wellFormed hlt, hlen, _,
    .step (.step .init trivial hput) trivial hend, ?_⟩
  intro hit
  obtain ⟨f, ns', hf, hC, -, -, hall⟩ := hit.current
  have hne : ns' ≠ [] := by
    rintro rfl
    have hf' : m'.fifos.get 0 = some f := hf
    rw [R'.fifo] at hf'
    obtain rfl := Option.some.inj hf'
    have hnone := firstOf_eq_none.mp (chain_nil.mp hC)
    simp at hnone
  obtain ⟨n, ns'', rfl⟩ := List.exists_cons_of_ne_nil hne
  exact List.not_mem_nil (hall rfl n.1 (by simp))

end Nlutils
