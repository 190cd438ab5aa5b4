import Nlutils.Fifo.Operations

/-! # Removal and concatenation -/

namespace Nlutils
open Lib

variable {D : Type}

/-! ### `nl_fifo_remove` -/

section
variable {m : FifoMem D} {l : Addr} {ns as bs : List (Addr × D)} {b : Addr × D} {x : D}

/-- Where the last element is after another one has been unlinked. -/
theorem lastOf_unlink (hnd : ((as ++ b :: bs).map (·.1)).Nodup) :
    (if lastOf (as ++ b :: bs) = some b.1 then lastOf as else lastOf (as ++ b :: bs)) = lastOf (as ++ bs) := by
  rcases eq_nil_or_snoc bs with rfl | ⟨cs, c, rfl⟩
  · rw [lastOf_snoc, if_pos rfl, List.append_nil]
  · have hlast : lastOf (as ++ b :: (cs ++ [c])) = some c.1 := by
      rw [← List.cons_append, ← List.append_assoc, lastOf_snoc]
    have hne : b.1 ≠ c.1 := by
      have hsplit : as ++ b :: (cs ++ [c]) = (as ++ b :: cs) ++ [c] := by simp
      rw [hsplit] at hnd
      exact ne_of_nodup_append hnd (List.mem_append_right _ List.mem_cons_self) List.mem_cons_self
    rw [hlast, if_neg (fun h => hne (Option.some.inj h).symm), ← List.append_assoc, lastOf_snoc]

theorem count_unlink : FifoSpec.count (as ++ b :: bs) - 1 = FifoSpec.count (as ++ bs) := by
  have hlen : (as ++ b :: bs).length = (as ++ bs).length + 1 := by
    simp only [List.length_append, List.length_cons]
    omega
  simp [FifoSpec.count, hlen]

theorem removeElem_first [DecidableEq D] {f : Fifo} {c : Addr} {e : FifoElement D} {fuel : Nat}
    (hg : m.elems.get c = some e) (hx : e.data = x) : removeElem l f x (fuel + 1) none (some c) m =
      (m.setFifo l ⟨e.next, if f.last = some c then none else f.last, f.count - 1⟩).bind fun m =>
        (m.freeElem c).bind fun m => some (0, m) := by
  simp only [removeElem, hg, hx, Option.bind_eq_bind, Option.bind_some, if_true]
  rfl

theorem removeElem_after [DecidableEq D] {f : Fifo} {c p : Addr} {e pe : FifoElement D} {fuel : Nat}
    (hg : m.elems.get c = some e) (hx : e.data = x) (hp : m.elems.get p = some pe) :
    removeElem l f x (fuel + 1) (some p) (some c) m =
      (m.setElem p { pe with next := e.next }).bind fun m =>
        (m.setFifo l ⟨f.first, if f.last = some c then some p else f.last, f.count - 1⟩).bind fun m =>
          (m.freeElem c).bind fun m => some (0, m) := by
  simp only [removeElem, hg, hx, hp, Option.bind_eq_bind, Option.bind_some, if_true]
  rfl

theorem removeElem_next [DecidableEq D] {f : Fifo} {c : Addr} {p : Option Addr} {e : FifoElement D} {fuel : Nat}
    (hg : m.elems.get c = some e) (hx : e.data ≠ x) : removeElem l f x (fuel + 1) p (some c) m =
      removeElem l f x fuel (some c) e.next m := by
  simp only [removeElem, hg, hx, Option.bind_eq_bind, Option.bind_some, if_false]

/-- The element after `as` is the one to remove. -/
theorem removeElem_found [DecidableEq D] (fuel : Nat) (R : Rep m l (as ++ b :: bs)) (hx : b.2 = x) :
    ∃ m', removeElem l ⟨firstOf (as ++ b :: bs), lastOf (as ++ b :: bs), FifoSpec.count (as ++ b :: bs)⟩ x
        (fuel + 1) (lastOf as) (some b.1) m = some (0, m') ∧
      Rep m' l (as ++ bs) ∧ Frame [l] m m' := by
  obtain ⟨r, -, hr⟩ := chain_append.mp R.chain
  obtain ⟨-, nx, hg, hbs⟩ := chain_cons.mp hr
  obtain rfl := hbs.first
  have hnd := R.chain.nodup
  have hbne : ∀ j ∈ bs, j.1 ≠ b.1 := by
    intro j hj
    have hsplit : as ++ b :: bs = (as ++ [b]) ++ bs := by simp
    rw [hsplit] at hnd
    exact (ne_of_nodup_append hnd (List.mem_append_right _ List.mem_cons_self) hj).symm
  rcases eq_nil_or_snoc as with rfl | ⟨ms, k, rfl⟩
  · obtain ⟨m₁, hs₁, hf₁, hne₁, hel₁⟩ := setFifo_eq (g := ⟨firstOf bs, lastOf bs, FifoSpec.count bs⟩) R.fifo
    have hg₁ : m₁.elems.get b.1 = _ := hel₁ ▸ hg
    obtain ⟨m', hs, -, hne, hff, hlen⟩ := freeElem_eq hg₁
    refine ⟨m', ?_, ⟨hff ▸ hf₁, hbs.congr ?_⟩,
      (Frame.of_setFifo hne₁ hel₁).trans (.of_setElem hg₁ rfl hne hff hlen)⟩
    · have hlast : (if lastOf (b :: bs) = some b.1 then none else lastOf (b :: bs)) = lastOf bs := lastOf_unlink hnd
      have hcount : FifoSpec.count ([] ++ b :: bs) - 1 = FifoSpec.count ([] ++ bs) := count_unlink
      rw [lastOf_nil, removeElem_first hg hx]
      dsimp only [List.nil_append] at hcount ⊢
      rw [hlast, hcount, hs₁, Option.bind_some, hs, Option.bind_some]
    · intro j hj
      rw [hne _ (hbne j hj), hel₁]
  · have hk : ms ++ [k] ≠ [] := by simp
    have hbk : b.1 ≠ k.1 := (ne_of_nodup_append hnd (k := k) (by simp) List.mem_cons_self).symm
    obtain ⟨q, hms, -⟩ := chain_append.mp R.chain
    obtain ⟨nx, hgk⟩ := hms.get (n := k) (by simp)
    obtain ⟨m₁, hs₁, hk₁, hne₁, hf₁, hlen₁⟩ := setElem_eq ⟨firstOf bs, k.2, l⟩ hgk
    have hfifo₁ : m₁.fifos.get l = _ := hf₁ ▸ R.fifo
    obtain ⟨m₂, hs₂, hf₂, hne₂, hel₂⟩ := setFifo_eq (g := ⟨firstOf (ms ++ [k] ++ b :: bs), lastOf (ms ++ [k] ++ bs),
      FifoSpec.count (ms ++ [k] ++ bs)⟩) hfifo₁
    have hg₂ : m₂.elems.get b.1 = some ⟨firstOf bs, b.2, l⟩ := by rw [hel₂, hne₁ _ hbk, hg]
    obtain ⟨m', hs, -, hne, hff, hlen⟩ := freeElem_eq hg₂
    have hfirst : firstOf (ms ++ [k] ++ b :: bs) = firstOf (ms ++ [k] ++ bs) := by
      rw [firstOf_append hk, firstOf_append hk]
    refine ⟨m', ?_, ⟨?_, ?_⟩, (Frame.of_setElem hgk rfl hne₁ hf₁ hlen₁).trans
      ((Frame.of_setFifo hne₂ hel₂).trans (.of_setElem hg₂ rfl hne hff hlen))⟩
    · have hlast := lastOf_unlink hnd
      rw [lastOf_snoc] at hlast
      rw [lastOf_snoc, removeElem_after hg hx hgk]
      dsimp only
      rw [hs₁, Option.bind_some, hlast, count_unlink, hs₂, Option.bind_some, hs, Option.bind_some]
    · rw [← hfirst, hff]
      exact hf₂
    · rw [← hfirst, firstOf_append hk]
      have hk' : m'.elems.get k.1 = some ⟨firstOf bs, k.2, l⟩ := by rw [hne _ hbk.symm, hel₂, hk₁]
      refine chain_append.mpr ⟨_, ?_, hbs.congr ?_⟩
      · rw [firstOf_append hk] at hms
        refine hms.relink hk' ?_
        intro j hj
        have hjb : j.1 ≠ b.1 := ne_of_nodup_append hnd (List.mem_append_left _ hj) List.mem_cons_self
        have hjk : j.1 ≠ k.1 := by
          rw [List.append_assoc] at hnd
          exact ne_of_nodup_append hnd hj (by simp)
        rw [hne _ hjb, hel₂, hne₁ _ hjk]
      · intro j hj
        have hjk : j.1 ≠ k.1 := (ne_of_nodup_append hnd (k := k) (by simp) (List.mem_cons_of_mem _ hj)).symm
        rw [hne _ (hbne j hj), hel₂, hne₁ _ hjk]

theorem removeElem_rep [DecidableEq D] {fuel : Nat} (R : Rep m l (as ++ bs)) (hfuel : bs.length ≤ fuel) :
    ∃ m', removeElem l ⟨firstOf (as ++ bs), lastOf (as ++ bs), FifoSpec.count (as ++ bs)⟩ x fuel (lastOf as)
        (firstOf bs) m = some (if x ∈ bs.map (·.2) then 0 else -1, m') ∧
      Rep m' l (as ++ bs.eraseP (·.2 == x)) ∧ Frame [l] m m' := by
  induction bs generalizing as fuel with
  | nil => exact ⟨m, by cases fuel <;> rfl, R, .refl⟩
  | cons b bs ih =>
    rcases fuel with _ | fuel
    · simp at hfuel
    by_cases hx : b.2 = x
    · obtain ⟨m', hm, R', hF⟩ := removeElem_found fuel R hx
      have hmem : x ∈ (b :: bs).map (·.2) := by simp [hx]
      have herase : (b :: bs).eraseP (·.2 == x) = bs := by simp [hx]
      rw [if_pos hmem, herase]
      exact ⟨m', hm, R', hF⟩
    · obtain ⟨r, -, hr⟩ := chain_append.mp R.chain
      obtain ⟨-, nx, hg, hbs⟩ := chain_cons.mp hr
      obtain rfl := hbs.first
      have hsplit : as ++ b :: bs = (as ++ [b]) ++ bs := by simp
      have hmem : x ∈ (b :: bs).map (·.2) ↔ x ∈ bs.map (·.2) := by
        rw [List.map_cons, List.mem_cons]
        exact or_iff_right fun h => hx h.symm
      have herase : (b :: bs).eraseP (·.2 == x) = b :: bs.eraseP (·.2 == x) := by simp [hx]
      obtain ⟨m', hm, R', hF⟩ := ih (hsplit ▸ R) (Nat.le_of_succ_le_succ hfuel)
      rw [firstOf_cons, removeElem_next hg hx, hsplit, herase]
      simp only [hmem]
      rw [lastOf_snoc] at hm
      exact ⟨m', hm, by simpa using R', hF⟩

theorem remove_rep [DecidableEq D] (R : Rep m l ns) (hlen : ns.length < 2 ^ 32) :
    ∃ m', nlFifoRemove (some l) (some x) m = some (if x ∈ ns.map (·.2) then 0 else -1, m') ∧
      Rep m' l (ns.eraseP (·.2 == x)) ∧ Frame [l] m m' := by
  have hzero := FifoSpec.count_eq_zero_iff hlen
  by_cases hns : ns = []
  · subst hns
    exact ⟨m, by simp [nlFifoRemove, R.fifo, hzero], R, .refl⟩
  · have hnz : FifoSpec.count ns ≠ 0 := mt hzero.mp hns
    have R₀ : Rep m l ([] ++ ns) := R
    obtain ⟨m', hm, R', hF⟩ := removeElem_rep (x := x) R₀ (Nat.le_of_lt R.length_lt_bound)
    exact ⟨m', by simpa [nlFifoRemove, R.fifo, hnz] using hm, R', hF⟩

end

/-! ### `nl_fifo_remove_start` and `nl_fifo_clear` -/

section
variable {m : FifoMem D} {l : Addr} {ns : List (Addr × D)}

theorem count_append {α : Type} {xs ys : List α} :
    FifoSpec.count (xs ++ ys) = FifoSpec.count xs + FifoSpec.count ys := by
  simp [FifoSpec.count]

theorem count_drop {α : Type} {xs : List α} {n : Nat} :
    FifoSpec.count xs - FifoSpec.count (xs.take n) = FifoSpec.count (xs.drop n) := by
  have h : FifoSpec.count xs = FifoSpec.count (xs.take n) + FifoSpec.count (xs.drop n) := by
    rw [← count_append, List.take_append_drop]
  rw [h, UInt32.add_comm, UInt32.add_sub_cancel]

/-- The loop frees the first elements of a chain and touches no other. -/
theorem freeElems_chain {n : Nat} {p : Option Addr} (h : Chain m l p ns none) :
    ∃ m', freeElems n p m = some (firstOf (ns.drop n), (ns.take n).map (·.2), FifoSpec.count (ns.take n), m') ∧
      m'.fifos = m.fifos ∧ m'.elems.cells.length = m.elems.cells.length ∧
      ∀ a, a ∉ (ns.take n).map (·.1) → m'.elems.get a = m.elems.get a := by
  induction n generalizing m ns p with
  | zero => exact ⟨m, by rw [h.first]; rfl, rfl, rfl, fun _ _ => rfl⟩
  | succ n ih =>
    cases ns with
    | nil =>
      rw [chain_nil] at h
      subst h
      exact ⟨m, rfl, rfl, rfl, fun _ _ => rfl⟩
    | cons b bs =>
      have hnd := h.nodup
      obtain ⟨rfl, nx, hg, hbs⟩ := chain_cons.mp h
      obtain ⟨m₁, hs₁, -, hne₁, hf₁, hlen₁⟩ := freeElem_eq hg
      have hbs₁ : Chain m₁ l nx bs none := hbs.congr fun j hj =>
        hne₁ _ (ne_of_nodup_cons hnd hj)
      obtain ⟨m', hm, hf, hlen, hne⟩ := ih hbs₁
      refine ⟨m', ?_, hf.trans hf₁, hlen.trans hlen₁, ?_⟩
      · simp [freeElems, hg, hs₁, hm, count_cons]
      · intro a ha
        rw [List.take_succ_cons, List.map_cons, List.mem_cons, not_or] at ha
        rw [hne a ha.2, hne₁ a ha.1]

/-- An operation that changes no element but those of the fifo. -/
theorem Frame.of_nodes {m' : FifoMem D} {p q : Option Addr} (C : Chain m l p ns q)
    (hf : ∀ k, k ≠ l → m'.fifos.get k = m.fifos.get k) (hlen : m'.elems.cells.length = m.elems.cells.length)
    (hne : ∀ a, a ∉ ns.map (·.1) → m'.elems.get a = m.elems.get a) : Frame [l] m m' where
  fifos k hk := hf k (by simpa using hk)
  elems a e ha hl := by
    refine (hne a ?_).trans ha
    intro hm
    obtain ⟨n, hn, rfl⟩ := List.mem_map.mp hm
    obtain ⟨nx, hg⟩ := C.get hn
    rw [ha] at hg
    obtain rfl := Option.some.inj hg
    exact hl (by simp)
  grows := Nat.le_of_eq hlen.symm

theorem Rep.chain_drop (R : Rep m l ns) (n : Nat) : Chain m l (firstOf (ns.drop n)) (ns.drop n) none := by
  have hC := R.chain
  rw [← List.take_append_drop n ns] at hC
  obtain ⟨r, -, hr⟩ := chain_append.mp hC
  exact hr.first ▸ hr

theorem removeStart_rep {n : UInt32} (R : Rep m l ns) :
    ∃ m', nlFifoRemoveStart (some l) n m =
        some (FifoSpec.count (ns.drop n.toNat), (ns.take n.toNat).map (·.2), m') ∧
      Rep m' l (ns.drop n.toNat) ∧ Frame [l] m m' := by
  have hnd := R.chain.nodup
  have hsplit : ns.take n.toNat ++ ns.drop n.toNat = ns := List.take_append_drop _ _
  obtain ⟨m₁, hm₁, hf₁, hlen₁, hne₁⟩ := freeElems_chain (n := n.toNat) R.chain
  have hfifo₁ : m₁.fifos.get l = _ := hf₁ ▸ R.fifo
  obtain ⟨m', hs, hf, hne, hel⟩ := setFifo_eq (g := ⟨firstOf (ns.drop n.toNat), lastOf (ns.drop n.toNat),
    FifoSpec.count (ns.drop n.toNat)⟩) hfifo₁
  have hlast : (if firstOf (ns.drop n.toNat) = none then none else lastOf ns) = lastOf (ns.drop n.toNat) := by
    split
    · next h => rw [firstOf_eq_none.mp h, lastOf_nil]
    · next h =>
      have hne : ns.drop n.toNat ≠ [] := fun h' => h (h' ▸ rfl)
      have h : lastOf (ns.take n.toNat ++ ns.drop n.toNat) = _ := lastOf_append hne
      rw [← h, hsplit]
  refine ⟨m', ?_, ⟨hf, ?_⟩, ?_⟩
  · simp only [nlFifoRemoveStart, R.fifo, hm₁, Option.bind_eq_bind, Option.bind_some, hlast, count_drop, hs]
    rfl
  · refine (R.chain_drop _).congr ?_
    intro j hj
    rw [hel, hne₁ _ fun hm => ?_]
    obtain ⟨k, hk, hkj⟩ := List.mem_map.mp hm
    rw [← hsplit] at hnd
    exact ne_of_nodup_append hnd hk hj hkj
  · refine Frame.of_nodes R.chain (fun k hk => (hne k hk).trans (congrArg (·.get k) hf₁)) (hel ▸ hlen₁) ?_
    intro a ha
    rw [hel]
    exact hne₁ a fun hm => ha (List.map_subset _ (List.take_subset _ _) hm)

theorem clear_rep (R : Rep m l ns) (hlen : ns.length < 2 ^ 32) :
    ∃ m', nlFifoClearCb (some l) m = some (ns.map (·.2), m') ∧ Rep m' l [] ∧ Frame [l] m m' := by
  obtain ⟨m', hm, R', hF⟩ := removeStart_rep (n := FifoSpec.count ns) R
  rw [FifoSpec.toNat_count hlen, List.take_length, List.drop_length] at hm
  rw [FifoSpec.toNat_count hlen, List.drop_length] at R'
  exact ⟨m', by simp [nlFifoClearCb, R.fifo, hm], R', hF⟩

/-! ### `nl_fifo_remove_end` -/

theorem walkElems_chain (as : List (Addr × D)) {bs cs : List (Addr × D)} {p : Option Addr}
    (h : Chain m l p (cs ++ bs) none) :
    walkElems m cs.length (lastOf as) p = some (lastOf (as ++ cs), firstOf bs) := by
  induction cs generalizing as p with
  | nil =>
    rw [List.nil_append] at h
    rw [List.append_nil, h.first]
    rfl
  | cons c cs ih =>
    obtain ⟨rfl, nx, hg, hcs⟩ := chain_cons.mp h
    have hrec : walkElems m cs.length (lastOf (as ++ [c])) nx = _ := ih _ hcs
    rw [lastOf_snoc, List.append_assoc, List.singleton_append] at hrec
    simp only [walkElems, List.length_cons, Heap.deref_some, hg, Option.bind_eq_bind, Option.bind_some]
    cases cs <;> simpa using hrec

/-- The last element that stays becomes the end of the chain. -/
theorem removeEnd_some {as bs : List (Addr × D)} {n : UInt32} (R : Rep m l (as ++ bs)) (has : as ≠ [])
    (hlen : (as ++ bs).length < 2 ^ 32) (hbs : bs.length = n.toNat) :
    ∃ m', nlFifoRemoveEnd (some l) n m = some (FifoSpec.count as, bs.map (·.2), m') ∧ Rep m' l as ∧ Frame [l] m m' := by
  have hnd := R.chain.nodup
  have hcount : (FifoSpec.count (as ++ bs)).toNat = as.length + bs.length := by
    rw [FifoSpec.toNat_count hlen, List.length_append]
  have hpos : 0 < as.length := List.length_pos_iff.mpr has
  have hlt : ¬n ≥ FifoSpec.count (as ++ bs) := by
    rw [ge_iff_le, UInt32.le_iff_toNat_le, hcount]
    omega
  have hle : n ≤ FifoSpec.count (as ++ bs) := by
    rw [UInt32.le_iff_toNat_le, hcount]
    omega
  have hk : (FifoSpec.count (as ++ bs) - n).toNat = as.length := by
    rw [UInt32.toNat_sub_of_le _ _ hle, hcount]
    omega
  have hsub : FifoSpec.count (as ++ bs) - FifoSpec.count bs = FifoSpec.count as := by
    rw [count_append, UInt32.add_sub_cancel]
  obtain ⟨ms, c, rfl⟩ := (eq_nil_or_snoc as).resolve_left has
  obtain ⟨r, has, hr⟩ := chain_append.mp R.chain
  obtain rfl := hr.first
  have hwalk := walkElems_chain [] R.chain
  rw [List.nil_append, lastOf_nil] at hwalk
  obtain ⟨m₁, hm₁, hf₁, hlen₁, hne₁⟩ := freeElems_chain (n := n.toNat) hr
  rw [← hbs, List.take_length, List.drop_length] at hm₁
  rw [← hbs, List.take_length] at hne₁
  obtain ⟨nx, hgc⟩ := has.get (n := c) (by simp)
  have hgc₁ : m₁.elems.get c.1 = some ⟨nx, c.2, l⟩ := by
    rw [hne₁ c.1 fun hm => ?_, hgc]
    obtain ⟨j, hj, hjc⟩ := List.mem_map.mp hm
    exact ne_of_nodup_append hnd (k := c) (by simp) hj hjc.symm
  have hfifo₁ : m₁.fifos.get l = _ := hf₁ ▸ R.fifo
  obtain ⟨m₂, hs₂, hf₂, hne₂, hel₂⟩ := setFifo_eq (g := ⟨firstOf (ms ++ [c] ++ bs), some c.1,
    FifoSpec.count (ms ++ [c])⟩) hfifo₁
  have hgc₂ : m₂.elems.get c.1 = _ := hel₂ ▸ hgc₁
  obtain ⟨m', hs, hc, hne, hff, hlen'⟩ := setElem_eq ⟨none, c.2, l⟩ hgc₂
  have hfirst : firstOf (ms ++ [c] ++ bs) = firstOf (ms ++ [c]) := firstOf_append (by simp)
  refine ⟨m', ?_, ⟨?_, ?_⟩, ?_⟩
  · simp only [nlFifoRemoveEnd, R.fifo, Option.bind_eq_bind, Option.bind_some, hlt, if_false, hk, hwalk, lastOf_snoc,
      hbs ▸ hm₁, hgc₁, hsub, hs₂, hs]
    rfl
  · rw [hff, hf₂, hfirst, lastOf_snoc]
  · rw [hfirst] at has
    refine has.relink hc ?_
    intro j hj
    have hjc : j.1 ≠ c.1 := by
      rw [List.append_assoc] at hnd
      exact ne_of_nodup_append hnd hj (by simp)
    rw [hne _ hjc, hel₂, hne₁ _ fun hm => ?_]
    obtain ⟨k, hk, hkj⟩ := List.mem_map.mp hm
    exact ne_of_nodup_append hnd (List.mem_append_left _ hj) hk hkj.symm
  · refine Frame.of_nodes R.chain ?_ (by rw [hlen', hel₂, hlen₁]) ?_
    · intro k hk
      rw [hff, hne₂ k hk, hf₁]
    · intro a ha
      rw [List.map_append, List.mem_append, not_or] at ha
      have hac : a ≠ c.1 := fun h => ha.1 (h ▸ by simp)
      rw [hne a hac, hel₂, hne₁ a ha.2]

theorem removeEnd_rep {n : UInt32} (R : Rep m l ns) (hlen : ns.length < 2 ^ 32) :
    ∃ m', nlFifoRemoveEnd (some l) n m = some (FifoSpec.count (ns.take (ns.length - n.toNat)),
        (ns.drop (ns.length - n.toNat)).map (·.2), m') ∧
      Rep m' l (ns.take (ns.length - n.toNat)) ∧ Frame [l] m m' := by
  by_cases hge : ns.length ≤ n.toNat
  · have hz : ns.length - n.toNat = 0 := by omega
    have hge' : n ≥ FifoSpec.count ns := by rwa [ge_iff_le, UInt32.le_iff_toNat_le, FifoSpec.toNat_count hlen]
    obtain ⟨m', hm, R', hF⟩ := clear_rep R hlen
    rw [hz, List.take_zero, List.drop_zero]
    refine ⟨m', ?_, R', hF⟩
    simp only [nlFifoRemoveEnd, R.fifo, Option.bind_eq_bind, Option.bind_some, hge', if_true, hm]
    rfl
  · have hsplit := List.take_append_drop (ns.length - n.toNat) ns
    have has : ns.take (ns.length - n.toNat) ≠ [] := by
      rw [← List.length_pos_iff, List.length_take]
      omega
    have hbs : (ns.drop (ns.length - n.toNat)).length = n.toNat := by
      rw [List.length_drop]
      omega
    exact removeEnd_some (hsplit.symm ▸ R) has (hsplit.symm ▸ hlen) hbs

end
end Nlutils
