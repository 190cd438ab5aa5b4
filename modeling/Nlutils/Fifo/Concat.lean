import Nlutils.Fifo.Removal

/-! # Concatenation of two fifos -/

namespace Nlutils
open Lib

variable {D : Type} {m : FifoMem D} {src dest : Addr} {ns ss ds : List (Addr × D)}

/-- The loop gives the elements of a chain to another fifo. -/
theorem moveElems_chain (dest : Addr) {fuel : Nat} {p : Option Addr} (h : Chain m src p ns none)
    (hfuel : ns.length ≤ fuel) :
    ∃ m', moveElems dest fuel p m = some m' ∧ Chain m' dest p ns none ∧ m'.fifos = m.fifos ∧
      m'.elems.cells.length = m.elems.cells.length ∧
      ∀ a, a ∉ ns.map (·.1) → m'.elems.get a = m.elems.get a := by
  induction ns generalizing m fuel p with
  | nil =>
    rw [chain_nil] at h
    subst h
    exact ⟨m, by cases fuel <;> rfl, rfl, rfl, rfl, fun _ _ => rfl⟩
  | cons b bs ih =>
    rcases fuel with _ | fuel
    · simp at hfuel
    have hnd := h.nodup
    obtain ⟨rfl, nx, hg, hbs⟩ := chain_cons.mp h
    obtain ⟨m₁, hs₁, hb₁, hne₁, hf₁, hlen₁⟩ := setElem_eq ⟨nx, b.2, dest⟩ hg
    have hbs₁ : Chain m₁ src nx bs none := hbs.congr fun j hj =>
      hne₁ _ (ne_of_nodup_cons hnd hj)
    obtain ⟨m', hm, hC, hf, hlen, hne⟩ := ih hbs₁ (Nat.le_of_succ_le_succ hfuel)
    have hb' : m'.elems.get b.1 = some ⟨nx, b.2, dest⟩ := by
      rw [hne b.1 (List.nodup_cons.mp hnd).1, hb₁]
    refine ⟨m', ?_, chain_cons.mpr ⟨rfl, nx, hb', hC⟩, hf.trans hf₁, hlen.trans hlen₁, ?_⟩
    · simp only [moveElems, hg, hs₁, hm, Option.bind_eq_bind, Option.bind_some]
    · intro a ha
      rw [List.map_cons, List.mem_cons, not_or] at ha
      rw [hne a ha.2, hne₁ a ha.1]

theorem takeElems_eq (dest : Addr) (R : Rep m src ss) : ∃ m', takeElems src dest m =
      some (⟨firstOf ss, lastOf ss, FifoSpec.count ss⟩, m') ∧
    m'.fifos.get src = some ⟨none, none, FifoSpec.count ss⟩ ∧ (∀ k, k ≠ src → m'.fifos.get k = m.fifos.get k) ∧
    Chain m' dest (firstOf ss) ss none ∧ m'.elems.cells.length = m.elems.cells.length ∧
    ∀ a, a ∉ ss.map (·.1) → m'.elems.get a = m.elems.get a := by
  obtain ⟨m₁, hs₁, hf₁, hne₁, hel₁⟩ := setFifo_eq (g := ⟨none, none, FifoSpec.count ss⟩) R.fifo
  have hC₁ : Chain m₁ src (firstOf ss) ss none := R.chain.congr fun j _ => by rw [hel₁]
  have hb : ss.length ≤ m₁.bound := by
    have := R.length_lt_bound
    rw [FifoMem.bound, hel₁]
    exact Nat.le_of_lt this
  obtain ⟨m', hm, hC, hf, hlen, hne⟩ := moveElems_chain dest hC₁ hb
  refine ⟨m', ?_, hf ▸ hf₁, fun k hk => (congrArg (·.get k) hf).trans (hne₁ k hk), hC,
    by rw [hlen, hel₁], ?_⟩
  · simp only [takeElems, R.fifo, hs₁, hm, Option.bind_eq_bind, Option.bind_some]
    rfl
  · intro a ha
    rw [hne a ha, hel₁]

theorem moveCount_eq {d : Fifo} {n : UInt32} (hne : src ≠ dest) (hs : m.fifos.get src = some ⟨none, none, n⟩)
    (hd : m.fifos.get dest = some d) : ∃ m', moveCount src dest m = some (d.count + n, m') ∧
      m'.fifos.get src = some ⟨none, none, 0⟩ ∧ m'.fifos.get dest = some { d with count := d.count + n } ∧
      (∀ k, k ≠ src → k ≠ dest → m'.fifos.get k = m.fifos.get k) ∧ m'.elems = m.elems := by
  obtain ⟨m₁, hs₁, hf₁, hne₁, hel₁⟩ := setFifo_eq (g := { d with count := d.count + n }) hd
  have hsrc₁ : m₁.fifos.get src = some ⟨none, none, n⟩ := (hne₁ src hne).trans hs
  obtain ⟨m', hs', hf, hne', hel⟩ := setFifo_eq (g := ⟨none, none, 0⟩) hsrc₁
  have hdest : m'.fifos.get dest = some { d with count := d.count + n } := (hne' dest hne.symm).trans hf₁
  refine ⟨m', ?_, hf, hdest, fun k hk hk' => (hne' k hk).trans (hne₁ k hk'), hel.trans hel₁⟩
  simp only [moveCount, hs, hd, hs₁, hsrc₁, hs', hdest, Option.bind_eq_bind, Option.bind_some]
  rfl

/-- The elements of two fifos are different ones. -/
theorem Rep.disjoint {ls : Addr} {ld : Addr} (hne : ls ≠ ld) (R : Rep m ls ss) (R' : Rep m ld ds) :
    ∀ j ∈ ss, ∀ k ∈ ds, j.1 ≠ k.1 := by
  intro j hj k hk he
  obtain ⟨nx, hg⟩ := R.chain.get hj
  obtain ⟨nx', hg'⟩ := R'.chain.get hk
  rw [he, hg'] at hg
  exact hne (FifoElement.mk.inj (Option.some.inj hg)).2.2.symm

theorem Frame.of_two {m' : FifoMem D} (R : Rep m src ss) (R' : Rep m dest ds)
    (hf : ∀ k, k ≠ src → k ≠ dest → m'.fifos.get k = m.fifos.get k)
    (hlen : m'.elems.cells.length = m.elems.cells.length)
    (hne : ∀ a, a ∉ ss.map (·.1) → a ∉ ds.map (·.1) → m'.elems.get a = m.elems.get a) : Frame [src, dest] m m' where
  fifos k hk := by
    simp only [List.mem_cons, List.not_mem_nil, or_false, not_or] at hk
    exact hf k hk.1 hk.2
  elems a e ha hl := by
    simp only [List.mem_cons, List.not_mem_nil, or_false, not_or] at hl
    refine (hne a ?_ ?_).trans ha
    · intro hm
      obtain ⟨j, hj, rfl⟩ := List.mem_map.mp hm
      obtain ⟨nx, hg⟩ := R.chain.get hj
      exact hl.1 (FifoElement.mk.inj (Option.some.inj (ha.symm.trans hg))).2.2
    · intro hm
      obtain ⟨j, hj, rfl⟩ := List.mem_map.mp hm
      obtain ⟨nx, hg⟩ := R'.chain.get hj
      exact hl.2 (FifoElement.mk.inj (Option.some.inj (ha.symm.trans hg))).2.2
  grows := Nat.le_of_eq hlen.symm

theorem count_pos {α : Type} {xs : List α} (h : xs.length < 2 ^ 32) (hne : xs ≠ []) : FifoSpec.count xs > 0 := by
  rw [gt_iff_lt, UInt32.lt_iff_toNat_lt, FifoSpec.toNat_count h]
  exact List.length_pos_iff.mpr hne

/-- Nothing moves out of an empty fifo. -/
theorem concat_empty (hne : src ≠ dest) (R : Rep m src []) (R' : Rep m dest ds) {m₁ : FifoMem D}
    (hs : m₁.fifos.get src = some ⟨none, none, 0⟩) (hf : ∀ k, k ≠ src → m₁.fifos.get k = m.fifos.get k)
    (hlen : m₁.elems.cells.length = m.elems.cells.length) (hg : ∀ a, m₁.elems.get a = m.elems.get a) :
    ∃ m', moveCount src dest m₁ = some (FifoSpec.count ds, m') ∧ Rep m' src [] ∧ Rep m' dest ds ∧
      Frame [src, dest] m m' := by
  obtain ⟨m', hm, hsrc, hdest, hk, hel⟩ := moveCount_eq hne hs ((hf dest hne.symm).trans R'.fifo)
  rw [UInt32.add_zero] at hm hdest
  refine ⟨m', hm, ⟨hsrc, rfl⟩, ⟨hdest, R'.chain.congr fun j _ => by rw [hel, hg]⟩, .of_two R R' ?_ ?_
    fun a _ _ => by rw [hel, hg]⟩
  · intro k h h'
    exact (hk k h h').trans (hf k h)
  · rw [hel, hlen]

theorem concatStart_rep (hne : src ≠ dest) (R : Rep m src ss) (R' : Rep m dest ds) (hss : ss.length < 2 ^ 32)
    (hds : ds.length < 2 ^ 32) :
    ∃ m', nlFifoConcatStart (some src) (some dest) m = some (FifoSpec.count (ss ++ ds), m') ∧
      Rep m' src [] ∧ Rep m' dest (ss ++ ds) ∧ Frame [src, dest] m m' := by
  have hdisj := R.disjoint hne R'
  obtain ⟨m₁, hm₁, hsrc₁, hf₁, hC₁, hlen₁, hne₁⟩ := takeElems_eq dest R
  simp only [nlFifoConcatStart, hm₁, Option.bind_eq_bind, Option.bind_some]
  rcases eq_nil_or_snoc ss with rfl | ⟨ms, k, rfl⟩
  · exact concat_empty hne R R' hsrc₁ hf₁ hlen₁ fun a => hne₁ a List.not_mem_nil
  · have hms : ms ++ [k] ≠ [] := by simp
    have hdest₁ := (hf₁ dest hne.symm).trans R'.fifo
    obtain ⟨m₂, hs₂, hk₂, hne₂, hf₂, hlen₂⟩ := setElem_eq ⟨firstOf ds, k.2, dest⟩ hC₁.last
    have hdest₂ : m₂.fifos.get dest = _ := hf₂ ▸ hdest₁
    obtain ⟨m₃, hs₃, hf₃, hne₃, hel₃⟩ := setFifo_eq (g := ⟨firstOf (ms ++ [k]), lastOf (ms ++ [k] ++ ds),
      FifoSpec.count ds⟩) hdest₂
    have hsrc₃ : m₃.fifos.get src = some ⟨none, none, FifoSpec.count (ms ++ [k])⟩ := by
      rw [hne₃ src hne, hf₂, hsrc₁]
    obtain ⟨m', hm', hsrc, hdest, hk', hel⟩ := moveCount_eq hne hsrc₃ hf₃
    have hcount : FifoSpec.count ds + FifoSpec.count (ms ++ [k]) = FifoSpec.count (ms ++ [k] ++ ds) := by
      rw [UInt32.add_comm]
      exact count_append.symm
    have hlast : (if FifoSpec.count ds = 0 then lastOf (ms ++ [k]) else lastOf ds) = lastOf (ms ++ [k] ++ ds) := by
      split
      · next h => rw [(FifoSpec.count_eq_zero_iff hds).mp h, List.append_nil]
      · next h => rw [lastOf_append (mt (FifoSpec.count_eq_zero_iff hds).mpr h)]
    rw [hcount] at hm' hdest
    refine ⟨m', ?_, ⟨hsrc, rfl⟩, ⟨?_, ?_⟩, .of_two R R' ?_ ?_ ?_⟩
    · rw [if_pos (count_pos hss hms)]
      simp only [hdest₁, lastOf_snoc, hC₁.last, hs₂, Option.bind_some]
      rw [lastOf_snoc] at hlast
      simp only [hlast, hs₃, Option.bind_some, hm']
    · rw [hdest, firstOf_append hms]
    · have hmsC : Chain m' dest (firstOf (ms ++ [k])) (ms ++ [k]) (firstOf ds) := by
        refine hC₁.relink (by rw [hel, hel₃, hk₂]) ?_
        intro j hj
        have hjk : j.1 ≠ k.1 := ne_of_nodup_append R.chain.nodup hj List.mem_cons_self
        rw [hel, hel₃, hne₂ _ hjk]
      have hdsC : Chain m' dest (firstOf ds) ds none := R'.chain.congr fun j hj => by
        rw [hel, hel₃, hne₂ _ (hdisj k (by simp) j hj).symm, hne₁ _ fun hm => ?_]
        obtain ⟨i, hi, hij⟩ := List.mem_map.mp hm
        exact hdisj i hi j hj hij
      rw [firstOf_append hms]
      exact chain_append.mpr ⟨_, hmsC, hdsC⟩
    · intro j hj hj'
      rw [hk' j hj hj', hne₃ j hj', hf₂, hf₁ j hj]
    · rw [hel, hel₃, hlen₂, hlen₁]
    · intro a ha ha'
      have hak : a ≠ k.1 := fun h => ha (h ▸ by simp)
      rw [hel, hel₃, hne₂ a hak, hne₁ a ha]

theorem concatEnd_rep (hne : src ≠ dest) (R : Rep m src ss) (R' : Rep m dest ds) (hss : ss.length < 2 ^ 32) :
    ∃ m', nlFifoConcatEnd (some src) (some dest) m = some (FifoSpec.count (ds ++ ss), m') ∧
      Rep m' src [] ∧ Rep m' dest (ds ++ ss) ∧ Frame [src, dest] m m' := by
  have hdisj := R.disjoint hne R'
  obtain ⟨m₁, hm₁, hsrc₁, hf₁, hC₁, hlen₁, hne₁⟩ := takeElems_eq dest R
  simp only [nlFifoConcatEnd, hm₁, Option.bind_eq_bind, Option.bind_some]
  by_cases hnil : ss = []
  · subst hnil
    rw [List.append_nil]
    exact concat_empty hne R R' hsrc₁ hf₁ hlen₁ fun a => hne₁ a List.not_mem_nil
  · have hdest₁ := (hf₁ dest hne.symm).trans R'.fifo
    have hget (j : Addr × D) (hj : j ∈ ds) : m₁.elems.get j.1 = m.elems.get j.1 := hne₁ _ fun hm => by
      obtain ⟨i, hi, hij⟩ := List.mem_map.mp hm
      exact hdisj i hi j hj hij
    have hcount : FifoSpec.count ds + FifoSpec.count ss = FifoSpec.count (ds ++ ss) := count_append.symm
    rw [if_pos (count_pos hss hnil)]
    rcases eq_nil_or_snoc ds with rfl | ⟨ms, k, rfl⟩
    · obtain ⟨m₃, hs₃, hf₃, hne₃, hel₃⟩ := setFifo_eq (g := ⟨firstOf ss, lastOf ss, 0⟩) hdest₁
      have hsrc₃ : m₃.fifos.get src = some ⟨none, none, FifoSpec.count ss⟩ := (hne₃ src hne).trans hsrc₁
      obtain ⟨m', hm', hsrc, hdest, hk', hel⟩ := moveCount_eq hne hsrc₃ hf₃
      refine ⟨m', ?_, ⟨hsrc, rfl⟩, ⟨?_, hC₁.congr fun j _ => by rw [hel, hel₃]⟩, .of_two R R' ?_ ?_ ?_⟩
      · simp only [hdest₁, lastOf_nil, Option.bind_some]
        rw [← hcount]
        simp only [show FifoSpec.count ([] : List (Addr × D)) = 0 from rfl, hs₃, Option.bind_some, hm']
      · rw [hdest, ← hcount]
        rfl
      · intro j hj hj'
        rw [hk' j hj hj', hne₃ j hj', hf₁ j hj]
      · rw [hel, hel₃, hlen₁]
      · intro a ha _
        rw [hel, hel₃, hne₁ a ha]
    · have hk₁ : m₁.elems.get k.1 = some ⟨none, k.2, dest⟩ := (hget k (by simp)).trans R'.chain.last
      obtain ⟨m₂, hs₂, hk₂, hne₂, hf₂, hlen₂⟩ := setElem_eq ⟨firstOf ss, k.2, dest⟩ hk₁
      have hdest₂ : m₂.fifos.get dest = _ := hf₂ ▸ hdest₁
      obtain ⟨m₃, hs₃, hf₃, hne₃, hel₃⟩ := setFifo_eq (g := ⟨firstOf (ms ++ [k]), lastOf ss,
        FifoSpec.count (ms ++ [k])⟩) hdest₂
      have hsrc₃ : m₃.fifos.get src = some ⟨none, none, FifoSpec.count ss⟩ := by rw [hne₃ src hne, hf₂, hsrc₁]
      obtain ⟨m', hm', hsrc, hdest, hk', hel⟩ := moveCount_eq hne hsrc₃ hf₃
      have hms : ms ++ [k] ≠ [] := by simp
      rw [hcount] at hm' hdest
      refine ⟨m', ?_, ⟨hsrc, rfl⟩, ⟨?_, ?_⟩, .of_two R R' ?_ ?_ ?_⟩
      · simp only [hdest₁, lastOf_snoc, hk₁, hs₂, hs₃, Option.bind_some, hm']
      · rw [hdest, firstOf_append hms, lastOf_append hnil]
      · have hmsC : Chain m' dest (firstOf (ms ++ [k])) (ms ++ [k]) (firstOf ss) := by
          refine R'.chain.relink (by rw [hel, hel₃, hk₂]) ?_
          intro j hj
          have hjk : j.1 ≠ k.1 := ne_of_nodup_append R'.chain.nodup hj List.mem_cons_self
          rw [hel, hel₃, hne₂ _ hjk, hget j (List.mem_append_left _ hj)]
        have hssC : Chain m' dest (firstOf ss) ss none := hC₁.congr fun j hj => by
          rw [hel, hel₃, hne₂ _ (hdisj j hj k (by simp))]
        rw [firstOf_append hms]
        exact chain_append.mpr ⟨_, hmsC, hssC⟩
      · intro j hj hj'
        rw [hk' j hj hj', hne₃ j hj', hf₂, hf₁ j hj]
      · rw [hel, hel₃, hlen₂, hlen₁]
      · intro a ha ha'
        have hak : a ≠ k.1 := fun h => ha' (h ▸ by simp)
        rw [hel, hel₃, hne₂ a hak, hne₁ a ha]

end Nlutils
