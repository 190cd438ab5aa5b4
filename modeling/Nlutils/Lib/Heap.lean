import Mathlib.Algebra.Ring.Nat

/-! # Heaps and the linked lists in them

A heap of cells of one type. An address is never handed out again, and a cell that has been freed cannot be
read, written or freed again: such an access has no result.

A segment is a chain of cells, each of which names the next one. -/

namespace Lib

abbrev Addr := Nat

structure Heap (α : Type) where
  cells : List (Option α) := []
  deriving DecidableEq, Repr

namespace Heap
variable {α : Type}

def get (h : Heap α) (a : Addr) : Option α := h.cells[a]?.join

/-- Reads through a pointer, which may be NULL. -/
def deref (h : Heap α) (p : Option Addr) : Option α := p.bind h.get

def alloc (h : Heap α) (v : α) : Addr × Heap α := (h.cells.length, ⟨h.cells ++ [some v]⟩)

/-- Writes to a cell that is there. -/
def set (h : Heap α) (a : Addr) (v : α) : Option (Heap α) := (h.get a).map fun _ => ⟨h.cells.set a (some v)⟩

def free (h : Heap α) (a : Addr) : Option (Heap α) := (h.get a).map fun _ => ⟨h.cells.set a none⟩

variable {h h' : Heap α} {a b : Addr} {v w : α}

theorem lt_of_get (hg : h.get a = some v) : a < h.cells.length := by
  rcases Nat.lt_or_ge a h.cells.length with hlt | hge
  · exact hlt
  · simp [get, List.getElem?_eq_none hge] at hg

@[simp] theorem deref_some : h.deref (some a) = h.get a := rfl

theorem get_alloc_self : (h.alloc v).2.get (h.alloc v).1 = some v := by simp [alloc, get]

theorem get_alloc (hg : h.get a = some w) : (h.alloc v).2.get a = some w := by
  have hlt := lt_of_get hg
  simpa [alloc, get, List.getElem?_append_left hlt] using hg

/-- A new address is that of no cell of the old heap. -/
theorem ne_length_of_get (hg : h.get a = some w) : a ≠ h.cells.length := Nat.ne_of_lt (lt_of_get hg)

theorem get_alloc_ne (hne : a ≠ (h.alloc v).1) : (h.alloc v).2.get a = h.get a := by
  have hne : a ≠ h.cells.length := hne
  rcases Nat.lt_or_ge a h.cells.length with hlt | hge
  · simp [alloc, get, List.getElem?_append_left hlt]
  · have hgt : h.cells.length < a := Nat.lt_of_le_of_ne hge (Ne.symm hne)
    have hl : (h.cells ++ [some v]).length ≤ a := by simpa using Nat.succ_le_of_lt hgt
    simp only [alloc, get]
    rw [List.getElem?_eq_none hl, List.getElem?_eq_none hge]

theorem set_eq_some (hg : h.get a = some w) : ∃ h', h.set a v = some h' ∧ h'.get a = some v ∧
    (∀ b, b ≠ a → h'.get b = h.get b) ∧ h'.cells.length = h.cells.length := by
  refine ⟨⟨h.cells.set a (some v)⟩, by simp [set, hg], ?_, ?_, List.length_set⟩
  · simp [get, lt_of_get hg]
  · intro b hb
    simp [get, hb.symm]

theorem free_eq_some (hg : h.get a = some w) : ∃ h', h.free a = some h' ∧ h'.get a = none ∧
    (∀ b, b ≠ a → h'.get b = h.get b) ∧ h'.cells.length = h.cells.length := by
  refine ⟨⟨h.cells.set a none⟩, by simp [free, hg], ?_, ?_, List.length_set⟩
  · simp [get, lt_of_get hg]
  · intro b hb
    simp [get, hb.symm]

/-! ### Footprints -/

/-- A change to no cells but those of a footprint and new ones, which leads to another footprint. -/
structure Updates (fp fp' : List Addr) (h h' : Heap α) : Prop where
  keeps : ∀ a v, h.get a = some v → a ∉ fp → h'.get a = some v
  grows : h.cells.length ≤ h'.cells.length
  owned : ∀ a ∈ fp', a ∈ fp ∨ h.cells.length ≤ a

section
variable {h'' : Heap α} {fp fp' fp'' : List Addr}

theorem Updates.refl (hfp : ∀ a ∈ fp', a ∈ fp) : Updates fp fp' h h :=
  ⟨fun _ _ ha _ => ha, Nat.le_refl _, fun a ha => Or.inl (hfp a ha)⟩

theorem Updates.trans (U : Updates fp fp' h h') (U' : Updates fp' fp'' h' h'') : Updates fp fp'' h h'' where
  keeps a v ha hfp := by
    refine U'.keeps a v (U.keeps a v ha hfp) ?_
    intro ha'
    rcases U.owned a ha' with hmem | hle
    · exact hfp hmem
    · exact absurd (lt_of_get ha) (Nat.not_lt.mpr hle)
  grows := Nat.le_trans U.grows U'.grows
  owned a ha := by
    rcases U'.owned a ha with hmem | hle
    · exact U.owned a hmem
    · exact Or.inr (Nat.le_trans U.grows hle)

theorem Updates.weaken (U : Updates fp fp' h h') (hfp : ∀ a ∈ fp'', a ∈ fp') : Updates fp fp'' h h' :=
  ⟨U.keeps, U.grows, fun a ha => U.owned a (hfp a ha)⟩

theorem Updates.alloc : Updates fp (fp ++ [h.cells.length]) h (h.alloc v).2 where
  keeps _ _ ha _ := get_alloc ha
  grows := by simp [Heap.alloc]
  owned a ha := by
    rcases List.mem_append.mp ha with ha | ha
    · exact Or.inl ha
    · exact Or.inr (Nat.le_of_eq (List.mem_singleton.mp ha).symm)

theorem Updates.of_ne (ha : a ∈ fp) (hne : ∀ b, b ≠ a → h'.get b = h.get b)
    (hlen : h'.cells.length = h.cells.length) : Updates fp fp h h' where
  keeps b w hb hfp := by
    rw [hne b (fun he => hfp (he ▸ ha)), hb]
  grows := Nat.le_of_eq hlen.symm
  owned _ hb := Or.inl hb

/-- Cells of another footprint are not among those that a change adds. -/
theorem Updates.disjoint {gp : List Addr} (U : Updates fp fp' h h') (hgp : ∀ a ∈ gp, ∃ v, h.get a = some v)
    (hd : ∀ a ∈ fp, a ∉ gp) : ∀ a ∈ fp', a ∉ gp := by
  intro a ha hmem
  obtain ⟨v, hv⟩ := hgp a hmem
  rcases U.owned a ha with hfp | hle
  · exact hd a hfp hmem
  · exact absurd (lt_of_get hv) (Nat.not_lt.mpr hle)

end

/-! ### What is outside a footprint -/

/-- The cells that are not in a footprint. -/
def outside (fp : List Addr) (h : Heap α) (a : Addr) : Option α := if a ∈ fp then none else h.get a

section
variable {fp fp' : List Addr}

theorem outside_nil : h.outside [] = h.get := funext fun _ => if_neg List.not_mem_nil

theorem outside_congr (hfp : ∀ a, a ∈ fp ↔ a ∈ fp') : h.outside fp = h.outside fp' := by
  funext a
  simp only [outside, hfp a]

theorem outside_of_get (hget : h'.get = h.get) : h'.outside fp = h.outside fp := by
  funext a
  simp only [outside, hget]

/-- A new cell belongs to the footprint. -/
theorem outside_alloc : (h.alloc v).2.outside (h.cells.length :: fp) = h.outside fp := by
  funext a
  unfold outside
  by_cases ha : a = h.cells.length
  · have hnone : h.get a = none := by simp [ha, get]
    simp [ha, ← hnone]
  · have hne : a ≠ (h.alloc v).1 := ha
    simp [ha, get_alloc_ne hne]

theorem outside_set (hs : h.set a v = some h') (ha : a ∈ fp) : h'.outside fp = h.outside fp := by
  obtain ⟨w, hw, -⟩ := Option.map_eq_some_iff.mp hs
  obtain ⟨h'', hs', -, hother, -⟩ := set_eq_some (v := v) hw
  obtain rfl := Option.some.inj (hs.symm.trans hs')
  funext b
  unfold outside
  split
  · rfl
  · next hb => exact hother b fun he => hb (he ▸ ha)

/-- A cell that is freed leaves the footprint. -/
theorem outside_free (hf : h.free a = some h') : h'.outside fp = h.outside (a :: fp) := by
  obtain ⟨w, hw, -⟩ := Option.map_eq_some_iff.mp hf
  obtain ⟨h'', hf', hnone, hother, -⟩ := free_eq_some hw
  obtain rfl := Option.some.inj (hf.symm.trans hf')
  funext b
  unfold outside
  by_cases hb : b = a
  · simp [hb, hnone]
  · simp [hb, hother b hb]

/-- A cell that has been made and freed again. -/
theorem get_free_alloc {h₁ : Heap α} (hf : (h.alloc v).2.free h.cells.length = some h₁) : h₁.get = h.get := by
  rw [← outside_nil, outside_free hf, outside_alloc, outside_nil]

end

/-- A cell is written right after it has been made. -/
theorem set_alloc_self : (h.alloc v).2.set h.cells.length w = some (h.alloc w).2 := by
  have hget : (h.alloc v).2.get h.cells.length = some v := get_alloc_self
  rw [set, hget]
  simp [alloc]

end Heap

/-! ### Segments -/

section Segment
variable {α β : Type} (next : α → Option Addr) (val : α → β)

/-- The chain of cells from one pointer to another, each with its address and value. -/
def Segment (h : Heap α) : Option Addr → List (Addr × β) → Option Addr → Prop
  | p, [], q => p = q
  | p, n :: ns, q => p = some n.1 ∧ ∃ v, h.get n.1 = some v ∧ val v = n.2 ∧ Segment h (next v) ns q

variable {next : α → Option Addr} {val : α → β} {h h' : Heap α} {p q r : Option Addr} {n : Addr × β}
  {ns ms : List (Addr × β)}

theorem segment_append : Segment next val h p (ns ++ ms) q ↔
    ∃ r, Segment next val h p ns r ∧ Segment next val h r ms q := by
  induction ns generalizing p with
  | nil => simp [Segment]
  | cons n ns ih =>
    simp only [List.cons_append, Segment, ih]
    constructor
    · rintro ⟨hp, v, hg, hv, r, hns, hms⟩
      exact ⟨r, ⟨hp, v, hg, hv, hns⟩, hms⟩
    · rintro ⟨r, ⟨hp, v, hg, hv, hns⟩, hms⟩
      exact ⟨hp, v, hg, hv, r, hns, hms⟩

theorem Segment.append (hns : Segment next val h p ns r) (hms : Segment next val h r ms q) :
    Segment next val h p (ns ++ ms) q := segment_append.mpr ⟨r, hns, hms⟩

/-- A change elsewhere leaves a segment alone. -/
theorem Segment.congr (hs : Segment next val h p ns q) (hc : ∀ n ∈ ns, h'.get n.1 = h.get n.1) :
    Segment next val h' p ns q := by
  induction ns generalizing p with
  | nil => exact hs
  | cons n ns ih =>
    obtain ⟨hp, v, hg, hv, hns⟩ := hs
    refine ⟨hp, v, ?_, hv, ih hns fun m hm => hc m (List.mem_cons_of_mem _ hm)⟩
    rw [hc n List.mem_cons_self, hg]

theorem Segment.get (hs : Segment next val h p ns q) (hn : n ∈ ns) : ∃ v, h.get n.1 = some v ∧ val v = n.2 := by
  induction ns generalizing p with
  | nil => cases hn
  | cons m ns ih =>
    obtain ⟨-, v, hg, hv, hns⟩ := hs
    rcases List.mem_cons.mp hn with rfl | hn
    · exact ⟨v, hg, hv⟩
    · exact ih hns hn

/-- A chain that ends is given by where it starts. -/
theorem Segment.unique (hs : Segment next val h p ns none) (hm : Segment next val h p ms none) : ns = ms := by
  induction ns generalizing p ms with
  | nil =>
    cases ms with
    | nil => rfl
    | cons m ms =>
      obtain ⟨hp, -⟩ := hm
      rw [hs] at hp
      cases hp
  | cons n ns ih =>
    obtain ⟨hp, v, hg, hv, hns⟩ := hs
    cases ms with
    | nil =>
      rw [hm] at hp
      cases hp
    | cons m ms =>
      obtain ⟨hp', v', hg', hv', hms⟩ := hm
      have hnm : n.1 = m.1 := Option.some.inj (hp.symm.trans hp')
      rw [← hnm, hg] at hg'
      obtain rfl := Option.some.inj hg'
      rw [ih hns hms, Prod.ext hnm (hv.symm.trans hv')]

/-- A chain that ends visits no cell twice. -/
theorem Segment.nodup (hs : Segment next val h p ns none) : (ns.map (·.1)).Nodup := by
  induction ns generalizing p with
  | nil => exact List.nodup_nil
  | cons n ns ih =>
    obtain ⟨-, v, hg, -, hns⟩ := hs
    refine List.nodup_cons.mpr ⟨?_, ih hns⟩
    intro hm
    -- From the second visit the chain would go on as from the first, and so be longer than itself.
    obtain ⟨m, hm, hnm⟩ := List.mem_map.mp hm
    obtain ⟨as, bs, rfl⟩ := List.append_of_mem hm
    obtain ⟨r, -, -, v', hg', -, hbs⟩ := segment_append.mp hns
    rw [hnm, hg] at hg'
    obtain rfl := Option.some.inj hg'
    have hlen := congrArg List.length (Segment.unique hns hbs)
    simp only [List.length_append, List.length_cons] at hlen
    omega

/-- The end of a segment is what its last cell names: another value there leads elsewhere. -/
theorem Segment.relink {v : α} (hs : Segment next val h p (ns ++ [n]) q)
    (hg : h'.get n.1 = some v) (hv : val v = n.2) (hc : ∀ m ∈ ns, h'.get m.1 = h.get m.1) :
    Segment next val h' p (ns ++ [n]) (next v) := by
  obtain ⟨r, hns, hr, -⟩ := segment_append.mp hs
  exact (Segment.congr hns hc).append ⟨hr, v, hg, hv, rfl⟩

end Segment
end Lib
