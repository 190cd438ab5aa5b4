import Mathlib.Data.List.Nodup

/-! # Descriptor tables

A new descriptor gets the lowest number that is free. Closing a number that is not open has no result. The table also
lists all numbers that have been opened and closed, in order. -/

namespace Lib

structure Descriptor (φ : Type) where
  file : φ
  cloexec : Bool := false
  deriving DecidableEq, Repr

structure FdTable (φ : Type) where
  entries : List (Option (Descriptor φ)) := []
  opened : List Nat := []
  closed : List Nat := []
  deriving DecidableEq, Repr

namespace FdTable
variable {φ : Type}

def get (t : FdTable φ) (n : Nat) : Option (Descriptor φ) := t.entries[n]?.join

/-- The lowest number that is free. -/
def lowest (t : FdTable φ) : Nat := t.entries.findIdx Option.isNone

/-- Opens a descriptor. -/
def install (t : FdTable φ) (d : Descriptor φ) : Nat × FdTable φ :=
  (t.lowest, { t with
    entries := if t.lowest < t.entries.length then t.entries.set t.lowest (some d) else t.entries ++ [some d]
    opened := t.opened ++ [t.lowest] })

def close (t : FdTable φ) (n : Nat) : Option (FdTable φ) :=
  (t.get n).map fun _ => { t with entries := t.entries.set n none, closed := t.closed ++ [n] }

/-- Closes several descriptors, in order. -/
def closeAll (t : FdTable φ) : List Nat → Option (FdTable φ)
  | [] => some t
  | n :: ns => (t.close n).bind fun t => t.closeAll ns

/-- A descriptor that is open will not be inherited. -/
def setCloexec (t : FdTable φ) (n : Nat) : FdTable φ :=
  { t with entries := t.entries.modify n (Option.map fun d => { d with cloexec := true }) }

/-- Makes `m` stand for what `n` stands for, and closes what it stood for before. A copy to the same number changes
    nothing. -/
def dup2 (t : FdTable φ) (n m : Nat) : Option (FdTable φ) :=
  (t.get n).map fun d =>
    if n = m then t
    else {
      entries := (t.entries ++ List.replicate (m + 1 - t.entries.length) none).set m (some { d with cloexec := false })
      opened := t.opened ++ [m]
      closed := if (t.get m).isSome then t.closed ++ [m] else t.closed }

/-- What a new program gets of the table. -/
def exec (t : FdTable φ) : FdTable φ := { entries := t.entries.map (Option.filter fun d => !d.cloexec) }

/-- The numbers are the lowest ones that are free, in order. -/
structure Lowest (t : FdTable φ) (ns : List Nat) : Prop where
  sorted : ns.Pairwise (· < ·)
  free : ∀ n ∈ ns, t.get n = none
  least : ∀ n, t.get n = none → n ∈ ns ∨ ∀ m ∈ ns, m < n

/-- Since `t₀`, of the descriptors that have been opened, these are still open; the others have been closed once, and
    nothing else has changed. -/
structure Since (t₀ t : FdTable φ) (held : List Nat) : Prop where
  nodup : held.Nodup
  fresh : ∀ n ∈ held, t₀.get n = none
  isOpen : ∀ n ∈ held, ∃ d, t.get n = some d
  kept : ∀ n, n ∉ held → t.get n = t₀.get n
  logged : ∃ opened closed, t.opened = t₀.opened ++ opened ∧ t.closed = t₀.closed ++ closed ∧
    opened.Perm (closed ++ held)

section
variable {t₀ t t' : FdTable φ} {d : Descriptor φ} {n m : Nat} {held : List Nat}

theorem lowest_le : t.lowest ≤ t.entries.length := List.findIdx_le_length

theorem get_lowest : t.get t.lowest = none := by
  rw [get]
  rcases Nat.lt_or_ge t.lowest t.entries.length with hlt | hge
  · have hnone : (t.entries[t.lowest]).isNone = true := List.findIdx_getElem
    rw [List.getElem?_eq_getElem hlt, Option.join_some]
    exact Option.isNone_iff_eq_none.mp hnone
  · rw [List.getElem?_eq_none hge]
    rfl

theorem get_install_self : (t.install d).2.get t.lowest = some d := by
  simp only [install, get]
  split
  · next hlt =>
    rw [List.getElem?_set_self hlt]
    rfl
  · next hge =>
    have heq : t.lowest = t.entries.length := Nat.le_antisymm lowest_le (Nat.not_lt.mp hge)
    rw [heq, List.getElem?_concat_length]
    rfl

theorem get_install_ne (hne : n ≠ t.lowest) : (t.install d).2.get n = t.get n := by
  simp only [install, get]
  split
  · rw [List.getElem?_set_ne hne.symm]
  · next hge =>
    have heq : t.lowest = t.entries.length := Nat.le_antisymm lowest_le (Nat.not_lt.mp hge)
    rw [heq] at hne
    rcases Nat.lt_or_ge n t.entries.length with hlt | hgt
    · rw [List.getElem?_append_left hlt]
    · rw [List.getElem?_eq_none hgt, List.getElem?_eq_none]
      rw [List.length_append, List.length_singleton]
      omega

/-- What closing an open descriptor leaves. -/
theorem close_eq (h : t.get n = some d) : ∃ t', t.close n = some t' ∧ t'.get n = none ∧
    (∀ m, m ≠ n → t'.get m = t.get m) ∧ t'.opened = t.opened ∧ t'.closed = t.closed ++ [n] := by
  refine ⟨{ t with entries := t.entries.set n none, closed := t.closed ++ [n] }, ?_, ?_, ?_, rfl, rfl⟩
  · rw [close, h]
    rfl
  · simp only [get]
    rcases Nat.lt_or_ge n t.entries.length with hlt | hge
    · rw [List.getElem?_set_self hlt]
      rfl
    · rw [List.getElem?_eq_none (by rwa [List.length_set])]
      rfl
  · intro m hm
    simp only [get, List.getElem?_set_ne hm.symm]

theorem close_logged (h : t.close n = some t') : t'.opened = t.opened ∧ t'.closed = t.closed ++ [n] := by
  obtain ⟨d, -, rfl⟩ := Option.map_eq_some_iff.mp h
  exact ⟨rfl, rfl⟩

theorem get_setCloexec_self (h : t.get n = some d) : (t.setCloexec n).get n = some { d with cloexec := true } := by
  have hd : t.entries[n]? = some (some d) := Option.join_eq_some_iff.mp h
  simp only [setCloexec, get, List.getElem?_modify_eq, hd]
  rfl

theorem exec_setCloexec_self : (t.setCloexec n).exec.get n = none := by
  simp only [exec, setCloexec, get, List.getElem?_map, List.getElem?_modify_eq]
  rcases t.entries[n]? with _ | _ | d <;> rfl

theorem get_setCloexec_ne (hne : m ≠ n) : (t.setCloexec n).get m = t.get m := by
  simp only [setCloexec, get, List.getElem?_modify_ne _ _ hne.symm]

theorem closeAll_append (t : FdTable φ) (ns ms : List Nat) :
    t.closeAll (ns ++ ms) = (t.closeAll ns).bind fun t => t.closeAll ms := by
  induction ns generalizing t with
  | nil => rfl
  | cons n ns ih =>
    simp only [List.cons_append, closeAll, Option.bind_assoc, ih]

theorem get_ne_none_of_lt (h : n < t.lowest) : t.get n ≠ none := by
  have hlt : n < t.entries.length := Nat.lt_of_lt_of_le h lowest_le
  have hsome : (t.entries[n]).isNone = false := List.not_of_lt_findIdx h
  rw [get, List.getElem?_eq_getElem hlt, Option.join_some]
  intro hnone
  rw [hnone] at hsome
  cases hsome

theorem dup2_self (h : t.get n = some d) : t.dup2 n n = some t := by
  rw [dup2, h, Option.map_some, if_pos rfl]

theorem dup2_eq (h : t.get n = some d) (hne : n ≠ m) : ∃ t', t.dup2 n m = some t' ∧
    t'.get m = some { d with cloexec := false } ∧ ∀ k, k ≠ m → t'.get k = t.get k := by
  refine ⟨_, by rw [dup2, h, Option.map_some, if_neg hne], ?_, ?_⟩
  · have hlt : m < (t.entries ++ List.replicate (m + 1 - t.entries.length) (none : Option (Descriptor φ))).length := by
      rw [List.length_append, List.length_replicate]
      omega
    simp only [get, List.getElem?_set_self hlt]
    rfl
  · intro k hk
    simp only [get, List.getElem?_set_ne hk.symm]
    rcases Nat.lt_or_ge k t.entries.length with hlt | hge
    · rw [List.getElem?_append_left hlt]
    · rw [List.getElem?_append_right hge, List.getElem?_eq_none hge, List.getElem?_replicate]
      split <;> rfl

/-- A number is copied and then closed, which also closes the copy if it is the same number. -/
theorem dup2_close (h : t.get n = some d) (m : Nat) : ∃ t₁ t₂, t.dup2 n m = some t₁ ∧ t₁.close n = some t₂ ∧
    ∀ k, t₂.get k = if k = m then if n = m then none else some { d with cloexec := false }
      else if k = n then none else t.get k := by
  by_cases hnm : n = m
  · subst hnm
    obtain ⟨t₂, hclose, hself, hother, -, -⟩ := close_eq h
    refine ⟨t, t₂, dup2_self h, hclose, fun k => ?_⟩
    by_cases hk : k = n
    · rw [if_pos hk, if_pos rfl, hk, hself]
    · rw [if_neg hk, if_neg hk, hother k hk]
  · obtain ⟨t₁, hcopy, hnew, hkept⟩ := dup2_eq h hnm
    obtain ⟨t₂, hclose, hself, hother, -, -⟩ := close_eq ((hkept n hnm).trans h)
    refine ⟨t₁, t₂, hcopy, hclose, fun k => ?_⟩
    by_cases hkm : k = m
    · rw [if_pos hkm, if_neg hnm, hkm, hother m (Ne.symm hnm), hnew]
    · rw [if_neg hkm]
      by_cases hkn : k = n
      · rw [if_pos hkn, hkn, hself]
      · rw [if_neg hkn, hother k hkn, hkept k hkm]

theorem get_exec : t.exec.get n = (t.get n).filter fun d => !d.cloexec := by
  simp only [exec, get, List.getElem?_map]
  cases t.entries[n]? with
  | none => rfl
  | some e => rfl

/-! ### What has changed since -/

theorem Since.refl (t : FdTable φ) : Since t t [] where
  nodup := List.nodup_nil
  fresh := nofun
  isOpen := nofun
  kept _ _ := rfl
  logged := ⟨[], [], (List.append_nil _).symm, (List.append_nil _).symm, List.Perm.refl _⟩

theorem Since.not_mem_of_free (S : Since t₀ t held) (h : t.get n = none) : n ∉ held := by
  intro hn
  obtain ⟨d, hd⟩ := S.isOpen n hn
  cases h.symm.trans hd

theorem Lowest.nil (t : FdTable φ) : t.Lowest [] := ⟨List.Pairwise.nil, nofun, fun _ _ => Or.inr nofun⟩

theorem Lowest.head_le {ns : List Nat} (h : t.Lowest (m :: ns)) (hn : t.get n = none) : m ≤ n := by
  rcases h.least n hn with hmem | hlt
  · rcases List.mem_cons.mp hmem with rfl | hmem
    · exact Nat.le_refl n
    · exact Nat.le_of_lt (List.rel_of_pairwise_cons h.sorted hmem)
  · exact Nat.le_of_lt (hlt m List.mem_cons_self)

theorem Lowest.second_le {k : Nat} {ns : List Nat} (h : t.Lowest (m :: k :: ns)) (hn : t.get n = none) :
    n = m ∨ k ≤ n := by
  rcases h.least n hn with hmem | hlt
  · rcases List.mem_cons.mp hmem with heq | hmem
    · exact Or.inl heq
    rcases List.mem_cons.mp hmem with rfl | hmem
    · exact Or.inr (Nat.le_refl n)
    · exact Or.inr (Nat.le_of_lt (List.rel_of_pairwise_cons (List.pairwise_cons.mp h.sorted).2 hmem))
  · exact Or.inr (Nat.le_of_lt (hlt k (List.mem_cons_of_mem m List.mem_cons_self)))

/-- The next number is the lowest one behind them. -/
theorem Lowest.next (h : t₀.Lowest held) (S : Since t₀ t held) : t₀.Lowest (held ++ [t.lowest]) := by
  have hnew : t.lowest ∉ held := S.not_mem_of_free get_lowest
  have hfree : t₀.get t.lowest = none := by
    rw [← S.kept _ hnew]
    exact get_lowest
  have hlast : ∀ m ∈ held, m < t.lowest := (h.least _ hfree).resolve_left hnew
  constructor
  · rw [List.pairwise_append]
    refine ⟨h.sorted, List.pairwise_singleton .., ?_⟩
    intro m hm k hk
    rw [List.mem_singleton.mp hk]
    exact hlast m hm
  · intro n hn
    rcases List.mem_append.mp hn with hn | hn
    · exact h.free n hn
    · rw [List.mem_singleton.mp hn]
      exact hfree
  · intro n hn
    by_cases hmem : n ∈ held
    · exact Or.inl (List.mem_append_left _ hmem)
    have hge : t.lowest ≤ n := by
      by_contra hlt
      exact get_ne_none_of_lt (Nat.not_le.mp hlt) ((S.kept n hmem).trans hn)
    rcases Nat.eq_or_lt_of_le hge with heq | hlt
    · rw [← heq]
      exact Or.inl (List.mem_append_right _ (List.mem_singleton_self _))
    · refine Or.inr fun m hm => ?_
      rcases List.mem_append.mp hm with hm | hm
      · exact Nat.lt_trans (hlast m hm) hlt
      · rw [List.mem_singleton.mp hm]
        exact hlt

theorem Since.install (S : Since t₀ t held) (d : Descriptor φ) :
    Since t₀ (t.install d).2 (held ++ [t.lowest]) := by
  have hnew : t.lowest ∉ held := S.not_mem_of_free get_lowest
  constructor
  · rw [← List.concat_eq_append]
    exact S.nodup.concat hnew
  · intro n hn
    rcases List.mem_append.mp hn with hn | hn
    · exact S.fresh n hn
    · obtain rfl := List.mem_singleton.mp hn
      rw [← S.kept _ hnew]
      exact get_lowest
  · intro n hn
    rcases List.mem_append.mp hn with hn | hn
    · obtain ⟨e, he⟩ := S.isOpen n hn
      have hne : n ≠ t.lowest := fun heq => hnew (heq ▸ hn)
      exact ⟨e, (get_install_ne hne).trans he⟩
    · obtain rfl := List.mem_singleton.mp hn
      exact ⟨d, get_install_self⟩
  · intro n hn
    rw [List.mem_append, List.mem_singleton, not_or] at hn
    exact (get_install_ne hn.2).trans (S.kept n hn.1)
  · obtain ⟨opened, closed, ho, hc, hperm⟩ := S.logged
    refine ⟨opened ++ [t.lowest], closed, ?_, hc, ?_⟩
    · show t.opened ++ [t.lowest] = _
      rw [ho, List.append_assoc]
    · rw [← List.append_assoc]
      exact hperm.append_right _

/-- Their order does not matter. -/
theorem Since.perm {held' : List Nat} (S : Since t₀ t held) (hp : held.Perm held') : Since t₀ t held' where
  nodup := hp.nodup_iff.mp S.nodup
  fresh n hn := S.fresh n (hp.mem_iff.mpr hn)
  isOpen n hn := S.isOpen n (hp.mem_iff.mpr hn)
  kept n hn := S.kept n (mt hp.mem_iff.mp hn)
  logged := by
    obtain ⟨opened, closed, ho, hc, hperm⟩ := S.logged
    exact ⟨opened, closed, ho, hc, hperm.trans (hp.append_left closed)⟩

theorem Since.close (S : Since t₀ t (n :: held)) :
    ∃ t', t.close n = some t' ∧ Since t₀ t' held ∧ ∀ m, m ≠ n → t'.get m = t.get m := by
  obtain ⟨d, hd⟩ := S.isOpen n List.mem_cons_self
  obtain ⟨t', hclose, hself, hother, hopened, hclosed⟩ := close_eq hd
  obtain ⟨hn, hnodup⟩ := List.nodup_cons.mp S.nodup
  refine ⟨t', hclose, ?_, hother⟩
  constructor
  · exact hnodup
  · exact fun m hm => S.fresh m (List.mem_cons_of_mem n hm)
  · intro m hm
    have hne : m ≠ n := fun heq => hn (heq ▸ hm)
    rw [hother m hne]
    exact S.isOpen m (List.mem_cons_of_mem n hm)
  · intro m hm
    by_cases hmn : m = n
    · rw [hmn, hself, S.fresh n List.mem_cons_self]
    · rw [hother m hmn]
      exact S.kept m fun hmem => (List.mem_cons.mp hmem).elim hmn hm
  · obtain ⟨opened, closed, ho, hc, hperm⟩ := S.logged
    refine ⟨opened, closed ++ [n], hopened.trans ho, ?_, ?_⟩
    · rw [hclosed, hc, List.append_assoc]
    · rw [List.append_assoc]
      exact hperm

/-- All of them are closed. -/
theorem Since.closeAll (S : Since t₀ t held) : ∃ t', t.closeAll held = some t' ∧ Since t₀ t' [] := by
  induction held generalizing t with
  | nil => exact ⟨t, rfl, S⟩
  | cons n held ih =>
    obtain ⟨t₁, hclose, S₁, -⟩ := S.close
    obtain ⟨t', hall, S'⟩ := ih S₁
    exact ⟨t', by rw [FdTable.closeAll, hclose, Option.bind_some, hall], S'⟩

/-- The flag changes nothing else. -/
theorem Since.setCloexec (S : Since t₀ t held) (hn : n ∈ held) : Since t₀ (t.setCloexec n) held := by
  refine ⟨S.nodup, S.fresh, ?_, ?_, S.logged⟩
  · intro m hm
    by_cases hmn : m = n
    · obtain ⟨d, hd⟩ := S.isOpen n hn
      rw [hmn]
      exact ⟨_, get_setCloexec_self hd⟩
    · rw [get_setCloexec_ne hmn]
      exact S.isOpen m hm
  · intro m hm
    have hmn : m ≠ n := fun heq => hm (heq ▸ hn)
    rw [get_setCloexec_ne hmn]
    exact S.kept m hm

end
end FdTable
end Lib
