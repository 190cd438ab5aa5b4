import Mathlib.Algebra.Ring.Nat
import Mathlib.Data.List.Nodup

/-! # Maps that keep the order of insertion

A map is its pairs, in the order in which their keys were first set. A new value for a key stays where the key is. -/

namespace Lib

structure OrderedMap (K V : Type) where
  pairs : List (K × V)
  nodup : (pairs.map (·.1)).Nodup

namespace OrderedMap
variable {K V : Type}

def empty : OrderedMap K V := ⟨[], List.nodup_nil⟩

def keys (m : OrderedMap K V) : List K := m.pairs.map (·.1)

def size (m : OrderedMap K V) : Nat := m.pairs.length

variable [DecidableEq K]

def get (m : OrderedMap K V) (k : K) : Option V := (m.pairs.find? (·.1 = k)).map (·.2)

/-- The pairs with a new value for a key that is there. -/
def replace (k : K) (v : V) (ps : List (K × V)) : List (K × V) := ps.map fun p => if p.1 = k then (k, v) else p

theorem map_fst_replace {k : K} {v : V} {ps : List (K × V)} : (replace k v ps).map (·.1) = ps.map (·.1) := by
  rw [replace, List.map_map]
  refine List.map_congr_left ?_
  intro p _
  by_cases hp : p.1 = k
  · simp [hp]
  · simp [hp]

omit [DecidableEq K] in
theorem nodup_snoc {k : K} {v : V} {ps : List (K × V)} (hps : (ps.map (·.1)).Nodup) (h : k ∉ ps.map (·.1)) :
    ((ps ++ [(k, v)]).map (·.1)).Nodup := by
  rw [List.map_append, List.map_singleton, ← List.concat_eq_append]
  exact hps.concat h

def set (m : OrderedMap K V) (k : K) (v : V) : OrderedMap K V :=
  if h : k ∈ m.keys then ⟨replace k v m.pairs, by rw [map_fst_replace]; exact m.nodup⟩
  else ⟨m.pairs ++ [(k, v)], nodup_snoc m.nodup h⟩

def remove (m : OrderedMap K V) (k : K) : OrderedMap K V :=
  ⟨m.pairs.filter (·.1 ≠ k), m.nodup.sublist (List.filter_sublist.map _)⟩

/-- Passes the pairs to a function with a state, up to the first one that it answers with a nonzero value. -/
def visit {σ : Type} (f : σ → K → V → Int × σ) : List (K × V) → σ → σ
  | [], s => s
  | (k, v) :: ps, s => if (f s k v).1 = 0 then visit f ps (f s k v).2 else (f s k v).2

section
variable {m : OrderedMap K V} {k k' : K} {v : V}

theorem pairs_set_mem (h : k ∈ m.keys) : (m.set k v).pairs = replace k v m.pairs := by simp [set, h]

theorem pairs_set_new (h : k ∉ m.keys) : (m.set k v).pairs = m.pairs ++ [(k, v)] := by simp [set, h]

/-- A key that is there keeps its place. -/
theorem keys_set_mem (h : k ∈ m.keys) : (m.set k v).keys = m.keys := by
  rw [keys, pairs_set_mem h, map_fst_replace]
  rfl

/-- A new key goes last. -/
theorem keys_set_new (h : k ∉ m.keys) : (m.set k v).keys = m.keys ++ [k] := by
  rw [keys, pairs_set_new h, List.map_append]
  rfl

theorem get_eq_none : m.get k = none ↔ k ∉ m.keys := by
  simp only [get, Option.map_eq_none_iff, List.find?_eq_none, keys, List.mem_map, not_exists, not_and,
    decide_eq_true_eq]

theorem find?_replace_self {ps : List (K × V)} (h : k ∈ ps.map (·.1)) :
    (replace k v ps).find? (·.1 = k) = some (k, v) := by
  induction ps with
  | nil => simp at h
  | cons p ps ih =>
    by_cases hp : p.1 = k
    · simp [replace, hp]
    · have hk : k ∈ ps.map (·.1) := by
        rw [List.map_cons, List.mem_cons] at h
        exact h.resolve_left (Ne.symm hp)
      have hrec := ih hk
      rw [replace] at hrec ⊢
      simp [hp, hrec]

theorem get_set_self : (m.set k v).get k = some v := by
  by_cases h : k ∈ m.keys
  · rw [get, pairs_set_mem h, find?_replace_self h]
    rfl
  · have hnone := Option.map_eq_none_iff.mp (get_eq_none.mpr h)
    rw [get, pairs_set_new h, List.find?_append, hnone]
    simp

theorem find?_replace_ne {ps : List (K × V)} (hne : k' ≠ k) :
    (replace k v ps).find? (·.1 = k') = ps.find? (·.1 = k') := by
  induction ps with
  | nil => rfl
  | cons p ps ih =>
    rw [replace] at ih ⊢
    by_cases hp : p.1 = k
    · simp [hp, hne.symm, ih]
    · simp [hp, List.find?_cons, ih]

theorem get_set_ne (hne : k' ≠ k) : (m.set k v).get k' = m.get k' := by
  by_cases h : k ∈ m.keys
  · rw [get, pairs_set_mem h, find?_replace_ne hne]
    rfl
  · have hnone : [(k, v)].find? (·.1 = k') = none := by simp [hne.symm]
    rw [get, pairs_set_new h, List.find?_append, hnone, Option.or_none]
    rfl

theorem get_remove_self : (m.remove k).get k = none := by
  rw [get_eq_none]
  intro h
  obtain ⟨p, hp, rfl⟩ := List.mem_map.mp h
  simp [remove] at hp

theorem get_remove_ne (hne : k' ≠ k) : (m.remove k).get k' = m.get k' := by
  have hfind : (m.pairs.filter (·.1 ≠ k)).find? (·.1 = k') = m.pairs.find? (·.1 = k') := by
    rw [List.find?_filter]
    congr 1
    funext p
    by_cases hp : p.1 = k'
    · simp [hp, hne]
    · simp [hp]
  rw [get, remove, hfind]
  rfl

omit [DecidableEq K] in
theorem length_keys : m.keys.length = m.size := by rw [keys, List.length_map, size]

theorem size_set_mem (h : k ∈ m.keys) : (m.set k v).size = m.size := by
  rw [← length_keys, keys_set_mem h, length_keys]

theorem size_set_new (h : k ∉ m.keys) : (m.set k v).size = m.size + 1 := by
  rw [← length_keys, keys_set_new h, List.length_append, length_keys, List.length_singleton]

theorem size_le_set : m.size ≤ (m.set k v).size := by
  by_cases h : k ∈ m.keys
  · exact Nat.le_of_eq (size_set_mem h).symm
  · exact Nat.le_of_lt (Nat.lt_of_lt_of_eq (Nat.lt_succ_self _) (size_set_new h).symm)

theorem size_remove_le : (m.remove k).size ≤ m.size := List.length_filter_le ..

/-! ### Where a key is -/

omit [DecidableEq K] in
theorem not_mem_of_split {as bs : List (K × V)} {u : V} (h : m.pairs = as ++ (k, u) :: bs) :
    ∀ p ∈ as ++ bs, p.1 ≠ k := by
  have hnd := m.nodup
  rw [h] at hnd
  have hperm : ((as ++ (k, u) :: bs).map (·.1)).Perm (k :: (as ++ bs).map (·.1)) := List.perm_middle.map _
  rintro p hp rfl
  exact (List.nodup_cons.mp (hperm.nodup_iff.mp hnd)).1 (List.mem_map_of_mem hp)

theorem pairs_set_split {as bs : List (K × V)} {u : V} (h : m.pairs = as ++ (k, u) :: bs) :
    (m.set k v).pairs = as ++ (k, v) :: bs := by
  have hne := not_mem_of_split h
  have hmem : k ∈ m.keys := by simp [keys, h]
  have hkeep : ∀ {ps : List (K × V)}, (∀ p ∈ ps, p.1 ≠ k) → replace k v ps = ps := fun {ps} hps => by
    refine (List.map_congr_left ?_).trans (List.map_id ps)
    intro p hp
    rw [if_neg (hps p hp)]
    rfl
  have has := hkeep fun p hp => hne p (List.mem_append_left _ hp)
  have hbs := hkeep fun p hp => hne p (List.mem_append_right _ hp)
  rw [pairs_set_mem hmem, h]
  rw [replace] at has hbs ⊢
  rw [List.map_append, List.map_cons, has, hbs, if_pos rfl]

theorem pairs_remove_split {as bs : List (K × V)} {u : V} (h : m.pairs = as ++ (k, u) :: bs) :
    (m.remove k).pairs = as ++ bs := by
  have hne := not_mem_of_split h
  have hkeep : ∀ {ps : List (K × V)}, (∀ p ∈ ps, p.1 ≠ k) → ps.filter (·.1 ≠ k) = ps := fun {ps} hps =>
    List.filter_eq_self.mpr fun p hp => decide_eq_true (hps p hp)
  have has := hkeep fun p hp => hne p (List.mem_append_left _ hp)
  have hbs := hkeep fun p hp => hne p (List.mem_append_right _ hp)
  have hremove : (m.remove k).pairs = m.pairs.filter (·.1 ≠ k) := rfl
  rw [hremove, h, List.filter_append, List.filter_cons_of_neg (by simp), has, hbs]

theorem pairs_remove_of_not_mem (h : k ∉ m.keys) : (m.remove k).pairs = m.pairs :=
  List.filter_eq_self.mpr fun p hp => decide_eq_true fun hk => h (List.mem_map.mpr ⟨p, hp, hk⟩)

end

/-! ### Histories -/

inductive Edit (K V : Type)
  | set (k : K) (v : V)
  | remove (k : K)
  | clear
  deriving DecidableEq, Repr

def Edit.apply (m : OrderedMap K V) : Edit K V → OrderedMap K V
  | set k v => m.set k v
  | remove k => m.remove k
  | clear => empty

/-- The map after these edits, the first of which is made on the empty map. -/
def ofEdits (es : List (Edit K V)) : OrderedMap K V := es.foldl Edit.apply empty

/-- The value that a key has after some edits, the latest of which comes first. -/
def latest (k : K) : List (Edit K V) → Option V
  | [] => none
  | .set k' v :: es => if k' = k then some v else latest k es
  | .remove k' :: es => if k' = k then none else latest k es
  | .clear :: _ => none

/-- The value of the last `set` of a key, unless the key has been removed since. -/
def lastSet (k : K) (es : List (Edit K V)) : Option V := latest k es.reverse

/-- There is room for the key of the edit in a map of at most `n` pairs. -/
def Edit.FitsIn (n : Nat) (m : OrderedMap K V) : Edit K V → Prop
  | set k _ => k ∈ m.keys ∨ m.size < n
  | remove _ | clear => True

instance Edit.decidableFitsIn (n : Nat) (m : OrderedMap K V) : ∀ e : Edit K V, Decidable (e.FitsIn n m)
  | set k _ => inferInstanceAs (Decidable (k ∈ m.keys ∨ m.size < n))
  | remove _ | clear => isTrue trivial

/-- The same for each of the edits, made in turn. -/
def FitIn (n : Nat) (m : OrderedMap K V) : List (Edit K V) → Prop
  | [] => True
  | e :: es => e.FitsIn n m ∧ FitIn n (e.apply m) es

instance decidableFitIn (n : Nat) : ∀ (m : OrderedMap K V) (es : List (Edit K V)), Decidable (FitIn n m es)
  | _, [] => isTrue trivial
  | m, e :: es =>
    have := decidableFitIn n (e.apply m) es
    inferInstanceAs (Decidable (e.FitsIn n m ∧ FitIn n (e.apply m) es))

section
variable {m : OrderedMap K V} {k : K} {e : Edit K V} {es es' : List (Edit K V)} {n : Nat}

theorem ofEdits_append : ofEdits (es ++ es') = es'.foldl Edit.apply (ofEdits es) := List.foldl_append

theorem get_set {k' : K} {v : V} : (m.set k' v).get k = if k' = k then some v else m.get k := by
  split
  · next hk => exact hk ▸ get_set_self
  · next hk => exact get_set_ne (Ne.symm hk)

theorem get_remove {k' : K} : (m.remove k').get k = if k' = k then none else m.get k := by
  split
  · next hk => exact hk ▸ get_remove_self
  · next hk => exact get_remove_ne (Ne.symm hk)

/-- A key has the value that it was given last. -/
theorem get_ofEdits : (ofEdits es).get k = lastSet k es := by
  rw [ofEdits, lastSet, List.foldl_eq_foldr_reverse]
  induction es.reverse with
  | nil => rfl
  | cons e es ih =>
    rw [List.foldr_cons]
    cases e with
    | set k' v => rw [Edit.apply, get_set, ih, latest]
    | remove k' => rw [Edit.apply, get_remove, ih, latest]
    | clear => rfl

theorem size_apply_le (hm : m.size ≤ n) (he : e.FitsIn n m) : (e.apply m).size ≤ n := by
  cases e with
  | set k v =>
    by_cases hk : k ∈ m.keys
    · exact Nat.le_trans (Nat.le_of_eq (size_set_mem hk)) hm
    · exact Nat.le_trans (Nat.le_of_eq (size_set_new hk)) (he.resolve_left hk)
  | remove k => exact Nat.le_trans size_remove_le hm
  | clear => exact Nat.zero_le n

/-- New keys go last, in the order in which they are set. -/
theorem keys_foldl_set {v : V} {ks : List K} (h : (m.keys ++ ks).Nodup) :
    ((ks.map fun k => .set k v).foldl Edit.apply m).keys = m.keys ++ ks := by
  induction ks generalizing m with
  | nil => exact (List.append_nil _).symm
  | cons k ks ih =>
    have hk : k ∉ m.keys := fun hm => (List.nodup_append.mp h).2.2 _ hm _ List.mem_cons_self rfl
    have hkeys : (m.set k v).keys = m.keys ++ [k] := keys_set_new hk
    rw [List.append_cons, ← hkeys] at h ⊢
    exact ih h

/-- An edit adds one pair at most. -/
theorem size_apply_le_succ : (e.apply m).size ≤ m.size + 1 := by
  cases e with
  | set k v =>
    by_cases hk : k ∈ m.keys
    · exact Nat.le_succ_of_le (Nat.le_of_eq (size_set_mem hk))
    · exact Nat.le_of_eq (size_set_new hk)
  | remove k => exact Nat.le_succ_of_le size_remove_le
  | clear => exact Nat.zero_le _

theorem fitIn_of_length (h : m.size + es.length ≤ n) : FitIn n m es := by
  induction es generalizing m with
  | nil => exact trivial
  | cons e es ih =>
    have hsize := size_apply_le_succ (m := m) (e := e)
    rw [List.length_cons] at h
    refine ⟨?_, ih (by omega)⟩
    cases e with
    | set k v => exact Or.inr (by omega)
    | remove k => exact trivial
    | clear => exact trivial

/-- Pairs that are set last go before everything else. -/
theorem lastSet_sets {ps : List (K × V)} : lastSet k (es ++ ps.map fun p => .set p.1 p.2) =
    ((ps.reverse.find? (·.1 = k)).map (·.2)).or (lastSet k es) := by
  rw [lastSet, List.reverse_append, ← List.map_reverse, lastSet]
  induction ps.reverse with
  | nil => rfl
  | cons p ps ih =>
    rw [List.map_cons, List.cons_append, latest, ih]
    by_cases hp : p.1 = k
    · simp [hp]
    · simp [hp]

theorem size_foldl_apply_le (hm : m.size ≤ n) (hes : FitIn n m es) : (es.foldl Edit.apply m).size ≤ n := by
  induction es generalizing m with
  | nil => exact hm
  | cons e es ih => exact ih (size_apply_le hm hes.1) hes.2

end

end OrderedMap
end Lib
