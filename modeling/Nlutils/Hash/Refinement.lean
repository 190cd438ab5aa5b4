import Nlutils.Hash.Failing

/-! # Any number of hashes behave as ordered maps

A sequence of calls on some hashes leaves each of them as the map that its own history makes, as long as no entry is
added to one with 2^31 - 1 entries. -/

namespace Nlutils
open Lib

/-- What has been done to one hash, a clone beginning with what was done to the original. -/
abbrev History := List (OrderedMap.Edit Bytes Bytes)

/-- The calls, each on the hash that was made as the `i`-th one, and on `NULL` if there is none. -/
inductive HashOp
  | create
  | set (i : Nat) (key value : Bytes)
  | remove (i : Nat) (key : Bytes)
  | clear (i : Nat)
  | parse (i : Nat) (kvp : Bytes)
  | clone (i : Nat)

/-- What a call returns, of a new hash only whether there is one. -/
inductive HashResult
  | int (n : Int)
  | void
  | hash (made : Bool)
  deriving DecidableEq, Repr

/-- The hashes that have been made, and the memory. -/
structure Hashes where
  ptrs : List Addr := []
  mem : HashMem := {}

/-- The call of the C function. -/
def HashOp.run (s : Hashes) : HashOp → Option (HashResult × Hashes)
  | create => (nlHashCreate allocated s.mem).map fun r => (.hash r.1.isSome, ⟨s.ptrs ++ r.1.toList, r.2⟩)
  | set i k v => (nlHashSet allocated s.ptrs[i]? (some k) (some v) s.mem).map fun r => (.int r.1, ⟨s.ptrs, r.2⟩)
  | remove i k => (nlHashRemove s.ptrs[i]? (some k) s.mem).map fun r => (.int r.1, ⟨s.ptrs, r.2⟩)
  | clear i => (nlHashClear s.ptrs[i]? s.mem).map fun r => (.void, ⟨s.ptrs, r⟩)
  | parse i kvp => (nlHashParse allocated allocated s.ptrs[i]? (some kvp) s.mem).map fun r => (.void, ⟨s.ptrs, r⟩)
  | clone i => (nlHashClone allocated s.ptrs[i]? s.mem).map fun r => (.hash r.1.isSome, ⟨s.ptrs ++ r.1.toList, r.2⟩)

/-- What the call does to the history of its hash. -/
def HashOp.edits : HashOp → History
  | set _ k v => [.set k v]
  | remove _ k => [.remove k]
  | clear _ => [.clear]
  | parse _ kvp => (nlParseKvp allocated (some kvp)).map buildEdit
  | create | clone _ => []

/-- The call on the histories. -/
def HashOp.spec (σ : List History) (op : HashOp) : HashResult × List History :=
  match op with
  | create => (.hash true, σ ++ [[]])
  | clone i => (.hash (i < σ.length), σ ++ σ[i]?.toList)
  | set i _ _ | remove i _ => (.int (if i < σ.length then 0 else -1), σ.modify i (· ++ op.edits))
  | clear i | parse i _ => (.void, σ.modify i (· ++ op.edits))

def historyAt (σ : List History) (i : Nat) : History := σ.getD i []

/-- The call sets no new key in a hash with 2^31 - 1 entries. -/
def HashOp.FitsIn (σ : List History) (op : HashOp) : Prop :=
  match op with
  | set i _ _ | parse i _ => OrderedMap.FitIn (2 ^ 31 - 1) (.ofEdits (historyAt σ i)) op.edits
  | _ => True

instance HashOp.decidableFitsIn (σ : List History) : ∀ op : HashOp, Decidable (op.FitsIn σ)
  | set i k v => OrderedMap.decidableFitIn (2 ^ 31 - 1) (.ofEdits (historyAt σ i)) (set i k v).edits
  | parse i kvp => OrderedMap.decidableFitIn (2 ^ 31 - 1) (.ofEdits (historyAt σ i)) (parse i kvp).edits
  | create | remove _ _ | clear _ | clone _ => isTrue trivial

/-- A sequence of calls. -/
def runHashes : List HashOp → Hashes → Option (List HashResult × Hashes)
  | [], s => some ([], s)
  | op :: ops, s => do
    let (r, s) ← op.run s
    let (rs, s) ← runHashes ops s
    return (r :: rs, s)

def runHistories : List HashOp → List History → List HashResult × List History
  | [], σ => ([], σ)
  | op :: ops, σ => ((op.spec σ).1 :: (runHistories ops (op.spec σ).2).1, (runHistories ops (op.spec σ).2).2)

/-- Each of the calls fits, on the histories before it. -/
def HashesFit : List HashOp → List History → Prop
  | [], _ => True
  | op :: ops, σ => op.FitsIn σ ∧ HashesFit ops (op.spec σ).2

instance HashesFit.decidable : ∀ (ops : List HashOp) (σ : List History), Decidable (HashesFit ops σ)
  | [], _ => isTrue trivial
  | op :: ops, σ =>
    have := HashesFit.decidable ops (op.spec σ).2
    inferInstanceAs (Decidable (op.FitsIn σ ∧ HashesFit ops (op.spec σ).2))

/-- The hash at `p` behaves as the map with this history. -/
structure BehavesAs (m : HashMem) (p : Addr) (es : History) : Prop where
  count : ∃ h t f, m.hashes.get p = some h ∧ h.table = some t ∧ m.fifo.fifos.get t = some f ∧
    h.count = f.count.toNat ∧ h.count = (OrderedMap.ofEdits es).size
  get : ∀ key, nlHashGet (some p) (some key) m = some (OrderedMap.lastSet key es)
  iterate : ∀ (σ : Type) (f : σ → Bytes → Bytes → Int × σ) (d : σ),
    nlHashIterate (some p) (pureCallback f) d m = some (OrderedMap.visit f (OrderedMap.ofEdits es).pairs d, m)

/-- Each hash behaves as the map with its own history. -/
def AllBehave (s : Hashes) (σ : List History) : Prop :=
  s.ptrs.length = σ.length ∧ ∀ (i : Nat) p es, s.ptrs[i]? = some p → σ[i]? = some es → BehavesAs s.mem p es

/-! ### The representation of all hashes -/

structure HashIs (m : HashMem) (a : HashAt) (es : History) : Prop where
  rep : HashRep m a.h a.t a.slots
  map : IsMap a.slots (.ofEdits es)
  small : a.slots.length < 2 ^ 31

/-- The hashes `hs` have these histories, each in parts of its own. -/
structure HashesRep (s : Hashes) (σ : List History) (hs : List HashAt) : Prop where
  ptrs : s.ptrs = hs.map (·.h)
  length : hs.length = σ.length
  each : ∀ (i : Nat) a es, hs[i]? = some a → σ[i]? = some es → HashIs s.mem a es
  apart : ∀ (i j : Nat) a b, i ≠ j → hs[i]? = some a → hs[j]? = some b → Apart a b

section
variable {s : Hashes} {m m' : HashMem} {σ : List History} {hs : List HashAt} {a b : HashAt} {es es' : History}
  {xs : List Slot} {i j : Nat} {op : HashOp}

theorem HashIs.size_le (I : HashIs m a es) : (OrderedMap.ofEdits es).size ≤ 2 ^ 31 - 1 :=
  I.map.size ▸ Nat.le_sub_one_of_lt I.small

/-- A hash that is apart from the one that changes. -/
theorem HashIs.frame (I : HashIs m b es) (C : Changes a.h a.t a.slots xs m m') (A : Apart a b) : HashIs m' b es :=
  ⟨I.rep.frame C A, I.map, I.small⟩

theorem HashIs.behavesAs (I : HashIs m a es) : BehavesAs m a.h es where
  count := by
    have hlen : (a.slots.map Slot.node).length < 2 ^ 32 := by
      rw [List.length_map]
      exact lt_uint I.small
    have hcount : (FifoSpec.count (a.slots.map Slot.node)).toNat = a.slots.length := by
      rw [FifoSpec.toNat_count hlen, List.length_map]
    exact ⟨_, a.t, _, I.rep.hash, rfl, I.rep.table.fifo, hcount.symm, I.map.size.symm⟩
  get key := by
    rw [hashGet_rep I.rep I.map (lt_uint I.small), OrderedMap.get_ofEdits]
  iterate _ f d := hashIterate_rep f d I.rep I.map (lt_uint I.small)

theorem HashesRep.allBehave (S : HashesRep s σ hs) : AllBehave s σ := by
  refine ⟨by rw [S.ptrs, List.length_map, S.length], ?_⟩
  intro i p es hp hes
  rw [S.ptrs, List.getElem?_map, Option.map_eq_some_iff] at hp
  obtain ⟨a, ha, rfl⟩ := hp
  exact (S.each i a es ha hes).behavesAs

/-- A call on a hash that is there. -/
theorem HashesRep.get (S : HashesRep s σ hs) (hi : i < σ.length) : ∃ a, hs[i]? = some a ∧
    s.ptrs[i]? = some a.h ∧ σ[i]? = some (historyAt σ i) ∧ HashIs s.mem a (historyAt σ i) := by
  have hi' : i < hs.length := S.length ▸ hi
  have ha : hs[i]? = some hs[i] := List.getElem?_eq_getElem hi'
  have hes : σ[i]? = some (historyAt σ i) := by
    rw [historyAt, List.getD_eq_getElem?_getD, List.getElem?_eq_getElem hi, Option.getD_some]
  refine ⟨_, ha, ?_, hes, S.each i _ _ ha hes⟩
  rw [S.ptrs, List.getElem?_map, ha]
  rfl

theorem getElem?_snoc {α : Type} {l : List α} {x y : α} {j : Nat} (h : (l ++ [x])[j]? = some y) :
    l[j]? = some y ∨ j = l.length ∧ x = y := by
  rcases Nat.lt_trichotomy j l.length with hj | hj | hj
  · exact Or.inl (List.getElem?_append_left hj ▸ h)
  · rw [hj, List.getElem?_concat_length] at h
    exact Or.inr ⟨hj, Option.some.inj h⟩
  · have hle : (l ++ [x]).length ≤ j := by
      rw [List.length_append]
      exact hj
    rw [List.getElem?_eq_none hle] at h
    cases h

/-- One hash changes. -/
theorem HashesRep.change (S : HashesRep s σ hs) (ha : hs[i]? = some a) (C : Changes a.h a.t a.slots xs s.mem m')
    (I : HashIs m' ⟨a.h, a.t, xs⟩ (historyAt σ i ++ es)) :
    HashesRep ⟨s.ptrs, m'⟩ (σ.modify i (· ++ es)) (hs.set i ⟨a.h, a.t, xs⟩) := by
  obtain ⟨hi, rfl⟩ := List.getElem?_eq_some_iff.mp ha
  have hself : (hs.set i ⟨hs[i].h, hs[i].t, xs⟩)[i]? = some ⟨hs[i].h, hs[i].t, xs⟩ := List.getElem?_set_self hi
  have hother : ∀ {j}, i ≠ j → (hs.set i ⟨hs[i].h, hs[i].t, xs⟩)[j]? = hs[j]? := fun hij =>
    List.getElem?_set_ne hij
  -- the changed hash is apart from every other one
  have hapart : ∀ (j : Nat) b, i ≠ j → hs[j]? = some b → Apart ⟨hs[i].h, hs[i].t, xs⟩ b := by
    intro j b hij hb
    have hj : j < σ.length := by
      obtain ⟨hj, -⟩ := List.getElem?_eq_some_iff.mp hb
      exact S.length ▸ hj
    obtain ⟨b', hb', -, -, Ib⟩ := S.get hj
    obtain rfl := Option.some.inj (hb.symm.trans hb')
    exact (S.apart i j _ _ hij ha hb).change Ib.rep C
  refine ⟨?_, by rw [List.length_set, List.length_modify, S.length], ?_, ?_⟩
  · have hi' : i < (hs.map (·.h)).length := by rwa [List.length_map]
    have hptr : hs[i].h = (hs.map (·.h))[i] := (List.getElem_map _).symm
    rw [List.map_set, S.ptrs, hptr, List.set_getElem_self]
  · intro j b es' hb hes
    by_cases hij : i = j
    · subst hij
      obtain rfl := Option.some.inj (hself.symm.trans hb)
      obtain ⟨-, -, -, hold, -⟩ := S.get (S.length ▸ hi)
      rw [List.getElem?_modify_eq, hold] at hes
      obtain rfl := Option.some.inj hes
      exact I
    · rw [hother hij] at hb
      rw [List.getElem?_modify_ne _ _ hij] at hes
      exact (S.each j b es' hb hes).frame C (S.apart i j _ b hij ha hb)
  · intro j k b c hjk hb hc
    by_cases hij : i = j
    · subst hij
      obtain rfl := Option.some.inj (hself.symm.trans hb)
      exact hapart k c hjk (hother hjk ▸ hc)
    · rw [hother hij] at hb
      by_cases hik : i = k
      · subst hik
        obtain rfl := Option.some.inj (hself.symm.trans hc)
        exact (hapart j b hij hb).symm
      · rw [hother hik] at hc
        exact S.apart j k b c hjk hb hc

/-- A new hash, empty or with the history of another one. -/
theorem HashesRep.add {h t : Addr} (S : HashesRep s σ hs) (C : Changes h t [] xs s.mem m')
    (hapart : ∀ k u ys, HashRep s.mem k u ys → Apart ⟨h, t, []⟩ ⟨k, u, ys⟩) (I : HashIs m' ⟨h, t, xs⟩ es) :
    HashesRep ⟨s.ptrs ++ [h], m'⟩ (σ ++ [es]) (hs ++ [⟨h, t, xs⟩]) := by
  have hold : ∀ (j : Nat) b, hs[j]? = some b → ∃ es', σ[j]? = some es' ∧ HashIs s.mem b es' := by
    intro j b hb
    obtain ⟨hj, -⟩ := List.getElem?_eq_some_iff.mp hb
    obtain ⟨b', hb', -, hes', I'⟩ := S.get (S.length ▸ hj)
    obtain rfl := Option.some.inj (hb.symm.trans hb')
    exact ⟨_, hes', I'⟩
  have hnew : ∀ (j : Nat) b, hs[j]? = some b → Apart ⟨h, t, xs⟩ b := by
    intro j b hb
    obtain ⟨_, -, I'⟩ := hold j b hb
    exact (hapart _ _ _ I'.rep).change I'.rep C
  refine ⟨by rw [S.ptrs, List.map_append]; rfl, by simp [S.length], ?_, ?_⟩
  · intro j b es' hb hes
    rcases getElem?_snoc hb with hb | ⟨rfl, rfl⟩
    · obtain ⟨es'', hes', I'⟩ := hold j b hb
      have hj : j < σ.length := by
        obtain ⟨hj, -⟩ := List.getElem?_eq_some_iff.mp hes'
        exact hj
      rw [List.getElem?_append_left hj, hes'] at hes
      obtain rfl := Option.some.inj hes
      exact I'.frame C (hapart _ _ _ I'.rep)
    · rw [S.length, List.getElem?_concat_length] at hes
      obtain rfl := Option.some.inj hes
      exact I
  · intro j k b c hjk hb hc
    rcases getElem?_snoc hb with hb | ⟨rfl, rfl⟩
    · rcases getElem?_snoc hc with hc | ⟨rfl, rfl⟩
      · exact S.apart j k b c hjk hb hc
      · exact (hnew j b hb).symm
    · rcases getElem?_snoc hc with hc | ⟨rfl, rfl⟩
      · exact hnew k c hc
      · exact absurd rfl hjk

/-- A call on a hash that is not there is a call on `NULL`. -/
theorem HashesRep.ptr_none (S : HashesRep s σ hs) (hi : ¬i < σ.length) : s.ptrs[i]? = none := by
  refine List.getElem?_eq_none ?_
  rw [S.ptrs, List.length_map, S.length]
  exact Nat.le_of_not_lt hi

/-- It changes no history. -/
theorem modify_absent (hi : ¬i < σ.length) : σ.modify i (· ++ es) = σ := List.modify_eq_self (Nat.le_of_not_lt hi)

/-- A call on one hash makes these edits. -/
theorem HashesRep.edit (S : HashesRep s σ hs) (ha : hs[i]? = some a) (I : HashIs s.mem a (historyAt σ i))
    (hfit : OrderedMap.FitIn (2 ^ 31 - 1) (.ofEdits (historyAt σ i)) es) (R : HashRep m' a.h a.t xs)
    (hmap : IsMap xs (es.foldl OrderedMap.Edit.apply (.ofEdits (historyAt σ i))))
    (C : Changes a.h a.t a.slots xs s.mem m') : ∃ hs', HashesRep ⟨s.ptrs, m'⟩ (σ.modify i (· ++ es)) hs' := by
  have hsize := OrderedMap.size_foldl_apply_le I.size_le hfit
  rw [hmap.size] at hsize
  rw [← OrderedMap.ofEdits_append] at hmap
  exact ⟨_, S.change ha C ⟨R, hmap, lt_int hsize⟩⟩

/-- A key is removed from a hash, whether the hash is there or not. -/
theorem HashesRep.remove (S : HashesRep s σ hs) (i : Nat) (key : Bytes) : ∃ m' hs',
    nlHashRemove s.ptrs[i]? (some key) s.mem = some (if i < σ.length then 0 else -1, m') ∧
      HashesRep ⟨s.ptrs, m'⟩ (σ.modify i (· ++ [.remove key])) hs' := by
  by_cases hi : i < σ.length
  · obtain ⟨a, ha, hptr, -, I⟩ := S.get hi
    obtain ⟨m', xs, hremove, R, hmap, C⟩ := hashRemove_rep key I.rep I.map (lt_uint I.small)
    have hfits : OrderedMap.FitIn (2 ^ 31 - 1) (.ofEdits (historyAt σ i)) [.remove key] := ⟨trivial, trivial⟩
    obtain ⟨hs', S'⟩ := S.edit ha I hfits R hmap C
    refine ⟨m', hs', ?_, S'⟩
    rw [hptr, if_pos hi]
    exact hremove
  · refine ⟨s.mem, hs, ?_, ?_⟩
    · rw [S.ptr_none hi, if_neg hi]
      rfl
    · rw [modify_absent hi]
      exact S

/-- A hash is emptied, whether it is there or not. -/
theorem HashesRep.clear (S : HashesRep s σ hs) (i : Nat) : ∃ m' hs', nlHashClear s.ptrs[i]? s.mem = some m' ∧
    HashesRep ⟨s.ptrs, m'⟩ (σ.modify i (· ++ [.clear])) hs' := by
  by_cases hi : i < σ.length
  · obtain ⟨a, ha, hptr, -, I⟩ := S.get hi
    obtain ⟨m', hclear, R, C⟩ := hashClear_rep I.rep (lt_uint I.small)
    have hfits : OrderedMap.FitIn (2 ^ 31 - 1) (.ofEdits (historyAt σ i)) [.clear] := ⟨trivial, trivial⟩
    obtain ⟨hs', S'⟩ := S.edit ha I hfits R rfl C
    exact ⟨m', hs', hptr ▸ hclear, S'⟩
  · refine ⟨s.mem, hs, ?_, ?_⟩
    · rw [S.ptr_none hi]
      rfl
    · rw [modify_absent hi]
      exact S

/-- Each call gives the result of the operation, and the hashes go on to have their histories. -/
theorem hashOp_run_spec (S : HashesRep s σ hs) (hfit : op.FitsIn σ) :
    ∃ s' hs', op.run s = some ((op.spec σ).1, s') ∧ HashesRep s' (op.spec σ).2 hs' := by
  cases op with
  | create =>
    obtain ⟨h, t, m', hcreate, R, C, hapart⟩ := hashCreate_rep s.mem
    refine ⟨⟨s.ptrs ++ [h], m'⟩, _, ?_, S.add C hapart ⟨R, rfl, Nat.zero_lt_succ _⟩⟩
    simp [HashOp.run, hcreate, HashOp.spec]
  | set i k v =>
    by_cases hi : i < σ.length
    · obtain ⟨a, ha, hptr, -, I⟩ := S.get hi
      have hsize := OrderedMap.size_foldl_apply_le I.size_le hfit
      obtain ⟨m', xs, hset, R, hmap, C⟩ := hashSet_rep I.rep I.map (lt_int hsize)
      obtain ⟨hs', S'⟩ := S.edit ha I hfit R hmap C
      refine ⟨⟨s.ptrs, m'⟩, hs', ?_, S'⟩
      simp [HashOp.run, hptr, hset, HashOp.spec, hi]
    · refine ⟨s, hs, ?_, ?_⟩
      · simp [HashOp.run, S.ptr_none hi, nlHashSet, HashOp.spec, hi]
      · simpa only [HashOp.spec, modify_absent hi] using S
  | remove i k =>
    obtain ⟨m', hs', hremove, S'⟩ := S.remove i k
    exact ⟨_, hs', by simp only [HashOp.run, hremove, Option.map_some, HashOp.spec], S'⟩
  | clear i =>
    obtain ⟨m', hs', hclear, S'⟩ := S.clear i
    exact ⟨_, hs', by simp only [HashOp.run, hclear, Option.map_some, HashOp.spec], S'⟩
  | parse i kvp =>
    by_cases hi : i < σ.length
    · obtain ⟨a, ha, hptr, -, I⟩ := S.get hi
      obtain ⟨m', xs, hbuild, R, hmap, C⟩ := buildHash_rep I.rep I.map I.small hfit
      obtain ⟨hs', S'⟩ := S.edit ha I hfit R hmap C
      refine ⟨⟨s.ptrs, m'⟩, hs', ?_, S'⟩
      simp [HashOp.run, hptr, nlHashParse, hbuild, HashOp.spec]
    · refine ⟨s, hs, ?_, ?_⟩
      · simp [HashOp.run, S.ptr_none hi, nlHashParse, HashOp.spec]
      · simpa only [HashOp.spec, modify_absent hi] using S
  | clone i =>
    by_cases hi : i < σ.length
    · obtain ⟨a, ha, hptr, hes, I⟩ := S.get hi
      obtain ⟨h, t, m', xs, hclone, R, hmap, C, hapart⟩ := hashClone_rep I.rep I.map I.small
      have hsmall : xs.length < 2 ^ 31 := by
        rw [← hmap.size, I.map.size]
        exact I.small
      have S' := S.add C hapart ⟨R, hmap, hsmall⟩
      refine ⟨⟨s.ptrs ++ [h], m'⟩, hs ++ [⟨h, t, xs⟩], ?_, ?_⟩
      · simp [HashOp.run, hptr, hclone, HashOp.spec, hi]
      · simpa only [HashOp.spec, hes, Option.toList_some] using S'
    · have hnone : σ[i]? = none := List.getElem?_eq_none (Nat.le_of_not_lt hi)
      refine ⟨s, hs, ?_, ?_⟩
      · simp [HashOp.run, S.ptr_none hi, nlHashClone, HashOp.spec, hi]
      · simpa only [HashOp.spec, hnone, Option.toList_none, List.append_nil] using S

theorem runHashes_spec {ops : List HashOp} (S : HashesRep s σ hs) (hfit : HashesFit ops σ) :
    ∃ s' hs', runHashes ops s = some ((runHistories ops σ).1, s') ∧ HashesRep s' (runHistories ops σ).2 hs' := by
  induction ops generalizing s σ hs with
  | nil => exact ⟨s, hs, rfl, S⟩
  | cons op ops ih =>
    obtain ⟨hop, hops⟩ := hfit
    obtain ⟨s₁, hs₁, hrun, S₁⟩ := hashOp_run_spec S hop
    obtain ⟨s', hs', hruns, S'⟩ := ih S₁ hops
    refine ⟨s', hs', ?_, S'⟩
    simp only [runHashes, hrun, hruns, Option.bind_eq_bind, Option.bind_some, runHistories]
    rfl

theorem HashesRep.init : HashesRep {} [] [] :=
  ⟨rfl, rfl, nofun, nofun⟩

end

/-- Every sequence of calls that adds no entry to a hash with 2^31 - 1 entries gives the results of the operations, no
    call uses memory that is not there, and afterwards every hash behaves as the map with its own history. -/
theorem hashes_refine_maps (ops : List HashOp) (hfit : HashesFit ops []) :
    ∃ s, runHashes ops {} = some ((runHistories ops []).1, s) ∧ AllBehave s (runHistories ops []).2 := by
  obtain ⟨s, hs, hrun, S⟩ := runHashes_spec HashesRep.init hfit
  exact ⟨s, hrun, S.allBehave⟩

theorem hashes_refine_maps_clone : ∃ s, runHashes [.create, .parse 0 [97, 61, 49], .set 0 [98] [50], .clone 0,
    .set 0 [97] [51], .remove 1 [98], .set 2 [97] [49]] {} =
      some ([.hash true, .void, .int 0, .hash true, .int 0, .int 0, .int (-1)], s) ∧
    AllBehave s [[.set [97] [49], .set [98] [50], .set [97] [51]], [.set [97] [49], .set [98] [50], .remove [98]]] :=
  hashes_refine_maps _ (by decide)

/-! ### A hash with 2^31 entries -/

/-- A key of 31 characters `0` and `1`. -/
def keyOf (n : Nat) : Bytes := (List.range 31).map fun i => if n.testBit i then 49 else 48

/-- A hash is made, and the keys of the first `n` numbers are set in it. -/
def fill (n : Nat) : List HashOp := .create :: (List.range n).map fun i => .set 0 (keyOf i) [49]

theorem keyOf_inj {n n' : Nat} (hn : n < 2 ^ 31) (hn' : n' < 2 ^ 31) (h : keyOf n = keyOf n') : n = n' := by
  refine Nat.eq_of_testBit_eq ?_
  intro i
  rcases Nat.lt_or_ge i 31 with hi | hi
  · have hbit := List.map_inj_left.mp h i (List.mem_range.mpr hi)
    cases hb : n.testBit i <;> cases hb' : n'.testBit i <;> simp_all
  · have hpow : 2 ^ 31 ≤ 2 ^ i := Nat.pow_le_pow_right (by decide) hi
    rw [Nat.testBit_lt_two_pow (Nat.lt_of_lt_of_le hn hpow), Nat.testBit_lt_two_pow (Nat.lt_of_lt_of_le hn' hpow)]

theorem keys_nodup {n : Nat} (hn : n ≤ 2 ^ 31) : ((List.range n).map keyOf).Nodup := by
  refine List.pairwise_map.mpr (List.nodup_range.imp_of_mem fun hi hj hne hkey => hne (keyOf_inj ?_ ?_ hkey))
  · exact Nat.lt_of_lt_of_le (List.mem_range.mp hi) hn
  · exact Nat.lt_of_lt_of_le (List.mem_range.mp hj) hn

/-- The history of the hash after that. -/
def fillHistory (n : Nat) : History := ((List.range n).map keyOf).map fun k => .set k [49]

theorem fill_succ {n : Nat} : fill (n + 1) = fill n ++ [.set 0 (keyOf n) [49]] := by
  rw [fill, List.range_succ, List.map_append]
  rfl

theorem runHashes_snoc {ops : List HashOp} {op : HashOp} {s : Hashes} : runHashes (ops ++ [op]) s =
    (runHashes ops s).bind fun r => (op.run r.2).map fun r' => (r.1 ++ [r'.1], r'.2) := by
  induction ops generalizing s with
  | nil => cases h : op.run s <;> simp [runHashes, h]
  | cons op' ops ih =>
    cases h : op'.run s with
    | none => simp [runHashes, h]
    | some r =>
      cases h' : runHashes ops r.2 with
      | none => simp [runHashes, h, h', ih]
      | some r' => cases h'' : op.run r'.2 <;> simp [runHashes, h, h', h'', ih]

theorem runHistories_sets {ks : List Bytes} {es : History} :
    (runHistories (ks.map fun k => .set 0 k [49]) [es]).2 = [es ++ ks.map fun k => .set k [49]] := by
  induction ks generalizing es with
  | nil => rw [List.map_nil, List.map_nil, List.append_nil, runHistories]
  | cons k ks ih =>
    have hspec : ((HashOp.set 0 k [49]).spec [es]).2 = [es ++ [.set k [49]]] := rfl
    simp only [List.map_cons, runHistories, hspec, ih, List.append_assoc]
    rfl

theorem fits_sets {ks : List Bytes} {es : History} (h : (OrderedMap.ofEdits es).size + ks.length ≤ 2 ^ 31 - 1) :
    HashesFit (ks.map fun k => .set 0 k [49]) [es] := by
  induction ks generalizing es with
  | nil => trivial
  | cons k ks ih =>
    have hspec : ((HashOp.set 0 k [49]).spec [es]).2 = [es ++ [.set k [49]]] := rfl
    rw [List.length_cons] at h
    have hlt : (OrderedMap.ofEdits es).size < 2 ^ 31 - 1 := by omega
    have hsize : (OrderedMap.ofEdits (es ++ [.set k [49]])).size ≤ (OrderedMap.ofEdits es).size + 1 := by
      rw [OrderedMap.ofEdits_append]
      have hroom : (OrderedMap.Edit.set k [49]).FitsIn ((OrderedMap.ofEdits es).size + 1) (.ofEdits es) :=
        Or.inr (Nat.lt_succ_self _)
      exact OrderedMap.size_apply_le (Nat.le_succ _) hroom
    refine ⟨⟨Or.inr hlt, trivial⟩, ?_⟩
    rw [hspec]
    exact ih (by omega)

theorem runHistories_fill {n : Nat} : (runHistories (fill n) []).2 = [fillHistory n] := by
  have hspec : (HashOp.create.spec []).2 = [[]] := rfl
  have hfill : fill n = .create :: ((List.range n).map keyOf).map fun k => .set 0 k [49] := by
    rw [List.map_map]
    rfl
  rw [hfill, runHistories, hspec, runHistories_sets]
  rfl

theorem fits_fill {n : Nat} (hn : n ≤ 2 ^ 31 - 1) : HashesFit (fill n) [] := by
  have hfill : fill n = .create :: ((List.range n).map keyOf).map fun k => .set 0 k [49] := by
    rw [List.map_map]
    rfl
  rw [hfill]
  refine ⟨trivial, fits_sets ?_⟩
  rw [List.length_map, List.length_range]
  exact (Nat.zero_add n).symm ▸ hn

theorem keys_fillHistory {n : Nat} (hn : n ≤ 2 ^ 31) :
    (OrderedMap.ofEdits (fillHistory n)).keys = (List.range n).map keyOf :=
  OrderedMap.keys_foldl_set (keys_nodup hn)

theorem size_fillHistory {n : Nat} (hn : n ≤ 2 ^ 31) : (OrderedMap.ofEdits (fillHistory n)).size = n := by
  rw [← OrderedMap.length_keys, keys_fillHistory hn, List.length_map, List.length_range]

theorem keyOf_not_mem {n : Nat} (hn : n + 1 ≤ 2 ^ 31) : keyOf n ∉ (OrderedMap.ofEdits (fillHistory n)).keys := by
  have hnd := keys_nodup hn
  rw [List.range_succ, List.map_append] at hnd
  rw [keys_fillHistory (Nat.le_of_succ_le hn)]
  exact fun hm => (List.nodup_append.mp hnd).2.2 _ hm _ (List.mem_singleton_self _) rfl

/-- After 2^31 - 1 of the keys the next one is in the table, in an entry that has been freed, and not counted. -/
theorem fill_last {n : Nat} (hn : n = 2 ^ 31 - 1) : ∃ rs s, runHashes (fill (n + 1)) {} = some (rs, s) ∧
    ¬AllBehave s (runHistories (fill (n + 1)) []).2 := by
  obtain ⟨s, hs, hrun, S⟩ := runHashes_spec HashesRep.init (fits_fill (Nat.le_of_eq hn))
  rw [runHistories_fill] at S
  obtain ⟨a, -, hptr, -, I⟩ := S.get (i := 0) Nat.one_pos
  have hhist : historyAt [fillHistory n] 0 = fillHistory n := rfl
  rw [hhist] at I
  have hle : n + 1 ≤ 2 ^ 31 := by omega
  have hslots : a.slots.length = n := I.map.size ▸ size_fillHistory (Nat.le_of_succ_le hle)
  have hnew : keyOf n ∉ a.slots.map (·.key) := I.map.keys ▸ keyOf_not_mem hle
  obtain ⟨m', hset, hhashes, R, -⟩ := hashSet_full [49] allocates_allocated I.rep (by omega) (by omega) hnew
  refine ⟨(runHistories (fill n) []).1 ++ [.int (-1)], ⟨s.ptrs, m'⟩, ?_, ?_⟩
  · simp only [fill_succ, runHashes_snoc, hrun, Option.bind_some, HashOp.run, hptr, hset, Option.map_some]
  · intro hall
    rw [runHistories_fill] at hall
    obtain ⟨h, t, f, hh, ht, hf, hcount, -⟩ := (hall.2 0 a.h _ hptr rfl).count
    have hhash : h = ⟨some a.t, a.slots.length⟩ := Option.some.inj (hh.symm.trans (hhashes ▸ I.rep.hash))
    subst hhash
    obtain rfl := Option.some.inj ht
    obtain rfl := Option.some.inj (hf.symm.trans R.fifo)
    rw [FifoSpec.toNat_count (by simp [hslots, hn])] at hcount
    simp at hcount

theorem not_allBehave_fill : ∃ rs s, runHashes (fill (2 ^ 31)) {} = some (rs, s) ∧
    ¬AllBehave s (runHistories (fill (2 ^ 31)) []).2 := fill_last rfl

end Nlutils
