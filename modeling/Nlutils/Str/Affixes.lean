import Nlutils.Variant.Compare

/-! # The beginning and the end of a string (`nl_strstart`, `nl_strend` and `nl_strcommon` of `str.c`)

A string is compared with as many of its first or last characters as another one has. -/

namespace Nlutils

/-- `nl_strend`; the offset is not negative. -/
def nlStrend (str ending : Bytes) : Int :=
  strcmp (str.drop (max 0 ((str.length : Int) - ending.length)).toNat) ending

/-- The loop of `nl_strcommon`. -/
def strcommonLoop : Bytes → Bytes → Nat → Nat
  | c :: a, d :: b, common => if c = d then strcommonLoop a b (common + 1) else common
  | _, _, common => common

def nlStrcommon (a b : Bytes) : Nat := strcommonLoop a b 0

/-- `nl_strstart` and `nl_strend` are zero for a prefix and a suffix, and compare by the order of the characters
    otherwise. What two strings have in common is their longest prefix, and the difference behind it is what
    `nl_strstart` returns. -/
structure Affixes (str s : Bytes) : Prop where
  start : nlStrstart str s = 0 ↔ s <+: str
  ending : nlStrend str s = 0 ↔ s <:+ str
  startOrder : Lib.Agrees (some (nlStrstart str s)) ((str.take s.length).map UInt8.toNat) (s.map UInt8.toNat)
  endOrder : Lib.Agrees (some (nlStrend str s)) ((str.drop (str.length - s.length)).map UInt8.toNat)
    (s.map UInt8.toNat)
  common : str.take (nlStrcommon str s) = s.take (nlStrcommon str s)
  longest : ∀ p, p <+: str → p <+: s → p.length ≤ nlStrcommon str s
  whole : nlStrcommon str s = s.length ↔ s <+: str
  difference : ¬s <+: str → nlStrstart str s = (str.at (nlStrcommon str s)).toNat - (s.at (nlStrcommon str s)).toNat

section
variable {str s a b : Bytes} {n : Nat}

theorem strcommonLoop_eq (a b : Bytes) (n : Nat) : strcommonLoop a b n = nlStrcommon a b + n := by
  rw [nlStrcommon]
  induction a generalizing b n with
  | nil => simp [strcommonLoop]
  | cons c a ih =>
    cases b with
    | nil => simp [strcommonLoop]
    | cons d b =>
      rw [strcommonLoop, strcommonLoop]
      split
      · rw [ih b (n + 1), ih b (0 + 1)]
        omega
      · exact (Nat.zero_add n).symm

theorem nlStrcommon_cons (c : Byte) (a b : Bytes) : nlStrcommon (c :: a) (c :: b) = nlStrcommon a b + 1 := by
  rw [nlStrcommon, strcommonLoop, if_pos rfl, strcommonLoop_eq]

theorem nlStrcommon_ne {c d : Byte} (h : c ≠ d) (a b : Bytes) : nlStrcommon (c :: a) (d :: b) = 0 := by
  rw [nlStrcommon, strcommonLoop, if_neg h]

/-- Comparing at most as many characters as a string has is comparing with the beginning of the other. -/
theorem strncmp_take (hb : 0 ∉ b) : strncmp a b b.length = strcmp (a.take b.length) b := by
  induction b generalizing a with
  | nil => rw [List.length_nil, List.take_zero]; rfl
  | cons d b ih =>
    obtain ⟨hd, hb'⟩ := not_or.mp (List.mem_cons.not.mp hb)
    cases a with
    | nil =>
      have hne : ¬(0 : Byte) = d := hd
      simp [strncmp, strcmp, hne]
    | cons c a =>
      rw [List.length_cons, List.take_succ_cons]
      by_cases hcd : c = d
      · subst hcd
        rw [strncmp_self (Ne.symm hd), ih hb', strcmp, if_neg (not_not.mpr rfl)]
      · simp [strncmp, strcmp, hcd]

theorem nlStrend_eq (str s : Bytes) : nlStrend str s = strcmp (str.drop (str.length - s.length)) s := by
  have hoffset : (max 0 ((str.length : Int) - s.length)).toNat = str.length - s.length := by omega
  rw [nlStrend, hoffset]

/-- Strings compare as equal when they are. -/
theorem strcmp_eq_zero (ha : 0 ∉ a) (hb : 0 ∉ b) : strcmp a b = 0 ↔ a = b := by
  obtain ⟨n, hn, hneg, hpos⟩ := strcmp_agrees ha hb
  obtain rfl := Option.some.inj hn
  have hinj : a.map UInt8.toNat = b.map UInt8.toNat ↔ a = b :=
    (List.map_injective_iff.mpr fun _ _ h => UInt8.toNat_inj.mp h).eq_iff
  rw [← hinj]
  constructor
  · intro hzero
    rw [hzero] at hneg hpos
    have hle := not_lt.mp fun h => Int.lt_irrefl 0 (hpos.mpr h)
    have hge := not_lt.mp fun h => Int.lt_irrefl 0 (hneg.mpr h)
    exact le_antisymm hle hge
  · intro heq
    rw [heq] at hneg hpos
    have hle := mt hneg.mp (lt_irrefl _)
    have hge := mt hpos.mp (lt_irrefl _)
    omega

theorem common_spec (a b : Bytes) : a.take (nlStrcommon a b) = b.take (nlStrcommon a b) ∧
    ∀ p, p <+: a → p <+: b → p.length ≤ nlStrcommon a b := by
  induction a generalizing b with
  | nil => exact ⟨by simp [nlStrcommon, strcommonLoop], fun p hp _ => hp.length_le⟩
  | cons c a ih =>
    cases b with
    | nil => exact ⟨by simp [nlStrcommon, strcommonLoop], fun p _ hp => hp.length_le⟩
    | cons d b =>
      by_cases hcd : c = d
      · subst hcd
        obtain ⟨hcommon, hlongest⟩ := ih b
        rw [nlStrcommon_cons, List.take_succ_cons, List.take_succ_cons, hcommon]
        refine ⟨rfl, fun p hpa hpb => ?_⟩
        cases p with
        | nil => exact Nat.zero_le _
        | cons e p =>
          exact Nat.succ_le_succ (hlongest p (List.cons_prefix_cons.mp hpa).2 (List.cons_prefix_cons.mp hpb).2)
      · rw [nlStrcommon_ne hcd]
        refine ⟨rfl, fun p hpa hpb => ?_⟩
        cases p with
        | nil => exact Nat.le_refl 0
        | cons e p =>
          exact absurd ((List.cons_prefix_cons.mp hpa).1.symm.trans (List.cons_prefix_cons.mp hpb).1) hcd

theorem common_le (a b : Bytes) : nlStrcommon a b ≤ b.length := by
  induction a generalizing b with
  | nil => simp [nlStrcommon, strcommonLoop]
  | cons c a ih =>
    cases b with
    | nil => simp [nlStrcommon, strcommonLoop]
    | cons d b =>
      by_cases hcd : c = d
      · subst hcd
        rw [nlStrcommon_cons]
        exact Nat.succ_le_succ (ih b)
      · rw [nlStrcommon_ne hcd]
        exact Nat.zero_le _

theorem common_whole (str s : Bytes) : nlStrcommon str s = s.length ↔ s <+: str := by
  obtain ⟨hcommon, hlongest⟩ := common_spec str s
  constructor
  · intro hlen
    rw [hlen, List.take_length] at hcommon
    exact ⟨_, hcommon ▸ List.take_append_drop s.length str⟩
  · intro hs
    refine Nat.le_antisymm (common_le str s) (hlongest s hs List.prefix_rfl)

/-- Behind what they have in common, the strings differ. -/
theorem strncmp_common (hs : 0 ∉ s) (hlt : nlStrcommon str s < s.length) : strncmp str s s.length =
    (str.at (nlStrcommon str s)).toNat - (s.at (nlStrcommon str s)).toNat := by
  induction s generalizing str with
  | nil => cases hlt
  | cons d s ih =>
    obtain ⟨hd, hs'⟩ := not_or.mp (List.mem_cons.not.mp hs)
    cases str with
    | nil =>
      have hne : ¬(0 : Byte) = d := hd
      simp [strncmp, nlStrcommon, strcommonLoop, Bytes.at, hne]
    | cons c str =>
      by_cases hcd : c = d
      · subst hcd
        rw [nlStrcommon_cons] at hlt ⊢
        rw [List.length_cons, strncmp_self (Ne.symm hd), ih hs' (Nat.lt_of_succ_lt_succ hlt)]
        rfl
      · rw [nlStrcommon_ne hcd]
        simp [strncmp, Bytes.at, hcd]

end

theorem affixes (str s : Bytes) (hstr : 0 ∉ str) (hs : 0 ∉ s) : Affixes str s := by
  have htake : 0 ∉ str.take s.length := fun h => hstr (List.mem_of_mem_take h)
  have hdrop : 0 ∉ str.drop (str.length - s.length) := fun h => hstr (List.mem_of_mem_drop h)
  obtain ⟨hcommon, hlongest⟩ := common_spec str s
  refine ⟨?_, ?_, ?_, ?_, hcommon, hlongest, common_whole str s, ?_⟩
  · rw [nlStrstart, strncmp_take hs, strcmp_eq_zero htake hs, List.prefix_iff_eq_take]
    exact eq_comm
  · rw [nlStrend_eq, strcmp_eq_zero hdrop hs, List.suffix_iff_eq_drop]
    exact eq_comm
  · rw [nlStrstart, strncmp_take hs]
    exact strcmp_agrees htake hs
  · rw [nlStrend_eq]
    exact strcmp_agrees hdrop hs
  · intro hno
    have hne : nlStrcommon str s ≠ s.length := fun heq => hno ((common_whole str s).mp heq)
    exact strncmp_common hs (Nat.lt_of_le_of_ne (common_le str s) hne)

end Nlutils
