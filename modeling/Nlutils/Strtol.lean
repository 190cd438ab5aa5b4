import Nlutils.Bytes
import Mathlib.Data.List.Induction
import Mathlib.Data.List.TakeWhile
import Mathlib.Data.Nat.Digits.Defs

/-! # Numbers in strings

`strtol`, `strtoul` and `atoi` of the standard library with a `long` of 64 bits, and what `printf` makes of
integers. -/

namespace Nlutils

/-- The value of a character as a digit. -/
def digitVal (c : Byte) : Option Nat :=
  if isdigit c then some (c.toNat - 48)
  else if 97 ≤ c ∧ c ≤ 122 then some (c.toNat - 87)
  else if 65 ≤ c ∧ c ≤ 90 then some (c.toNat - 55)
  else none

def isDigitOf (base : Nat) (c : Byte) : Bool := (digitVal c).any (· < base)

/-- The number that digits denote. -/
def digitsVal (base : Nat) (ds : Bytes) : Nat := ds.foldl (fun n c => n * base + (digitVal c).getD 0) 0

/-- The integer that a sign and digits denote. -/
def signedVal (sign ds : Bytes) : Int := if sign == [45] then -digitsVal 10 ds else digitsVal 10 ds

/-- Whether there is a minus sign, and what follows the sign. -/
def skipSign (s : Bytes) : Bool × Bytes :=
  if s.at 0 = 45 then (true, s.tail) else if s.at 0 = 43 then (false, s.tail) else (false, s)

/-- In base 16, `0x` is passed over in front of a digit. -/
def skipHexPrefix (base : Nat) (s : Bytes) : Bytes :=
  if base = 16 ∧ s.at 0 = 48 ∧ (s.at 1 = 120 ∨ s.at 1 = 88) ∧ isxdigit (s.at 2) then s.drop 2 else s

/-- A number at the start of a string. -/
structure Numeral where
  neg : Bool
  digits : Bytes
  rest : Bytes
  deriving DecidableEq, Repr

def numeral (s : Bytes) (base : Nat) : Numeral :=
  let r := skipSign (s.dropWhile isspace)
  let s := skipHexPrefix base r.2
  ⟨r.1, s.takeWhile (isDigitOf base), s.dropWhile (isDigitOf base)⟩

/-- The result, what `*endptr` points to, and whether `errno` is set to `ERANGE`. -/
def strtol (s : Bytes) (base : Nat) : Int × Bytes × Bool :=
  let n := numeral s base
  let v : Int := if n.neg then -digitsVal base n.digits else digitsVal base n.digits
  if n.digits = [] then (0, s, false)
  else if v ≥ 2 ^ 63 then (2 ^ 63 - 1, n.rest, true)
  else if v < -2 ^ 63 then (-2 ^ 63, n.rest, true)
  else (v, n.rest, false)

/-- As for `strtol`; a minus sign negates modulo 2^64. -/
def strtoul (s : Bytes) (base : Nat) : Nat × Bytes × Bool :=
  let n := numeral s base
  let v := digitsVal base n.digits
  if n.digits = [] then (0, s, false)
  else if v ≥ 2 ^ 64 then (2 ^ 64 - 1, n.rest, true)
  else if n.neg then ((2 ^ 64 - v) % 2 ^ 64, n.rest, false)
  else (v, n.rest, false)

def atoi (s : Bytes) : Int32 := Int32.ofInt (strtol s 10).1

/-- `%zu` -/
def printNat (n : Nat) : Bytes :=
  if n = 0 then [48] else (Nat.digits 10 n).reverse.map fun d => (48 + d).toUInt8

/-- `%d` -/
def printInt (n : Int) : Bytes := if n < 0 then 45 :: printNat n.natAbs else printNat n.natAbs

section
variable {n : Nat} {c : Byte} {d : Nat} {rest : Bytes}

theorem digitVal_digit (hd : d < 10) : isdigit (48 + d).toUInt8 = true ∧ digitVal (48 + d).toUInt8 = some d := by
  have hall : ∀ d, d < 10 → isdigit (48 + d).toUInt8 = true ∧ digitVal (48 + d).toUInt8 = some d := by decide
  exact hall d hd

theorem isdigit_printNat : ∀ c ∈ printNat n, isdigit c = true := by
  intro c hc
  unfold printNat at hc
  split at hc
  · rw [List.mem_singleton.mp hc]
    rfl
  · simp only [List.mem_map, List.mem_reverse] at hc
    obtain ⟨d, hd, rfl⟩ := hc
    exact (digitVal_digit (Nat.digits_lt_base (by decide) hd)).1

theorem printNat_ne_nil : printNat n ≠ [] := by
  unfold printNat
  split
  · exact List.cons_ne_nil _ _
  · next h =>
    have hne := Nat.digits_ne_nil_iff_ne_zero (b := 10).mpr h
    simpa using hne

theorem digitsVal_printNat : digitsVal 10 (printNat n) = n := by
  unfold printNat
  split
  · next h => rw [h]; rfl
  · have hmap : ∀ ds : List Nat, (∀ d ∈ ds, d < 10) →
        digitsVal 10 (ds.reverse.map fun d => (48 + d).toUInt8) = Nat.ofDigits 10 ds := by
      intro ds hds
      induction ds with
      | nil => rfl
      | cons d ds ih =>
        obtain ⟨hd, hds⟩ := List.forall_mem_cons.mp hds
        have ih := ih hds
        rw [digitsVal] at ih ⊢
        rw [List.reverse_cons, List.map_append, List.foldl_append, ih, Nat.ofDigits_cons]
        simp only [List.map_cons, List.map_nil, List.foldl_cons, List.foldl_nil, (digitVal_digit hd).2]
        rw [Option.getD_some]
        omega
    rw [hmap _ fun d hd => Nat.digits_lt_base (by decide) hd, Nat.ofDigits_digits]

/-- What a character that is a digit is not. -/
theorem isdigit_spec (hc : isdigit c = true) : isspace c = false ∧ c ≠ 45 ∧ c ≠ 43 := by
  have hall : ∀ d, d < 10 →
      isspace (48 + d).toUInt8 = false ∧ (48 + d).toUInt8 ≠ 45 ∧ (48 + d).toUInt8 ≠ 43 := by decide
  simp only [isdigit, Bool.and_eq_true, decide_eq_true_eq, UInt8.le_iff_toNat_le] at hc
  have hlo : 48 ≤ c.toNat := hc.1
  have hhi : c.toNat ≤ 57 := hc.2
  have hd : (48 + (c.toNat - 48)).toUInt8 = c := by
    rw [Nat.add_sub_cancel' hlo]
    exact UInt8.ofNat_toNat
  rw [← hd]
  exact hall _ (by omega)

theorem isDigitOf_ten : isDigitOf 10 c = isdigit c := by
  unfold isDigitOf digitVal
  by_cases hc : isdigit c = true
  · have hc' := hc
    simp only [isdigit, Bool.and_eq_true, decide_eq_true_eq, UInt8.le_iff_toNat_le] at hc'
    have hhi : c.toNat ≤ 57 := hc'.2
    rw [if_pos hc, hc]
    simp only [Option.any_some, decide_eq_true_eq]
    omega
  · have hfalse : isdigit c = false := Bool.not_eq_true _ ▸ hc
    rw [if_neg hc, hfalse]
    simp only [UInt8.le_iff_toNat_le]
    split
    · next h =>
      have hlo : 97 ≤ c.toNat := h.1
      simp only [Option.any_some, decide_eq_false_iff_not]
      omega
    · split
      · next h =>
        have hlo : 65 ≤ c.toNat := h.1
        simp only [Option.any_some, decide_eq_false_iff_not]
        omega
      · rfl

theorem digitsVal_lt {ds : Bytes} (hds : ∀ c ∈ ds, isdigit c = true) : digitsVal 10 ds < 10 ^ ds.length := by
  induction ds using List.reverseRecOn with
  | nil => exact Nat.one_pos
  | append_singleton ds c ih =>
    have hlt := ih fun b hb => hds b (List.mem_append_left _ hb)
    have hc : (digitVal c).getD 0 < 10 := by
      have hdigit : isDigitOf 10 c = true := isDigitOf_ten ▸ hds c (by simp)
      rw [isDigitOf] at hdigit
      cases hval : digitVal c with
      | none => exact Nat.zero_lt_succ 9
      | some d =>
        rw [hval] at hdigit
        exact of_decide_eq_true hdigit
    rw [digitsVal, List.foldl_append, List.length_append, List.length_singleton, Nat.pow_succ]
    have hstep : digitsVal 10 ds * 10 + (digitVal c).getD 0 < 10 ^ ds.length * 10 := by omega
    exact hstep

/-- A text that begins with `0x`. -/
theorem hexPrefix_iff : rest.at 0 = 48 ∧ rest.at 1 = 120 ↔ ∃ u, rest = 48 :: 120 :: u := by
  constructor
  · rcases rest with _ | ⟨c, _ | ⟨d, u⟩⟩
    · rintro ⟨h, -⟩
      cases h
    · rintro ⟨-, h⟩
      cases h
    · rintro ⟨rfl, rfl⟩
      exact ⟨u, rfl⟩
  · rintro ⟨u, rfl⟩
    exact ⟨rfl, rfl⟩

/-- The hex digits are the digits of base 16. -/
theorem isxdigit_spec (hc : isxdigit c = true) : isspace c = false ∧ c ≠ 45 ∧ c ≠ 43 := by
  simp only [isxdigit, isdigit, Bool.or_eq_true, Bool.and_eq_true, decide_eq_true_eq, UInt8.le_iff_toNat_le,
    UInt8.toNat_ofNat] at hc
  refine ⟨?_, ?_, ?_⟩
  · simp only [isspace, Bool.or_eq_false_iff, beq_eq_false_iff_ne, Bool.and_eq_false_iff, decide_eq_false_iff_not,
      UInt8.le_iff_toNat_le, UInt8.toNat_ofNat]
    refine ⟨?_, by omega⟩
    rintro rfl
    exact absurd hc (by decide)
  · rintro rfl
    exact absurd hc (by decide)
  · rintro rfl
    exact absurd hc (by decide)

theorem isDigitOf_sixteen : isDigitOf 16 c = isxdigit c := by
  have hc := c.toNat_lt
  rw [Bool.eq_iff_iff]
  simp only [isDigitOf, digitVal, isxdigit, isdigit, Bool.or_eq_true, Bool.and_eq_true, decide_eq_true_eq,
    UInt8.le_iff_toNat_le, UInt8.toNat_ofNat, or_assoc]
  split
  · simp only [Option.any_some, decide_eq_true_eq]
    omega
  · split
    · simp only [Option.any_some, decide_eq_true_eq]
      omega
    · split
      · simp only [Option.any_some, decide_eq_true_eq]
        omega
      · simp only [Option.any_none, Bool.false_eq_true, false_iff]
        omega

/-- In base 10 a numeral is white space, a sign and digits. -/
theorem numeral_ten (s : Bytes) :
    numeral s 10 = ⟨(skipSign (s.dropWhile isspace)).1, (skipSign (s.dropWhile isspace)).2.takeWhile isdigit,
      (skipSign (s.dropWhile isspace)).2.dropWhile isdigit⟩ := by
  have hhex : ∀ s, skipHexPrefix 10 s = s := fun _ => if_neg (by simp)
  have hdigit : isDigitOf 10 = isdigit := funext fun _ => isDigitOf_ten
  simp only [numeral, hhex, hdigit]

/-! ### Where a number ends -/

/-- The text does not go on with a digit. -/
def NoDigit (s : Bytes) : Prop := ∀ c, s.head? = some c → isdigit c = false

/-- White space, a sign and digits, all of which `strtol` takes for a number. -/
def IsLooseNumber (d : Bytes) : Prop :=
  ∃ ws sign ds : Bytes, d = ws ++ (sign ++ ds) ∧ (∀ c ∈ ws, isspace c = true) ∧ sign ∈ [[], [43], [45]] ∧
    ds ≠ [] ∧ ∀ c ∈ ds, isdigit c = true

/-- What stops a scan. -/
theorem head?_dropWhile {p : Byte → Bool} {s : Bytes} (h : (s.dropWhile p).head? = some c) : p c = false := by
  have hnot := List.head?_dropWhile_not p s
  rw [h] at hnot
  simpa using hnot

theorem span_append {p : Byte → Bool} {a s : Bytes} (ha : ∀ c ∈ a, p c = true)
    (hs : ∀ c, s.head? = some c → p c = false) : (a ++ s).takeWhile p = a ∧ (a ++ s).dropWhile p = s := by
  rw [List.takeWhile_append_of_pos ha, List.dropWhile_append_of_pos ha]
  cases s with
  | nil => simp
  | cons c s => simp [hs c rfl]

/-- A character that the scan stops at ends it wherever it is. -/
theorem span_stop {p : Byte → Bool} {a s : Bytes} (hc : p c = false) :
    (a ++ c :: s).takeWhile p = a.takeWhile p ∧ (a ++ c :: s).dropWhile p = a.dropWhile p ++ c :: s := by
  induction a with
  | nil => simp [hc]
  | cons b a ih =>
    by_cases hb : p b = true
    · simpa [hb] using ih
    · simp [hb]

theorem skipSign_append {sign ds : Bytes} (hsign : sign ∈ [[], [43], [45]]) (hne : ds ≠ [])
    (hds : ∀ c ∈ ds, isdigit c = true) : skipSign (sign ++ (ds ++ rest)) = (sign == [45], ds ++ rest) := by
  simp only [List.mem_cons, List.not_mem_nil, or_false] at hsign
  rcases hsign with rfl | rfl | rfl
  · obtain ⟨c, ds, rfl⟩ := List.exists_cons_of_ne_nil hne
    obtain ⟨-, hminus, hplus⟩ := isdigit_spec (hds c List.mem_cons_self)
    have hat : Bytes.at ([] ++ (c :: ds ++ rest)) 0 = c := rfl
    rw [skipSign, hat, if_neg hminus, if_neg hplus]
    rfl
  · rfl
  · rfl

theorem numeral_loose {ws sign ds : Bytes} (hws : ∀ c ∈ ws, isspace c = true) (hsign : sign ∈ [[], [43], [45]])
    (hne : ds ≠ []) (hds : ∀ c ∈ ds, isdigit c = true) (hrest : NoDigit rest) :
    numeral (ws ++ (sign ++ ds) ++ rest) 10 = ⟨sign == [45], ds, rest⟩ := by
  have hspace : ∀ c, (sign ++ (ds ++ rest)).head? = some c → isspace c = false := by
    simp only [List.mem_cons, List.not_mem_nil, or_false] at hsign
    obtain ⟨c, ds, rfl⟩ := List.exists_cons_of_ne_nil hne
    have hc := (isdigit_spec (hds c List.mem_cons_self)).1
    rcases hsign with rfl | rfl | rfl
    · simpa using hc
    · simp [isspace]
    · simp [isspace]
  obtain ⟨htake, hdrop⟩ := span_append hds hrest
  rw [List.append_assoc, List.append_assoc, numeral_ten, (span_append hws hspace).2, skipSign_append hsign hne hds]
  simp only [htake, hdrop]

/-- A text begins with the sign that is skipped. -/
theorem skipSign_split (u : Bytes) :
    ∃ sign : Bytes, sign ∈ [[], [43], [45]] ∧ u = sign ++ (skipSign u).2 ∧ (skipSign u).1 = (sign == [45]) := by
  unfold skipSign
  cases u with
  | nil => exact ⟨[], by simp, rfl, rfl⟩
  | cons c u =>
    have hat : Bytes.at (c :: u) 0 = c := rfl
    rw [hat]
    split
    · next hc => exact ⟨[45], by simp, by rw [hc]; rfl, rfl⟩
    · split
      · next hc => exact ⟨[43], by simp, by rw [hc]; rfl, rfl⟩
      · exact ⟨[], by simp, rfl, rfl⟩

/-- What `strtol` takes is a loose number. -/
theorem exists_loose {s : Bytes} (h : (numeral s 10).digits ≠ []) :
    ∃ d more, s = d ++ more ∧ IsLooseNumber d ∧ NoDigit more := by
  rw [numeral_ten] at h
  simp only at h
  generalize hu : s.dropWhile isspace = u at h
  have hs : s = s.takeWhile isspace ++ u := by rw [← hu, List.takeWhile_append_dropWhile]
  obtain ⟨sign, hsign, hsplit, -⟩ := skipSign_split u
  generalize (skipSign u).2 = v at h hsplit
  refine ⟨s.takeWhile isspace ++ (sign ++ v.takeWhile isdigit), v.dropWhile isdigit, ?_,
    ⟨_, sign, _, rfl, fun c hc => List.mem_takeWhile_imp hc, hsign, h, fun c hc => List.mem_takeWhile_imp hc⟩,
    fun _ => head?_dropWhile⟩
  rw [List.append_assoc, List.append_assoc, List.takeWhile_append_dropWhile, ← hsplit, ← hs]

/-- Where `strtoul` stops, and the number, do not depend on what comes after the digits. -/
theorem strtoul_loose {d more : Bytes} (hd : IsLooseNumber d) (hmore : NoDigit more) :
    strtoul (d ++ more) 10 = ((strtoul d 10).1, more, (strtoul d 10).2.2) := by
  obtain ⟨ws, sign, ds, rfl, hws, hsign, hne, hds⟩ := hd
  have hnil := numeral_loose hws hsign hne hds (show NoDigit [] from nofun)
  rw [List.append_nil] at hnil
  simp only [strtoul, numeral_loose hws hsign hne hds hmore, hnil, if_neg hne]
  split
  · rfl
  · split <;> rfl

/-- `strtol` takes the number that a sign and digits denote, as far as a `long` goes. -/
theorem strtol_signed {sign ds : Bytes} (hsign : sign ∈ [[], [43], [45]]) (hne : ds ≠ [])
    (hds : ∀ c ∈ ds, isdigit c = true) :
    (strtol (sign ++ ds) 10).1 = max (-2 ^ 63) (min (signedVal sign ds) (2 ^ 63 - 1)) := by
  have hnil := @numeral_loose [] [] sign ds nofun hsign hne hds nofun
  rw [List.nil_append, List.append_nil] at hnil
  have hv : (if (sign == [45]) = true then -(digitsVal 10 ds : Int) else digitsVal 10 ds) = signedVal sign ds := rfl
  simp only [strtol, hnil, if_neg hne, hv]
  split
  · omega
  · split
    · omega
    · omega

theorem exists_loose_of_strtoul {s : Bytes} (h : (strtoul s 10).2.1 ≠ s) :
    ∃ d more, s = d ++ more ∧ IsLooseNumber d ∧ NoDigit more := by
  refine exists_loose ?_
  intro hnil
  exact h (by rw [strtoul]; simp only [if_pos hnil])

/-! ### Printing and reading -/

/-- Reading back what `%d` has written. -/
theorem strtol_printInt {n : Int} (hlo : -2 ^ 63 ≤ n) (hhi : n < 2 ^ 63) :
    strtol (printInt n) 10 = (n, [], false) := by
  have hds := fun c => isdigit_printNat (n := n.natAbs) (c := c)
  have hpos : numeral (printNat n.natAbs) 10 = ⟨false, printNat n.natAbs, []⟩ := by
    simpa using @numeral_loose [] [] [] _ nofun (by simp) printNat_ne_nil hds nofun
  have hneg : numeral (45 :: printNat n.natAbs) 10 = ⟨true, printNat n.natAbs, []⟩ := by
    simpa using @numeral_loose [] [] [45] _ nofun (by simp) printNat_ne_nil hds nofun
  unfold strtol printInt
  split
  · next h =>
    simp only [hneg, digitsVal_printNat, if_neg printNat_ne_nil, if_true]
    rw [if_neg (by omega), if_neg (by omega)]
    simp only [Prod.mk.injEq, and_true]
    omega
  · next h =>
    simp only [hpos, digitsVal_printNat, if_neg printNat_ne_nil, Bool.false_eq_true, if_false]
    rw [if_neg (by omega), if_neg (by omega)]
    simp only [Prod.mk.injEq, and_true]
    omega

theorem printInt_eq_cons (n : Int) :
    ∃ c ds, printInt n = c :: ds ∧ (isdigit c = true ∨ c = 45) ∧ ∀ d ∈ ds, isdigit d = true := by
  have hdigits := fun c => isdigit_printNat (n := n.natAbs) (c := c)
  unfold printInt
  split
  · exact ⟨45, _, rfl, Or.inr rfl, hdigits⟩
  · obtain ⟨c, ds, heq⟩ := List.exists_cons_of_ne_nil (printNat_ne_nil (n := n.natAbs))
    rw [heq] at hdigits ⊢
    exact ⟨c, ds, rfl, Or.inl (hdigits c List.mem_cons_self), fun d hd => hdigits d (List.mem_cons_of_mem _ hd)⟩

end
end Nlutils
