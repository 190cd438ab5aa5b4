import Nlutils.Escape.RoundTrip
import Nlutils.Strtol
import Nlutils.Variant.Code
import Mathlib.Data.Nat.Digits.Lemmas

/-! # Variants as text

An integer or a string that `nl_fprint_variant` has written comes back from `nl_string_to_varvalue`, as long as the
length of the text fits an `int`. -/

namespace Nlutils
open Lib

/-- What `fprintf` returns for a text, and what it writes. Where the length is no `int` it fails; `overlong` gives what
    it has written then. -/
def fprintf (overlong : Bytes → Bytes) (text : Bytes) : Int × Bytes :=
  if text.length < 2 ^ 31 then (text.length, text) else (-1, overlong text)

/-- `0x%08lx` -/
def printHex (n : Nat) : Bytes :=
  let ds := (Nat.digits 16 n).reverse.map fun d => if d < 10 then (48 + d).toUInt8 else (87 + d).toUInt8
  bytes "0x" ++ List.replicate (8 - ds.length) 48 ++ ds

/-- The result, and what is written to the output. The parameters are whether the allocations of `nl_strdup` and of
    `nl_escape_string` succeed, what an `fprintf` writes that fails, and the conversions `%.12e` and `%.15f`. There is
    no result where a pointer points to nothing or an `int` overflows. -/
def nlFprintVariant (copyOk reallocOk strdupOk : Bool) (overlong : Bytes → Bytes) (printE printF : Float32 → Bytes)
    (h : VariantHeap) : Variant → Option (Int × Bytes)
  | .any value => written (printHex value.toUInt64.toNat)
  | .integer value => written (printInt value.toInt)
  | .floating value =>
    let v := value.toFloat
    if (v < 0.001 && v > -0.001) || v ≤ -1000 || v ≥ 1000 then written (printE value) else written (printF value)
  | .string none => written (bytes "\\0")
  | .string (some p) => do
    let string ← h.strings.get p
    if !copyOk then some (-1, [])
    else
      let (ret, tmp, _) ← nlEscapeString reallocOk strdupOk string string.length
      if ret ≠ 0 then some (-1, []) else written tmp
  | .data none => written (bytes "[NULL raw data]")
  | .data (some p) => do
    let data ← h.data.get p
    if data.data = none then written (bytes "[NULL raw data of length " ++ printNat data.size.toNat ++ [93])
    else written (bytes "[Raw data of length " ++ printNat data.size.toNat ++ [93])
  | .invalid => written (bytes "Unknown type " ++ printInt (-1))
where
  written (text : Bytes) : Option (Int × Bytes) := some (fprintf overlong text)

/-- The characters that are skipped in front of a number. -/
def isBlank (c : Byte) : Bool := c = 32 || c = 9 || c = 11 || c = 12

/-- The branch for `INTEGER`. -/
def stringToInteger (str : Bytes) : Option Int32 :=
  let str : Bytes := str.dropWhile isBlank
  if !isdigit (str.at 0) && str.at 0 ≠ 45 && str.at 0 ≠ 43 then
    if str.map tolower = bytes "true" then some 1
    else if str.map tolower = bytes "false" then some 0
    else none
  else
    let r := if str.at 0 = 48 ∧ str.at 1 = 120 then strtol (str.drop 2) 16 else strtol str 10
    if r.2.2 then none else some (Int32.ofInt r.1)

/-- The result, the value that is stored in `*result`, if one is, and the heap. The parameters are whether `malloc`
    succeeds, what `strtof` makes of a string and whether it sets `errno`, and whether `result` is given. There is
    no result where the name of a type is looked up that has none, or an `int` overflows. -/
def nlStringToVarvalue (mallocOk : Bool) (strtof : Bytes → Float32 × Bool) (h : VariantHeap) (type : Int)
    (str : Option Bytes) (result : Bool) : Option (Int × Option Variant × VariantHeap) :=
  match str with
  | none => some (-1, none, h)
  | some str =>
    if !result then some (-1, none, h)
    else if type = 1 then
      match stringToInteger str with
      | none => some (-1, none, h)
      | some value => some (0, some (.integer value), h)
    else if type = 2 then
      let (value, err) := strtof (str.dropWhile isBlank)
      if err then some (-1, none, h) else some (0, some (.floating value), h)
    else if type = 3 then
      let line := str.takeWhile fun c => c != 13 && c != 10
      if strncmp str (bytes "\\0") (max 2 line.length) = 0 then some (0, some (.string none), h)
      else if !mallocOk then some (-1, none, h)
      else do
        let (ret, string) ← nlUnescapeStringInt line false .noDequote
        if ret < 0 then some (-1, none, h)
        else
          let (p, strings) := h.strings.alloc string
          some (0, some (.string (some p)), { h with strings })
    else if 0 ≤ type ∧ type ≤ 4 then some (-1, none, h)
    else none

/-- The string that a variant points to. -/
def Variant.text (h : VariantHeap) : Variant → Option Bytes
  | .string p => h.strings.deref p
  | _ => none

/-- Two integers that are the same, two NULL strings or two equal strings. -/
inductive SameValue (h h' : VariantHeap) : Variant → Variant → Prop
  | integer (n : Int32) : SameValue h h' (.integer n) (.integer n)
  | null : SameValue h h' (.string none) (.string none)
  | string {p q : Addr} {s : Bytes} : h.strings.get p = some s → h'.strings.get q = some s →
    SameValue h h' (.string (some p)) (.string (some q))

section
variable {h : VariantHeap} {v : Variant} {str : Bytes} {c : Byte} {printE printF : Float32 → Bytes}
  {strtof : Bytes → Float32 × Bool} {overlong : Bytes → Bytes}

theorem fprintf_fits (h : str.length < 2 ^ 31) : fprintf overlong str = ((str.length : Int), str) := if_pos h

theorem stringToInteger_printInt (n : Int32) : stringToInteger (printInt n.toInt) = some n := by
  have hlo := n.le_toInt
  have hhi := n.toInt_lt
  have hread : strtol (printInt n.toInt) 10 = (n.toInt, [], false) := strtol_printInt (by omega) (by omega)
  obtain ⟨c, ds, heq, hc, hds⟩ := printInt_eq_cons n.toInt
  rw [heq] at hread ⊢
  have hat : Bytes.at (c :: ds) 0 = c := rfl
  have hstart : (!isdigit c && decide (c ≠ 45) && decide (c ≠ 43)) = false := by
    rcases hc with hc | rfl
    · simp [hc]
    · rfl
  have hblank : (c :: ds).dropWhile isBlank = c :: ds := by
    refine List.dropWhile_cons_of_neg ?_
    rcases hc with hc | rfl
    · have hspace := (isdigit_spec hc).1
      simp only [isspace, isBlank, Bool.or_eq_false_iff, Bool.and_eq_false_iff, beq_eq_false_iff_ne,
        decide_eq_false_iff_not, Bool.or_eq_true, decide_eq_true_eq] at hspace ⊢
      rintro (((rfl | rfl) | rfl) | rfl) <;> simp at hspace
    · decide
  have hx : ¬(c = 48 ∧ Bytes.at (c :: ds) 1 = 120) := by
    rintro ⟨-, hx⟩
    cases ds with
    | nil =>
      have hne : (0 : Byte) ≠ 120 := by decide
      exact hne hx
    | cons d ds =>
      have hd := hds d List.mem_cons_self
      have hdx : d = 120 := hx
      rw [hdx] at hd
      exact absurd hd (by decide)
  rw [stringToInteger, hblank]
  simp only [hat, hstart, Bool.false_eq_true, if_false, if_neg hx, hread, Int32.ofInt_toInt]

theorem zero_not_mem_printInt (n : Int) : 0 ∉ printInt n := by
  obtain ⟨c, ds, heq, hc, hds⟩ := printInt_eq_cons n
  rw [heq, List.mem_cons]
  rintro (rfl | h0)
  · rcases hc with hc | hc
    · exact absurd hc (by decide)
    · exact absurd hc (by decide)
  · exact absurd (hds 0 h0) (by decide)

/-- At most a sign and ten digits. -/
theorem length_printInt (n : Int32) : (printInt n.toInt).length ≤ 11 := by
  have hlo := n.le_toInt
  have hhi := n.toInt_lt
  have hdigits (m : Nat) (hm : m < 10 ^ 10) : (printNat m).length ≤ 10 := by
    rw [printNat]
    split
    · exact Nat.le_of_ble_eq_true rfl
    · rw [List.length_map, List.length_reverse]
      exact (Nat.digits_length_le_iff (by decide) m).mpr hm
  have hlen := hdigits n.toInt.natAbs (by omega)
  rw [printInt]
  split
  · exact Nat.succ_le_succ hlen
  · omega

theorem print_string {p : Addr} (hs : h.strings.get p = some str) (hlt : nlCountEscapes str < 2 ^ 31) :
    nlFprintVariant true true true overlong printE printF h (.string (some p)) =
      some (fprintf overlong (escaped str)) := by
  obtain ⟨size, hsize⟩ := nlEscapeString_escaped hlt str.length
  simp [nlFprintVariant, nlFprintVariant.written, hs, hsize]

end

end Nlutils
