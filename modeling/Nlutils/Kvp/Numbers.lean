import Nlutils.Kvp.Scan
import Nlutils.Kvp.DeliveredType

/-! # Decimal values

A value with a sign and decimal digits is sent as an integer whatever the length. -/

namespace Nlutils
open Scan

/-- An optional sign and decimal digits. -/
structure Decimal where
  sign : Bytes
  digits : Bytes
  sign_mem : sign ∈ [[], [43], [45]]
  isDigits : IsDigits digits

def Decimal.text (d : Decimal) : Bytes := d.sign ++ d.digits

/-- The integer that the text denotes. -/
def Decimal.val (d : Decimal) : Int := signedVal d.sign d.digits

/-- Whatever line it is in, a decimal value that is sent as an integer is sent as the one that it denotes. -/
def KeepsNumber (atof : Bytes → Float) (d : Decimal) : Prop :=
  ∀ dup line key n, (key, d.text, KvpValue.integer n) ∈ nlParseKvpVariant atof dup line → n.toInt = d.val

section
variable {atof : Bytes → Float} {key value v : Bytes} {n : Int32}

/-! ### The line of a value -/

/-- A value without white space goes up to the end of the line. -/
theorem scan_readValue (h : ∀ c ∈ value, isspace c = false) :
    scan value (readValue key v) = [(key, v ++ value)] := by
  induction value generalizing v with
  | nil => rw [List.append_nil]; rfl
  | cons c value ih =>
    obtain ⟨hc, hvalue⟩ := List.forall_mem_cons.mp h
    have hq : ¬((readValue key v).inQuotes = true ∧ c = 92 ∧ value.head? = some 34) := fun hq => Bool.noConfusion hq.1
    have hfound : (readValue key v).found c = [] := by simp [found, hc]
    have hnext : (readValue key v).next c = readValue key (v ++ [c]) := by simp [next, hc]
    rw [scan_cons hq, hfound, hnext, ih hvalue, List.append_assoc]
    rfl

/-- The calls for a line with a key and an unquoted value. -/
theorem nlParseKvp_value {c : Byte} (hc : isspace c = false) (hquote : c ≠ 34) (h : ∀ b ∈ v, isspace b = false) :
    nlParseKvp (fun _ => true) (some (107 :: 61 :: c :: v)) = [([107], c :: v, false)] := by
  have hq : ¬((expectValue [107]).inQuotes = true ∧ c = 92 ∧ v.head? = some 34) := fun hq => Bool.noConfusion hq.1
  have hnext : (expectValue [107]).next c = readValue [107] [c] := by simp [next, hc, hquote]
  have hscan : scan (107 :: 61 :: c :: v) expectKey = [([107], c :: v)] := by
    rw [scan_char (by decide), scan_char (by decide)]
    show scan (c :: v) (expectValue [107]) = _
    rw [scan_cons hq, hnext, scan_readValue h]
    rfl
  have hat : Bytes.at (c :: v) 0 = c := rfl
  rw [nlParseKvp_eq_scan, hscan]
  show [kvpCall [107] (c :: v)] = _
  rw [kvpCall, hat, if_neg hquote, beq_false_of_ne hquote]
  rfl

/-! ### The integer that is sent -/

/-- A decimal value begins with a digit, or with a sign and a digit. -/
theorem Decimal.text_eq_cons (d : Decimal) : ∃ c v, d.text = c :: v ∧
    (isdigit c = true ∨ (c = 43 ∨ c = 45) ∧ isdigit (Bytes.at v 0) = true) ∧ ∀ b ∈ v, isdigit b = true := by
  obtain ⟨sign, ds, hsign, hne, hds⟩ := d
  simp only [List.mem_cons, List.not_mem_nil, or_false] at hsign
  obtain ⟨c, v, rfl⟩ := List.exists_cons_of_ne_nil hne
  obtain ⟨hc, hv⟩ := List.forall_mem_cons.mp hds
  rcases hsign with rfl | rfl | rfl
  · exact ⟨c, v, rfl, Or.inl hc, hv⟩
  · exact ⟨43, c :: v, rfl, Or.inr ⟨Or.inl rfl, hc⟩, hds⟩
  · exact ⟨45, c :: v, rfl, Or.inr ⟨Or.inr rfl, hc⟩, hds⟩

theorem Decimal.skipSign_text (d : Decimal) : (skipSign d.text).2 = d.digits := by
  have h := @skipSign_append [] _ _ d.sign_mem d.isDigits.1 d.isDigits.2
  rw [List.append_nil] at h
  rw [Decimal.text, h]

/-- A decimal value is sent as an integer. -/
theorem Decimal.kvpValue_text (d : Decimal) : kvpValue atof d.text false = .integer (atoi d.text) := by
  have hskip := d.skipSign_text
  have hscan : scanNumber 0 false false d.digits = some (false, false) :=
    (scanNumber_integer rfl d.isDigits.1).mpr d.isDigits
  obtain ⟨c, v, heq, hc, hv⟩ := d.text_eq_cons
  have hne : ∀ {b : Byte}, isdigit b = true → b ≠ 0 := fun h => (isdigit_ne h).2.2.2
  have hzerox : ¬(Bytes.at (c :: v) 0 = 48 ∧ Bytes.at (c :: v) 1 = 120) := by
    rintro ⟨-, hx⟩
    cases v with
    | nil => cases hx
    | cons b v =>
      obtain rfl : b = 120 := hx
      exact absurd (hv 120 List.mem_cons_self) (by decide)
  have hstart : isdigit c = true ∨ (c = 43 ∨ c = 45 ∨ c = 46) ∧ Bytes.at v 0 ≠ 0 := by
    rcases hc with hc | ⟨h43 | h45, hdigit⟩
    · exact Or.inl hc
    · exact Or.inr ⟨Or.inl h43, hne hdigit⟩
    · exact Or.inr ⟨Or.inr (Or.inl h45), hne hdigit⟩
  rw [heq] at hskip ⊢
  rw [kvpValue_scan hstart hzerox, hskip, hscan]
  rfl

/-- A line with the value and a key. -/
theorem Decimal.mem_line (d : Decimal) :
    ([107], d.text, .integer (atoi d.text)) ∈
      nlParseKvpVariant atof (fun _ => true) (some (107 :: 61 :: d.text)) := by
  have hvalue : kvpValue atof d.text false = .integer (atoi d.text) := d.kvpValue_text
  obtain ⟨c, v, heq, hc, hv⟩ := d.text_eq_cons
  have hchar : isspace c = false ∧ c ≠ 34 := by
    rcases hc with hc | ⟨rfl | rfl, -⟩
    · refine ⟨(isdigit_spec hc).1, ?_⟩
      rintro rfl
      cases hc
    · decide
    · decide
  rw [heq] at hvalue ⊢
  rw [nlParseKvpVariant, nlParseKvp_value hchar.1 hchar.2 fun b hb => (isdigit_spec (hv b hb)).1, ← hvalue]
  exact List.mem_singleton_self _

/-- What `int` makes of the number. -/
theorem Decimal.atoi_text (d : Decimal) : (atoi d.text).toInt = d.val ↔ -2 ^ 31 ≤ d.val ∧ d.val < 2 ^ 31 := by
  have hsize : Int32.size = 2 ^ 32 := rfl
  rw [atoi, Decimal.text, strtol_signed d.sign_mem d.isDigits.1 d.isDigits.2, ← Decimal.val, Int32.toInt_ofInt, hsize,
    Int.bmod_def]
  omega

/-- An integer is only sent for a value that is not quoted. -/
theorem integer_of_mem {dup : Nat → Bool} {line : Option Bytes}
    (h : (key, value, KvpValue.integer n) ∈ nlParseKvpVariant atof dup line) :
    kvpValue atof value false = .integer n := by
  obtain ⟨⟨k, v, quoted⟩, -, hcall⟩ := List.mem_map.mp h
  obtain ⟨-, rfl, hvalue⟩ := (by simpa [nlKvpWrapper] using hcall : k = key ∧ v = value ∧ kvpValue atof v quoted = _)
  cases quoted with
  | false => exact hvalue
  | true => cases hvalue

end

/-- The integer is the right one where it is an `int`. -/
theorem keepsNumber_iff (atof : Bytes → Float) (d : Decimal) :
    KeepsNumber atof d ↔ -2 ^ 31 ≤ d.val ∧ d.val < 2 ^ 31 := by
  rw [← d.atoi_text]
  constructor
  · exact fun h => h _ _ _ _ d.mem_line
  · intro h dup line key n hmem
    obtain rfl := KvpValue.integer.inj ((integer_of_mem hmem).symm.trans d.kvpValue_text)
    exact h

/-- The least positive number that is no `int` is sent as the least `int`. -/
theorem not_keepsNumber_bound : ¬∀ (atof : Bytes → Float) (d : Decimal), KeepsNumber atof d := by
  intro h
  have hdigits : bytes "2147483648" = [50, 49, 52, 55, 52, 56, 51, 54, 52, 56] := by decide
  have hds : IsDigits (bytes "2147483648") := by simp [IsDigits, hdigits, isdigit]
  have hval : Decimal.val ⟨[], _, by simp, hds⟩ = 2147483648 := by
    show signedVal [] (bytes "2147483648") = _
    rw [hdigits]
    rfl
  have hfit := (Decimal.atoi_text _).mp (h (fun _ => 0) ⟨[], _, by simp, hds⟩ _ _ _ _ (Decimal.mem_line _))
  rw [hval] at hfit
  exact absurd hfit.2 (by decide)

end Nlutils
