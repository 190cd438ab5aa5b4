import Nlutils.Variant.Text

/-! # Integers from text

The branch of `nl_string_to_varvalue` for integers takes what `strtol` takes, which is more than the numerals that
denote an `int`. -/

namespace Nlutils

/-- The text does not go on with a hex digit. -/
def NoHexDigit (s : Bytes) : Prop := ∀ c, s.head? = some c → isxdigit c = false

/-- The text begins with `0x` and a hex digit. -/
def HasHex (t : Bytes) : Prop := (t.at 0 = 48 ∧ t.at 1 = 120) ∧ isxdigit (t.at 2) = true

instance {t : Bytes} : Decidable (HasHex t) := inferInstanceAs (Decidable (_ ∧ _))

/-- A text that begins with a numeral, the longest one, and the `int` that it denotes; or `true` or `false`. -/
inductive IntegerText : Bytes → Int32 → Prop
  | true {t : Bytes} : t.map tolower = bytes "true" → IntegerText t 1
  | false {t : Bytes} : t.map tolower = bytes "false" → IntegerText t 0
  | hex {ds rest : Bytes} : ds ≠ [] → (∀ c ∈ ds, isxdigit c = true) → NoHexDigit rest → digitsVal 16 ds < 2 ^ 32 →
    IntegerText (bytes "0x" ++ (ds ++ rest)) (Int32.ofInt (digitsVal 16 ds))
  | decimal {sign ds rest : Bytes} : sign ∈ [[], [43], [45]] → ds ≠ [] → (∀ c ∈ ds, isdigit c = true) → NoDigit rest →
    ¬HasHex (sign ++ (ds ++ rest)) → -2 ^ 31 ≤ signedVal sign ds → signedVal sign ds < 2 ^ 31 →
    IntegerText (sign ++ (ds ++ rest)) (Int32.ofInt (signedVal sign ds))

/-- A string is converted to the integer that it denotes after blanks, and otherwise rejected. -/
structure ConvertsInteger (str : Bytes) : Prop where
  accepts : ∀ mallocOk strtof h n, IntegerText (str.dropWhile isBlank) n →
    nlStringToVarvalue mallocOk strtof h 1 (some str) true = some (0, some (.integer n), h)
  rejects : ∀ mallocOk strtof h, (∀ n, ¬IntegerText (str.dropWhile isBlank) n) →
    nlStringToVarvalue mallocOk strtof h 1 (some str) true = some (-1, none, h)

/-- The number at the start of the text, as it is read in a base. -/
def numeralVal (s : Bytes) (base : Nat) : Int :=
  if (numeral s base).neg then -digitsVal base (numeral s base).digits else digitsVal base (numeral s base).digits

/-- A number that a `long` holds. -/
def FitsLong (v : Int) : Prop := -2 ^ 63 ≤ v ∧ v < 2 ^ 63

instance {v : Int} : Decidable (FitsLong v) := inferInstanceAs (Decidable (_ ∧ _))

/-- After `0x`: the digits follow at once and denote a number of 32 bits or one beyond a `long`, or there is white
    space, a sign or another `0x` in front of them and they denote a `long` that is a multiple of 2^32. -/
def ReadsHex (u : Bytes) : Prop :=
  if (numeral u 16).digits = u.takeWhile isxdigit then numeralVal u 16 < 2 ^ 32 ∨ 2 ^ 63 ≤ numeralVal u 16
  else FitsLong (numeralVal u 16) ∧ numeralVal u 16 % 2 ^ 32 = 0

/-- A sign is followed by a digit, and the number is an `int` or not even a `long`. -/
def ReadsDecimal (t : Bytes) : Prop :=
  (numeral t 10).digits ≠ [] ∧ (-2 ^ 31 ≤ numeralVal t 10 ∧ numeralVal t 10 < 2 ^ 31 ∨ ¬FitsLong (numeralVal t 10))

/-- A text, without blanks in front, that is read as it should be. -/
def ReadsInteger (t : Bytes) : Prop :=
  if isdigit (t.at 0) = true ∨ t.at 0 = 45 ∨ t.at 0 = 43 then
    if t.at 0 = 48 ∧ t.at 1 = 120 then ReadsHex (t.drop 2) else ReadsDecimal t
  else True

/-- The integer that a text denotes, as the longest numeral at its start. -/
def integerValue (t : Bytes) : Option Int32 :=
  if t.map tolower = bytes "true" then some 1
  else if t.map tolower = bytes "false" then some 0
  else if HasHex t then
    let v := digitsVal 16 ((t.drop 2).takeWhile isxdigit)
    if v < 2 ^ 32 then some (Int32.ofInt v) else none
  else
    let ds := (skipSign t).2.takeWhile isdigit
    let v : Int := if (skipSign t).1 then -digitsVal 10 ds else digitsVal 10 ds
    if ds ≠ [] ∧ -2 ^ 31 ≤ v ∧ v < 2 ^ 31 then some (Int32.ofInt v) else none

section
variable {c : Byte} {t u str ds rest : Bytes} {n : Int32}

/-! ### The integer that a text denotes -/

/-- The character that a number starts with. -/
def IsNumberStart (c : Byte) : Prop := isdigit c = true ∨ c = 45 ∨ c = 43

/-- A number starts with no white space and with no letter. -/
theorem IsNumberStart.spec (h : IsNumberStart c) : isspace c = false ∧ tolower c ≠ 116 ∧ tolower c ≠ 102 := by
  rcases h with h | rfl | rfl
  · refine ⟨(isdigit_spec h).1, ?_⟩
    simp only [isdigit, Bool.and_eq_true, decide_eq_true_eq, UInt8.le_iff_toNat_le, UInt8.toNat_ofNat] at h
    have hlower : tolower c = c := by
      rw [tolower, if_neg]
      simp only [Bool.and_eq_true, decide_eq_true_eq, UInt8.le_iff_toNat_le, UInt8.toNat_ofNat]
      omega
    rw [hlower]
    constructor
    · rintro rfl
      exact absurd h.2 (by decide)
    · rintro rfl
      exact absurd h.2 (by decide)
  · decide
  · decide

theorem IsNumberStart.not_word (h : IsNumberStart c) :
    (c :: u).map tolower ≠ bytes "true" ∧ (c :: u).map tolower ≠ bytes "false" := by
  have htrue : bytes "true" = [116, 114, 117, 101] := by decide
  have hfalse : bytes "false" = [102, 97, 108, 115, 101] := by decide
  obtain ⟨-, h116, h102⟩ := h.spec
  rw [List.map_cons, htrue, hfalse]
  exact ⟨fun heq => h116 (List.cons.inj heq).1, fun heq => h102 (List.cons.inj heq).1⟩

theorem integerValue_hex (hx : isxdigit (u.at 0) = true) :
    integerValue (48 :: 120 :: u) =
      if digitsVal 16 (u.takeWhile isxdigit) < 2 ^ 32 then some (Int32.ofInt (digitsVal 16 (u.takeWhile isxdigit)))
      else none := by
  obtain ⟨htrue, hfalse⟩ := IsNumberStart.not_word (c := 48) (u := 120 :: u) (Or.inl rfl)
  have hhex : HasHex (48 :: 120 :: u) := ⟨⟨rfl, rfl⟩, hx⟩
  rw [integerValue, if_neg htrue, if_neg hfalse, if_pos hhex]
  rfl

theorem integerValue_decimal {sign : Bytes} (hsign : sign ∈ [[], [43], [45]]) (hne : ds ≠ [])
    (hds : ∀ c ∈ ds, isdigit c = true) (hrest : NoDigit rest) (hhex : ¬HasHex (sign ++ (ds ++ rest))) :
    integerValue (sign ++ (ds ++ rest)) =
      if -2 ^ 31 ≤ signedVal sign ds ∧ signedVal sign ds < 2 ^ 31 then some (Int32.ofInt (signedVal sign ds))
      else none := by
  obtain ⟨d, ds', rfl⟩ := List.exists_cons_of_ne_nil hne
  have hstart : ∃ c v, sign ++ (d :: ds' ++ rest) = c :: v ∧ IsNumberStart c := by
    simp only [List.mem_cons, List.not_mem_nil, or_false] at hsign
    rcases hsign with rfl | rfl | rfl
    · exact ⟨d, _, rfl, Or.inl (hds d List.mem_cons_self)⟩
    · exact ⟨43, _, rfl, Or.inr (Or.inr rfl)⟩
    · exact ⟨45, _, rfl, Or.inr (Or.inl rfl)⟩
  obtain ⟨c, v, heq, hc⟩ := hstart
  obtain ⟨htrue, hfalse⟩ := heq ▸ hc.not_word (u := v)
  obtain ⟨htake, -⟩ := span_append hds hrest
  rw [integerValue, if_neg htrue, if_neg hfalse, if_neg hhex, skipSign_append hsign hne hds]
  simp only [htake]
  exact if_congr ⟨fun h => h.2, fun h => ⟨hne, h⟩⟩ rfl rfl

/-- The numeral and the function agree. -/
theorem integerText_iff : IntegerText t n ↔ integerValue t = some n := by
  constructor
  · intro h
    cases h with
    | true h => rw [integerValue, if_pos h]
    | false h =>
      have hne : bytes "false" ≠ bytes "true" := by decide
      rw [integerValue, if_neg (h ▸ hne), if_pos h]
    | @hex ds rest hne hds hrest hlt =>
      obtain ⟨d, ds', rfl⟩ := List.exists_cons_of_ne_nil hne
      obtain ⟨htake, -⟩ := span_append hds hrest
      have hzerox : bytes "0x" ++ (d :: ds' ++ rest) = 48 :: 120 :: (d :: ds' ++ rest) := by
        have h0x : bytes "0x" = [48, 120] := by decide
        rw [h0x]
        rfl
      have hd : isxdigit (Bytes.at (d :: ds' ++ rest) 0) = true := hds d List.mem_cons_self
      rw [hzerox, integerValue_hex hd, htake, if_pos hlt]
    | decimal hsign hne hds hrest hhex hlo hhi => rw [integerValue_decimal hsign hne hds hrest hhex, if_pos ⟨hlo, hhi⟩]
  · intro h
    unfold integerValue at h
    split at h
    · next htrue =>
      obtain rfl := Option.some.inj h
      exact .true htrue
    · split at h
      · next hfalse =>
        obtain rfl := Option.some.inj h
        exact .false hfalse
      · split at h
        · next hhex =>
          obtain ⟨u, rfl⟩ := hexPrefix_iff.mp hhex.1
          have hdigits := List.takeWhile_append_dropWhile (p := isxdigit) (l := u)
          have hne : u.takeWhile isxdigit ≠ [] := by
            obtain ⟨-, hx⟩ := hhex
            cases u with
            | nil => cases hx
            | cons d u =>
              have hd : isxdigit d = true := hx
              simp [hd]
          simp only at h
          split at h
          · next hlt =>
            obtain rfl := Option.some.inj h
            have hrest : NoHexDigit (u.dropWhile isxdigit) := fun _ => head?_dropWhile
            have htext := IntegerText.hex hne (fun c hc => List.mem_takeWhile_imp hc) hrest hlt
            rw [hdigits] at htext
            exact htext
          · cases h
        · next hhex =>
          obtain ⟨sign, hsign, hsplit, hneg⟩ := skipSign_split t
          simp only [hneg, Option.ite_none_right_eq_some] at h
          obtain ⟨⟨hne, hlo, hhi⟩, h⟩ := h
          obtain rfl := Option.some.inj h
          have hdigits := List.takeWhile_append_dropWhile (p := isdigit) (l := (skipSign t).2)
          have ht : t = sign ++ ((skipSign t).2.takeWhile isdigit ++ (skipSign t).2.dropWhile isdigit) := by
            rw [hdigits, ← hsplit]
          have hrest : NoDigit ((skipSign t).2.dropWhile isdigit) := fun _ => head?_dropWhile
          have htext := IntegerText.decimal hsign hne (fun c hc => List.mem_takeWhile_imp hc) hrest (ht ▸ hhex) hlo hhi
          rw [← ht] at htext
          exact htext

/-! ### The integer that is read -/

theorem numeralVal_nil {base : Nat} (h : (numeral t base).digits = []) : numeralVal t base = 0 := by
  simp only [numeralVal, h, digitsVal, List.foldl_nil]
  split <;> rfl

/-- What is made of the result of `strtol`. -/
theorem strtol_toInt {base : Nat} :
    (if (strtol t base).2.2 then none else some (Int32.ofInt (strtol t base).1)) =
      if FitsLong (numeralVal t base) then some (Int32.ofInt (numeralVal t base)) else none := by
  by_cases hnil : (numeral t base).digits = []
  · have hfits : FitsLong 0 := by decide
    rw [numeralVal_nil hnil, if_pos hfits]
    simp only [strtol, if_pos hnil, Bool.false_eq_true, if_false]
  · have hv : strtol t base =
        if numeralVal t base ≥ 2 ^ 63 then (2 ^ 63 - 1, (numeral t base).rest, true)
        else if numeralVal t base < -2 ^ 63 then (-2 ^ 63, (numeral t base).rest, true)
        else (numeralVal t base, (numeral t base).rest, false) := by
      rw [strtol]
      simp only [if_neg hnil]
      rfl
    rw [hv]
    split
    · next hge => rw [if_neg (show ¬FitsLong _ from fun h => Int.not_lt.mpr hge h.2), if_pos rfl]
    · next hlt =>
      split
      · next hneg => rw [if_neg (show ¬FitsLong _ from fun h => Int.not_lt.mpr h.1 hneg), if_pos rfl]
      · next hge => rw [if_pos (show FitsLong _ from ⟨Int.not_lt.mp hge, Int.not_le.mp hlt⟩), if_neg Bool.false_ne_true]

theorem convertsInteger_iff : ConvertsInteger str ↔ stringToInteger str = integerValue (str.dropWhile isBlank) := by
  have hsome : ∀ mallocOk strtof h n, stringToInteger str = some n →
      nlStringToVarvalue mallocOk strtof h 1 (some str) true = some (0, some (.integer n), h) := by
    intro mallocOk strtof h n hn
    simp [nlStringToVarvalue, hn]
  have hnone : ∀ mallocOk strtof h, stringToInteger str = none →
      nlStringToVarvalue mallocOk strtof h 1 (some str) true = some (-1, none, h) := by
    intro mallocOk strtof h hn
    simp [nlStringToVarvalue, hn]
  constructor
  · rintro ⟨haccepts, hrejects⟩
    cases hv : integerValue (str.dropWhile isBlank) with
    | some n =>
      have h := haccepts true (fun _ => (0, false)) {} n (integerText_iff.mpr hv)
      cases hs : stringToInteger str with
      | some m =>
        rw [hsome _ _ _ _ hs] at h
        simpa using h
      | none =>
        rw [hnone _ _ _ hs] at h
        simp at h
    | none =>
      have hno : ∀ n, ¬IntegerText (str.dropWhile isBlank) n := fun n hn => by simp [integerText_iff, hv] at hn
      have h := hrejects true (fun _ => (0, false)) {} hno
      cases hs : stringToInteger str with
      | some m =>
        rw [hsome _ _ _ _ hs] at h
        simp at h
      | none => rfl
  · intro heq
    constructor
    · intro mallocOk strtof h n hn
      exact hsome _ _ _ _ (heq.trans (integerText_iff.mp hn))
    · intro mallocOk strtof h hno
      cases hv : integerValue (str.dropWhile isBlank) with
      | some n => exact absurd (integerText_iff.mpr hv) (hno n)
      | none => exact hnone _ _ _ (heq.trans hv)

/-- Blanks in front of a number are skipped, so that white space is left only if it is a line feed or a carriage
    return. -/
theorem stringToInteger_eq {t : Bytes} (ht : str.dropWhile isBlank = t) : stringToInteger str =
    if isdigit (t.at 0) = true ∨ t.at 0 = 45 ∨ t.at 0 = 43 then
      if t.at 0 = 48 ∧ t.at 1 = 120 then
        if FitsLong (numeralVal (t.drop 2) 16) then some (Int32.ofInt (numeralVal (t.drop 2) 16)) else none
      else if FitsLong (numeralVal t 10) then some (Int32.ofInt (numeralVal t 10)) else none
    else if t.map tolower = bytes "true" then some 1
    else if t.map tolower = bytes "false" then some 0
    else none := by
  have hstart : (!isdigit (t.at 0) && decide (t.at 0 ≠ 45) && decide (t.at 0 ≠ 43)) = true ↔
      ¬(isdigit (t.at 0) = true ∨ t.at 0 = 45 ∨ t.at 0 = 43) := by
    simp [not_or, and_assoc]
  rw [← strtol_toInt, ← strtol_toInt]
  unfold stringToInteger
  simp only [ht]
  by_cases h : isdigit (t.at 0) = true ∨ t.at 0 = 45 ∨ t.at 0 = 43
  · rw [if_pos h, if_neg (hstart.not.mpr (not_not.mpr h))]
    split
    · rfl
    · rfl
  · rw [if_neg h, if_pos (hstart.mpr h)]

theorem not_hasHex (h : ¬(t.at 0 = 48 ∧ t.at 1 = 120)) : ¬HasHex t := fun hhex => h hhex.1

/-- A decimal number at the start of a text. -/
theorem integerValue_start (hstart : IsNumberStart (t.at 0)) (hhex : ¬HasHex t) : integerValue t =
    if (numeral t 10).digits ≠ [] ∧ -2 ^ 31 ≤ numeralVal t 10 ∧ numeralVal t 10 < 2 ^ 31 then
      some (Int32.ofInt (numeralVal t 10))
    else none := by
  cases t with
  | nil => rcases hstart with h | h | h <;> cases h
  | cons c u =>
    have hc : IsNumberStart c := hstart
    obtain ⟨htrue, hfalse⟩ := hc.not_word (u := u)
    have hdrop : (c :: u).dropWhile isspace = c :: u := by simp [hc.spec.1]
    rw [integerValue, if_neg htrue, if_neg hfalse, if_neg hhex]
    simp only [numeralVal, numeral_ten, hdrop]

theorem readsDecimal_iff (hstart : IsNumberStart (t.at 0)) (hzerox : ¬(t.at 0 = 48 ∧ t.at 1 = 120)) :
    (if FitsLong (numeralVal t 10) then some (Int32.ofInt (numeralVal t 10)) else none) = integerValue t ↔
      ReadsDecimal t := by
  rw [integerValue_start hstart (not_hasHex hzerox), ReadsDecimal]
  by_cases hnil : (numeral t 10).digits = []
  · have hfits : FitsLong 0 := by decide
    rw [numeralVal_nil hnil, if_pos hfits, if_neg fun h => h.1 hnil]
    simp [hnil]
  · by_cases hint : -2 ^ 31 ≤ numeralVal t 10 ∧ numeralVal t 10 < 2 ^ 31
    · have hfits : FitsLong (numeralVal t 10) := ⟨by omega, by omega⟩
      rw [if_pos hfits, if_pos ⟨hnil, hint⟩]
      exact iff_of_true rfl ⟨hnil, Or.inl hint⟩
    · have hreject : ¬((numeral t 10).digits ≠ [] ∧ -2 ^ 31 ≤ numeralVal t 10 ∧ numeralVal t 10 < 2 ^ 31) :=
        fun h => hint h.2
      rw [if_neg hreject]
      by_cases hfits : FitsLong (numeralVal t 10)
      · rw [if_pos hfits]
        exact iff_of_false (by simp) fun h => h.2.elim hint fun h => h hfits
      · rw [if_neg hfits]
        exact iff_of_true rfl ⟨hnil, Or.inr hfits⟩

/-! ### After `0x` -/

/-- A numeral that begins with a hex digit: with another `0x`, only a zero stands in front of it. -/
theorem numeral_sixteen (hx : isxdigit (u.at 0) = true) : (numeral u 16).neg = false ∧
    ((numeral u 16).digits = u.takeWhile isxdigit ∨ u.takeWhile isxdigit = [48]) := by
  have hdigit : isDigitOf 16 = isxdigit := funext fun _ => isDigitOf_sixteen
  cases u with
  | nil => cases hx
  | cons c u =>
    have hc : isxdigit c = true := hx
    obtain ⟨hspace, hminus, hplus⟩ := isxdigit_spec hc
    have hdrop : (c :: u).dropWhile isspace = c :: u := by simp [hspace]
    have hsign : skipSign (c :: u) = (false, c :: u) := by
      have hat : Bytes.at (c :: u) 0 = c := rfl
      rw [skipSign, hat, if_neg hminus, if_neg hplus]
    simp only [numeral, hdrop, hsign, hdigit, true_and]
    unfold skipHexPrefix
    split
    · next h =>
      obtain ⟨-, h48, hmark, -⟩ := h
      right
      obtain rfl : c = 48 := h48
      cases u with
      | nil => rcases hmark with h | h <;> cases h
      | cons d u =>
        have hd : isxdigit d = false := by
          have hmark : d = 120 ∨ d = 88 := hmark
          rcases hmark with rfl | rfl
          · rfl
          · rfl
        rw [List.takeWhile_cons_of_pos hc, List.takeWhile_cons_of_neg (by simp [hd])]
    · exact Or.inl rfl

theorem takeWhile_nil (hx : ¬isxdigit (u.at 0) = true) : u.takeWhile isxdigit = [] := by
  cases u with
  | nil => rfl
  | cons c u => exact List.takeWhile_cons_of_neg hx

/-- A text `0x` without a hex digit after it is the number zero. -/
theorem integerValue_zero (hx : ¬isxdigit (u.at 0) = true) : integerValue (48 :: 120 :: u) = some (Int32.ofInt 0) := by
  have hhex : ¬HasHex (48 :: 120 :: u) := fun h => hx h.2
  have hend : NoDigit (120 :: u) := fun c hc => by obtain rfl := Option.some.inj hc; rfl
  have hzero : ∀ c ∈ ([48] : Bytes), isdigit c = true := by simp [isdigit]
  have hdecimal := @integerValue_decimal [48] (120 :: u) [] (by simp) (List.cons_ne_nil _ _) hzero hend hhex
  have hval : signedVal [] [48] = 0 := by decide
  rw [hval, if_pos (by decide)] at hdecimal
  exact hdecimal

theorem ofInt_eq_zero {v : Int} : Int32.ofInt v = Int32.ofInt 0 ↔ v % 2 ^ 32 = 0 := by
  have hsize : Int32.size = 2 ^ 32 := rfl
  rw [← Int32.toInt_inj, Int32.toInt_ofInt, Int32.toInt_ofInt, hsize, Int.bmod_def, Int.bmod_def]
  omega

theorem readsHex_iff :
    (if FitsLong (numeralVal u 16) then some (Int32.ofInt (numeralVal u 16)) else none) =
        integerValue (48 :: 120 :: u) ↔
      ReadsHex u := by
  have hspec : (numeral u 16).digits ≠ u.takeWhile isxdigit → integerValue (48 :: 120 :: u) = some (Int32.ofInt 0) := by
    intro hne
    by_cases hx : isxdigit (u.at 0) = true
    · have hzero := (numeral_sixteen hx).2.resolve_left hne
      rw [integerValue_hex hx, hzero]
      rfl
    · exact integerValue_zero hx
  by_cases heq : (numeral u 16).digits = u.takeWhile isxdigit
  · have hval : numeralVal u 16 = digitsVal 16 (u.takeWhile isxdigit) := by
      by_cases hx : isxdigit (u.at 0) = true
      · rw [numeralVal, (numeral_sixteen hx).1, heq, if_neg Bool.false_ne_true]
      · rw [takeWhile_nil hx] at heq ⊢
        exact numeralVal_nil heq
    have hvalue : integerValue (48 :: 120 :: u) =
        if digitsVal 16 (u.takeWhile isxdigit) < 2 ^ 32 then some (Int32.ofInt (digitsVal 16 (u.takeWhile isxdigit)))
        else none := by
      by_cases hx : isxdigit (u.at 0) = true
      · exact integerValue_hex hx
      · rw [takeWhile_nil hx]
        exact integerValue_zero hx
    rw [ReadsHex, if_pos heq, hvalue, hval]
    by_cases hlt : digitsVal 16 (u.takeWhile isxdigit) < 2 ^ 32
    · have hfits : FitsLong (digitsVal 16 (u.takeWhile isxdigit)) := ⟨by omega, by omega⟩
      rw [if_pos hfits, if_pos hlt]
      exact iff_of_true rfl (Or.inl (by omega))
    · rw [if_neg hlt]
      by_cases hfits : FitsLong (digitsVal 16 (u.takeWhile isxdigit))
      · have hlong := hfits.2
        rw [if_pos hfits]
        exact iff_of_false (by simp) (by omega)
      · rw [if_neg hfits]
        have hlong : 2 ^ 63 ≤ (digitsVal 16 (u.takeWhile isxdigit) : Int) :=
          Int.not_lt.mp fun h => hfits ⟨by omega, h⟩
        exact iff_of_true rfl (Or.inr hlong)
  · rw [hspec heq, ReadsHex, if_neg heq]
    by_cases hfits : FitsLong (numeralVal u 16)
    · rw [if_pos hfits, Option.some.injEq, ofInt_eq_zero]
      simp [hfits]
    · rw [if_neg hfits]
      simp [hfits]

theorem reads_iff (ht : str.dropWhile isBlank = t) : stringToInteger str = integerValue t ↔ ReadsInteger t := by
  rw [stringToInteger_eq ht, ReadsInteger]
  by_cases hstart : isdigit (t.at 0) = true ∨ t.at 0 = 45 ∨ t.at 0 = 43
  · rw [if_pos hstart, if_pos hstart]
    by_cases hzerox : t.at 0 = 48 ∧ t.at 1 = 120
    · rw [if_pos hzerox, if_pos hzerox]
      obtain ⟨u, rfl⟩ := hexPrefix_iff.mp hzerox
      exact readsHex_iff
    · rw [if_neg hzerox, if_neg hzerox]
      exact readsDecimal_iff hstart hzerox
  · rw [if_neg hstart, if_neg hstart, iff_true]
    have hhex : ¬HasHex t := by
      rintro ⟨⟨h48, -⟩, -⟩
      exact hstart (Or.inl (h48 ▸ rfl))
    have hdigits : (skipSign t).2.takeWhile isdigit = [] := by
      obtain ⟨hdigit, hminus, hplus⟩ := not_or.mp hstart |>.imp id not_or.mp
      rw [skipSign, if_neg hminus, if_neg hplus]
      cases t with
      | nil => rfl
      | cons c u => exact List.takeWhile_cons_of_neg hdigit
    rw [integerValue, if_neg hhex]
    simp [hdigits]

end

/-- A string is converted as it should be exactly if what `strtol` reads in it is the numeral at its start. -/
theorem convertsInteger_iff_reads (str : Bytes) : ConvertsInteger str ↔ ReadsInteger (str.dropWhile isBlank) := by
  rw [convertsInteger_iff, reads_iff rfl]

/-- A lone sign is taken for zero. -/
theorem not_convertsInteger_sign : ¬ConvertsInteger [43] := by
  rintro ⟨-, hrejects⟩
  have hvalue : integerValue [43] = none := by decide
  have hnone : ∀ n, ¬IntegerText [43] n := by
    intro n h
    rw [integerText_iff, hvalue] at h
    cases h
  have h := hrejects true (fun _ => (0, false)) {} hnone
  cases h

end Nlutils
