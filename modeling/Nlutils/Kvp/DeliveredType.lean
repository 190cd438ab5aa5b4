import Nlutils.Kvp.Types

/-! # Delivered types

The values that `nl_kvp_wrapper` sends with the type that their text looks like. -/

namespace Nlutils

section
variable {last c x : Byte} {s : Bytes}

theorem isFloatBody_start (h : IsFloatBody s) :
    2 ≤ s.length ∧ (isdigit (Bytes.at s 0) = true ∨ Bytes.at s 0 = 46) := by
  have hfirst : ∀ {ds u : Bytes}, (∀ c ∈ ds, isdigit c = true) → ds ≠ [] → isdigit (Bytes.at (ds ++ u) 0) = true := by
    intro ds u hds hne
    obtain ⟨d, ds, rfl⟩ := List.exists_cons_of_ne_nil hne
    exact hds d List.mem_cons_self
  cases h with
  | trailing hds =>
    have hlen := List.length_pos_iff.mpr hds.1
    exact ⟨by simp; omega, Or.inl (hfirst hds.2 hds.1)⟩
  | exponent hds hex =>
    have hlen := List.length_pos_iff.mpr hds.1
    obtain ⟨e, u, rfl, -⟩ := isExponent_start hex
    exact ⟨by simp; omega, Or.inl (hfirst hds.2 hds.1)⟩
  | @fraction ds fs ex hds hfs hex =>
    have hlen := List.length_pos_iff.mpr hfs.1
    refine ⟨by simp; omega, ?_⟩
    by_cases hnil : ds = []
    · exact Or.inr (by rw [hnil]; rfl)
    · exact Or.inl (hfirst hds hnil)

theorem isFloatValue_iff : IsFloatValue s ↔ IsFloatBody (skipSign s).2 := by
  refine signed_iff ?_
  intro b hb
  rcases (isFloatBody_start hb).2 with h | h
  · exact ⟨(isdigit_spec h).2.2, (isdigit_spec h).2.1⟩
  · rw [h]
    decide

/-- A hexadecimal integer. -/
def IsHexValue (s : Bytes) : Prop := ∃ u, s = 48 :: 120 :: u ∧ u ≠ [] ∧ ∀ c ∈ u, isxdigit c = true

theorem isIntegerValue_iff : IsIntegerValue s ↔
    s = bytes "true" ∨ s = bytes "false" ∨ IsHexValue s ∨ IsDigits (skipSign s).2 := by
  have h0x : bytes "0x" = [48, 120] := by decide
  rw [← signed_iff fun _ => isDigits_start]
  constructor
  · intro h
    cases h with
    | true => exact Or.inl rfl
    | false => exact Or.inr (Or.inl rfl)
    | hex hne hds => exact Or.inr (Or.inr (Or.inl ⟨_, by rw [h0x]; rfl, hne, hds⟩))
    | decimal hsign hds => exact Or.inr (Or.inr (Or.inr ⟨_, _, rfl, hsign, hds⟩))
  · rintro (rfl | rfl | ⟨u, rfl, hne, hds⟩ | ⟨sign, ds, rfl, hsign, hds⟩)
    · exact .true
    · exact .false
    · have hhex := IsIntegerValue.hex hne hds
      rwa [h0x] at hhex
    · exact .decimal hsign hds

/-- Only whether the last character is a digit matters. -/
theorem scanNumber_last (h : isdigit last = isdigit x) :
    scanNumber last exponent period s = scanNumber x exponent period s := by
  cases s with
  | nil => rfl
  | cons c s => rw [scanNumber.eq_def, scanNumber.eq_def, h]

/-- The scan from the second character on is that of what comes after the sign. -/
theorem scanNumber_value {u : Bytes} (hc : isdigit c = true ∨ c = 43 ∨ c = 45 ∨ c = 46 ∧ Bytes.at u 0 ≠ 0) :
    scanNumber c false (c == 46) u = scanNumber 0 false false (skipSign (c :: u)).2 := by
  have hat : Bytes.at (c :: u) 0 = c := rfl
  rcases hc with hc | rfl | rfl | ⟨rfl, hu⟩
  · obtain ⟨h46, -⟩ := isdigit_ne hc
    obtain ⟨-, h45, h43⟩ := isdigit_spec hc
    rw [skipSign, hat, if_neg h45, if_neg h43, scanNumber_digit hc, beq_false_of_ne h46]
  · exact scanNumber_last rfl
  · exact scanNumber_last rfl
  · have hskip : (skipSign (46 :: u)).2 = 46 :: u := rfl
    have hself : (46 == (46 : Byte)) = true := rfl
    rw [hskip, hself, scanNumber.eq_def 0]
    by_cases hd : isdigit (Bytes.at u 0) = true
    · simp [hd]
    · have hnone : scanNumber 46 false true u = none := by
        rw [Option.eq_none_iff_forall_ne_some]
        intro r h
        have htail : NoDigit u := by
          intro c hc
          cases u with
          | nil => cases hc
          | cons d u => exact Option.some.inj hc ▸ Bool.not_eq_true _ ▸ hd
        rcases (scanNumber_tail htail).mp h with ⟨rfl, -⟩ | ⟨h46, -⟩
        · exact hu rfl
        · cases h46
      simp [hd, hu, hnone]

variable {atof : Bytes → Float} {v u : Bytes}

/-- A value begins like a number: with a digit, or with a sign or a period and something behind it. -/
def StartsNumber (c : Byte) (u : Bytes) : Prop := isdigit c = true ∨ (c = 43 ∨ c = 45 ∨ c = 46) ∧ Bytes.at u 0 ≠ 0

theorem StartsNumber.not_word (hc : StartsNumber c u) : c :: u ≠ bytes "true" ∧ c :: u ≠ bytes "false" := by
  have hne : ∀ w, isdigit w = false → w ≠ 43 → w ≠ 45 → w ≠ 46 → c ≠ w := by
    rintro w hw h43 h45 h46 rfl
    rcases hc with hd | ⟨h | h | h, -⟩
    · exact Bool.noConfusion (hw.symm.trans hd)
    · exact h43 h
    · exact h45 h
    · exact h46 h
  constructor
  · exact fun h => hne 116 rfl (by decide) (by decide) (by decide) (List.cons.inj h).1
  · exact fun h => hne 102 rfl (by decide) (by decide) (by decide) (List.cons.inj h).1

/-- A value that begins like a number, and not like a hexadecimal one. -/
theorem kvpValue_scan (hc : StartsNumber c u)
    (hzerox : ¬(Bytes.at (c :: u) 0 = 48 ∧ Bytes.at (c :: u) 1 = 120)) :
    kvpValue atof (c :: u) false = match scanNumber 0 false false (skipSign (c :: u)).2 with
      | none => .string (c :: u)
      | some (exponent, period) =>
        if exponent || period then .floating (atof (c :: u)).toFloat32 else .integer (atoi (c :: u)) := by
  obtain ⟨htrue, hfalse⟩ := hc.not_word
  have hstart : ¬((!isdigit (Bytes.at (c :: u) 0)) = true ∧ (Bytes.at (c :: u) 1 = 0 ∨
      (Bytes.at (c :: u) 0 ≠ 43 ∧ Bytes.at (c :: u) 0 ≠ 45 ∧ Bytes.at (c :: u) 0 ≠ 46))) := by
    have hat : Bytes.at (c :: u) 0 = c ∧ Bytes.at (c :: u) 1 = Bytes.at u 0 := ⟨rfl, rfl⟩
    rw [hat.1, hat.2]
    rintro ⟨hnot, h0 | ⟨h43, h45, h46⟩⟩
    · rcases hc with hd | ⟨-, hne⟩
      · simp [hd] at hnot
      · exact hne h0
    · rcases hc with hd | ⟨h | h | h, -⟩
      · simp [hd] at hnot
      · exact h43 h
      · exact h45 h
      · exact h46 h
  have hscan : scanNumber c false (c == 46) u = scanNumber 0 false false (skipSign (c :: u)).2 := by
    refine scanNumber_value ?_
    rcases hc with hd | ⟨h | h | h, h0⟩
    · exact Or.inl hd
    · exact Or.inr (Or.inl h)
    · exact Or.inr (Or.inr (Or.inl h))
    · exact Or.inr (Or.inr (Or.inr ⟨h, h0⟩))
  unfold kvpValue
  rw [if_neg Bool.false_ne_true, if_neg htrue, if_neg hfalse, if_neg hstart, if_neg hzerox, ← hscan]
  rfl

theorem deliversType_string (h : kvpValue atof v false = .string v) :
    DeliversType atof v ↔ ¬IsIntegerValue v ∧ ¬IsFloatValue v := by
  constructor
  · exact fun D => D.string.mp h
  · rintro ⟨hi, hf⟩
    constructor
    · simp [h, hi]
    · simp [h, hf]
    · simp [h, hi, hf]

theorem deliversType_integer {n : Int32} (h : kvpValue atof v false = .integer n) :
    DeliversType atof v ↔ IsIntegerValue v ∧ ¬IsFloatValue v := by
  constructor
  · intro D
    refine ⟨D.integer.mp ⟨n, h⟩, fun hf => ?_⟩
    obtain ⟨x, hx⟩ := D.floating.mpr hf
    cases h.symm.trans hx
  · rintro ⟨hi, hf⟩
    constructor
    · simp [h, hi]
    · simp [h, hf]
    · simp [h, hi]

theorem deliversType_floating {x : Float32} (h : kvpValue atof v false = .floating x) :
    DeliversType atof v ↔ ¬IsIntegerValue v ∧ IsFloatValue v := by
  constructor
  · intro D
    refine ⟨fun hi => ?_, D.floating.mp ⟨x, h⟩⟩
    obtain ⟨n, hn⟩ := D.integer.mpr hi
    cases h.symm.trans hn
  · rintro ⟨hi, hf⟩
    constructor
    · simp [h, hi]
    · simp [h, hf]
    · simp [h, hf]

/-- A value that the scan decides about. -/
theorem deliversType_number (hb : (skipSign v).2 ≠ []) (hhex : ¬IsHexValue v) (htrue : v ≠ bytes "true")
    (hfalse : v ≠ bytes "false")
    (h : kvpValue atof v false = match scanNumber 0 false false (skipSign v).2 with
      | none => .string v
      | some (exponent, period) => if exponent || period then .floating (atof v).toFloat32 else .integer (atoi v)) :
    DeliversType atof v ↔ (skipSign v).2 ≠ [46] := by
  have hint : IsIntegerValue v ↔ scanNumber 0 false false (skipSign v).2 = some (false, false) := by
    rw [isIntegerValue_iff, scanNumber_integer rfl hb]
    simp [hhex, htrue, hfalse]
  have hfloat : (∃ r, scanNumber 0 false false (skipSign v).2 = some r ∧ (r.1 || r.2) = true) ↔
      IsFloatValue v ∨ (skipSign v).2 = [46] := by
    rw [isFloatValue_iff, scanNumber_floating rfl]
  have hperiod : (skipSign v).2 = [46] → ¬IsFloatValue v := by
    rw [isFloatValue_iff]
    intro h46 hbody
    have hlen := (isFloatBody_start hbody).1
    rw [h46] at hlen
    exact absurd hlen (by decide)
  generalize scanNumber 0 false false (skipSign v).2 = scanned at h hint hfloat
  rcases scanned with _ | ⟨exponent, period⟩
  · have hnot : ¬(IsFloatValue v ∨ (skipSign v).2 = [46]) := by simp [← hfloat]
    obtain ⟨hf, h46⟩ := not_or.mp hnot
    rw [deliversType_string h]
    exact iff_of_true ⟨by simp [hint], hf⟩ h46
  · by_cases hor : (exponent || period) = true
    · have hi : ¬IsIntegerValue v := by
        rw [hint]
        rintro ⟨⟩
        cases hor
      have hf := hfloat.mp ⟨_, rfl, hor⟩
      simp only [hor, if_true] at h
      rw [deliversType_floating h]
      exact ⟨fun D h46 => hperiod h46 D.2, fun h46 => ⟨hi, hf.resolve_right h46⟩⟩
    · have hnot : ¬(IsFloatValue v ∨ (skipSign v).2 = [46]) := by
        rw [← hfloat]
        rintro ⟨r, ⟨⟩, hr⟩
        exact hor hr
      obtain ⟨hf, h46⟩ := not_or.mp hnot
      have hi : IsIntegerValue v := by
        rw [hint]
        simp only [Bool.or_eq_true, not_or, Bool.not_eq_true] at hor
        rw [hor.1, hor.2]
      simp only [hor] at h
      rw [deliversType_integer h]
      exact iff_of_true ⟨hi, hf⟩ h46

/-- A value that does not begin like a number is none. -/
theorem not_number (h : isdigit (Bytes.at v 0) = false) (hstart : Bytes.at v 1 = 0 ∨
    (Bytes.at v 0 ≠ 43 ∧ Bytes.at v 0 ≠ 45 ∧ Bytes.at v 0 ≠ 46)) (hz : 0 ∉ v) :
    ¬IsHexValue v ∧ ¬IsDigits (skipSign v).2 ∧ ¬IsFloatValue v := by
  have hbody : isdigit (Bytes.at (skipSign v).2 0) = false ∧
      ((skipSign v).2.length < 2 ∨ Bytes.at (skipSign v).2 0 ≠ 46) := by
    rcases hstart with h0 | ⟨h43, h45, h46⟩
    · rcases v with _ | ⟨c, _ | ⟨d, u⟩⟩
      · exact ⟨rfl, Or.inl (by decide)⟩
      · unfold skipSign
        split
        · exact ⟨rfl, Or.inl Nat.zero_lt_two⟩
        · split
          · exact ⟨rfl, Or.inl Nat.zero_lt_two⟩
          · exact ⟨h, Or.inl (by simp)⟩
      · obtain rfl : d = 0 := h0
        exact absurd (List.mem_cons_of_mem c List.mem_cons_self) hz
    · rw [skipSign, if_neg h45, if_neg h43]
      exact ⟨h, Or.inr h46⟩
  obtain ⟨hdigit, hperiod⟩ := hbody
  rw [isFloatValue_iff]
  refine ⟨?_, ?_, ?_⟩
  · rintro ⟨u, rfl, -⟩
    cases h
  · intro hds
    exact Bool.noConfusion (hdigit.symm.trans (isDigits_iff.mp hds).1)
  · intro hf
    obtain ⟨hlen, hd | h46⟩ := isFloatBody_start hf
    · exact Bool.noConfusion (hdigit.symm.trans hd)
    · rcases hperiod with hshort | hne
      · omega
      · exact hne h46

/-- After `0x`. -/
theorem not_number_hex {u : Bytes} : ¬IsDigits (skipSign (48 :: 120 :: u)).2 ∧ ¬IsFloatValue (48 :: 120 :: u) := by
  have hskip : (skipSign (48 :: 120 :: u)).2 = 48 :: 120 :: u := rfl
  have hdrop : (48 :: 120 :: u).dropWhile isdigit = 120 :: u := rfl
  rw [isFloatValue_iff, hskip, isFloatBody_iff, isDigits_iff_tail (List.cons_ne_nil _ _), hdrop]
  refine ⟨List.cons_ne_nil _ _, ?_⟩
  rintro (⟨-, h⟩ | ⟨-, h⟩ | ⟨rest, h, -⟩)
  · cases (List.cons.inj h).1
  · rcases (isExponent_cons.mp h).1 with h | h <;> cases h
  · cases (List.cons.inj h).1

theorem not_number_word : ¬IsDigits (skipSign (bytes "true")).2 ∧ ¬IsFloatValue (bytes "true") ∧
    ¬IsDigits (skipSign (bytes "false")).2 ∧ ¬IsFloatValue (bytes "false") := by
  obtain ⟨-, hdt, hft⟩ := not_number (v := bytes "true") (by decide) (Or.inr (by decide)) (by decide)
  obtain ⟨-, hdf, hff⟩ := not_number (v := bytes "false") (by decide) (Or.inr (by decide)) (by decide)
  exact ⟨hdt, hft, hdf, hff⟩

/-- A value that begins with `0x`. -/
theorem deliversType_hex : DeliversType atof (48 :: 120 :: u) ↔ u ≠ [] := by
  have hv : kvpValue atof (48 :: 120 :: u) false =
      if u.all isxdigit then .integer (Int32.ofInt (strtol u 16).1) else .string (48 :: 120 :: u) := rfl
  have hstart : StartsNumber 48 (120 :: u) := Or.inl rfl
  obtain ⟨htrue, hfalse⟩ := hstart.not_word
  obtain ⟨hds, hf⟩ := not_number_hex (u := u)
  have hint : IsIntegerValue (48 :: 120 :: u) ↔ u ≠ [] ∧ u.all isxdigit = true := by
    rw [isIntegerValue_iff, List.all_eq_true]
    simp [htrue, hfalse, hds, IsHexValue]
  by_cases hall : u.all isxdigit = true
  · rw [if_pos hall] at hv
    rw [deliversType_integer hv, hint]
    simp [hall, hf]
  · rw [if_neg hall] at hv
    rw [deliversType_string hv, hint]
    refine iff_of_true ⟨fun h => hall h.2, hf⟩ ?_
    rintro rfl
    exact hall rfl

theorem skipSign_cons : (skipSign (c :: u)).2 = if c = 43 ∨ c = 45 then u else c :: u := by
  have hat : Bytes.at (c :: u) 0 = c := rfl
  rw [skipSign, hat]
  by_cases h45 : c = 45
  · simp [h45]
  · by_cases h43 : c = 43
    · simp [h43]
    · simp [h43, h45]

/-- A value that begins like a number in decimal. -/
theorem deliversType_scan (hc : StartsNumber c u) (hzerox : ¬(Bytes.at (c :: u) 0 = 48 ∧ Bytes.at (c :: u) 1 = 120)) :
    DeliversType atof (c :: u) ↔ (c = 43 ∨ c = 45) → u ≠ [46] := by
  obtain ⟨htrue, hfalse⟩ := hc.not_word
  have hu : Bytes.at u 0 ≠ 0 → u ≠ [] := by
    rintro h rfl
    exact h rfl
  have hhex : ¬IsHexValue (c :: u) := by
    rintro ⟨w, h, -⟩
    exact hzerox (h ▸ ⟨rfl, rfl⟩)
  have hb : (skipSign (c :: u)).2 ≠ [] := by
    rw [skipSign_cons]
    split
    · next h =>
      rcases hc with hd | ⟨-, h0⟩
      · rcases h with rfl | rfl
        · cases hd
        · cases hd
      · exact hu h0
    · exact List.cons_ne_nil _ _
  rw [deliversType_number hb hhex htrue hfalse (kvpValue_scan hc hzerox), skipSign_cons]
  split
  · next h => exact ⟨fun hne _ => hne, fun hne => hne h⟩
  · next h =>
    refine iff_of_true ?_ fun hsign => absurd hsign h
    rintro ⟨⟩
    rcases hc with hd | ⟨-, h0⟩
    · cases hd
    · exact h0 rfl

/-- A value begins like a number, or its first characters make it a string. -/
theorem startsNumber_or (v : Bytes) :
    ((!isdigit (v.at 0)) = true ∧ (v.at 1 = 0 ∨ (v.at 0 ≠ 43 ∧ v.at 0 ≠ 45 ∧ v.at 0 ≠ 46))) ∨
      ∃ c u, v = c :: u ∧ StartsNumber c u := by
  rcases v with _ | ⟨c, u⟩
  · exact Or.inl ⟨rfl, Or.inl rfl⟩
  · have hat : Bytes.at (c :: u) 0 = c ∧ Bytes.at (c :: u) 1 = Bytes.at u 0 := ⟨rfl, rfl⟩
    rw [hat.1, hat.2]
    by_cases hd : isdigit c = true
    · exact Or.inr ⟨c, u, rfl, Or.inl hd⟩
    · have hnot : (!isdigit c) = true := by simp [hd]
      by_cases h0 : Bytes.at u 0 = 0
      · exact Or.inl ⟨hnot, Or.inl h0⟩
      · by_cases hmark : c = 43 ∨ c = 45 ∨ c = 46
        · exact Or.inr ⟨c, u, rfl, Or.inr ⟨hmark, h0⟩⟩
        · exact Or.inl ⟨hnot, Or.inr (by simpa only [not_or] using hmark)⟩

end

/-- The type of an unquoted value is the one that its text looks like unless the text is one of three. -/
theorem deliversType_iff (atof : Bytes → Float) (value : UnquotedValue) :
    DeliversType atof value.text ↔ value.text ∉ [bytes "0x", bytes "+.", bytes "-."] := by
  obtain ⟨v, hne, hplain⟩ := value
  have hz : 0 ∉ v := fun h => (hplain 0 h).1 rfl
  have h0x : bytes "0x" = [48, 120] := by decide
  have hplus : bytes "+." = [43, 46] := by decide
  have hminus : bytes "-." = [45, 46] := by decide
  simp only [List.mem_cons, List.not_mem_nil, or_false, h0x, hplus, hminus]
  obtain ⟨-, hft, -, hff⟩ := not_number_word
  by_cases htrue : v = bytes "true"
  · subst htrue
    have hv : kvpValue atof (bytes "true") false = .integer 1 := rfl
    rw [deliversType_integer hv]
    exact iff_of_true ⟨.true, hft⟩ (by decide)
  by_cases hfalse : v = bytes "false"
  · subst hfalse
    have hv : kvpValue atof (bytes "false") false = .integer 0 := rfl
    rw [deliversType_integer hv]
    exact iff_of_true ⟨.false, hff⟩ (by decide)
  rcases startsNumber_or v with hstart | ⟨c, u, rfl, hc⟩
  · have hv : kvpValue atof v false = .string v := by
      unfold kvpValue
      rw [if_neg Bool.false_ne_true, if_neg htrue, if_neg hfalse, if_pos hstart]
    obtain ⟨hhex, hds, hf⟩ := not_number (by simpa using hstart.1) hstart.2 hz
    rw [deliversType_string hv, isIntegerValue_iff]
    refine iff_of_true ⟨by simp [htrue, hfalse, hhex, hds], hf⟩ ?_
    rintro (rfl | rfl | rfl) <;> exact absurd hstart (by decide)
  · by_cases hzerox : Bytes.at (c :: u) 0 = 48 ∧ Bytes.at (c :: u) 1 = 120
    · obtain ⟨w, hw⟩ := hexPrefix_iff.mp hzerox
      rw [hw, deliversType_hex]
      simp
    · rw [deliversType_scan hc hzerox]
      have h0x' : c :: u ≠ [48, 120] := fun h => hzerox (h ▸ ⟨rfl, rfl⟩)
      simp only [h0x', false_or, List.cons.injEq, ← or_and_right, not_and, ne_eq]

/-- A sign and a period are sent as a number in floating point. -/
theorem not_deliversType_sign :
    ¬∀ (atof : Bytes → Float) (value : UnquotedValue), DeliversType atof value.text := by
  intro h
  have D := h (fun _ => 0) ⟨[43, 46], List.cons_ne_nil _ _, by simp [isspace]⟩
  obtain ⟨sign, body, heq, hsign, hbody⟩ := D.floating.mp ⟨_, rfl⟩
  have hfloat : IsFloatBody [46] := isFloatValue_iff.mp ⟨sign, body, heq, hsign, hbody⟩
  exact absurd (isFloatBody_start hfloat).1 (by decide)

end Nlutils
