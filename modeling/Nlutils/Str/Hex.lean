import Nlutils.Strtol
import Nlutils.Url.RoundTrip

/-! # Hex digits (`nl_to_hex` and `nl_from_hex` of `str.c`)

What is encoded is decoded again, and what is decoded is encoded as the digits that were read. -/

namespace Nlutils

def hexDigits : Bytes := bytes "0123456789abcdef"

/-- The string that `nl_to_hex` stores. -/
def nlToHex (data : Bytes) : Bytes :=
  data.flatMap fun c : Byte => [hexDigits.getD (c >>> 4).toNat 0, hexDigits.getD (c &&& 15).toNat 0]

/-- The loop of `nl_from_hex`, with the buffer from `*data` on: the count, and the buffer afterwards. There is no result
    where a byte does not fit in the buffer. -/
def fromHexLoop : Bytes → Bytes → Option (Nat × Bytes)
  | x :: y :: hex, data =>
    if isxdigit x && isxdigit y then
      match data with
      | [] => none
      | _ :: data => (fromHexLoop hex data).map fun r => (r.1 + 1, (strtoul [x, y] 16).1.toUInt8 :: r.2)
    else some (0, data)
  | _, data => some (0, data)

/-- The result, and the buffer afterwards. -/
def nlFromHex (hex data : Option Bytes) : Option (Int × Option Bytes) :=
  match hex, data with
  | some hex, some data => (fromHexLoop hex data).map fun r => (r.1, some r.2)
  | _, data => some (-1, data)

/-- The string begins with two hex digits. -/
def StartsHex (s : Bytes) : Prop := ∃ x y rest, s = x :: y :: rest ∧ isxdigit x = true ∧ isxdigit y = true

/-- The longest prefix of even length that consists of hex digits. -/
structure IsHexPrefix (p s : Bytes) : Prop where
  starts : p <+: s
  even : p.length % 2 = 0
  digits : ∀ c ∈ p, isxdigit c = true
  longest : ∀ q, q <+: s → q.length % 2 = 0 → (∀ c ∈ q, isxdigit c = true) → q.length ≤ p.length

section
variable {c x y : Byte} {d t s p rest buf : Bytes} {n : Nat}

/-! ### Two digits -/

theorem hexDigits_spec (hn : n < 16) :
    isxdigit (hexDigits.getD n 0) = true ∧ (digitVal (hexDigits.getD n 0)).getD 0 = n := by
  have hall : ∀ n, n < 16 → isxdigit (hexDigits.getD n 0) = true ∧ (digitVal (hexDigits.getD n 0)).getD 0 = n := by
    decide
  exact hall n hn

/-- A hex digit has a value, and the digit of that value is its lower-case form. -/
theorem hexDigits_digitVal (hc : isxdigit c = true) :
    (digitVal c).getD 0 < 16 ∧ hexDigits.getD ((digitVal c).getD 0) 0 = tolower c := by
  have hall : ∀ n, n < 256 → isxdigit n.toUInt8 = true →
      (digitVal n.toUInt8).getD 0 < 16 ∧ hexDigits.getD ((digitVal n.toUInt8).getD 0) 0 = tolower n.toUInt8 := by
    decide +kernel
  have hself : c.toNat.toUInt8 = c := UInt8.ofNat_toNat
  have hdigit := hall c.toNat c.toNat_lt
  rw [hself] at hdigit
  exact hdigit hc

theorem strtoul_pair (hx : isxdigit x = true) (hy : isxdigit y = true) :
    (strtoul [x, y] 16).1 = (digitVal x).getD 0 * 16 + (digitVal y).getD 0 := by
  obtain ⟨hspace, hminus, hplus⟩ := isxdigit_spec hx
  have hdrop : [x, y].dropWhile isspace = [x, y] := by simp [hspace]
  have hsign : skipSign [x, y] = (false, [x, y]) := by
    have hat : Bytes.at [x, y] 0 = x := rfl
    rw [skipSign, hat, if_neg hminus, if_neg hplus]
  have hhex : skipHexPrefix 16 [x, y] = [x, y] := by
    refine if_neg ?_
    rintro ⟨-, -, hmark, -⟩
    have hmark : y = 120 ∨ y = 88 := hmark
    rcases hmark with rfl | rfl
    · cases hy
    · cases hy
  have hdigit : isDigitOf 16 = isxdigit := funext fun _ => isDigitOf_sixteen
  have hnumeral : numeral [x, y] 16 = ⟨false, [x, y], []⟩ := by
    simp [numeral, hdrop, hsign, hhex, hdigit, hx, hy]
  have hval : digitsVal 16 [x, y] = (digitVal x).getD 0 * 16 + (digitVal y).getD 0 := by simp [digitsVal]
  have hlt : ¬digitsVal 16 [x, y] ≥ 2 ^ 64 := by
    have hx := (hexDigits_digitVal hx).1
    have hy := (hexDigits_digitVal hy).1
    omega
  rw [← hval, strtoul]
  simp only [hnumeral]
  rw [if_neg (List.cons_ne_nil _ _), if_neg hlt]
  rfl

/-- The digits of a byte. -/
theorem hexDigits_byte (c : Byte) : isxdigit (hexDigits.getD (c >>> 4).toNat 0) = true ∧
    isxdigit (hexDigits.getD (c &&& 15).toNat 0) = true ∧
    (strtoul [hexDigits.getD (c >>> 4).toNat 0, hexDigits.getD (c &&& 15).toNat 0] 16).1.toUInt8 = c := by
  have hlow : (c &&& 15).toNat = c.toNat % 16 := by
    have h15 : (15 : UInt8).toNat = 2 ^ 4 - 1 := rfl
    rw [UInt8.toNat_and, h15, Nat.and_two_pow_sub_one_eq_mod]
  have hc := c.toNat_lt
  rw [shiftRight_four, hlow]
  obtain ⟨hx, hxval⟩ := hexDigits_spec (n := c.toNat / 16) (by omega)
  obtain ⟨hy, hyval⟩ := hexDigits_spec (n := c.toNat % 16) (by omega)
  refine ⟨hx, hy, ?_⟩
  rw [strtoul_pair hx hy, hxval, hyval, Nat.div_add_mod']
  exact UInt8.ofNat_toNat

/-- The byte of two digits has these digits, in lower case. -/
theorem nlToHex_pair (hx : isxdigit x = true) (hy : isxdigit y = true) :
    nlToHex [(strtoul [x, y] 16).1.toUInt8] = [tolower x, tolower y] := by
  obtain ⟨hxlt, hx'⟩ := hexDigits_digitVal hx
  obtain ⟨hylt, hy'⟩ := hexDigits_digitVal hy
  have hbyte : (strtoul [x, y] 16).1.toUInt8.toNat = (digitVal x).getD 0 * 16 + (digitVal y).getD 0 := by
    rw [strtoul_pair hx hy]
    exact Nat.mod_eq_of_lt (by omega)
  have h15 : (15 : UInt8).toNat = 2 ^ 4 - 1 := rfl
  have hhigh : ((digitVal x).getD 0 * 16 + (digitVal y).getD 0) / 16 = (digitVal x).getD 0 := by omega
  have hlow : ((digitVal x).getD 0 * 16 + (digitVal y).getD 0) % 2 ^ 4 = (digitVal y).getD 0 := by omega
  simp only [nlToHex, List.flatMap_singleton]
  rw [shiftRight_four, UInt8.toNat_and, h15, Nat.and_two_pow_sub_one_eq_mod, hbyte, hhigh, hlow, hx', hy']

/-! ### The loop -/

theorem fromHexLoop_pair (hx : isxdigit x = true) (hy : isxdigit y = true) (b : Byte) :
    fromHexLoop (x :: y :: s) (b :: buf) =
      (fromHexLoop s buf).map fun r => (r.1 + 1, (strtoul [x, y] 16).1.toUInt8 :: r.2) := by
  simp [fromHexLoop, hx, hy]

theorem fromHexLoop_stop (h : ¬StartsHex s) : fromHexLoop s buf = some (0, buf) := by
  match s with
  | [] => rfl
  | [x] => rfl
  | x :: y :: s =>
    have hno : ¬(isxdigit x && isxdigit y) = true := by
      intro hxy
      rw [Bool.and_eq_true] at hxy
      exact h ⟨x, y, s, rfl, hxy.1, hxy.2⟩
    simp only [fromHexLoop, if_neg hno]

theorem fromHexLoop_toHex (ht : ¬StartsHex t) (hd : d.length ≤ buf.length) :
    fromHexLoop (nlToHex d ++ t) buf = some (d.length, d ++ buf.drop d.length) := by
  induction d generalizing buf with
  | nil => exact fromHexLoop_stop ht
  | cons c d ih =>
    cases buf with
    | nil => cases hd
    | cons b buf =>
      obtain ⟨hx, hy, hval⟩ := hexDigits_byte c
      have hhex : nlToHex (c :: d) ++ t =
          hexDigits.getD (c >>> 4).toNat 0 :: hexDigits.getD (c &&& 15).toNat 0 :: (nlToHex d ++ t) := rfl
      rw [hhex, fromHexLoop_pair hx hy, ih (Nat.le_of_succ_le_succ hd), hval]
      rfl

/-- What is read of a string, and what is stored for it. -/
theorem fromHexLoop_spec (s : Bytes) : ∃ stored p rest, s = p ++ rest ∧ p.length = 2 * stored.length ∧
    (∀ c ∈ p, isxdigit c = true) ∧ ¬StartsHex rest ∧ nlToHex stored = p.map tolower ∧
    ∀ buf : Bytes, stored.length ≤ buf.length →
      fromHexLoop s buf = some (stored.length, stored ++ buf.drop stored.length) := by
  induction s using List.twoStepInduction with
  | nil => exact ⟨[], [], [], rfl, rfl, nofun, by simp [StartsHex], rfl, fun _ _ => rfl⟩
  | singleton x => exact ⟨[], [], [x], rfl, rfl, nofun, by simp [StartsHex], rfl, fun _ _ => rfl⟩
  | cons_cons x y s ih =>
    by_cases hxy : isxdigit x = true ∧ isxdigit y = true
    · obtain ⟨hx, hy⟩ := hxy
      obtain ⟨stored, p, rest, rfl, hlen, hdigits, hrest, hhex, hloop⟩ := ih
      refine ⟨(strtoul [x, y] 16).1.toUInt8 :: stored, x :: y :: p, rest, rfl, ?_, ?_, hrest, ?_, ?_⟩
      · rw [List.length_cons, List.length_cons, List.length_cons, hlen]
        rfl
      · intro c hc
        rcases List.mem_cons.mp hc with rfl | hc
        · exact hx
        · rcases List.mem_cons.mp hc with rfl | hc
          · exact hy
          · exact hdigits c hc
      · have hcons : nlToHex ((strtoul [x, y] 16).1.toUInt8 :: stored) =
            nlToHex [(strtoul [x, y] 16).1.toUInt8] ++ nlToHex stored := rfl
        rw [hcons, nlToHex_pair hx hy, hhex]
        rfl
      · intro buf hbuf
        cases buf with
        | nil => cases hbuf
        | cons b buf =>
          rw [fromHexLoop_pair hx hy, hloop buf (Nat.le_of_succ_le_succ hbuf)]
          rfl
    · have hno : ¬StartsHex (x :: y :: s) := by
        rintro ⟨x', y', rest, heq, hx, hy⟩
        cases heq
        exact hxy ⟨hx, hy⟩
      exact ⟨[], [], _, rfl, rfl, nofun, hno, rfl, fun _ _ => fromHexLoop_stop hno⟩

/-- Digits up to where no two digits follow are the longest prefix. -/
theorem isHexPrefix_of_split (heven : p.length % 2 = 0) (hdigits : ∀ c ∈ p, isxdigit c = true)
    (hrest : ¬StartsHex rest) : IsHexPrefix p (p ++ rest) where
  starts := List.prefix_append _ _
  even := heven
  digits := hdigits
  longest q hq hqeven hqdigits := by
    by_contra hlong
    have hpq := List.prefix_of_prefix_length_le (List.prefix_append p rest) hq (by omega)
    obtain ⟨more, rfl⟩ := hpq
    obtain ⟨tail, htail⟩ := hq
    rw [List.append_assoc] at htail
    have hmore : more ++ tail = rest := List.append_cancel_left htail
    match more with
    | [] => simp at hlong
    | [x] =>
      rw [List.length_append] at hqeven
      have hone : [x].length = 1 := rfl
      omega
    | x :: y :: more =>
      refine hrest ⟨x, y, more ++ tail, hmore.symm, ?_, ?_⟩
      · exact hqdigits x (by simp)
      · exact hqdigits y (by simp)

end

/-- What `nl_to_hex` stores is decoded, whatever follows that does not begin with two hex digits, and what
    `nl_from_hex` stores is encoded as the digits that it has read. -/
theorem hex_roundTrip (d t s buf buf' : Bytes) (ht : ¬StartsHex t) (hd : d.length ≤ buf.length)
    (hs : s.length / 2 ≤ buf'.length) :
    nlFromHex (some (nlToHex d ++ t)) (some buf) = some ((d.length : Int), some (d ++ buf.drop d.length)) ∧
    ∃ stored p,
      nlFromHex (some s) (some buf') = some ((stored.length : Int), some (stored ++ buf'.drop stored.length)) ∧
      stored.length ≤ s.length / 2 ∧ IsHexPrefix p s ∧ nlToHex stored = p.map tolower := by
  constructor
  · simp only [nlFromHex, fromHexLoop_toHex ht hd]
    rfl
  · obtain ⟨stored, p, rest, rfl, hlen, hdigits, hrest, hhex, hloop⟩ := fromHexLoop_spec s
    have hle : stored.length ≤ (p ++ rest).length / 2 := by
      rw [List.length_append, hlen]
      omega
    refine ⟨stored, p, ?_, hle, isHexPrefix_of_split (by omega) hdigits hrest, hhex⟩
    simp only [nlFromHex, hloop buf' (Nat.le_trans hle hs)]
    rfl

/-- The bytes 0 and 255 with `f_` behind them, and an odd number of digits in mixed case. -/
theorem hex_roundTrip_mixed :
    nlFromHex (some (nlToHex [0, 255] ++ bytes "f_")) (some [7, 7, 7]) = some (2, some [0, 255, 7]) ∧
    ∃ stored p, nlFromHex (some (bytes "aBC")) (some [7]) =
        some ((stored.length : Int), some (stored ++ [7].drop stored.length)) ∧
      stored.length ≤ 1 ∧ IsHexPrefix p (bytes "aBC") ∧ nlToHex stored = p.map tolower :=
  hex_roundTrip [0, 255] (bytes "f_") (bytes "aBC") [7, 7, 7] [7]
    (by
      rintro ⟨x, y, rest, heq, -, hy⟩
      cases heq
      cases hy)
    (by decide) (by decide)

end Nlutils
