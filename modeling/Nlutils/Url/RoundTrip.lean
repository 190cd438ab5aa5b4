import Nlutils.Url
import Nlutils.Lib.Coding
import Mathlib.Data.List.Forall2

/-! # URL encoding and decoding

What `nl_url_decode` makes of an encoded character does not depend on the text after it, so that an encoded string is
decoded character by character. -/

namespace Nlutils

/-- What may stand for a character in an encoded string. -/
inductive UrlPiece (encodeSpace allowReserved : Bool) : Byte → Bytes → Prop
  | unreserved {c : Byte} : isalnum c = true ∨ c ∈ bytes "-_.~" → UrlPiece encodeSpace allowReserved c [c]
  | reserved {c : Byte} : allowReserved = true → nlUrlIsReserved c = true → UrlPiece encodeSpace allowReserved c [c]
  | plus : encodeSpace = false → UrlPiece encodeSpace allowReserved 32 [43]
  | escape {c x y : Byte} : isxdigit x = true → isxdigit y = true → UrlPiece encodeSpace allowReserved c [37, x, y]

/-- The characters of an encoded string, and when it is decoded to the string it was. -/
structure UrlCoded (str : Bytes) (encodeSpace allowReserved ignorePlus : Bool) : Prop where
  length : (nlUrlEncode str encodeSpace allowReserved).length ≤ 3 * str.length
  pieces : ∃ ps, List.Forall₂ (UrlPiece encodeSpace allowReserved) str ps ∧
    nlUrlEncode str encodeSpace allowReserved = ps.flatten
  roundTrip : nlUrlDecode ignorePlus (nlUrlEncode str encodeSpace allowReserved) = str ↔
    ¬(allowReserved = true ∧ ignorePlus = false ∧ 43 ∈ str) ∧ ¬(encodeSpace = false ∧ ignorePlus = true ∧ 32 ∈ str)

/-- What the loop of `nl_url_encode` writes for a character. -/
def urlEncodeByte (encodeSpace allowReserved : Bool) (c : Byte) : Bytes :=
  if nlUrlIsAllowed c allowReserved then [c]
  else if c == 32 && !encodeSpace then [43]
  else [37, nlUrlToHex (c >>> 4), nlUrlToHex c]

/-- What is decoded for a character that was encoded. -/
def urlReadBack (encodeSpace allowReserved ignorePlus : Bool) (c : Byte) : Byte :=
  if c = 43 ∧ allowReserved = true ∧ ignorePlus = false then 32
  else if c = 32 ∧ encodeSpace = false ∧ ignorePlus = true then 43
  else c

section
variable {encodeSpace allowReserved ignorePlus : Bool} {c : Byte} {str rest : Bytes}

theorem nlUrlEncode_eq :
    nlUrlEncode str encodeSpace allowReserved = str.flatMap (urlEncodeByte encodeSpace allowReserved) := rfl

/-! ### Hex digits -/

/-- A hex digit for each number below 16, and back. -/
theorem urlHex_spec {n : Nat} (hn : n < 16) : isxdigit (nlUrlToHex n.toUInt8) = true ∧
    (nlUrlFromHex (nlUrlToHex n.toUInt8)).toNat = n ∧ (nlUrlToHex n.toUInt8 = 48 ↔ n = 0) := by
  have hall : ∀ n, n < 16 → isxdigit (nlUrlToHex n.toUInt8) = true ∧
      (nlUrlFromHex (nlUrlToHex n.toUInt8)).toNat = n ∧ (nlUrlToHex n.toUInt8 = 48 ↔ n = 0) := by decide
  exact hall n hn

theorem nlUrlToHex_eq : nlUrlToHex c = nlUrlToHex (c.toNat % 16).toUInt8 := by
  have hand : c &&& 15 = (c.toNat % 16).toUInt8 &&& 15 := by
    refine UInt8.toNat_inj.mp ?_
    rw [UInt8.toNat_and, UInt8.toNat_and]
    have h15 : (15 : UInt8).toNat = 2 ^ 4 - 1 := rfl
    rw [h15, Nat.and_two_pow_sub_one_eq_mod, Nat.and_two_pow_sub_one_eq_mod, UInt8.toNat_ofNat']
    omega
  rw [nlUrlToHex, nlUrlToHex, hand]

theorem shiftRight_four : (c >>> 4).toNat = c.toNat / 16 := by
  have h4 : (4 : UInt8).toNat % 8 = 4 := rfl
  rw [UInt8.toNat_shiftRight, h4, Nat.shiftRight_eq_div_pow]

theorem shiftLeft_four_or {x y : Byte} {m n : Nat} (hx : x.toNat = m) (hy : y.toNat = n) (hm : m < 16) (hn : n < 16) :
    (x <<< 4 ||| y).toNat = m * 16 + n := by
  have h4 : (4 : UInt8).toNat % 8 = 4 := rfl
  rw [UInt8.toNat_or, UInt8.toNat_shiftLeft, h4, hx, hy]
  have hlt : m <<< 4 < 2 ^ 8 := by
    rw [Nat.shiftLeft_eq]
    omega
  rw [Nat.mod_eq_of_lt hlt, ← Nat.shiftLeft_add_eq_or_of_lt (show n < 2 ^ 4 by omega), Nat.shiftLeft_eq]

/-- The two hex digits of a character, which are those of zero only for a zero byte. -/
theorem urlHex_byte (c : Byte) : isxdigit (nlUrlToHex (c >>> 4)) = true ∧ isxdigit (nlUrlToHex c) = true ∧
    nlUrlFromHex (nlUrlToHex (c >>> 4)) <<< 4 ||| nlUrlFromHex (nlUrlToHex c) = c ∧
    (c ≠ 0 → nlUrlToHex (c >>> 4) ≠ 48 ∨ nlUrlToHex c ≠ 48) := by
  have hc := c.toNat_lt
  obtain ⟨hxhi, hhi, hhi0⟩ := urlHex_spec (n := c.toNat / 16 % 16) (by omega)
  obtain ⟨hxlo, hlo, hlo0⟩ := urlHex_spec (n := c.toNat % 16) (by omega)
  have hdigit : nlUrlToHex (c >>> 4) = nlUrlToHex (c.toNat / 16 % 16).toUInt8 := by rw [nlUrlToHex_eq, shiftRight_four]
  rw [hdigit, nlUrlToHex_eq (c := c)]
  refine ⟨hxhi, hxlo, ?_, ?_⟩
  · refine UInt8.toNat_inj.mp ?_
    rw [shiftLeft_four_or hhi hlo (by omega) (by omega)]
    omega
  · intro h0
    have hne : c.toNat ≠ 0 := fun h => h0 (UInt8.toNat_inj.mp h)
    rw [ne_eq, ne_eq, hhi0, hlo0]
    omega

/-! ### One character -/

/-- A character that is left as it is. -/
theorem isAllowed_cases (h : nlUrlIsAllowed c allowReserved = true) :
    (isalnum c = true ∨ c ∈ bytes "-_.~") ∨ (allowReserved = true ∧ nlUrlIsReserved c = true) := by
  have hmarks : c ∈ bytes "-_.~" ↔ c = 45 ∨ c = 95 ∨ c = 46 ∨ c = 126 := by simp [bytes]
  simp only [nlUrlIsAllowed, Bool.and_eq_true, Bool.or_eq_true, beq_iff_eq, or_assoc] at h
  rw [hmarks]
  obtain ⟨-, h | h | h | h | h | h⟩ := h
  · exact Or.inl (Or.inl h)
  · exact Or.inl (Or.inr (Or.inl h))
  · exact Or.inl (Or.inr (Or.inr (Or.inl h)))
  · exact Or.inl (Or.inr (Or.inr (Or.inr (Or.inl h))))
  · exact Or.inl (Or.inr (Or.inr (Or.inr (Or.inr h))))
  · exact Or.inr h

theorem allowed_ne_percent (h : nlUrlIsAllowed c allowReserved = true) : c ≠ 37 := by
  rintro rfl
  cases allowReserved <;> exact absurd h (by decide)

theorem allowed_ne_space (h : nlUrlIsAllowed c allowReserved = true) : c ≠ 32 := by
  rintro rfl
  cases allowReserved <;> exact absurd h (by decide)

theorem nlUrlIsAllowed_plus : nlUrlIsAllowed 43 allowReserved = allowReserved := by
  cases allowReserved <;> decide

theorem urlEncodeByte_piece (c : Byte) :
    UrlPiece encodeSpace allowReserved c (urlEncodeByte encodeSpace allowReserved c) := by
  unfold urlEncodeByte
  split
  · next h =>
    rcases isAllowed_cases h with h | ⟨hr, h⟩
    · exact .unreserved h
    · exact .reserved hr h
  · split
    · next h =>
      simp only [Bool.and_eq_true, beq_iff_eq, Bool.not_eq_true'] at h
      obtain ⟨rfl, h⟩ := h
      exact .plus h
    · obtain ⟨hx, hy, -⟩ := urlHex_byte c
      exact .escape hx hy

theorem length_urlEncodeByte : (urlEncodeByte encodeSpace allowReserved c).length ≤ 3 := by
  have hlen : ∀ {p}, UrlPiece encodeSpace allowReserved c p → p.length ≤ 3 := by
    intro p hp
    cases hp <;> simp
  exact hlen (urlEncodeByte_piece c)

theorem nlUrlDecode_plain (hc : c ≠ 37) (hp : c ≠ 43 ∨ ignorePlus = true) :
    nlUrlDecode ignorePlus (c :: rest) = c :: nlUrlDecode ignorePlus rest := by
  have hplus : ¬(c = 43 ∧ (!ignorePlus) = true) := by
    rintro ⟨rfl, h⟩
    rcases hp with hp | hp
    · exact hp rfl
    · simp [hp] at h
  rw [nlUrlDecode.eq_def]
  simp only [if_neg hc, if_neg hplus]

theorem nlUrlDecode_plus : nlUrlDecode false (43 :: rest) = 32 :: nlUrlDecode false rest := by
  rw [nlUrlDecode.eq_def]
  rfl

theorem nlUrlDecode_escape (hc : c ≠ 0) :
    nlUrlDecode ignorePlus (37 :: nlUrlToHex (c >>> 4) :: nlUrlToHex c :: rest) = c :: nlUrlDecode ignorePlus rest := by
  obtain ⟨hx, hy, hback, hzero⟩ := urlHex_byte c
  rw [nlUrlDecode.eq_def]
  simp only [hx, hy, hback, hzero hc, and_self, if_true]

theorem nlUrlDecode_encodeByte (hc : c ≠ 0) (rest : Bytes) :
    nlUrlDecode ignorePlus (urlEncodeByte encodeSpace allowReserved c ++ rest) =
      urlReadBack encodeSpace allowReserved ignorePlus c :: nlUrlDecode ignorePlus rest := by
  unfold urlEncodeByte
  split
  · next h =>
    have hspace := allowed_ne_space h
    by_cases hp : c = 43 ∧ ignorePlus = false
    · obtain ⟨rfl, rfl⟩ := hp
      rw [nlUrlIsAllowed_plus] at h
      subst h
      exact nlUrlDecode_plus
    · have hback : urlReadBack encodeSpace allowReserved ignorePlus c = c := by
        rw [urlReadBack, if_neg fun h => hp ⟨h.1, h.2.2⟩, if_neg fun h => hspace h.1]
      rw [hback]
      refine nlUrlDecode_plain (allowed_ne_percent h) ?_
      rw [not_and_or] at hp
      simpa using hp
  · next hallowed =>
    have hplus : ¬(c = 43 ∧ allowReserved = true ∧ ignorePlus = false) := by
      rintro ⟨rfl, h, -⟩
      exact hallowed (nlUrlIsAllowed_plus.trans h)
    rw [urlReadBack, if_neg hplus]
    split
    · next h =>
      simp only [Bool.and_eq_true, beq_iff_eq, Bool.not_eq_true'] at h
      obtain ⟨rfl, rfl⟩ := h
      cases ignorePlus
      · exact nlUrlDecode_plus
      · exact nlUrlDecode_plain (by decide) (Or.inr rfl)
    · next h =>
      have hspace : ¬(c = 32 ∧ encodeSpace = false ∧ ignorePlus = true) := by
        rintro ⟨rfl, rfl, -⟩
        exact h rfl
      rw [if_neg hspace]
      exact nlUrlDecode_escape hc

/-! ### The string -/

theorem foldr_cons_map {f : Byte → Byte} : str.foldr (fun c => List.cons (f c)) [] = str.map f := by
  induction str with
  | nil => rfl
  | cons c str ih => rw [List.foldr_cons, ih, List.map_cons]

/-- Decoding goes character by character. -/
theorem nlUrlDecode_encode (h : 0 ∉ str) : nlUrlDecode ignorePlus (nlUrlEncode str encodeSpace allowReserved) =
    str.map (urlReadBack encodeSpace allowReserved ignorePlus) := by
  have hread := Lib.read_flatMap (f := nlUrlDecode ignorePlus) (w := urlEncodeByte encodeSpace allowReserved) str []
    fun c hc rest => nlUrlDecode_encodeByte (fun h0 => h (h0 ▸ hc)) rest
  rw [List.append_nil] at hread
  rw [nlUrlEncode_eq, hread]
  exact foldr_cons_map

theorem urlReadBack_eq_iff : urlReadBack encodeSpace allowReserved ignorePlus c = c ↔
    ¬(c = 43 ∧ allowReserved = true ∧ ignorePlus = false) ∧ ¬(c = 32 ∧ encodeSpace = false ∧ ignorePlus = true) := by
  unfold urlReadBack
  split
  · next h => simp [h]
  · split
    · next h => simp [h]
    · next h h' => exact iff_of_true rfl ⟨h, h'⟩

theorem map_urlReadBack_eq_iff : str.map (urlReadBack encodeSpace allowReserved ignorePlus) = str ↔
    ¬(allowReserved = true ∧ ignorePlus = false ∧ 43 ∈ str) ∧
      ¬(encodeSpace = false ∧ ignorePlus = true ∧ 32 ∈ str) := by
  have hmap := @List.map_inj_left _ _ str (urlReadBack encodeSpace allowReserved ignorePlus) id
  rw [List.map_id] at hmap
  simp only [hmap, id_eq, urlReadBack_eq_iff]
  constructor
  · intro h
    exact ⟨fun ⟨hr, hp, hmem⟩ => (h 43 hmem).1 ⟨rfl, hr, hp⟩, fun ⟨hs, hp, hmem⟩ => (h 32 hmem).2 ⟨rfl, hs, hp⟩⟩
  · rintro ⟨hplus, hspace⟩ c hc
    exact ⟨fun ⟨h, hr, hp⟩ => hplus ⟨hr, hp, h ▸ hc⟩, fun ⟨h, hs, hp⟩ => hspace ⟨hs, hp, h ▸ hc⟩⟩

theorem forall₂_encode : List.Forall₂ (UrlPiece encodeSpace allowReserved) str
    (str.map (urlEncodeByte encodeSpace allowReserved)) := by
  induction str with
  | nil => exact .nil
  | cons c str ih => exact .cons (urlEncodeByte_piece c) ih

theorem length_nlUrlEncode : (nlUrlEncode str encodeSpace allowReserved).length ≤ 3 * str.length := by
  induction str with
  | nil => exact Nat.le_refl 0
  | cons c str ih =>
    have hc : (urlEncodeByte encodeSpace allowReserved c).length ≤ 3 := length_urlEncodeByte
    rw [nlUrlEncode_eq] at ih ⊢
    rw [List.flatMap_cons, List.length_append, List.length_cons]
    omega

end

/-- Every string is encoded in pieces of at most three characters, and comes back exactly if no `+` is read as a space
    and no space as a `+`. -/
theorem urlCoded (str : Bytes) (encodeSpace allowReserved ignorePlus : Bool) (h : 0 ∉ str) :
    UrlCoded str encodeSpace allowReserved ignorePlus where
  length := length_nlUrlEncode
  pieces := ⟨_, forall₂_encode, nlUrlEncode_eq.trans (List.flatMap_def)⟩
  roundTrip := by rw [nlUrlDecode_encode h, map_urlReadBack_eq_iff]

/-- A string with a space, a `+` and a character above 127. -/
theorem urlCoded_plus : 0 ∉ [32, 43, 200] ∧ UrlCoded [32, 43, 200] false true false :=
  ⟨by decide, urlCoded [32, 43, 200] false true false (by decide)⟩

end Nlutils
