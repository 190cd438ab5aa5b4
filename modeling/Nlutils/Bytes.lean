import Mathlib.Algebra.Ring.Nat

/-! # Bytes and C strings

A C string is the list of its bytes before the terminating zero byte; reading past the last of them gives
that zero byte. The character classes are those of the C locale, in which no byte above 0x7f belongs to
any of them. -/

namespace Nlutils

abbrev Byte := UInt8
abbrev Bytes := List UInt8

/-- The bytes of an ASCII literal of the source. -/
def bytes (s : String) : Bytes := s.toList.map fun c => c.toNat.toUInt8

/-- The byte `str[i]` of a C string, its terminator included. -/
def Bytes.at (s : Bytes) (i : Nat) : Byte := s.getD i 0

/-- Where the first byte is not the terminator, there is one. -/
theorem exists_cons_of_at {s : Bytes} (h : s.at 0 ≠ 0) : ∃ c tail, s = c :: tail ∧ s.at 0 = c := by
  cases s with
  | nil => exact absurd rfl h
  | cons c tail => exact ⟨c, tail, rfl, rfl⟩

theorem eq_cons_of_at {s : Bytes} {c : Byte} (h : s.at 0 = c) (hc : c ≠ 0) : ∃ tail, s = c :: tail := by
  obtain ⟨d, tail, rfl, -⟩ := exists_cons_of_at (h.trans_ne hc)
  obtain rfl : d = c := h
  exact ⟨tail, rfl⟩

def isspace (c : Byte) : Bool := c == 32 || (9 ≤ c && c ≤ 13)

def isdigit (c : Byte) : Bool := 48 ≤ c && c ≤ 57

def isalpha (c : Byte) : Bool := (65 ≤ c && c ≤ 90) || (97 ≤ c && c ≤ 122)

def isalnum (c : Byte) : Bool := isalpha c || isdigit c

def isxdigit (c : Byte) : Bool := isdigit c || (65 ≤ c && c ≤ 70) || (97 ≤ c && c ≤ 102)

def tolower (c : Byte) : Byte := if 65 ≤ c && c ≤ 90 then c + 32 else c

/-- `strncmp`: compares at most `n` bytes, as unsigned characters, and stops at a terminator. -/
def strncmp : Bytes → Bytes → Nat → Int
  | _, _, 0 => 0
  | a, b, n + 1 =>
    if a.headD 0 ≠ b.headD 0 then (a.headD 0).toNat - (b.headD 0).toNat
    else if a.headD 0 = 0 then 0
    else strncmp a.tail b.tail n

theorem strncmp_self {a b : Bytes} {c : Byte} {n : Nat} (h : c ≠ 0) :
    strncmp (c :: a) (c :: b) (n + 1) = strncmp a b n := by
  simp [strncmp, h]

/-- `nl_strstart`: zero exactly when `start` begins `str`. -/
def nlStrstart (str start : Bytes) : Int := strncmp str start start.length

example : nlStrstart (bytes "https://localhost/") (bytes "https://") = 0 := by decide

end Nlutils
