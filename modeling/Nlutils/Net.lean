import Nlutils.Bytes
import Nlutils.Lib.While
import Mathlib.Data.List.Induction

/-! # MAC addresses (`nl_parse_mac` of `net.c`)

The string is read from its bytes and the zero byte behind them, and written to are the bytes of the working buffer:
there is no result where the code goes past the one or the other. -/

namespace Nlutils
open Lib

inductive MacState
  | wantDigit1 | wantDigit1OrSep | wantDigit2 | wantSep | wantEnd | invalid | done
  deriving DecidableEq

/-- The variables of `nl_parse_mac`: the memory from `mac_in` on, the working buffer, and the offset of `ptr` in it. -/
structure MacParse where
  macIn : Bytes
  outbuf : Bytes
  ptr : Nat
  state : MacState
  expectSep : Byte

namespace MacParse

def push (m : MacParse) (c : Byte) : Option MacParse :=
  if m.ptr < m.outbuf.length then some { m with outbuf := m.outbuf.set m.ptr c, ptr := m.ptr + 1 } else none

def running (m : MacParse) : Bool := m.state ≠ .invalid ∧ m.state ≠ .done

/-- The case for `WANT_DIGIT_1`, with `c` read. -/
def digit1 (m : MacParse) (c : Byte) : Option MacParse :=
  if isxdigit c then (m.push (tolower c)).map fun m => { m with state := .wantDigit2 }
  else some { m with state := .invalid }

/-- The case for `WANT_DIGIT_2`, with `c` read. -/
def digit2 (separator : Byte) (m : MacParse) (c : Byte) : Option MacParse :=
  if isxdigit c then
    (m.push (tolower c)).bind fun m =>
      (if separator ≠ 0 ∧ m.ptr < 17 then m.push separator else some m).map fun m =>
        { m with state :=
            if m.ptr = (if separator ≠ 0 then 17 else 12) then .wantEnd
            else if m.ptr > (if separator ≠ 0 then 3 else 2) then
              if m.expectSep ≠ 0 then .wantSep else .wantDigit1
            else .wantDigit1OrSep }
  else some { m with state := .invalid }

/-- The body of the loop. -/
def round (separator : Byte) (m : MacParse) : Option MacParse :=
  match m.macIn with
  | [] => none
  | c :: rest =>
    match m.state with
    | .wantDigit1OrSep =>
      if c = 45 ∨ c = 58 then
        match rest with
        | [] => none
        | c' :: rest => { m with macIn := rest, expectSep := c }.digit1 c'
      else { m with macIn := rest }.digit1 c
    | .wantDigit1 => { m with macIn := rest }.digit1 c
    | .wantDigit2 => { m with macIn := rest }.digit2 separator c
    | .wantSep => some { m with macIn := rest, state := if c = m.expectSep then .wantDigit1 else .invalid }
    | .wantEnd => some { m with macIn := rest, state := if c = 0 then .done else .invalid }
    -- The loop has ended here.
    | .invalid => none
    | .done => none

end MacParse

/-- What is returned, and the memory at `mac_out` afterwards. The working buffer begins as `outbuf`. -/
def nlParseMac (macIn macOut : Option Bytes) (separator : Byte) (outbuf : Bytes) : Option (Int × Option Bytes) :=
  match macIn with
  | none => some (-14, macOut)
  | some s =>
    (whileLoop MacParse.running (MacParse.round separator) (s.length + 1)
      ⟨s ++ [0], outbuf, 0, .wantDigit1, 0⟩).bind fun m =>
        if m.state = .done then
          match macOut with
          | none => some (0, none)
          | some mem =>
            let stop := if separator ≠ 0 then 17 else 12
            if stop < m.outbuf.length ∧ stop < mem.length then
              some (0, some ((m.outbuf.set stop 0).take (stop + 1) ++ mem.drop (stop + 1)))
            else none
        else some (-22, macOut)

/-- `e` as text: nothing for the zero byte. -/
def sepText (e : Byte) : Bytes := if e = 0 then [] else [e]

/-- The digits in groups of two, with `e` between the groups. -/
def macText (e : Byte) : Bytes → Bytes
  | x :: y :: z :: more => x :: y :: (sepText e ++ macText e (z :: more))
  | more => more

/-- Twelve digits that are a MAC address. -/
structure MacDigits (digits : Bytes) : Prop where
  length : digits.length = 12
  hex : ∀ c ∈ digits, isxdigit c = true

example : macText 58 (bytes "0a1b2c") = bytes "0a:1b:2c" := by decide

/-- `s` is the MAC address `digits`, unbroken or with `-` or `:` between its groups. -/
def IsMac (s digits : Bytes) : Prop :=
  MacDigits digits ∧ (s = digits ∨ ∃ e, (e = 45 ∨ e = 58) ∧ s = macText e digits)

section
variable {e c sep : Byte} {s d t u digits more : Bytes} {m : MacParse}

/-! ### The text of an address -/

/-- Between the groups stands nothing, `-` or `:`. -/
def IsMacSep (e : Byte) : Prop := e = 0 ∨ e = 45 ∨ e = 58

/-- What follows the first digit of a group. -/
def secondText (e : Byte) : Bytes → Bytes
  | [] => []
  | y :: more => y :: if more = [] then [] else sepText e ++ macText e more

/-- What follows a group. -/
def gapText (e : Byte) (more : Bytes) : Bytes := if more = [] then [] else sepText e ++ macText e more

theorem macText_cons (c : Byte) (more : Bytes) : macText e (c :: more) = c :: secondText e more := by
  match more with
  | [] => rfl
  | [y] => rfl
  | y :: z :: more => rfl

theorem secondText_cons (c : Byte) (more : Bytes) : secondText e (c :: more) = c :: gapText e more := rfl

/-- The groups, with `e` behind each of them. -/
def octets (e : Byte) : Bytes → Bytes
  | x :: y :: more => x :: y :: (sepText e ++ octets e more)
  | more => more

theorem octets_append_even (h : d.length % 2 = 0) : octets e (d ++ [c]) = octets e d ++ [c] := by
  induction d using List.twoStepInduction with
  | nil => rfl
  | singleton x => cases h
  | cons_cons x y d ih =>
    have hd : d.length % 2 = 0 := by
      rw [List.length_cons, List.length_cons] at h
      omega
    simp only [List.cons_append, octets, ih hd, List.append_assoc]

theorem octets_append_odd (h : d.length % 2 = 1) : octets e (d ++ [c]) = octets e d ++ c :: sepText e := by
  induction d using List.twoStepInduction with
  | nil => cases h
  | singleton x => simp [octets]
  | cons_cons x y d ih =>
    have hd : d.length % 2 = 1 := by
      rw [List.length_cons, List.length_cons] at h
      omega
    simp only [List.cons_append, octets, ih hd, List.append_assoc]

theorem macText_append_odd (h : d.length % 2 = 1) : macText e (d ++ [c]) = octets e d ++ [c] := by
  induction d using List.twoStepInduction with
  | nil => cases h
  | singleton x => rfl
  | cons_cons x y d ih =>
    have hd : d.length % 2 = 1 := by
      rw [List.length_cons, List.length_cons] at h
      omega
    cases d with
    | nil => cases hd
    | cons z d =>
      have hsplit : macText e (x :: y :: z :: d ++ [c]) = x :: y :: (sepText e ++ macText e (z :: d ++ [c])) := rfl
      rw [hsplit, ih hd]
      simp [octets]

theorem octets_length : (octets e d).length = d.length + d.length / 2 * (sepText e).length := by
  induction d using List.twoStepInduction with
  | nil => simp [octets]
  | singleton x => simp [octets]
  | cons_cons x y d ih =>
    have hhalf : (d.length + 1 + 1) / 2 = d.length / 2 + 1 := by omega
    simp only [octets, List.length_cons, List.length_append, ih, hhalf, Nat.add_mul]
    omega

theorem sepText_length : (sepText e).length = if e ≠ 0 then 1 else 0 := by
  by_cases he : e = 0 <;> simp [sepText, he]

/-! ### What a round keeps -/

/-- The text that is still to be read, when the digits `more` are still to come. -/
def MacState.awaited (e : Byte) (more : Bytes) : MacState → Bytes
  | .wantDigit1 => macText e more ++ [0]
  | .wantDigit2 => secondText e more ++ [0]
  | .wantDigit1OrSep => gapText e more ++ [0]
  | .wantSep => gapText e more ++ [0]
  | .wantEnd => gapText e more ++ [0]
  | .done => []
  | .invalid => []

/-- How many digits have been read. -/
def MacState.Place (expectSep : Byte) (n : Nat) : MacState → Prop
  | .wantDigit1 => n % 2 = 0 ∧ n < 12
  | .wantDigit2 => n % 2 = 1 ∧ n < 12
  | .wantDigit1OrSep => n = 2
  | .wantSep => n % 2 = 0 ∧ n < 12 ∧ 2 < n ∧ expectSep ≠ 0
  | .wantEnd => n = 12
  | .done => n = 12
  | .invalid => False

/-- The separator is known. -/
def MacState.Fixed (st : MacState) (n : Nat) : Prop := st ≠ .wantDigit1OrSep ∧ 2 ≤ n

/-- What the working buffer holds when the digits `d` have been read. -/
def stored (sep : Byte) (d : Bytes) : Bytes :=
  if d.length = 12 then macText sep (d.map tolower) else octets sep (d.map tolower)

/-- The digits `d` of `s` have been read, and `s` is an address if and only if what is awaited follows. -/
structure MacInv (sep : Byte) (s d : Bytes) (m : MacParse) : Prop where
  size : m.outbuf.length = 18
  written : m.outbuf.take m.ptr = stored sep d
  ptr : m.ptr = (stored sep d).length
  hex : ∀ c ∈ d, isxdigit c = true
  place : m.state.Place m.expectSep d.length
  isSep : IsMacSep m.expectSep
  unknown : ¬m.state.Fixed d.length → m.expectSep = 0
  terminated : m.state ≠ .done → ∃ t, 0 ∉ t ∧ m.macIn = t ++ [0]
  finished : m.state = .done → m.macIn = []
  accepts : ∀ e digits, IsMacSep e → MacDigits digits → (s = macText e digits ↔
    (m.state.Fixed d.length → e = m.expectSep) ∧ ∃ more, digits = d ++ more ∧ m.macIn = m.state.awaited e more)

/-- After any number of rounds. -/
def MacOutcome (sep : Byte) (s : Bytes) (m : MacParse) : Prop :=
  (m.state = .invalid ∧ ∀ digits e, MacDigits digits → IsMacSep e → s ≠ macText e digits) ∨ ∃ d, MacInv sep s d m

theorem stored_append_even (h : d.length % 2 = 0) (hlt : d.length < 12) :
    stored sep (d ++ [c]) = stored sep d ++ [tolower c] := by
  have hne : (d ++ [c]).length ≠ 12 := by
    rw [List.length_append, List.length_singleton]
    omega
  rw [stored, stored, if_neg hne, if_neg (by omega), List.map_append]
  exact octets_append_even (by rwa [List.length_map])

theorem stored_append_odd (h : d.length % 2 = 1) :
    stored sep (d ++ [c]) = octets sep (d.map tolower) ++ tolower c :: if d.length = 11 then [] else sepText sep := by
  have hmap : (d.map tolower).length % 2 = 1 := by rwa [List.length_map]
  have hiff : (d ++ [c]).length = 12 ↔ d.length = 11 := by
    rw [List.length_append, List.length_singleton]
    omega
  rw [stored, List.map_append, List.map_singleton]
  by_cases hlast : d.length = 11
  · rw [if_pos (hiff.mpr hlast), if_pos hlast, macText_append_odd hmap]
  · rw [if_neg (mt hiff.mp hlast), if_neg hlast, octets_append_odd hmap]

/-- The length of the text of some of the digits. -/
theorem stored_length (h : d.length ≠ 12) :
    (stored sep d).length = d.length + d.length / 2 * if sep ≠ 0 then 1 else 0 := by
  rw [stored, if_neg h, octets_length, List.length_map, sepText_length]

/-- The length of the text of an address. -/
theorem stored_length_twelve (h : d.length = 12) : (stored sep d).length = if sep ≠ 0 then 17 else 12 := by
  obtain ⟨d, c, rfl⟩ : ∃ d' c, d = d' ++ [c] := by
    rcases List.eq_nil_or_concat d with rfl | ⟨d, c, rfl⟩
    · cases h
    · exact ⟨d, c, List.concat_eq_append⟩
  have hd : d.length = 11 := by
    rw [List.length_append, List.length_singleton] at h
    omega
  rw [stored_append_odd (by omega), if_pos hd, List.length_append, octets_length, List.length_map, hd, sepText_length]
  split <;> rfl

theorem push_eq (h : m.ptr < m.outbuf.length) :
    m.push c = some { m with outbuf := m.outbuf.set m.ptr c, ptr := m.ptr + 1 } := if_pos h

theorem take_set_succ {buf : Bytes} {n : Nat} (h : n < buf.length) :
    (buf.set n c).take (n + 1) = buf.take n ++ [c] := by
  rw [List.take_add_one, List.take_set_of_le (Nat.le_refl n), List.getElem?_set_self h]
  rfl

/-- One more digit is read, in a text whose first byte is the first digit. -/
theorem awaits_digit {f g : Bytes → Bytes} (hcons : ∀ c more, f (c :: more) = c :: g more)
    (hlt : d.length < digits.length) :
    (∃ more, digits = d ++ more ∧ c :: u = f more ++ [0]) ↔ ∃ more, digits = d ++ [c] ++ more ∧ u = g more ++ [0] := by
  constructor
  · rintro ⟨more, rfl, hu⟩
    cases more with
    | nil => simp at hlt
    | cons c' more =>
      rw [hcons, List.cons_append] at hu
      cases hu
      exact ⟨more, by simp, rfl⟩
  · rintro ⟨more, rfl, rfl⟩
    exact ⟨c :: more, by simp, by rw [hcons]; rfl⟩

/-- What follows the byte that has been read. -/
theorem terminated_tail (h : ∃ t : Bytes, 0 ∉ t ∧ c :: u = t ++ [0]) (hc : c ≠ 0) : ∃ t, 0 ∉ t ∧ u = t ++ [0] := by
  obtain ⟨t, hzero, ht⟩ := h
  cases t with
  | nil =>
    cases ht
    exact absurd rfl hc
  | cons c' t =>
    cases ht
    exact ⟨t, fun hmem => hzero (List.mem_cons_of_mem _ hmem), rfl⟩

/-- Before the last digit there is room for another one. -/
theorem MacInv.room (h : MacInv sep s d m) (hlt : d.length < 12) : m.ptr < m.outbuf.length := by
  rw [h.size, h.ptr, stored_length (by omega)]
  split <;> omega

theorem ne_zero_of_isxdigit (h : isxdigit c = true) : c ≠ 0 := by
  rintro rfl
  cases h

theorem digit1_spec (h : MacInv sep s d { m with macIn := c :: m.macIn, state := .wantDigit1 }) :
    ∃ m', m.digit1 c = some m' ∧ m'.macIn = m.macIn ∧ MacOutcome sep s m' := by
  obtain ⟨heven, hlt⟩ : d.length % 2 = 0 ∧ d.length < 12 := h.place
  have hawaits : ∀ digits : Bytes, MacDigits digits → ∀ e : Byte,
      (∃ more, digits = d ++ more ∧ c :: m.macIn = macText e more ++ [0]) ↔
        ∃ more, digits = d ++ [c] ++ more ∧ m.macIn = secondText e more ++ [0] := by
    intro digits hdigits e
    exact awaits_digit macText_cons (by rw [hdigits.length]; exact hlt)
  by_cases hc : isxdigit c = true
  · have hptr : m.ptr < m.outbuf.length := h.room hlt
    refine ⟨{ m with outbuf := m.outbuf.set m.ptr (tolower c), ptr := m.ptr + 1, state := .wantDigit2 }, ?_, rfl,
      Or.inr ⟨d ++ [c], ?_⟩⟩
    · rw [MacParse.digit1, if_pos hc, push_eq hptr]
      rfl
    have hlen : (d ++ [c]).length = d.length + 1 := by simp
    constructor
    · exact List.length_set.trans h.size
    · rw [stored_append_even heven hlt]
      exact (take_set_succ hptr).trans (congrArg (· ++ [tolower c]) h.written)
    · rw [stored_append_even heven hlt, List.length_append]
      exact congrArg (· + 1) h.ptr
    · exact List.forall_mem_append.mpr ⟨h.hex, List.forall_mem_singleton.mpr hc⟩
    · rw [hlen]
      exact ⟨by omega, by omega⟩
    · exact h.isSep
    · intro hnot
      refine h.unknown fun hfixed => hnot ⟨nofun, ?_⟩
      rw [hlen]
      exact Nat.le_succ_of_le hfixed.2
    · exact fun _ => terminated_tail (h.terminated nofun) (ne_zero_of_isxdigit hc)
    · exact nofun
    · intro e digits he hdigits
      refine (h.accepts e digits he hdigits).trans (and_congr (imp_congr_left ?_) (hawaits digits hdigits e))
      rw [MacState.Fixed, MacState.Fixed, hlen]
      constructor
      · rintro ⟨-, h2⟩
        exact ⟨nofun, by omega⟩
      · rintro ⟨-, h2⟩
        exact ⟨nofun, by omega⟩
  · refine ⟨_, if_neg hc, rfl, Or.inl ⟨rfl, ?_⟩⟩
    intro digits e hdigits he hs
    obtain ⟨more, rfl, -⟩ := (hawaits _ hdigits e).mp ((h.accepts e digits he hdigits).mp hs).2
    exact hc (hdigits.hex c (by simp))

/-- The bytes that the case for `WANT_DIGIT_2` stores. -/
theorem digit2_stores (h : MacInv sep s d { m with macIn := c :: m.macIn, state := .wantDigit2 }) :
    ∃ outbuf ptr, ((m.push (tolower c)).bind fun m => if sep ≠ 0 ∧ m.ptr < 17 then m.push sep else some m) =
        some { m with outbuf := outbuf, ptr := ptr } ∧
      outbuf.length = 18 ∧ outbuf.take ptr = stored sep (d ++ [c]) ∧ ptr = (stored sep (d ++ [c])).length := by
  obtain ⟨hodd, hlt⟩ : d.length % 2 = 1 ∧ d.length < 12 := h.place
  have hsize : m.outbuf.length = 18 := h.size
  have hstored : stored sep d = octets sep (d.map tolower) := if_neg (by omega)
  have hptr : m.ptr = d.length + d.length / 2 * if sep ≠ 0 then 1 else 0 := by
    have hptr : m.ptr = (stored sep d).length := h.ptr
    rw [hptr, stored_length (by omega)]
  have hwritten : m.outbuf.take m.ptr = octets sep (d.map tolower) := by
    rw [← hstored]
    exact h.written
  have hroom : m.ptr < m.outbuf.length := h.room hlt
  rw [push_eq hroom, Option.bind_some]
  by_cases hmore : sep ≠ 0 ∧ m.ptr + 1 < 17
  · have hnot : d.length ≠ 11 := by
      rintro h11
      rw [hptr, h11, if_pos hmore.1] at hmore
      omega
    have hroom' : m.ptr + 1 < (m.outbuf.set m.ptr (tolower c)).length := by
      rw [List.length_set, hsize]
      omega
    have hsep : sepText sep = [sep] := if_neg hmore.1
    refine ⟨(m.outbuf.set m.ptr (tolower c)).set (m.ptr + 1) sep, m.ptr + 2, ?_, ?_, ?_, ?_⟩
    · rw [if_pos hmore, push_eq hroom']
    · rw [List.length_set, List.length_set, hsize]
    · rw [take_set_succ hroom', take_set_succ hroom, hwritten, stored_append_odd hodd, if_neg hnot, hsep]
      simp
    · rw [stored_append_odd hodd, if_neg hnot, hsep, ← hwritten, List.length_append, List.length_take]
      simp only [List.length_cons, List.length_nil]
      omega
  · have hnone : (if d.length = 11 then [] else sepText sep) = [] := by
      split
      · rfl
      · next h11 =>
        by_cases hz : sep = 0
        · exact if_pos hz
        · refine absurd ⟨hz, ?_⟩ hmore
          rw [hptr, if_pos hz]
          omega
    refine ⟨m.outbuf.set m.ptr (tolower c), m.ptr + 1, if_neg hmore, ?_, ?_, ?_⟩
    · rw [List.length_set, hsize]
    · rw [take_set_succ hroom, hwritten, stored_append_odd hodd, hnone]
    · rw [stored_append_odd hodd, hnone, ← hwritten, List.length_append, List.length_take]
      simp only [List.length_cons, List.length_nil]
      omega

/-- Where the second digit of a group leads. -/
def MacState.afterGroup (expectSep : Byte) (n : Nat) : MacState :=
  if n = 12 then .wantEnd else if 2 < n then if expectSep ≠ 0 then .wantSep else .wantDigit1 else .wantDigit1OrSep

theorem gapText_zero (more : Bytes) : gapText 0 more = macText 0 more := by
  cases more <;> rfl

/-- Without a separator, the digits stand unbroken. -/
theorem macText_zero (d : Bytes) : macText 0 d = d := by
  induction d using List.twoStepInduction with
  | nil => rfl
  | singleton x => rfl
  | cons_cons x y d ih =>
    rw [macText_cons, secondText_cons, gapText_zero, ih]

theorem isMac_iff : IsMac s d ↔ MacDigits d ∧ ∃ e, IsMacSep e ∧ s = macText e d := by
  refine and_congr_right fun _ => ?_
  constructor
  · rintro (hs | ⟨e, he, hs⟩)
    · exact ⟨0, Or.inl rfl, hs.trans (macText_zero d).symm⟩
    · exact ⟨e, Or.inr he, hs⟩
  · rintro ⟨e, rfl | he, hs⟩
    · exact Or.inl (hs.trans (macText_zero d))
    · exact Or.inr ⟨e, he, hs⟩

theorem afterGroup_spec (expectSep : Byte) {n : Nat} (heven : n % 2 = 0) (hpos : 0 < n) (hle : n ≤ 12) :
    (MacState.afterGroup expectSep n).Place expectSep n ∧ MacState.afterGroup expectSep n ≠ .done ∧
    ((MacState.afterGroup expectSep n).Fixed n ↔ 2 < n) ∧
    ∀ e more, (2 < n → e = expectSep) →
      (MacState.afterGroup expectSep n).awaited e more = gapText e more ++ [0] := by
  by_cases h12 : n = 12
  · rw [MacState.afterGroup, if_pos h12]
    exact ⟨h12, nofun, ⟨fun _ => by omega, fun _ => ⟨nofun, by omega⟩⟩, fun _ _ _ => rfl⟩
  · by_cases h2 : 2 < n
    · by_cases hsep : expectSep ≠ 0
      · rw [MacState.afterGroup, if_neg h12, if_pos h2, if_pos hsep]
        exact ⟨⟨heven, by omega, h2, hsep⟩, nofun, ⟨fun _ => h2, fun _ => ⟨nofun, by omega⟩⟩, fun _ _ _ => rfl⟩
      · rw [MacState.afterGroup, if_neg h12, if_pos h2, if_neg hsep]
        refine ⟨⟨heven, by omega⟩, nofun, ⟨fun _ => h2, fun _ => ⟨nofun, by omega⟩⟩, ?_⟩
        intro e more he
        rw [he h2, Classical.not_not.mp hsep, gapText_zero]
        rfl
    · rw [MacState.afterGroup, if_neg h12, if_neg h2]
      refine ⟨?_, nofun, ⟨fun hfixed => absurd rfl hfixed.1, fun h => absurd h h2⟩, fun _ _ _ => rfl⟩
      show n = 2
      omega

theorem digit2_spec (h : MacInv sep s d { m with macIn := c :: m.macIn, state := .wantDigit2 }) :
    ∃ m', m.digit2 sep c = some m' ∧ m'.macIn = m.macIn ∧ MacOutcome sep s m' := by
  obtain ⟨hodd, hlt⟩ : d.length % 2 = 1 ∧ d.length < 12 := h.place
  have haccepts : ∀ e digits, IsMacSep e → MacDigits digits → (s = macText e digits ↔
      (2 < d.length + 1 → e = m.expectSep) ∧ ∃ more, digits = d ++ [c] ++ more ∧ m.macIn = gapText e more ++ [0]) := by
    intro e digits he hdigits
    refine (h.accepts e digits he hdigits).trans (and_congr (imp_congr_left ?_) ?_)
    · constructor
      · rintro ⟨-, h2⟩
        exact Nat.lt_succ_of_le h2
      · exact fun h2 => ⟨nofun, Nat.le_of_lt_succ h2⟩
    · exact awaits_digit secondText_cons (by rw [hdigits.length]; exact hlt)
  by_cases hc : isxdigit c = true
  · obtain ⟨outbuf, ptr, hpush, hsize, hwritten, hptr⟩ := digit2_stores h
    have hlen : (d ++ [c]).length = d.length + 1 := by simp
    have hend : ptr = (if sep ≠ 0 then 17 else 12) ↔ d.length + 1 = 12 := by
      by_cases h12 : (d ++ [c]).length = 12
      · rw [hptr, stored_length_twelve h12]
        exact iff_of_true rfl (hlen ▸ h12)
      · rw [hptr, stored_length h12, hlen]
        split <;> omega
    have hfirst : d.length + 1 ≠ 12 → (ptr > (if sep ≠ 0 then 3 else 2) ↔ 2 < d.length + 1) := by
      intro h12
      rw [hptr, stored_length (by rw [hlen]; exact h12), hlen]
      split <;> omega
    refine ⟨{ m with outbuf := outbuf, ptr := ptr, state := .afterGroup m.expectSep (d.length + 1) }, ?_, rfl, ?_⟩
    · have hnext : (if ptr = (if sep ≠ 0 then 17 else 12) then .wantEnd
          else if ptr > (if sep ≠ 0 then 3 else 2) then if m.expectSep ≠ 0 then .wantSep else .wantDigit1
          else .wantDigit1OrSep) = MacState.afterGroup m.expectSep (d.length + 1) := by
        rw [MacState.afterGroup]
        by_cases h12 : d.length + 1 = 12
        · rw [if_pos (hend.mpr h12), if_pos h12]
        · simp only [if_neg (mt hend.mp h12), if_neg h12, hfirst h12]
      obtain ⟨m₁, hfirst, hsecond⟩ := Option.bind_eq_some_iff.mp hpush
      rw [MacParse.digit2, if_pos hc, hfirst, Option.bind_some, hsecond, Option.map_some, ← hnext]
    · refine Or.inr ⟨d ++ [c], ?_⟩
      obtain ⟨hplace, hdone, hfixed, hawaited⟩ := afterGroup_spec m.expectSep (n := d.length + 1) (by omega)
        (by omega) (by omega)
      rw [← hlen] at hplace hdone hfixed hawaited haccepts ⊢
      constructor
      · exact hsize
      · exact hwritten
      · exact hptr
      · exact List.forall_mem_append.mpr ⟨h.hex, List.forall_mem_singleton.mpr hc⟩
      · exact hplace
      · exact h.isSep
      · intro hnot
        refine h.unknown fun hfix => hnot (hfixed.mpr ?_)
        rw [hlen]
        exact Nat.lt_succ_of_le hfix.2
      · exact fun _ => terminated_tail (h.terminated nofun) (ne_zero_of_isxdigit hc)
      · exact fun heq => absurd heq hdone
      · intro e digits he hdigits
        rw [haccepts e digits he hdigits, hfixed]
        refine and_congr_right fun hsep => ?_
        simp only [hawaited e _ hsep]
  · refine ⟨_, if_neg hc, rfl, Or.inl ⟨rfl, ?_⟩⟩
    intro digits e hdigits he hs
    obtain ⟨more, rfl, -⟩ := ((haccepts e digits he hdigits).mp hs).2
    exact hc (hdigits.hex c (by simp))

/-- Between two groups stands the separator, or the next digit. -/
theorem gapText_cons (he : e ≠ 0) (hmore : more ≠ []) : gapText e more = e :: macText e more := by
  rw [gapText, if_neg hmore, sepText, if_neg he]
  rfl

/-- There are digits left to come. -/
theorem more_ne_nil (hdigits : MacDigits digits) (hsplit : digits = d ++ more) (hlt : d.length < 12) : more ≠ [] := by
  rintro rfl
  have hlen := hdigits.length
  rw [hsplit, List.append_nil] at hlen
  omega

/-- After twelve digits there are none. -/
theorem exists_more_iff (hdigits : MacDigits digits) (hlen : d.length = 12) {P : Bytes → Prop} :
    (∃ more, digits = d ++ more ∧ P more) ↔ digits = d ∧ P [] := by
  constructor
  · rintro ⟨more, rfl, hP⟩
    have hall := hdigits.length
    rw [List.length_append] at hall
    obtain rfl : more = [] := List.eq_nil_of_length_eq_zero (by omega)
    exact ⟨List.append_nil d, hP⟩
  · rintro ⟨rfl, hP⟩
    exact ⟨[], (List.append_nil _).symm, hP⟩

theorem sep_spec (h : MacInv sep s d { m with macIn := c :: m.macIn, state := .wantSep }) :
    MacOutcome sep s { m with state := if c = m.expectSep then .wantDigit1 else .invalid } := by
  obtain ⟨heven, hlt, h2, hsep⟩ : d.length % 2 = 0 ∧ d.length < 12 ∧ 2 < d.length ∧ m.expectSep ≠ 0 := h.place
  have haccepts : ∀ e digits, IsMacSep e → MacDigits digits → (s = macText e digits ↔ e = m.expectSep ∧
      ∃ more, digits = d ++ more ∧ c = m.expectSep ∧ m.macIn = macText e more ++ [0]) := by
    intro e digits he hdigits
    rw [h.accepts e digits he hdigits]
    have hfixed : MacState.Fixed .wantSep d.length := ⟨nofun, Nat.le_of_lt h2⟩
    rw [forall_prop_of_true hfixed]
    refine and_congr_right fun heq => exists_congr fun more => and_congr_right fun hsplit => ?_
    obtain rfl : e = m.expectSep := heq
    simp only [MacState.awaited, gapText_cons hsep (more_ne_nil hdigits hsplit hlt), List.cons_append, List.cons.injEq]
  by_cases hc : c = m.expectSep
  · rw [if_pos hc]
    refine Or.inr ⟨d, h.size, h.written, h.ptr, h.hex, ⟨heven, hlt⟩, h.isSep, ?_, ?_, nofun, ?_⟩
    · intro hnot
      exact absurd ⟨nofun, Nat.le_of_lt h2⟩ hnot
    · exact fun _ => terminated_tail (h.terminated nofun) (hc ▸ hsep)
    · intro e digits he hdigits
      rw [haccepts e digits he hdigits, forall_prop_of_true ⟨nofun, Nat.le_of_lt h2⟩]
      simp only [hc, true_and]
      rfl
  · rw [if_neg hc]
    refine Or.inl ⟨rfl, ?_⟩
    intro digits e hdigits he hs
    obtain ⟨-, more, -, heq, -⟩ := (haccepts e digits he hdigits).mp hs
    exact hc heq

theorem end_spec (h : MacInv sep s d { m with macIn := c :: m.macIn, state := .wantEnd }) :
    MacOutcome sep s { m with state := if c = 0 then .done else .invalid } := by
  have hlen : d.length = 12 := h.place
  have haccepts : ∀ e digits, IsMacSep e → MacDigits digits → (s = macText e digits ↔ e = m.expectSep ∧
      digits = d ∧ c :: m.macIn = [0]) := by
    intro e digits he hdigits
    rw [h.accepts e digits he hdigits, forall_prop_of_true ⟨nofun, by omega⟩, exists_more_iff hdigits hlen]
    rfl
  by_cases hc : c = 0
  · have hnil : m.macIn = [] := by
      obtain ⟨t, hzero, ht⟩ : ∃ t : Bytes, 0 ∉ t ∧ c :: m.macIn = t ++ [0] := h.terminated nofun
      cases t with
      | nil => exact (List.cons.inj ht).2
      | cons c' t =>
        obtain ⟨rfl, -⟩ := List.cons.inj ht
        exact absurd (hc ▸ List.mem_cons_self) hzero
    rw [if_pos hc]
    refine Or.inr ⟨d, h.size, h.written, h.ptr, h.hex, hlen, h.isSep, ?_, fun hne => absurd rfl hne, fun _ => hnil, ?_⟩
    · intro hnot
      exact absurd ⟨nofun, by omega⟩ hnot
    · intro e digits he hdigits
      rw [haccepts e digits he hdigits, forall_prop_of_true ⟨nofun, by omega⟩, exists_more_iff hdigits hlen, hc, hnil]
      exact and_congr_right fun _ => and_congr_right fun _ => iff_of_true rfl rfl
  · rw [if_neg hc]
    refine Or.inl ⟨rfl, ?_⟩
    intro digits e hdigits he hs
    obtain ⟨-, -, heq⟩ := (haccepts e digits he hdigits).mp hs
    exact hc (List.cons.inj heq).1

/-- Behind the first group, `rest` is where the second one begins, and the separator `x` is known. -/
theorem firstGap_inv {x : Byte} {rest : Bytes}
    (h : MacInv sep s d { m with macIn := c :: m.macIn, state := .wantDigit1OrSep }) (hsep : IsMacSep x)
    (hterm : ∃ t, 0 ∉ t ∧ rest = t ++ [0])
    (hawaits : ∀ e more, IsMacSep e → more ≠ [] → (∀ z ∈ more, isxdigit z = true) →
      (c :: m.macIn = gapText e more ++ [0] ↔ e = x ∧ rest = macText e more ++ [0])) :
    MacInv sep s d { m with macIn := rest, state := .wantDigit1, expectSep := x } := by
  have hlen : d.length = 2 := h.place
  have hfixed : MacState.Fixed .wantDigit1 d.length := ⟨nofun, Nat.le_of_eq hlen.symm⟩
  refine ⟨h.size, h.written, h.ptr, h.hex, ⟨by omega, by omega⟩, hsep, fun hnot => absurd hfixed hnot,
    fun _ => hterm, nofun, ?_⟩
  intro e digits he hdigits
  rw [h.accepts e digits he hdigits, forall_prop_of_true hfixed, forall_prop_of_false fun hno => hno.1 rfl, true_and,
    ← exists_and_left]
  refine exists_congr fun more => ?_
  rw [and_left_comm]
  refine and_congr_right fun hsplit => ?_
  exact hawaits e more he (more_ne_nil hdigits hsplit (by omega))
    fun z hz => hdigits.hex z (hsplit ▸ List.mem_append_right d hz)

/-- Behind the first group, `-` or `:` can only be the separator. -/
theorem firstGap_mark (h : MacInv sep s d { m with macIn := c :: m.macIn, state := .wantDigit1OrSep })
    (hc : c = 45 ∨ c = 58) : MacInv sep s d { m with state := .wantDigit1, expectSep := c } := by
  have hzero : c ≠ 0 := by
    rcases hc with rfl | rfl <;> decide
  have hnot : ¬isxdigit c = true := by
    rcases hc with rfl | rfl <;> decide
  refine firstGap_inv h (Or.inr hc) (terminated_tail (h.terminated nofun) hzero) ?_
  intro e more he hmore hhex
  by_cases hz : e = 0
  · subst hz
    refine iff_of_false ?_ fun hno => hzero hno.1.symm
    intro htext
    obtain ⟨z, more, rfl⟩ := List.exists_cons_of_ne_nil hmore
    simp only [gapText_zero, macText_cons, List.cons_append, List.cons.injEq] at htext
    exact hnot (htext.1 ▸ hhex z List.mem_cons_self)
  · simp only [gapText_cons hz hmore, List.cons_append, List.cons.injEq, eq_comm (a := c)]

/-- Anything else has to be a digit. -/
theorem firstGap_none (h : MacInv sep s d { m with macIn := c :: m.macIn, state := .wantDigit1OrSep })
    (hc : ¬(c = 45 ∨ c = 58)) : MacInv sep s d { m with macIn := c :: m.macIn, state := .wantDigit1 } := by
  have hsep : m.expectSep = 0 := h.unknown fun hno => hno.1 rfl
  refine firstGap_inv h h.isSep (h.terminated nofun) ?_
  rintro e more (rfl | hmark) hmore -
  · simp only [gapText_zero, hsep, true_and]
  · have hz : e ≠ 0 := by
      rcases hmark with rfl | rfl <;> decide
    refine iff_of_false ?_ fun hno => hz (hno.1.trans hsep)
    intro htext
    simp only [gapText_cons hz hmore, List.cons_append, List.cons.injEq] at htext
    exact hc (htext.1 ▸ hmark)

theorem round_spec (h : MacInv sep s d m) (hrun : m.running = true) :
    ∃ m', m.round sep = some m' ∧ MacOutcome sep s m' ∧ m'.macIn.length < m.macIn.length := by
  have hdone : m.state ≠ .done := (of_decide_eq_true hrun).2
  obtain ⟨t, hzero, ht⟩ := h.terminated hdone
  obtain ⟨macIn, outbuf, ptr, st, expectSep⟩ := m
  cases macIn with
  | nil => simp at ht
  | cons c rest =>
    cases st with
    | wantDigit1 =>
      obtain ⟨m', hm', hmem, hout⟩ := digit1_spec (m := ⟨rest, outbuf, ptr, .wantDigit1, expectSep⟩) h
      exact ⟨m', hm', hout, hmem ▸ Nat.lt_succ_self _⟩
    | wantDigit1OrSep =>
      by_cases hc : c = 45 ∨ c = 58
      · have hinv := firstGap_mark (m := ⟨rest, outbuf, ptr, .wantDigit1OrSep, expectSep⟩) h hc
        cases rest with
        | nil =>
          obtain ⟨u, -, hu⟩ := hinv.terminated nofun
          simp at hu
        | cons c' rest =>
          obtain ⟨m', hm', hmem, hout⟩ := digit1_spec (m := ⟨rest, outbuf, ptr, .wantDigit1OrSep, c⟩) hinv
          exact ⟨m', (if_pos hc).trans hm', hout, hmem ▸ Nat.lt_add_of_pos_right Nat.two_pos⟩
      · have hinv := firstGap_none (m := ⟨rest, outbuf, ptr, .wantDigit1OrSep, expectSep⟩) h hc
        obtain ⟨m', hm', hmem, hout⟩ := digit1_spec (m := ⟨rest, outbuf, ptr, .wantDigit1OrSep, expectSep⟩) hinv
        exact ⟨m', (if_neg hc).trans hm', hout, hmem ▸ Nat.lt_succ_self _⟩
    | wantDigit2 =>
      obtain ⟨m', hm', hmem, hout⟩ := digit2_spec (m := ⟨rest, outbuf, ptr, .wantDigit2, expectSep⟩) h
      exact ⟨m', hm', hout, hmem ▸ Nat.lt_succ_self _⟩
    | wantSep =>
      exact ⟨_, rfl, sep_spec (m := ⟨rest, outbuf, ptr, .wantSep, expectSep⟩) h, Nat.lt_succ_self _⟩
    | wantEnd =>
      exact ⟨_, rfl, end_spec (m := ⟨rest, outbuf, ptr, .wantEnd, expectSep⟩) h, Nat.lt_succ_self _⟩
    | invalid => exact h.place.elim
    | done => exact absurd rfl hdone

/-- At the beginning, nothing has been read. -/
theorem macInv_init {outbuf : Bytes} (hs : 0 ∉ s) (hbuf : outbuf.length = 18) :
    MacInv sep s [] ⟨s ++ [0], outbuf, 0, .wantDigit1, 0⟩ where
  size := hbuf
  written := rfl
  ptr := rfl
  hex := nofun
  place := ⟨rfl, Nat.succ_pos _⟩
  isSep := Or.inl rfl
  unknown _ := rfl
  terminated _ := ⟨s, hs, rfl⟩
  finished := nofun
  accepts e digits _ _ := by
    have hfree : ¬MacState.Fixed .wantDigit1 ([] : Bytes).length := fun hno => absurd hno.2 (by decide)
    rw [forall_prop_of_false hfree, true_and]
    constructor
    · rintro rfl
      exact ⟨digits, rfl, rfl⟩
    · rintro ⟨more, rfl, hs⟩
      exact List.append_cancel_right hs

/-- The loop ends, and tells the addresses from the other strings. -/
theorem macLoop_spec (sep : Byte) {outbuf : Bytes} (hs : 0 ∉ s) (hbuf : outbuf.length = 18) :
    ∃ m, whileLoop MacParse.running (MacParse.round sep) (s.length + 1) ⟨s ++ [0], outbuf, 0, .wantDigit1, 0⟩ = some m ∧
      ((m.state ≠ .done ∧ ¬∃ digits, IsMac s digits) ∨
        ∃ d, m.state = .done ∧ IsMac s d ∧ (∀ digits, IsMac s digits → digits = d) ∧ m.outbuf.length = 18 ∧
          m.outbuf.take (if sep ≠ 0 then 17 else 12) = macText sep (d.map tolower)) := by
  have hround : ∀ m, MacOutcome sep s m → m.running = true →
      ∃ m', m.round sep = some m' ∧ MacOutcome sep s m' ∧ m'.macIn.length < m.macIn.length := by
    rintro m (⟨hinvalid, -⟩ | ⟨d, hinv⟩) hrun
    · exact absurd hinvalid (of_decide_eq_true hrun).1
    · exact round_spec hinv hrun
  obtain ⟨m, hloop, hend, hout⟩ := whileLoop_spec (n := s.length + 1) _ _ hround
    (Or.inr ⟨[], macInv_init hs hbuf⟩) (by simp)
  refine ⟨m, hloop, ?_⟩
  rcases hout with ⟨hinvalid, hno⟩ | ⟨d, hinv⟩
  · refine Or.inl ⟨by rw [hinvalid]; nofun, ?_⟩
    rintro ⟨digits, hmac⟩
    obtain ⟨hdigits, e, he, hs⟩ := isMac_iff.mp hmac
    exact hno digits e hdigits he hs
  · have hdone : m.state = .done := by
      by_contra hne
      refine absurd (decide_eq_true ⟨?_, hne⟩) (Bool.eq_false_iff.mp hend)
      intro hinvalid
      have hplace := hinv.place
      rw [hinvalid] at hplace
      exact hplace
    have hlen : d.length = 12 := by
      have hplace := hinv.place
      rw [hdone] at hplace
      exact hplace
    have hdigits : MacDigits d := ⟨hlen, hinv.hex⟩
    have hmac : s = macText m.expectSep d := by
      refine (hinv.accepts m.expectSep d hinv.isSep hdigits).mpr ⟨fun _ => rfl, [], (List.append_nil d).symm, ?_⟩
      rw [hinv.finished hdone, hdone]
      rfl
    refine Or.inr ⟨d, hdone, isMac_iff.mpr ⟨hdigits, m.expectSep, hinv.isSep, hmac⟩, ?_, hinv.size, ?_⟩
    · intro digits hdigits'
      obtain ⟨hdigits', e, he, hs⟩ := isMac_iff.mp hdigits'
      exact ((exists_more_iff hdigits' hlen).mp ((hinv.accepts e digits he hdigits').mp hs).2).1
    · have hptr : m.ptr = if sep ≠ 0 then 17 else 12 := by rw [hinv.ptr, stored_length_twelve hlen]
      rw [← hptr, hinv.written, stored, if_pos hlen]

end

/-- Exactly the addresses are accepted. The digits of an address are stored in lower case, with `separator` between
    their groups and a zero byte behind them, and nothing is stored otherwise. -/
theorem nlParseMac_spec (s outbuf : Bytes) (macOut : Option Bytes) (separator : Byte) (hs : 0 ∉ s)
    (hbuf : outbuf.length = 18) (hroom : ∀ mem ∈ macOut, (if separator ≠ 0 then 18 else 13) ≤ mem.length) :
    ∃ r mem, nlParseMac (some s) macOut separator outbuf = some (r, mem) ∧ (r = 0 ↔ ∃ digits, IsMac s digits) ∧
      (∀ digits, IsMac s digits →
        (macText separator (digits.map tolower) ++ [0]).length = (if separator ≠ 0 then 18 else 13) ∧
        mem = macOut.map fun mem =>
          macText separator (digits.map tolower) ++ [0] ++ mem.drop (if separator ≠ 0 then 18 else 13)) ∧
      ((¬∃ digits, IsMac s digits) → r = -22 ∧ mem = macOut) := by
  obtain ⟨m, hloop, hend⟩ := macLoop_spec separator hs hbuf
  rcases hend with ⟨hne, hno⟩ | ⟨d, hdone, hmac, hunique, hsize, hwritten⟩
  · refine ⟨-22, macOut, ?_, iff_of_false (by decide) hno, ?_, fun _ => ⟨rfl, rfl⟩⟩
    · simp only [nlParseMac, hloop, Option.bind_some, if_neg hne]
    · exact fun digits hmac => absurd ⟨digits, hmac⟩ hno
  · have hstop : (if separator ≠ 0 then 17 else 12) + 1 = if separator ≠ 0 then 18 else 13 := by
      split <;> rfl
    have hlt : (if separator ≠ 0 then 17 else 12) < m.outbuf.length := by
      rw [hsize]
      split <;> decide
    have hlen : (macText separator (d.map tolower) ++ [0]).length = if separator ≠ 0 then 18 else 13 := by
      rw [← hwritten, List.length_append, List.length_take, Nat.min_eq_left (Nat.le_of_lt hlt)]
      exact hstop
    refine ⟨0, macOut.map fun mem => macText separator (d.map tolower) ++ [0] ++
      mem.drop (if separator ≠ 0 then 18 else 13), ?_, iff_of_true rfl ⟨d, hmac⟩, ?_, fun hno => absurd ⟨d, hmac⟩ hno⟩
    · simp only [nlParseMac, hloop, Option.bind_some, if_pos hdone]
      cases macOut with
      | none => rfl
      | some mem =>
        have hmem : (if separator ≠ 0 then 17 else 12) < mem.length := by
          rw [Nat.lt_iff_add_one_le, hstop]
          exact hroom mem rfl
        have htake : (m.outbuf.set (if separator ≠ 0 then 17 else 12) 0).take (if separator ≠ 0 then 18 else 13) =
            macText separator (d.map tolower) ++ [0] := by
          rw [← hstop, take_set_succ hlt, hwritten]
        simp only [if_pos (And.intro hlt hmem), hstop, htake, Option.map_some]
    · intro digits hdigits
      obtain rfl := hunique digits hdigits
      exact ⟨hlen, rfl⟩

/-- An address in the one style is stored in the other. -/
theorem nlParseMac_dashes : ∃ r mem,
    nlParseMac (some (bytes "F0-f0-F0-ab-Cd-eF")) (some (List.replicate 20 7)) 58 (List.replicate 18 9) =
        some (r, mem) ∧
      (r = 0 ↔ ∃ digits, IsMac (bytes "F0-f0-F0-ab-Cd-eF") digits) ∧
      (∀ digits, IsMac (bytes "F0-f0-F0-ab-Cd-eF") digits →
        (macText 58 (digits.map tolower) ++ [0]).length = 18 ∧
        mem = some (macText 58 (digits.map tolower) ++ [0] ++ [7, 7])) ∧
      ((¬∃ digits, IsMac (bytes "F0-f0-F0-ab-Cd-eF") digits) → r = -22 ∧ mem = some (List.replicate 20 7)) :=
  nlParseMac_spec (bytes "F0-f0-F0-ab-Cd-eF") (List.replicate 18 9) (some (List.replicate 20 7)) 58
    (by simp [bytes]) (by decide) (by
      intro mem hmem
      cases hmem
      decide)

end Nlutils
