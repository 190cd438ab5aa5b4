import Nlutils.Escape
import Nlutils.Lib.While

/-! # The buffer of `nl_unescape_string`

`nl_unescape_string` reads and writes one buffer. It is modelled here with that buffer, which is no longer than the
string and its zero byte; the string that it is compared with is unescaped from a copy that nothing is written to. -/

namespace Nlutils
open Lib

/-- The buffer, the indices that `write` and `str` have in it, the count, and whether the loop has been left at the end
    of an escape that the string ends in. -/
structure Unescape where
  buf : Bytes
  write : Nat := 0
  str : Nat := 0
  count : Nat := 0
  left : Bool := false
  deriving DecidableEq, Repr

/-- What has been read; the character after `str` is the zero byte when the loop has been left. -/
def Unescape.read (u : Unescape) : Nat := if u.left then u.str + 1 else u.str

def store (buf : Bytes) (i : Nat) (c : Byte) : Option Bytes := if i < buf.length then some (buf.set i c) else none

/-- There is no result where the `int` overflows. -/
def addCount (count n : Nat) : Option Nat := if count + n < 2 ^ 31 then some (count + n) else none

/-- `*write++ = *str++` -/
def Unescape.copy (u : Unescape) : Option Unescape := do
  let c ← u.buf[u.str]?
  let buf ← store u.buf u.write c
  some { u with buf, write := u.write + 1, str := u.str + 1 }

/-- Writes one character for `n` of the string. -/
def Unescape.replace (c : Byte) (n : Nat) (u : Unescape) : Option Unescape := do
  let count ← addCount u.count (n - 1)
  let buf ← store u.buf u.write c
  some { u with buf, write := u.write + 1, str := u.str + n, count }

/-- Writes nothing for `n` characters of the string. -/
def Unescape.remove (n : Nat) (u : Unescape) : Option Unescape := do
  let count ← addCount u.count n
  some { u with str := u.str + n, count }

/-- A hexadecimal escape of value `v` that is `n` characters long. -/
def Unescape.hexEscape (includeZero : Bool) (v : Byte) (n : Nat) (u : Unescape) : Option Unescape :=
  if v ≠ 0 ∨ includeZero then u.replace v n else u.remove n

/-- An escape that is not in the table. -/
def Unescape.unknownEscape (u : Unescape) : Option Unescape := do
  let v ← u.copy
  let v ← v.copy
  let d ← v.buf[u.str + 1]?
  if d = 0 then some { v with write := u.write + 1, str := u.str, left := true } else some v

/-- A round of the main loop. -/
def Unescape.round (includeZero dequote : Bool) (u : Unescape) : Option Unescape := do
  let c ← u.buf[u.str]?
  if c = escapeChar then
    let d ← u.buf[u.str + 1]?
    if d = 120 then
      let h ← u.buf[u.str + 2]?
      if isxdigit h then
        let l ← u.buf[u.str + 3]?
        if isxdigit l then u.hexEscape includeZero (hexDigit h * 16 + hexDigit l) 4
        else u.hexEscape includeZero (hexDigit h) 3
      else u.copy.bind Unescape.copy
    else if getOriginal d = 0 then u.unknownEscape
    else u.replace (getOriginal d) 2
  else if dequote ∧ c = 34 then
    let d ← u.buf[u.str + 1]?
    if d = 0 then u.remove 1 else u.copy
  else u.copy

/-- Where the character cannot be loaded, the loop goes on to the round that has no result. -/
def Unescape.more (u : Unescape) : Bool := !u.left && u.buf[u.str]?.all (· != 0)

/-- The loop that goes to the first escape character or quotation mark. -/
def Unescape.skipMore (dequote : Bool) (u : Unescape) : Bool :=
  u.buf[u.str]?.all fun c => c != escapeChar && c != 0 && !(dequote && c == 34)

def Unescape.skipRound (dequote : Bool) (u : Unescape) : Option Unescape := do
  let _ ← u.buf[u.str]?
  if dequote then u.copy else some { u with write := u.write + 1, str := u.str + 1 }

/-- Whether quotation marks are to be removed, and where the loops start; they do not where the string is left as it
    is. -/
def unescapeStart (str : Bytes) (mode : UnescapeDequote) : Option (Bool × Unescape) :=
  if mode = .noDequote then some (false, { buf := str ++ [0] })
  else if str.at 0 = 34 then some (true, { buf := str ++ [0], str := 1, count := 1 })
  else if mode = .ifQuoted then none
  else some (false, { buf := str ++ [0] })

/-- The result and the buffer, for a parameter that is not NULL. -/
def nlUnescapeStringInPlace (str : Bytes) (includeZero : Bool) (mode : UnescapeDequote) : Option (Int × Bytes) :=
  match unescapeStart str mode with
  | none => some (0, str ++ [0])
  | some (dequote, u) => do
    let u ← whileLoop (Unescape.skipMore dequote) (Unescape.skipRound dequote) u.buf.length u
    let u ← whileLoop Unescape.more (Unescape.round includeZero dequote) u.buf.length u
    let buf ← store u.buf u.write 0
    some (u.count, buf)

section
variable {str out gap rest a tail buf : Bytes} {c d v : Byte} {includeZero dequote : Bool} {mode : UnescapeDequote}
  {u : Unescape} {T : Bytes × Nat} {n : Nat}

/-! ### The buffer -/

/-- The buffer holds what has been written, as many characters as have been removed, and what has not been read. -/
structure Unescaping (str : Bytes) (u : Unescape) (out gap rest : Bytes) : Prop where
  buf : u.buf = out ++ (gap ++ (rest ++ [0]))
  write : u.write = out.length
  read : u.read = out.length + gap.length
  count : u.count = gap.length
  split : ∃ done, str = done ++ rest ∧ done.length = u.read
  left : u.left = true → rest = []

theorem read_of_left (hl : u.left = false) : u.read = u.str := by simp [Unescape.read, hl]

theorem Unescaping.str_eq (U : Unescaping str u out gap rest) (hl : u.left = false) :
    u.str = out.length + gap.length := read_of_left hl ▸ U.read

/-- While the loop has not been left. -/
theorem Unescaping.of_left (hl : u.left = false) (hbuf : u.buf = out ++ (gap ++ (rest ++ [0])))
    (hwrite : u.write = out.length) (hstr : u.str = out.length + gap.length) (hcount : u.count = gap.length)
    (hsplit : ∃ done, str = done ++ rest ∧ done.length = u.str) : Unescaping str u out gap rest := by
  have hread := read_of_left hl
  exact ⟨hbuf, hwrite, hread.trans hstr, hcount, by rwa [hread], by simp [hl]⟩

/-- A character after `str`; the one after the last is the zero byte. -/
theorem Unescaping.load (U : Unescaping str u out gap rest) (hl : u.left = false) {i : Nat} (hi : i ≤ rest.length) :
    u.buf[u.str + i]? = some (rest.at i) := by
  rw [U.buf, U.str_eq hl, ← List.append_assoc, ← List.length_append, List.getElem?_append_right (Nat.le_add_right _ _),
    Nat.add_sub_cancel_left, Bytes.at, List.getD_eq_getElem?_getD]
  by_cases hlt : i < rest.length
  · rw [List.getElem?_append_left hlt, List.getElem?_eq_getElem hlt]
    rfl
  · obtain rfl : i = rest.length := by omega
    simp

/-- Writing over the first of the characters that are not kept. -/
theorem store_append (h : gap ≠ []) :
    store (out ++ (gap ++ tail)) out.length v = some (out ++ [v] ++ (gap.tail ++ tail)) := by
  obtain ⟨g, gap, rfl⟩ := List.exists_cons_of_ne_nil h
  have hlt : out.length < (out ++ (g :: gap ++ tail)).length := by simp
  rw [store, if_pos hlt, List.set_append_right _ _ (Nat.le_refl _), Nat.sub_self]
  simp

theorem copy_append (hbuf : u.buf = out ++ (gap ++ c :: tail)) (hwrite : u.write = out.length)
    (hstr : u.str = out.length + gap.length) :
    u.copy = some { u with
      buf := out ++ [c] ++ ((gap ++ [c]).tail ++ tail), write := u.write + 1, str := u.str + 1 } := by
  have hload : u.buf[u.str]? = some c := by
    rw [hbuf, hstr, ← List.append_assoc, ← List.length_append, List.getElem?_append_right (Nat.le_refl _), Nat.sub_self]
    rfl
  have hstore : store u.buf u.write c = some (out ++ [c] ++ ((gap ++ [c]).tail ++ tail)) := by
    have hsplit : out ++ (gap ++ c :: tail) = out ++ (gap ++ [c] ++ tail) := by simp
    rw [hbuf, hwrite, hsplit]
    exact store_append (by simp)
  rw [Unescape.copy, hload]
  simp [hstore]

/-- What has been read grows by what the unread part loses. -/
theorem split_append (h : ∃ done, str = done ++ (a ++ rest) ∧ done.length = n) :
    ∃ done, str = done ++ rest ∧ done.length = n + a.length := by
  obtain ⟨done, rfl, rfl⟩ := h
  exact ⟨done ++ a, by simp, by simp⟩

theorem Unescaping.copy (U : Unescaping str u out gap (c :: rest)) (hl : u.left = false) :
    ∃ u', u.copy = some u' ∧ Unescaping str u' (out ++ [c]) (gap ++ [c]).tail rest ∧ u'.left = false := by
  have hstr := U.str_eq hl
  refine ⟨_, copy_append U.buf U.write hstr, .of_left hl rfl ?_ ?_ ?_ ?_, hl⟩
  · simp [U.write]
  · simp [hstr]
    omega
  · simp [U.count]
  · exact split_append (a := [c]) (read_of_left hl ▸ U.split)

/-- The loop is on its way to `T`. -/
def Towards (str : Bytes) (includeZero dequote : Bool) (T : Bytes × Nat) (u : Unescape) (rest : Bytes) : Prop :=
  ∃ out gap, Unescaping str u out gap rest ∧ addBytes out gap.length (unescapeLoop includeZero dequote rest) = T

theorem Towards.copy (H : Towards str includeZero dequote T u (c :: rest)) (hl : u.left = false)
    (heq : unescapeLoop includeZero dequote (c :: rest) = addBytes [c] 0 (unescapeLoop includeZero dequote rest)) :
    ∃ u', u.copy = some u' ∧ Towards str includeZero dequote T u' rest ∧ u'.left = false := by
  obtain ⟨out, gap, U, hT⟩ := H
  obtain ⟨u', hu', U', hl'⟩ := U.copy hl
  refine ⟨u', hu', ⟨_, _, U', ?_⟩, hl'⟩
  rw [← hT, heq, addBytes_addBytes]
  simp

theorem Towards.copyTwo (H : Towards str includeZero dequote T u (c :: d :: rest)) (hl : u.left = false)
    (heq : unescapeLoop includeZero dequote (c :: d :: rest) =
      addBytes [c, d] 0 (unescapeLoop includeZero dequote rest)) :
    ∃ v u', u.copy = some v ∧ v.copy = some u' ∧ Towards str includeZero dequote T u' rest ∧ u'.left = false := by
  obtain ⟨out, gap, U, hT⟩ := H
  obtain ⟨v, hv, V, hlv⟩ := U.copy hl
  obtain ⟨u', hu', U', hl'⟩ := V.copy hlv
  refine ⟨v, u', hv, hu', ⟨_, _, U', ?_⟩, hl'⟩
  rw [← hT, heq, addBytes_addBytes]
  simp

theorem addCount_of_lt {count n : Nat} (h : count + n < 2 ^ 31) : addCount count n = some (count + n) := if_pos h

theorem Towards.replace (H : Towards str includeZero dequote T u (a ++ rest)) (hl : u.left = false) (ha : a ≠ [])
    (hlt : T.2 < 2 ^ 31) (heq : unescapeLoop includeZero dequote (a ++ rest) =
      addBytes [v] (a.length - 1) (unescapeLoop includeZero dequote rest)) :
    ∃ u', u.replace v a.length = some u' ∧ Towards str includeZero dequote T u' rest ∧ u'.left = false := by
  obtain ⟨out, gap, U, hT⟩ := H
  rw [heq, addBytes_addBytes] at hT
  have hcount : addCount u.count (a.length - 1) = some (gap.length + (a.length - 1)) := by
    rw [U.count]
    refine addCount_of_lt ?_
    rw [← hT] at hlt
    exact Nat.lt_of_le_of_lt (Nat.le_add_right _ _) hlt
  have hstore : store u.buf u.write v = some (out ++ [v] ++ ((gap ++ a).tail ++ (rest ++ [0]))) := by
    rw [U.buf, U.write]
    have hsplit : gap ++ (a ++ rest ++ [0]) = gap ++ a ++ (rest ++ [0]) := by simp
    rw [hsplit]
    exact store_append (by simp [ha])
  have hlen := List.length_pos_iff.mpr ha
  have htail : (gap ++ a).tail.length = gap.length + (a.length - 1) := by
    rw [List.length_tail, List.length_append]
    omega
  have hstr := U.str_eq hl
  have hreplace : u.replace v a.length = some { u with
      buf := out ++ [v] ++ ((gap ++ a).tail ++ (rest ++ [0])), write := u.write + 1, str := u.str + a.length,
      count := gap.length + (a.length - 1) } := by
    simp [Unescape.replace, hcount, hstore]
  refine ⟨_, hreplace, ⟨_, _, .of_left hl rfl ?_ ?_ htail.symm ?_, by rw [htail]; exact hT⟩, hl⟩
  · simp [U.write]
  · simp only [hstr, htail, List.length_append, List.length_singleton]
    omega
  · exact split_append (read_of_left hl ▸ U.split)

theorem Towards.remove (H : Towards str includeZero dequote T u (a ++ rest)) (hl : u.left = false)
    (hlt : T.2 < 2 ^ 31) (heq : unescapeLoop includeZero dequote (a ++ rest) =
      addBytes [] a.length (unescapeLoop includeZero dequote rest)) :
    ∃ u', u.remove a.length = some u' ∧ Towards str includeZero dequote T u' rest ∧ u'.left = false := by
  obtain ⟨out, gap, U, hT⟩ := H
  rw [heq, addBytes_addBytes, List.append_nil] at hT
  have hcount : addCount u.count a.length = some (gap.length + a.length) := by
    rw [U.count]
    refine addCount_of_lt ?_
    rw [← hT] at hlt
    exact Nat.lt_of_le_of_lt (Nat.le_add_right _ _) hlt
  have hstr := U.str_eq hl
  have hremove : u.remove a.length = some { u with str := u.str + a.length, count := gap.length + a.length } := by
    simp [Unescape.remove, hcount]
  refine ⟨_, hremove, ⟨out, gap ++ a, .of_left hl ?_ U.write ?_ ?_ ?_, by simpa using hT⟩, hl⟩
  · simp [U.buf]
  · simp only [hstr, List.length_append]
    omega
  · simp
  · exact split_append (read_of_left hl ▸ U.split)

theorem Towards.hexEscape (H : Towards str includeZero dequote T u (a ++ rest)) (hl : u.left = false) (ha : a ≠ [])
    (hlt : T.2 < 2 ^ 31) (heq : unescapeLoop includeZero dequote (a ++ rest) =
      addHex includeZero v a.length (unescapeLoop includeZero dequote rest)) :
    ∃ u', u.hexEscape includeZero v a.length = some u' ∧ Towards str includeZero dequote T u' rest ∧
      u'.left = false := by
  unfold Unescape.hexEscape
  unfold addHex at heq
  split
  · next hv =>
    rw [if_pos hv] at heq
    exact H.replace hl ha hlt heq
  · next hv =>
    rw [if_neg hv] at heq
    exact H.remove hl hlt heq

/-- Two copies: the second character is also where it has been read. -/
theorem copy_copy (hbuf : u.buf = out ++ (gap ++ c :: d :: tail)) (hwrite : u.write = out.length)
    (hstr : u.str = out.length + gap.length) :
    ∃ v w gap', u.copy = some v ∧ v.copy = some w ∧ gap'.length = gap.length ∧ w.buf[u.str + 1]? = some d ∧
      w = { u with buf := out ++ [c] ++ (gap' ++ d :: tail), write := u.write + 2, str := u.str + 2 } := by
  have hgap : ∃ gap', d :: ((gap ++ [c]).tail ++ [d]).tail = gap' ++ [d] ∧ gap'.length = gap.length := by
    have hlen : (gap ++ [c]).tail.length = gap.length := by simp
    generalize (gap ++ [c]).tail = g at hlen ⊢
    cases g with
    | nil => exact ⟨[], rfl, hlen⟩
    | cons g gs => exact ⟨d :: gs, rfl, hlen⟩
  obtain ⟨gap', hgap, hlen⟩ := hgap
  have hfirst := copy_append hbuf hwrite hstr
  have hsecond : Unescape.copy { u with
        buf := out ++ [c] ++ ((gap ++ [c]).tail ++ d :: tail), write := u.write + 1, str := u.str + 1 } =
      some { u with buf := out ++ [c] ++ (gap' ++ d :: tail), write := u.write + 2, str := u.str + 2 } := by
    have hsplit : out ++ [c] ++ (gap' ++ d :: tail) =
        out ++ [c] ++ [d] ++ (((gap ++ [c]).tail ++ [d]).tail ++ tail) := by
      rw [List.append_assoc _ [d], List.singleton_append, ← List.cons_append, hgap]
      simp
    rw [hsplit]
    refine copy_append rfl ?_ ?_
    · simp [hwrite]
    · simp [hstr]
      omega
  have hload : (out ++ [c] ++ (gap' ++ d :: tail))[u.str + 1]? = some d := by
    have hidx : u.str + 1 = (out ++ [c] ++ gap').length := by
      rw [hstr, List.length_append, List.length_append, hlen, List.length_singleton]
      omega
    rw [← List.append_assoc, hidx]
    simp
  exact ⟨_, _, gap', hfirst, hsecond, hlen, hload, rfl⟩

/-- A backslash at the end of the string: the zero byte is copied as well, and the loop is left. -/
theorem Towards.unknownEscape_end (H : Towards str includeZero dequote T u [escapeChar]) (hl : u.left = false) :
    ∃ u', u.unknownEscape = some u' ∧ Towards str includeZero dequote T u' [] := by
  obtain ⟨out, gap, U, hT⟩ := H
  have hstr := U.str_eq hl
  obtain ⟨v, w, gap', hv, hw, hlen, hload, rfl⟩ := copy_copy U.buf U.write hstr
  refine ⟨{ u with buf := out ++ [escapeChar] ++ (gap' ++ [0]), write := u.write + 1, left := true }, ?_,
    out ++ [escapeChar], gap', ⟨rfl, by simp [U.write], ?_, by rw [hlen, U.count], ?_, fun _ => rfl⟩, ?_⟩
  · simp only [Unescape.unknownEscape, hv, hw, hload, Option.bind_eq_bind, Option.bind_some, if_true]
  · simp [Unescape.read, hstr, hlen]
    omega
  · obtain ⟨done, hdone, hlen⟩ := read_of_left hl ▸ U.split
    exact ⟨done ++ [escapeChar], by rw [hdone, List.append_nil], by simp [Unescape.read, hlen]⟩
  · rw [← hT, hlen]
    simp [unescapeLoop, addBytes]

/-- Another escape that is not in the table. -/
theorem Towards.unknownEscape (H : Towards str includeZero dequote T u (escapeChar :: d :: rest)) (hl : u.left = false)
    (hx : d ≠ 120) (ho : getOriginal d = 0) (hd : d ≠ 0) :
    ∃ u', u.unknownEscape = some u' ∧ Towards str includeZero dequote T u' rest := by
  obtain ⟨v, w, hv, hw, H', -⟩ := H.copyTwo hl (unescapeLoop_unknown hx ho)
  obtain ⟨out, gap, U, -⟩ := H
  obtain ⟨v', w', gap', hv', hw', -, hload, -⟩ := copy_copy U.buf U.write (U.str_eq hl)
  obtain rfl := Option.some.inj (hv.symm.trans hv')
  obtain rfl := Option.some.inj (hw.symm.trans hw')
  refine ⟨w, ?_, H'⟩
  simp only [Unescape.unknownEscape, hv, hw, hload, Option.bind_eq_bind, Option.bind_some, if_neg hd]

/-! ### The rounds -/

theorem Towards.load (H : Towards str includeZero dequote T u rest) (hl : u.left = false) {i : Nat}
    (hi : i ≤ rest.length) : u.buf[u.str + i]? = some (rest.at i) := by
  obtain ⟨out, gap, U, -⟩ := H
  exact U.load hl hi

/-- A round at a hexadecimal escape. -/
theorem Towards.round_hex (H : Towards str includeZero dequote T u (escapeChar :: 120 :: rest)) (hl : u.left = false)
    (hlt : T.2 < 2 ^ 31) :
    ∃ u' rest', u.round includeZero dequote = some u' ∧ Towards str includeZero dequote T u' rest' ∧
      rest'.length ≤ rest.length := by
  have heq := @unescapeLoop_hexEscape includeZero dequote rest
  have hc : u.buf[u.str]? = some escapeChar := H.load hl (Nat.zero_le _)
  have hd : u.buf[u.str + 1]? = some 120 := H.load hl (by simp)
  have hh : u.buf[u.str + 2]? = some (Bytes.at rest 0) := H.load hl (by simp)
  by_cases hx : isxdigit (Bytes.at rest 0) = true
  · obtain ⟨h, rest, rfl, hat⟩ := exists_cons_of_at (fun h0 => by rw [h0] at hx; cases hx)
    have hload : u.buf[u.str + 3]? = some (Bytes.at rest 0) := H.load hl (by simp)
    have hat1 : Bytes.at (h :: rest) 1 = Bytes.at rest 0 := rfl
    rw [if_pos hx, hat, hat1] at heq
    rw [hat] at hx hh
    by_cases hy : isxdigit (Bytes.at rest 0) = true
    · obtain ⟨l, rest, rfl, hatl⟩ := exists_cons_of_at (fun h0 => by rw [h0] at hy; cases hy)
      rw [if_pos hy, hatl] at heq
      rw [hatl] at hy hload
      obtain ⟨u', hu', H', -⟩ := Towards.hexEscape (a := [escapeChar, 120, h, l]) H hl (by simp) hlt heq
      refine ⟨u', rest, ?_, H', by simp; omega⟩
      simp only [Unescape.round, hc, hd, hh, hload, Option.bind_eq_bind, Option.bind_some, if_true, if_pos hx,
        if_pos hy]
      exact hu'
    · rw [if_neg hy] at heq
      obtain ⟨u', hu', H', -⟩ := Towards.hexEscape (a := [escapeChar, 120, h]) H hl (by simp) hlt heq
      refine ⟨u', rest, ?_, H', by simp⟩
      simp only [Unescape.round, hc, hd, hh, hload, Option.bind_eq_bind, Option.bind_some, if_true, if_pos hx,
        if_neg hy]
      exact hu'
  · rw [if_neg hx] at heq
    obtain ⟨v, u', hv, hu', H', -⟩ := H.copyTwo hl heq
    refine ⟨u', rest, ?_, H', Nat.le_refl _⟩
    simp only [Unescape.round, hc, hd, hh, hv, Option.bind_eq_bind, Option.bind_some, if_true, if_neg hx]
    exact hu'

/-- A round brings the loop forward. -/
theorem Towards.round (H : Towards str includeZero dequote T u rest) (hl : u.left = false) (hz : 0 ∉ rest)
    (hne : rest ≠ []) (hlt : T.2 < 2 ^ 31) :
    ∃ u' rest', u.round includeZero dequote = some u' ∧ Towards str includeZero dequote T u' rest' ∧
      rest'.length < rest.length := by
  obtain ⟨c, rest, rfl⟩ := List.exists_cons_of_ne_nil hne
  have hc : u.buf[u.str]? = some c := H.load hl (Nat.zero_le _)
  have hd : u.buf[u.str + 1]? = some (Bytes.at rest 0) := H.load hl (by simp)
  by_cases hesc : c = escapeChar
  · subst hesc
    by_cases hx : Bytes.at rest 0 = 120
    · obtain ⟨rest, rfl⟩ := eq_cons_of_at hx (by decide)
      obtain ⟨u', rest', hu', H', hlen⟩ := H.round_hex hl hlt
      exact ⟨u', rest', hu', H', by simp; omega⟩
    · by_cases ho : getOriginal (Bytes.at rest 0) = 0
      · have hround : u.round includeZero dequote = u.unknownEscape := by
          simp only [Unescape.round, hc, hd, Option.bind_eq_bind, Option.bind_some, if_true, if_neg hx, if_pos ho]
        rw [hround]
        cases rest with
        | nil =>
          obtain ⟨u', hu', H'⟩ := H.unknownEscape_end hl
          exact ⟨u', [], hu', H', by simp⟩
        | cons d rest =>
          have hd0 : d ≠ 0 := fun h0 => hz (by simp [h0])
          obtain ⟨u', hu', H'⟩ := H.unknownEscape hl hx ho hd0
          exact ⟨u', rest, hu', H', Nat.lt_succ_of_lt (Nat.lt_succ_self _)⟩
      · obtain ⟨d, rest, rfl, hat⟩ := exists_cons_of_at (fun h0 => ho (by rw [h0]; rfl))
        rw [hat] at hx ho hd
        obtain ⟨u', hu', H', -⟩ := Towards.replace (a := [escapeChar, d]) H hl (by simp) hlt (unescapeLoop_escape hx ho)
        refine ⟨u', rest, ?_, H', Nat.lt_succ_of_lt (Nat.lt_succ_self _)⟩
        simp only [Unescape.round, hc, hd, Option.bind_eq_bind, Option.bind_some, if_true, if_neg hx, if_neg ho]
        exact hu'
  · by_cases hq : dequote = true ∧ c = 34
    · by_cases hlast : Bytes.at rest 0 = 0
      · have hnil : rest = [] := by
          cases rest with
          | nil => rfl
          | cons d rest =>
            obtain rfl : d = 0 := hlast
            exact absurd (by simp) hz
        subst hnil
        obtain ⟨rfl, rfl⟩ := hq
        obtain ⟨u', hu', H', -⟩ := @Towards.remove _ [] [34] _ _ _ _ H hl hlt rfl
        refine ⟨u', [], ?_, H', by simp⟩
        simp only [Unescape.round, hc, hd, Option.bind_eq_bind, Option.bind_some, if_neg hesc, and_self, if_true,
          if_pos hlast]
        exact hu'
      · have hrest : rest ≠ [] := fun h => hlast (by rw [h]; rfl)
        obtain ⟨u', hu', H', -⟩ := H.copy hl (unescapeLoop_plain hesc (Or.inr (Or.inr hrest)))
        refine ⟨u', rest, ?_, H', by simp⟩
        simp only [Unescape.round, hc, hd, Option.bind_eq_bind, Option.bind_some, if_neg hesc, if_pos hq, if_neg hlast]
        exact hu'
    · have hplain : c ≠ 34 ∨ dequote = false ∨ rest ≠ [] := by
        by_cases hc34 : c = 34
        · exact Or.inr (Or.inl (Bool.not_eq_true _ ▸ fun hdq => hq ⟨hdq, hc34⟩))
        · exact Or.inl hc34
      obtain ⟨u', hu', H', -⟩ := H.copy hl (unescapeLoop_plain hesc hplain)
      refine ⟨u', rest, ?_, H', by simp⟩
      simp only [Unescape.round, hc, Option.bind_eq_bind, Option.bind_some, if_neg hesc, if_neg hq]
      exact hu'

end
end Nlutils
