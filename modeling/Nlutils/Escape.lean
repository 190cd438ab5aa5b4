import Nlutils.Bytes
import Nlutils.Lib.Coding

/-! # Escaping (`escape.c`)

The buffers of `nl_escape_string` and `nl_unescape_string` are given by the C strings in them, before the call
and after it. -/

namespace Nlutils

def escapeChar : Byte := 92

/-- The table: a character to escape, and the one to use instead (after the escape character). -/
def escChars : List (Byte × Byte) :=
  [(9, 116), (10, 110), (13, 114), (11, 118), (12, 102), (58, 58), (34, 34), (92, 92)]

/-- 0 for a character that is not in the table, as with `getOriginal`. -/
def getEscape (c : Byte) : Byte := ((escChars.find? (·.1 == c)).map (·.2)).getD 0

def getOriginal (c : Byte) : Byte := ((escChars.find? (·.2 == c)).map (·.1)).getD 0

def nlCountEscapes (str : Bytes) : Nat := str.countP (getEscape · != 0)

/-- What the copying loop of `nl_escape_string` writes for one character. -/
def escapeByte (c : Byte) : Bytes := if getEscape c ≠ 0 then [escapeChar, getEscape c] else [c]

/-- What the copying loop of `nl_escape_string` writes. -/
def escaped (str : Bytes) : Bytes := str.flatMap escapeByte

/-- The result, the string and `*size`. The parameters are whether `realloc` and `nl_strdup` succeed. There is no
    result where the `int` of `nl_count_escapes` overflows. -/
def nlEscapeString (reallocOk strdupOk : Bool) (str : Bytes) (size : Nat) : Option (Int × Bytes × Nat) :=
  if nlCountEscapes str ≥ 2 ^ 31 then none
  else
    let len := str.length + nlCountEscapes str + 1
    if len > size ∧ !reallocOk then some (-1, str, size)
    else
      let size := if len > size then len else size
      if strdupOk then some (0, escaped str, size) else some (-1, str, size)

/-- `enum nl_unescape_dequote` -/
inductive UnescapeDequote
  | noDequote
  | dequote
  | ifQuoted
  deriving DecidableEq, Repr

/-- `strtoul` on one hexadecimal digit. -/
def hexDigit (c : Byte) : Byte :=
  if isdigit c then c - 48 else if c ≥ 97 then c - 87 else c - 55

/-- What the loop adds in front of what it makes of the rest: the bytes written, and the characters removed. -/
def addBytes (bs : Bytes) (removed : Nat) (r : Bytes × Nat) : Bytes × Nat := (bs ++ r.1, removed + r.2)

/-- A hexadecimal escape of value `v` that is `n` characters long. -/
def addHex (includeZero : Bool) (v : Byte) (n : Nat) (r : Bytes × Nat) : Bytes × Nat :=
  if v ≠ 0 ∨ includeZero then addBytes [v] (n - 1) r else addBytes [] n r

/-- The main loop of `nl_unescape_string`: the bytes it writes and what it adds to the count. -/
def unescapeLoop (includeZero dequote : Bool) : Bytes → Bytes × Nat
  | [] => ([], 0)
  | [c] =>
    if c = escapeChar then ([c], 0)
    else if dequote ∧ c = 34 then ([], 1)
    else ([c], 0)
  | c :: d :: rest =>
    if c = escapeChar then
      if d = 120 then
        match rest with
        | [] => ([c, d], 0)
        | [h] => if isxdigit h then addHex includeZero (hexDigit h) 3 ([], 0) else
          addBytes [c, d] 0 (unescapeLoop includeZero dequote [h])
        | h :: l :: rest =>
          if isxdigit h then
            if isxdigit l then
              addHex includeZero (hexDigit h * 16 + hexDigit l) 4 (unescapeLoop includeZero dequote rest)
            else addHex includeZero (hexDigit h) 3 (unescapeLoop includeZero dequote (l :: rest))
          else addBytes [c, d] 0 (unescapeLoop includeZero dequote (h :: l :: rest))
      else if getOriginal d = 0 then addBytes [c, d] 0 (unescapeLoop includeZero dequote rest)
      else addBytes [getOriginal d] 1 (unescapeLoop includeZero dequote rest)
    else addBytes [c] 0 (unescapeLoop includeZero dequote (d :: rest))

/-- From the first escape character (with `dequote`, also from the first quotation mark) on. -/
def unescapeFrom (includeZero dequote : Bool) (str : Bytes) : Bytes × Nat :=
  let plain := fun c => c != escapeChar && !(dequote && c == 34)
  addBytes (str.takeWhile plain) 0 (unescapeLoop includeZero dequote (str.dropWhile plain))

/-- The string and the result. -/
def nlUnescapeString (str : Bytes) (includeZero : Bool) (mode : UnescapeDequote) : Bytes × Nat :=
  if mode = .noDequote then unescapeFrom includeZero false str
  else if str.at 0 = 34 then addBytes [] 1 (unescapeFrom includeZero true str.tail)
  else if mode = .ifQuoted then (str, 0)
  else unescapeFrom includeZero false str

/-! ### Unescaping what has been escaped -/

section
variable {includeZero dequote : Bool} {c : Byte} {str rest : Bytes}

theorem mem_escChars (h : getEscape c ≠ 0) : (c, getEscape c) ∈ escChars := by
  unfold getEscape at h ⊢
  cases hf : escChars.find? (·.1 == c) with
  | none => simp [hf] at h
  | some p =>
    have hp : (p.1 == c) = true := List.find?_some (p := fun p : Byte × Byte => p.1 == c) hf
    have hmem := List.mem_of_find?_eq_some hf
    rw [← beq_iff_eq.mp hp]
    exact hmem

/-- What the table is like: the original comes back, and the replacement does not look like something else. -/
theorem escChars_spec : ∀ p ∈ escChars, getOriginal p.2 = p.1 ∧ p.1 ≠ 0 ∧ p.2 ≠ 120 ∧ isspace p.2 = false ∧
    p.2 ≠ 61 ∧ (p.2 = escapeChar ↔ p.1 = escapeChar) := by
  intro p hp
  simp only [escChars, List.mem_cons, List.not_mem_nil, or_false] at hp
  rcases hp with rfl | rfl | rfl | rfl | rfl | rfl | rfl | rfl <;> decide

theorem escapeByte_plain (h : getEscape c = 0) : escapeByte c = [c] := by simp [escapeByte, h]

theorem escapeByte_escape (h : getEscape c ≠ 0) : escapeByte c = [escapeChar, getEscape c] := by simp [escapeByte, h]

/-- A character that is not in the table is none of those that the table is there for. -/
theorem plain_ne (h : getEscape c = 0) : c ≠ escapeChar ∧ c ≠ 34 := by
  constructor
  · rintro rfl
    exact absurd h (by decide)
  · rintro rfl
    exact absurd h (by decide)

@[simp] theorem addBytes_addBytes {bs bs' : Bytes} {n n' : Nat} {r : Bytes × Nat} :
    addBytes bs n (addBytes bs' n' r) = addBytes (bs ++ bs') (n + n') r := by
  simp [addBytes, Nat.add_assoc]

theorem unescapeLoop_plain (hc : c ≠ escapeChar) (hq : c ≠ 34 ∨ dequote = false ∨ rest ≠ []) :
    unescapeLoop includeZero dequote (c :: rest) = addBytes [c] 0 (unescapeLoop includeZero dequote rest) := by
  cases rest with
  | nil =>
    have hq' : ¬(dequote = true ∧ c = 34) := by
      rintro ⟨hd, rfl⟩
      rcases hq with h | h | h
      · exact h rfl
      · simp [hd] at h
      · exact h rfl
    simp only [unescapeLoop, if_neg hc, if_neg hq']
    rfl
  | cons d rest =>
    rw [unescapeLoop.eq_def]
    simp only [if_neg hc]

/-- A standard escape. -/
theorem unescapeLoop_escape {d : Byte} (hx : d ≠ 120) (ho : getOriginal d ≠ 0) :
    unescapeLoop includeZero dequote (escapeChar :: d :: rest) =
      addBytes [getOriginal d] 1 (unescapeLoop includeZero dequote rest) := by
  rw [unescapeLoop.eq_def]
  simp only [if_true, if_neg hx, if_neg ho]

/-- An escape that is not in the table. -/
theorem unescapeLoop_unknown {d : Byte} (hx : d ≠ 120) (ho : getOriginal d = 0) :
    unescapeLoop includeZero dequote (escapeChar :: d :: rest) =
      addBytes [escapeChar, d] 0 (unescapeLoop includeZero dequote rest) := by
  rw [unescapeLoop.eq_def]
  simp only [if_true, if_neg hx, if_pos ho]

/-- A hexadecimal escape, or one that is none. -/
theorem unescapeLoop_hexEscape : unescapeLoop includeZero dequote (escapeChar :: 120 :: rest) =
    if isxdigit (rest.at 0) then
      if isxdigit (rest.at 1) then
        addHex includeZero (hexDigit (rest.at 0) * 16 + hexDigit (rest.at 1)) 4
          (unescapeLoop includeZero dequote (rest.drop 2))
      else addHex includeZero (hexDigit (rest.at 0)) 3 (unescapeLoop includeZero dequote (rest.drop 1))
    else addBytes [escapeChar, 120] 0 (unescapeLoop includeZero dequote rest) := by
  have hz : isxdigit 0 = false := rfl
  rcases rest with _ | ⟨h, _ | ⟨l, rest⟩⟩
  · rfl
  · have hat : Bytes.at [h] 0 = h ∧ Bytes.at [h] 1 = 0 := ⟨rfl, rfl⟩
    rw [hat.1, hat.2, hz, unescapeLoop.eq_def]
    simp only [if_true, Bool.false_eq_true, if_false]
    rfl
  · have hat : Bytes.at (h :: l :: rest) 0 = h ∧ Bytes.at (h :: l :: rest) 1 = l := ⟨rfl, rfl⟩
    rw [hat.1, hat.2, unescapeLoop.eq_def]
    simp only [if_true]
    rfl

theorem unescapeLoop_escapeByte : unescapeLoop includeZero dequote (escapeByte c ++ rest) =
    addBytes [c] (if getEscape c != 0 then 1 else 0) (unescapeLoop includeZero dequote rest) := by
  by_cases h : getEscape c = 0
  · obtain ⟨hc, hq⟩ := plain_ne h
    simpa [escapeByte_plain h, h] using unescapeLoop_plain hc (Or.inl hq)
  · obtain ⟨ho, hz, hx, -⟩ := escChars_spec _ (mem_escChars h)
    simp only at ho hz hx
    have hread : unescapeLoop includeZero dequote (escapeChar :: getEscape c :: rest) =
        addBytes [getOriginal (getEscape c)] 1 (unescapeLoop includeZero dequote rest) :=
      unescapeLoop_escape hx (ho.symm ▸ hz)
    rw [ho] at hread
    simpa [escapeByte_escape h, h] using hread

theorem unescapeLoop_escaped : unescapeLoop includeZero dequote (escaped str ++ rest) =
    addBytes str (nlCountEscapes str) (unescapeLoop includeZero dequote rest) := by
  induction str with
  | nil => simp [escaped, addBytes, nlCountEscapes]
  | cons c str ih =>
    have hcons : escaped (c :: str) ++ rest = escapeByte c ++ (escaped str ++ rest) := by simp [escaped]
    rw [hcons, unescapeLoop_escapeByte, ih, addBytes_addBytes, nlCountEscapes, nlCountEscapes, List.countP_cons,
      Nat.add_comm]
    rfl

/-- The two loops of `nl_unescape_string` do what the second one does. -/
theorem unescapeFrom_eq : unescapeFrom includeZero dequote str = unescapeLoop includeZero dequote str := by
  induction str with
  | nil => rfl
  | cons c str ih =>
    by_cases hp : (c != escapeChar && !(dequote && c == 34)) = true
    · obtain ⟨hc, hq⟩ : c ≠ escapeChar ∧ (c ≠ 34 ∨ dequote = false ∨ str ≠ []) := by
        simp only [Bool.and_eq_true, bne_iff_ne, ne_eq, Bool.not_eq_true', Bool.and_eq_false_iff,
          beq_eq_false_iff_ne] at hp
        exact ⟨hp.1, hp.2.symm.imp_right Or.inl⟩
      rw [unescapeLoop_plain hc hq, ← ih]
      simp only [unescapeFrom, List.takeWhile_cons, List.dropWhile_cons, hp, if_true, addBytes_addBytes]
      rfl
    · simp only [unescapeFrom, List.takeWhile_cons, List.dropWhile_cons, hp]
      simp [addBytes]

theorem unescapeLoop_quote : unescapeLoop includeZero true [34] = ([], 1) := by rfl

theorem ifQuoted_ne : UnescapeDequote.ifQuoted ≠ .noDequote := by decide

/-- What is left of an escaped string that begins with a quotation mark and goes on with more text. -/
theorem unescape_quoted {mode : UnescapeDequote} (hm : mode ≠ .noDequote) :
    nlUnescapeString (34 :: (escaped str ++ rest)) includeZero mode =
      addBytes str (nlCountEscapes str + 1) (unescapeLoop includeZero true rest) := by
  have hat : Bytes.at (34 :: (escaped str ++ rest)) 0 = 34 := rfl
  rw [nlUnescapeString, if_neg hm, if_pos hat, List.tail_cons, unescapeFrom_eq, unescapeLoop_escaped,
    addBytes_addBytes, Nat.add_comm]
  rfl

end

/-! ### The text of an escaped string -/

section
variable {c : Byte} {str rest : Bytes}

theorem length_escapeByte : (escapeByte c).length = if getEscape c != 0 then 2 else 1 := by
  by_cases h : getEscape c = 0
  · simp [escapeByte_plain h, h]
  · simp [escapeByte_escape h, h]

/-- The text of an escaped string does not begin with a quotation mark. -/
theorem head?_escapeByte : (escapeByte c ++ rest).head? ≠ some 34 := by
  by_cases h : getEscape c = 0
  · simpa [escapeByte_plain h] using (plain_ne h).2
  · simp [escapeByte_escape h, escapeChar]

theorem escaped_cons : escaped (c :: str) = escapeByte c ++ escaped str := rfl

theorem length_escaped : (escaped str).length = str.length + nlCountEscapes str := by
  induction str with
  | nil => rfl
  | cons c str ih =>
    rw [escaped_cons, List.length_append, length_escapeByte, ih, nlCountEscapes, nlCountEscapes, List.countP_cons,
      List.length_cons]
    split <;> omega

/-- With a size that fits the string, a call that returns 0 leaves the escaped string and its size. -/
theorem nlEscapeString_eq_zero {reallocOk strdupOk : Bool} {str' : Bytes} {size : Nat}
    (h : nlEscapeString reallocOk strdupOk str (str.length + 1) = some (0, str', size)) :
    str' = escaped str ∧ size = (escaped str).length + 1 := by
  unfold nlEscapeString at h
  split at h
  · cases h
  · simp only at h
    split at h
    · cases h
    · split at h
      · simp only [Option.some.injEq, Prod.mk.injEq, true_and] at h
        obtain ⟨rfl, rfl⟩ := h
        refine ⟨rfl, ?_⟩
        rw [length_escaped]
        split <;> omega
      · cases h

theorem escaped_ne_newline : 10 ∉ escaped str := by
  intro hmem
  obtain ⟨c, -, hc⟩ := List.mem_flatMap.mp hmem
  by_cases h : getEscape c = 0
  · rw [escapeByte_plain h] at hc
    obtain rfl := List.mem_singleton.mp hc
    exact absurd h (by decide)
  · obtain ⟨-, -, -, hspace, -⟩ := escChars_spec _ (mem_escChars h)
    rw [escapeByte_escape h] at hc
    rcases List.mem_cons.mp hc with hc | hc
    · exact absurd hc (by decide)
    · have hten : isspace 10 = false := List.mem_singleton.mp hc ▸ hspace
      exact absurd hten (by decide)

end
end Nlutils
