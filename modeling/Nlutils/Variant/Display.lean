import Nlutils.Escape.Removed
import Nlutils.Variant.Text

/-! # Variants as strings for display

`nl_variant_to_string` formats a variant twice, first without a buffer. The string is what `nl_display_variant` writes,
in a buffer of just its size. It is not meant to be read again: an integer is, a string only where nothing in it has a
meaning to `nl_string_to_varvalue`. -/

namespace Nlutils
open Lib

/-- What `snprintf` returns for a text. -/
def snprintfResult (text : Bytes) : Int := if text.length < 2 ^ 31 then text.length else -1

/-- `snprintf` of a text to a buffer: `size` bytes at most are stored, of which the last terminates the string. There is
    no result where they are not in the buffer. -/
def snprintf (str : Option Bytes) (size : Nat) (text : Bytes) : Option (Int × Option Bytes) :=
  if size = 0 then some (snprintfResult text, str)
  else do
    let stored : Bytes := text.take (size - 1) ++ [0]
    let buf ← str
    if buf.length < stored.length then none
    else some (snprintfResult text, some (stored ++ buf.drop stored.length))

/-- The cases that `nl_display_variant` and `nl_store_variant` share. The parameters are what is done with the text and
    the conversion `%f`. -/
def formatVariant {α : Type} (print : Bytes → Option α) (printFloat : Float32 → Bytes) (h : VariantHeap) :
    Variant → Option α
  | .any value => print (printHex value.toUInt64.toNat)
  | .integer value => print (printInt value.toInt)
  | .floating value => print (printFloat value)
  | .string none => print (bytes "(null)")
  | .string (some p) => do
    let string ← h.strings.get p
    print string
  | .data none => print (bytes "[NULL raw data]")
  | .data (some p) => do
    let data ← h.data.get p
    if data.data = none then print (bytes "[NULL raw data of length " ++ printNat data.size.toNat ++ [93])
    else print (bytes "[Raw data of length " ++ printNat data.size.toNat ++ [93])
  | .invalid => print (bytes "Unknown type " ++ printInt (-1))

/-- What is written to the output; `overlong` gives what an `fprintf` writes that fails. -/
def nlDisplayVariant (overlong : Bytes → Bytes) (printFloat : Float32 → Bytes) (h : VariantHeap) (value : Variant) :
    Option Bytes :=
  formatVariant (fun text => some (fprintf overlong text).2) printFloat h value

/-- The result and the buffer; no result where the `int` overflows. -/
def nlStoreVariant (printFloat : Float32 → Bytes) (h : VariantHeap) (str : Option Bytes) (length : Nat)
    (value : Variant) : Option (Int × Option Bytes) := do
  let (ret, str) ← formatVariant (snprintf str length) printFloat h value
  if ret < 0 then some (ret, str)
  else if ret + 1 < 2 ^ 31 then some (ret + 1, str)
  else none

/-- The buffer that is returned, if one is. The parameter is what the memory that `malloc` gives contains, if it gives
    any. -/
def nlVariantToString (malloc : Option (Nat → Byte)) (printFloat : Float32 → Bytes) (h : VariantHeap)
    (value : Variant) : Option (Option Bytes) := do
  let (length, _) ← nlStoreVariant printFloat h none 0 value
  if length < 0 then some none
  else
    match malloc with
    | none => some none
    | some contents =>
      let (ret, buf) ← nlStoreVariant printFloat h (some ((List.range length.toNat).map contents)) length.toNat value
      if ret < 0 then some none else some buf

/-- The text of a variant for display. -/
def displayText (printFloat : Float32 → Bytes) (h : VariantHeap) (v : Variant) : Option Bytes :=
  formatVariant some printFloat h v

/-- The string that a variant is displayed as is read again as the variant. -/
def DisplayReadsBack (printFloat : Float32 → Bytes) (strtof : Bytes → Float32 × Bool) (contents : Nat → Byte)
    (h : VariantHeap) (v : Variant) : Prop :=
  ∃ text v' h', nlVariantToString (some contents) printFloat h v = some (some (text ++ [0])) ∧ 0 ∉ text ∧
    nlStringToVarvalue true strtof h v.type (some text) true = some (0, some v', h') ∧ SameValue h h' v v'

/-- A line of text that unescaping leaves as it is, and that does not look like the text of a NULL string. -/
structure IsPlainLine (s : Bytes) : Prop where
  line : 13 ∉ s ∧ 10 ∉ s
  unescaped : removedChars s false .noDequote = 0
  marker : s ≠ bytes "\\0"

section
variable {h : VariantHeap} {v : Variant} {s text : Bytes} {printFloat : Float32 → Bytes}
  {strtof : Bytes → Float32 × Bool} {malloc : Option (Nat → Byte)} {contents : Nat → Byte} {n : Nat}
  {overlong : Bytes → Bytes}

/-! ### The text in its buffer -/

theorem formatVariant_eq {α : Type} (print : Bytes → Option α) (h : VariantHeap) (v : Variant) :
    formatVariant print printFloat h v = (displayText printFloat h v).bind print := by
  cases v with
  | invalid | any | integer | floating => rfl
  | string value =>
    cases value with
    | none => rfl
    | some p => cases hs : h.strings.get p <;> simp [formatVariant, displayText, hs]
  | data value =>
    cases value with
    | none => rfl
    | some p =>
      cases hd : h.data.get p with
      | none => simp [formatVariant, displayText, hd]
      | some data =>
        simp only [formatVariant, displayText, hd, Option.bind_eq_bind, Option.bind_some]
        split <;> rfl

/-- Measuring stores nothing. -/
theorem snprintf_measure (text : Bytes) : snprintf none 0 text = some (snprintfResult text, none) := rfl

/-- A buffer of the size that was measured holds the whole text, and nothing else. -/
theorem snprintf_fits {buf : Bytes} (hlen : buf.length = text.length + 1) :
    snprintf (some buf) (text.length + 1) text = some (snprintfResult text, some (text ++ [0])) := by
  have hstored : text.take (text.length + 1 - 1) ++ [0] = text ++ [0] := by rw [Nat.add_sub_cancel, List.take_length]
  have hroom : ¬buf.length < (text ++ [0]).length := by rw [List.length_append, List.length_singleton]; omega
  have hrest : buf.drop (text ++ [0]).length = [] :=
    List.drop_eq_nil_of_le (by rw [List.length_append, List.length_singleton]; omega)
  simp only [snprintf, Nat.succ_ne_zero, if_false, Option.bind_eq_bind, Option.bind_some, hstored, if_neg hroom, hrest,
    List.append_nil]

theorem nlStoreVariant_eq (htext : displayText printFloat h v = some text) (str : Option Bytes) (length : Nat) :
    nlStoreVariant printFloat h str length v = (snprintf str length text).bind fun r =>
      if r.1 < 0 then some (r.1, r.2) else if r.1 + 1 < 2 ^ 31 then some (r.1 + 1, r.2) else none := by
  rw [nlStoreVariant, formatVariant_eq, htext]
  rfl

theorem nlVariantToString_eq (htext : displayText printFloat h v = some text) (malloc : Option (Nat → Byte)) :
    nlVariantToString malloc printFloat h v =
      if text.length + 1 = 2 ^ 31 then none
      else some (malloc.bind fun _ => if text.length + 1 < 2 ^ 31 then some (text ++ [0]) else none) := by
  have hmeasure := nlStoreVariant_eq htext none 0
  rw [snprintf_measure, Option.bind_some] at hmeasure
  rcases Nat.lt_trichotomy (text.length + 1) (2 ^ 31) with hlt | heq | hgt
  · have hresult : snprintfResult text = text.length := if_pos (by omega)
    have hnat : ¬(text.length : Int) < 0 := by omega
    have hint : (text.length : Int) + 1 < 2 ^ 31 := by omega
    have hsize : ((text.length : Int) + 1).toNat = text.length + 1 := by omega
    have hpos : ¬(text.length : Int) + 1 < 0 := by omega
    rw [hresult, if_neg hnat, if_pos hint] at hmeasure
    rw [if_neg (Nat.ne_of_lt hlt)]
    cases malloc with
    | none =>
      simp only [nlVariantToString, hmeasure, Option.bind_eq_bind, Option.bind_some, if_neg hpos, Option.bind_none]
    | some contents =>
      have hbuf : ((List.range (text.length + 1)).map contents).length = text.length + 1 := by simp
      have hstore := nlStoreVariant_eq htext (some ((List.range (text.length + 1)).map contents)) (text.length + 1)
      rw [snprintf_fits hbuf, Option.bind_some, hresult, if_neg hnat, if_pos hint] at hstore
      simp only [nlVariantToString, hmeasure, Option.bind_eq_bind, Option.bind_some, if_neg hpos, hsize, hstore,
        if_pos hlt]
  · have hresult : snprintfResult text = text.length := if_pos (by omega)
    have hnat : ¬(text.length : Int) < 0 := by omega
    have hint : ¬(text.length : Int) + 1 < 2 ^ 31 := by omega
    rw [hresult, if_neg hnat, if_neg hint] at hmeasure
    rw [if_pos heq]
    simp only [nlVariantToString, hmeasure, Option.bind_eq_bind, Option.bind_none]
  · have hresult : snprintfResult text = -1 := if_neg (by omega)
    rw [hresult, if_pos (by decide)] at hmeasure
    have hminus : (-1 : Int) < 0 := by decide
    rw [if_neg (Nat.ne_of_gt hgt), if_neg (Nat.lt_asymm hgt)]
    simp only [nlVariantToString, hmeasure, Option.bind_eq_bind, Option.bind_some, if_pos hminus, Option.bind_fun_none]

/-! ### Reading it again -/

/-- A string that loses nothing stays as it is. -/
theorem unescapeLoop_keeps {includeZero dequote : Bool} (s : Bytes)
    (hkept : (unescapeLoop includeZero dequote s).2 = 0) : (unescapeLoop includeZero dequote s).1 = s := by
  have hhex : ∀ {v : Byte} {k : Nat} {r : Bytes × Nat}, (addHex includeZero v (k + 2) r).2 ≠ 0 := by
    intro v k r
    rw [addHex_removed, Piece.removed]
    split <;> omega
  fun_induction unescapeLoop includeZero dequote s with
  | case1 | case2 | case4 => rfl
  | case3 => cases hkept
  | case5 => rfl
  | case6 | case8 | case9 => exact absurd hkept hhex
  | case7 h hx ih | case10 h l rest hx ih | case11 d rest hx ho ih | case13 c d rest hc ih =>
    have hrest := ih (by simpa [addBytes] using hkept)
    simp only [addBytes, hrest]
    rfl
  | case12 d rest hx ho ih => simp [addBytes] at hkept

theorem nlUnescapeString_eq_self :
    (nlUnescapeString s false .noDequote).1 = s ↔ removedChars s false .noDequote = 0 := by
  have hlen := length_nlUnescapeString s false .noDequote
  rw [← nlUnescapeString_removed]
  constructor
  · intro hsame
    rw [hsame] at hlen
    omega
  · intro hkept
    rw [nlUnescapeString, if_pos rfl, unescapeFrom_eq] at hkept ⊢
    exact unescapeLoop_keeps s hkept

theorem strncmp_head {a b : Bytes} (hcmp : strncmp a b (n + 1) = 0) : a.headD 0 = b.headD 0 := by
  by_contra hne
  rw [strncmp, if_pos hne] at hcmp
  exact hne (UInt8.toNat_inj.mp (by omega))

/-- Two strings that are equal up to the end of both. -/
theorem eq_of_strncmp {a b : Bytes} (ha : 0 ∉ a) (hb : 0 ∉ b) (hna : a.length ≤ n) (hnb : b.length ≤ n)
    (hcmp : strncmp a b n = 0) : a = b := by
  induction n generalizing a b with
  | zero => rw [List.length_eq_zero_iff.mp (Nat.le_zero.mp hna), List.length_eq_zero_iff.mp (Nat.le_zero.mp hnb)]
  | succ n ih =>
    have hhead := strncmp_head hcmp
    cases a with
    | nil =>
      cases b with
      | nil => rfl
      | cons d b =>
        have hd : 0 = d := hhead
        exact absurd (hd ▸ List.mem_cons_self) hb
    | cons c a =>
      cases b with
      | nil =>
        have hc : c = 0 := hhead
        exact absurd (hc ▸ List.mem_cons_self) ha
      | cons d b =>
        obtain rfl : c = d := hhead
        rw [strncmp_self (fun hc => ha (hc ▸ List.mem_cons_self))] at hcmp
        rw [ih (fun h0 => ha (List.mem_cons_of_mem _ h0)) (fun h0 => hb (List.mem_cons_of_mem _ h0))
          (Nat.le_of_succ_le_succ hna) (Nat.le_of_succ_le_succ hnb) hcmp]

theorem strncmp_same (s : Bytes) (n : Nat) : strncmp s s n = 0 := by
  induction n generalizing s with
  | zero => rfl
  | succ n ih =>
    rw [strncmp, if_neg (not_not.mpr rfl)]
    split
    · rfl
    · exact ih s.tail

theorem displayReadsBack_integer (m : Int32) : DisplayReadsBack printFloat strtof contents h (.integer m) := by
  have hlen := length_printInt m
  have hshort : (printInt m.toInt).length + 1 < 2 ^ 31 := by omega
  refine ⟨printInt m.toInt, _, h, ?_, zero_not_mem_printInt m.toInt, ?_, .integer m⟩
  · rw [nlVariantToString_eq rfl, if_neg (Nat.ne_of_lt hshort), Option.bind_some, if_pos hshort]
  · simp [nlStringToVarvalue, Variant.type, stringToInteger_printInt]

/-- The text of a NULL string is that of a string. -/
theorem not_displayReadsBack_null : ¬DisplayReadsBack printFloat strtof contents h (.string none) := by
  rintro ⟨text, v', h', hstring, -, hread, hsame⟩
  have htext : nlVariantToString (some contents) printFloat h (.string none) =
      some (some (bytes "(null)" ++ [0])) := rfl
  rw [htext] at hstring
  obtain rfl : bytes "(null)" = text := List.append_cancel_right (Option.some.inj (Option.some.inj hstring))
  have hreads : nlStringToVarvalue true strtof h 3 (some (bytes "(null)")) true = some (0,
      some (.string (some (h.strings.alloc (bytes "(null)")).1)),
      { h with strings := (h.strings.alloc (bytes "(null)")).2 }) := rfl
  rw [Variant.type, hreads] at hread
  cases hread
  cases hsame

theorem string_of_display {p : Addr} (hs : h.strings.get p = some s)
    (hstring : nlVariantToString (some contents) printFloat h (.string (some p)) = some (some (text ++ [0]))) :
    text = s ∧ s.length + 1 < 2 ^ 31 := by
  have hdisplay : displayText printFloat h (.string (some p)) = some s := by
    simp [displayText, formatVariant, hs]
  rw [nlVariantToString_eq hdisplay, Option.bind_some] at hstring
  split at hstring
  · cases hstring
  · split at hstring
    · next hshort => exact ⟨(List.append_cancel_right (Option.some.inj (Option.some.inj hstring))).symm, hshort⟩
    · cases Option.some.inj hstring

/-- The line of a string that `nl_string_to_varvalue` reads. -/
def firstLine (s : Bytes) : Bytes := s.takeWhile fun c => c != 13 && c != 10

theorem firstLine_eq_self : firstLine s = s ↔ 13 ∉ s ∧ 10 ∉ s := by
  rw [firstLine, List.takeWhile_eq_self_iff]
  constructor
  · intro hall
    exact ⟨fun hc => absurd (hall 13 hc) (by decide), fun hc => absurd (hall 10 hc) (by decide)⟩
  · rintro ⟨h13, h10⟩ c hc
    have hne : c ≠ 13 ∧ c ≠ 10 := ⟨fun h => h13 (h ▸ hc), fun h => h10 (h ▸ hc)⟩
    simp [hne]

theorem eq_of_unescapeInt {r : Int × Bytes} (hr : nlUnescapeStringInt s false .noDequote = some r) :
    r = (((nlUnescapeString s false .noDequote).2 : Int), (nlUnescapeString s false .noDequote).1) := by
  simp only [nlUnescapeStringInt] at hr
  split at hr
  · exact (Option.some.inj hr).symm
  · cases hr

/-- What a string is read as: NULL if it is the marker, else the unescaped first line. -/
theorem nlStringToVarvalue_string : nlStringToVarvalue true strtof h 3 (some s) true =
    if strncmp s (bytes "\\0") (max 2 (firstLine s).length) = 0 then some (0, some (.string none), h)
    else (nlUnescapeStringInt (firstLine s) false .noDequote).map fun r =>
      (0, some (.string (some (h.strings.alloc r.2).1)), { h with strings := (h.strings.alloc r.2).2 }) := by
  by_cases hmarker : strncmp s (bytes "\\0") (max 2 (firstLine s).length) = 0
  · rw [if_pos hmarker]
    exact if_pos hmarker
  · rw [if_neg hmarker]
    cases hr : nlUnescapeStringInt (firstLine s) false .noDequote with
    | none =>
      unfold firstLine at hmarker hr
      simp [nlStringToVarvalue, hmarker, hr]
    | some r =>
      have hret : ¬r.1 < 0 := by
        rw [eq_of_unescapeInt hr]
        exact Int.not_lt.mpr (Int.natCast_nonneg _)
      unfold firstLine at hmarker hr
      simp [nlStringToVarvalue, hmarker, hr, hret]

/-- A string whose first line unescapes to it is a line that loses nothing. -/
theorem unescape_firstLine (hself : (nlUnescapeString (firstLine s) false .noDequote).1 = s) :
    (13 ∉ s ∧ 10 ∉ s) ∧ removedChars s false .noDequote = 0 := by
  have hlen := length_nlUnescapeString (firstLine s) false .noDequote
  rw [hself] at hlen
  have hprefix : firstLine s <+: s := List.takeWhile_prefix _
  have hline : firstLine s = s := hprefix.eq_of_length_le (by omega)
  rw [hline] at hself
  exact ⟨firstLine_eq_self.mp hline, nlUnescapeString_eq_self.mp hself⟩

theorem displayReadsBack_string {p : Addr} (hs : h.strings.get p = some s) (h0 : 0 ∉ s) :
    DisplayReadsBack printFloat strtof contents h (.string (some p)) ↔ IsPlainLine s ∧ s.length + 1 < 2 ^ 31 := by
  constructor
  · rintro ⟨text, v', h', hstring, -, hread, hsame⟩
    obtain ⟨rfl, hshort⟩ := string_of_display hs hstring
    rw [Variant.type, nlStringToVarvalue_string] at hread
    split at hread
    · cases hread
      cases hsame
    · next hmarker =>
      obtain ⟨r, hr, hread⟩ := Option.map_eq_some_iff.mp hread
      cases hread
      cases hsame with
      | string hp hq =>
        rw [Heap.get_alloc_self, eq_of_unescapeInt hr, Option.some.inj (hp.symm.trans hs)] at hq
        have hself := Option.some.inj hq
        obtain ⟨hline, hunescaped⟩ := unescape_firstLine hself
        refine ⟨⟨hline, hunescaped, ?_⟩, hshort⟩
        rintro rfl
        exact hmarker (strncmp_same _ _)
  · rintro ⟨P, hshort⟩
    have hline := firstLine_eq_self.mpr P.line
    have hkept := nlUnescapeString_eq_self.mpr P.unescaped
    have hmarker : strncmp s (bytes "\\0") (max 2 s.length) ≠ 0 := fun hcmp =>
      P.marker (eq_of_strncmp h0 (by decide) (Nat.le_max_right 2 s.length) (Nat.le_max_left 2 s.length) hcmp)
    have hunescape : nlUnescapeStringInt s false .noDequote = some (0, s) := by
      rw [nlUnescapeStringInt, nlUnescapeString_removed, P.unescaped, hkept]
      rfl
    have hdisplay : displayText printFloat h (.string (some p)) = some s := by
      simp [displayText, formatVariant, hs]
    refine ⟨s, .string (some (h.strings.alloc s).1), { h with strings := (h.strings.alloc s).2 }, ?_, h0, ?_,
      .string hs Heap.get_alloc_self⟩
    · rw [nlVariantToString_eq hdisplay, if_neg (Nat.ne_of_lt hshort), Option.bind_some, if_pos hshort]
    · rw [Variant.type, nlStringToVarvalue_string, hline, if_neg hmarker, hunescape]
      rfl

theorem displayReadsBack_iff (hv : v.IsValid h) (htype : v.type = 1 ∨ v.type = 3) :
    DisplayReadsBack printFloat strtof contents h v ↔
      v.type = 1 ∨ ∃ s, v.text h = some s ∧ IsPlainLine s ∧ s.length + 1 < 2 ^ 31 := by
  cases hv with
  | integer n => exact iff_of_true (displayReadsBack_integer n) (Or.inl rfl)
  | nullString =>
    refine iff_of_false not_displayReadsBack_null ?_
    rintro (h1 | ⟨s, hs, -⟩)
    · cases h1
    · cases hs
  | @string p s hs h0 =>
    rw [displayReadsBack_string hs h0]
    constructor
    · exact fun P => Or.inr ⟨s, hs, P⟩
    · rintro (h1 | ⟨s', hs', P⟩)
      · cases h1
      · obtain rfl := Option.some.inj (hs.symm.trans hs')
        exact P
  | nullData | data => simp [Variant.type] at htype

/-! ### The text for display and the text to be read -/

theorem escaped_eq_self : escaped s = s ↔ nlCountEscapes s = 0 := by
  constructor
  · intro hself
    have hlen : (escaped s).length = s.length + nlCountEscapes s := length_escaped
    rw [hself] at hlen
    omega
  · intro hcount
    have hplain : ∀ c ∈ s, getEscape c = 0 := by simpa [nlCountEscapes] using hcount
    clear hcount
    induction s with
    | nil => rfl
    | cons c s ih =>
      rw [escaped_cons, escapeByte_plain (hplain c List.mem_cons_self),
        ih fun d hd => hplain d (List.mem_cons_of_mem c hd), List.singleton_append]

theorem plain_of_text_none (hne : v ≠ .string none) (hnone : v.text h = none) :
    v ≠ .string none ∧ ∀ s, v.text h = some s → nlCountEscapes s = 0 := by
  refine ⟨hne, fun s hs => ?_⟩
  rw [hnone] at hs
  cases hs

/-- An `fprintf` that does not fail has written the text. -/
theorem fprintf_written {ret : Int} {out : Bytes} (hret : 0 ≤ ret) (hwritten : fprintf overlong text = (ret, out)) :
    out = text := by
  rw [fprintf] at hwritten
  split at hwritten
  · exact (Prod.mk.inj hwritten).2.symm
  · obtain ⟨rfl, -⟩ := Prod.mk.inj hwritten
    exact absurd hret (by decide)

/-- Only strings are written in another way, and of them those with something to escape. -/
theorem fprint_display (hv : v.IsValid h) (htext : displayText printFloat h v = some text)
    {printE printF : Float32 → Bytes} {ret : Int} {out : Bytes} (hret : 0 ≤ ret)
    (hprint : nlFprintVariant true true true overlong printE printF h v = some (ret, out)) :
    out = text ↔ v ≠ .string none ∧ ∀ s, v.text h = some s → nlCountEscapes s = 0 := by
  cases hv with
  | integer n =>
    cases htext
    exact iff_of_true (fprintf_written hret (Option.some.inj hprint)) (plain_of_text_none (by simp) rfl)
  | nullString =>
    cases htext
    obtain rfl := fprintf_written hret (Option.some.inj hprint)
    exact iff_of_false (by decide) fun hnull => hnull.1 rfl
  | @string p s hs h0 =>
    have hlt : nlCountEscapes s < 2 ^ 31 := by
      by_contra hge
      have hescape : nlEscapeString true true s s.length = none := if_pos (Nat.le_of_not_lt hge)
      simp [nlFprintVariant, hs, hescape] at hprint
    rw [print_string hs hlt] at hprint
    obtain rfl := fprintf_written hret (Option.some.inj hprint)
    obtain rfl : s = text := by simpa [displayText, formatVariant, hs] using htext
    rw [escaped_eq_self]
    constructor
    · intro hcount
      refine ⟨by simp, fun t ht => ?_⟩
      rw [← Option.some.inj (hs.symm.trans ht)]
      exact hcount
    · exact fun hall => hall.2 s hs
  | nullData =>
    cases htext
    exact iff_of_true (fprintf_written hret (Option.some.inj hprint)) (plain_of_text_none (by simp) rfl)
  | @data p c hd =>
    have hwritten : fprintf overlong text = (ret, out) := by
      by_cases hnone : c.data = none
      · simp only [displayText, formatVariant, hd, Option.bind_eq_bind, Option.bind_some, hnone, if_true,
          Option.some.injEq] at htext
        simp only [nlFprintVariant, nlFprintVariant.written, hd, Option.bind_eq_bind, Option.bind_some, hnone, if_true,
          Option.some.injEq] at hprint
        rw [← htext]
        exact hprint
      · simp only [displayText, formatVariant, hd, Option.bind_eq_bind, Option.bind_some, hnone, if_false,
          Option.some.injEq] at htext
        simp only [nlFprintVariant, nlFprintVariant.written, hd, Option.bind_eq_bind, Option.bind_some, hnone, if_false,
          Option.some.injEq] at hprint
        rw [← htext]
        exact hprint
    have hsame : out = text := fprintf_written hret hwritten
    exact iff_of_true hsame (plain_of_text_none (by simp) rfl)

end

/-- For every variant that can be displayed: `nl_display_variant` writes its text, and the string is that text in a
    buffer of its size, unless there is no memory or the length is no `int`. From the string an integer is always read
    again, and a string only if it is a plain line. For an integer, a string or raw data, `nl_fprint_variant` writes the
    same text where there is nothing to escape. -/
theorem nlVariantToString_display (printFloat printE printF : Float32 → Bytes) (strtof : Bytes → Float32 × Bool)
    (overlong : Bytes → Bytes) (malloc : Option (Nat → Byte)) (contents : Nat → Byte) (h : VariantHeap) (v : Variant)
    (text : Bytes) (htext : displayText printFloat h v = some text) :
    nlDisplayVariant overlong printFloat h v = some (if text.length < 2 ^ 31 then text else overlong text) ∧
    (nlVariantToString malloc printFloat h v =
      if text.length + 1 = 2 ^ 31 then none
      else some (malloc.bind fun _ => if text.length + 1 < 2 ^ 31 then some (text ++ [0]) else none)) ∧
    (v.IsValid h → v.type = 1 ∨ v.type = 3 → (DisplayReadsBack printFloat strtof contents h v ↔
      v.type = 1 ∨ ∃ s, v.text h = some s ∧ IsPlainLine s ∧ s.length + 1 < 2 ^ 31)) ∧
    (v.IsValid h → ∀ ret out, 0 ≤ ret →
      nlFprintVariant true true true overlong printE printF h v = some (ret, out) →
        (out = text ↔ v ≠ .string none ∧ ∀ s, v.text h = some s → nlCountEscapes s = 0)) := by
  refine ⟨?_, nlVariantToString_eq htext malloc, fun hv htype => displayReadsBack_iff hv htype,
    fun hv ret out hret hprint => fprint_display hv htext hret hprint⟩
  rw [nlDisplayVariant, formatVariant_eq, htext, Option.bind_some, fprintf]
  split <;> rfl

/-- A backslash in front of a character without a meaning: the string is read again, and not what `nl_fprint_variant`
    writes. -/
theorem nlVariantToString_display_backslash :
    nlVariantToString (some fun _ => 0) (fun _ => []) { strings := ⟨[some [97, 92, 113]]⟩ } (.string (some 0)) =
        some (some [97, 92, 113, 0]) ∧
      DisplayReadsBack (fun _ => []) (fun _ => (0, false)) (fun _ => 0) { strings := ⟨[some [97, 92, 113]]⟩ }
        (.string (some 0)) ∧
      ∀ ret out, 0 ≤ ret → nlFprintVariant true true true (fun _ => []) (fun _ => []) (fun _ => [])
        { strings := ⟨[some [97, 92, 113]]⟩ } (.string (some 0)) = some (ret, out) → out ≠ [97, 92, 113] := by
  have hvalid : Variant.IsValid { strings := ⟨[some [97, 92, 113]]⟩ } (.string (some 0)) := .string rfl (by decide)
  obtain ⟨-, hstring, hreads, hprint⟩ := nlVariantToString_display (fun _ => []) (fun _ => []) (fun _ => [])
    (fun _ => (0, false)) (fun _ => []) (some fun _ => 0) (fun _ => 0) { strings := ⟨[some [97, 92, 113]]⟩ }
    (.string (some 0)) [97, 92, 113] rfl
  have hplain : IsPlainLine [97, 92, 113] := ⟨by decide, by simp [removedChars, pieces]; decide, by decide⟩
  refine ⟨hstring, (hreads hvalid (Or.inr rfl)).mpr (Or.inr ⟨_, rfl, hplain, by decide⟩), ?_⟩
  intro ret out hret hout heq
  exact absurd (((hprint hvalid ret out hret hout).mp heq).2 _ rfl) (by decide)

end Nlutils
