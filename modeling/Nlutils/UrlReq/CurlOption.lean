import Nlutils.Escape

/-! # Options for curl

`write_option` writes one line of a curl config file. What curl reads there is not part of the repository; the rule
of its documentation is stated below as `curlParam`. -/

namespace Nlutils.UrlReq

/-- What the environment answers: whether there is memory, and what `write` returns. -/
structure OptionEnv where
  alloc : Nat → Bool
  write : Nat → Int

/-- How often memory was asked for and `write` called, and what has been written. -/
structure OptionState where
  allocs : Nat := 0
  writes : Nat := 0
  written : Bytes := []
  deriving DecidableEq, Repr

/-- Whether `write` takes the whole buffer; a short write takes a part of it. -/
def writeAll (env : OptionEnv) (buf : Bytes) (st : OptionState) : Bool × OptionState :=
  let r := env.write st.writes
  (r == buf.length, { st with writes := st.writes + 1, written := st.written ++ buf.take r.toNat })

/-- `strdup` and, with a nonzero flag, `nl_escape_string`: the copy and its size. -/
def copyEscaped (env : OptionEnv) (escape : Int) (str : Bytes) (st : OptionState) :
    Option (Option (Bytes × Nat) × OptionState) :=
  if !env.alloc st.allocs then some (none, { st with allocs := st.allocs + 1 })
  else if escape = 0 then some (some (str, str.length + 1), { st with allocs := st.allocs + 1 })
  else do
    let (r, str, size) ← nlEscapeString (env.alloc (st.allocs + 1)) (env.alloc (st.allocs + 2)) str (str.length + 1)
    return (if r ≠ 0 then none else some (str, size), { st with allocs := st.allocs + 3 })

/-- The loop over the variable arguments, up to the NULL that ends them. -/
def writeValues (env : OptionEnv) : List (Int × Bytes) → OptionState → Option (Int × OptionState)
  | [], st => some (0, st)
  | (escape, value) :: args, st => do
    let (copy, st) ← copyEscaped env escape value st
    match copy with
    | none => return (-1, st)
    | some (value, size) =>
      let (ok, st) := writeAll env (value.take (size - 1)) st
      if ok then writeValues env args st else return (-1, st)

def writeOption (env : OptionEnv) (key : Bytes) (args : List (Int × Bytes)) (st : OptionState) :
    Option (Int × OptionState) := do
  let (copy, st) ← copyEscaped env 1 key st
  match copy with
  | none => return (-1, st)
  | some (key, size) =>
    let (ok, st) := writeAll env (key.take (size - 1)) st
    if !ok then return (-1, st)
    let (ok, st) := writeAll env (bytes "=\"") st
    if !ok then return (-1, st)
    let (r, st) ← writeValues env args st
    if r ≠ 0 then return (r, st)
    let (ok, st) := writeAll env (bytes "\"\n") st
    return (if ok then 0 else -1, st)

/-! ### What is written -/

/-- The text of a value, with its escape flag. -/
def valueText (a : Int × Bytes) : Bytes := if a.1 = 0 then a.2 else escaped a.2

section
variable {env : OptionEnv} {escape : Int} {str buf copy key : Bytes} {size : Nat} {st st' : OptionState}
  {args : List (Int × Bytes)}

theorem writeAll_written (h : writeAll env buf st = (true, st')) : st'.written = st.written ++ buf := by
  simp only [writeAll, Prod.mk.injEq, beq_iff_eq] at h
  obtain ⟨hr, rfl⟩ := h
  simp [hr]

theorem copyEscaped_some (h : copyEscaped env escape str st = some (some (copy, size), st')) :
    copy.take (size - 1) = valueText (escape, str) ∧ st'.written = st.written := by
  unfold copyEscaped at h
  split at h
  · cases h
  · split at h
    · next he =>
      simp only [Option.some.injEq, Prod.mk.injEq] at h
      obtain ⟨⟨rfl, rfl⟩, rfl⟩ := h
      simp [valueText, he]
    · next he =>
      simp only [Option.bind_eq_bind, Option.bind_eq_some_iff] at h
      obtain ⟨⟨r, copy', size'⟩, hesc, h⟩ := h
      simp only [Option.pure_def, Option.some.injEq, Prod.mk.injEq] at h
      obtain ⟨hr, rfl⟩ := h
      split at hr
      · cases hr
      · next hz =>
        obtain rfl := Decidable.not_not.mp hz
        obtain ⟨rfl, rfl⟩ := Prod.mk.inj (Option.some.inj hr)
        obtain ⟨rfl, rfl⟩ := nlEscapeString_eq_zero hesc
        simp [valueText, he]

/-- A value that has been written, and those that were after it. -/
theorem writeValues_cases {value : Bytes} (h : writeValues env ((escape, value) :: args) st = some (0, st')) :
    ∃ copy size st₁ st₂, copyEscaped env escape value st = some (some (copy, size), st₁) ∧
      writeAll env (copy.take (size - 1)) st₁ = (true, st₂) ∧ writeValues env args st₂ = some (0, st') := by
  simp only [writeValues, Option.bind_eq_bind, Option.bind_eq_some_iff] at h
  obtain ⟨⟨copy, st₁⟩, hcopy, h⟩ := h
  rcases copy with _ | ⟨copy, size⟩
  · cases h
  rcases hwrite : writeAll env (copy.take (size - 1)) st₁ with ⟨_ | _, st₂⟩
  · simp [hwrite] at h
  simp only [hwrite] at h
  exact ⟨copy, size, st₁, st₂, hcopy, hwrite, h⟩

/-- The parts of an option that has been written. -/
theorem writeOption_cases (h : writeOption env key args st = some (0, st')) :
    ∃ copy size st₁ st₂ st₃ st₄, copyEscaped env 1 key st = some (some (copy, size), st₁) ∧
      writeAll env (copy.take (size - 1)) st₁ = (true, st₂) ∧ writeAll env (bytes "=\"") st₂ = (true, st₃) ∧
      writeValues env args st₃ = some (0, st₄) ∧ writeAll env (bytes "\"\n") st₄ = (true, st') := by
  simp only [writeOption, Option.bind_eq_bind, Option.bind_eq_some_iff] at h
  obtain ⟨⟨copy, st₁⟩, hcopy, h⟩ := h
  rcases copy with _ | ⟨copy, size⟩
  · cases h
  rcases hkey : writeAll env (copy.take (size - 1)) st₁ with ⟨_ | _, st₂⟩
  · simp [hkey] at h
  rcases heq : writeAll env (bytes "=\"") st₂ with ⟨_ | _, st₃⟩
  · simp [hkey, heq] at h
  simp only [hkey, heq, Bool.not_true, Bool.false_eq_true, if_false, Option.bind_eq_some_iff] at h
  obtain ⟨⟨r, st₄⟩, hvalues, h⟩ := h
  by_cases hr : r = 0
  · subst hr
    rcases hend : writeAll env (bytes "\"\n") st₄ with ⟨_ | _, st₅⟩
    · simp [hend] at h
    have hst : st₅ = st' := by simpa [hend] using h
    exact ⟨copy, size, st₁, st₂, st₃, st₄, hcopy, hkey, heq, hvalues, hst ▸ hend⟩
  · simp [hr] at h

theorem writeValues_written (h : writeValues env args st = some (0, st')) :
    st'.written = st.written ++ args.flatMap valueText := by
  induction args generalizing st with
  | nil =>
    simp only [writeValues, Option.some.injEq, Prod.mk.injEq, true_and] at h
    simp [h]
  | cons a args ih =>
    obtain ⟨copy, size, st₁, st₂, hcopy, hwrite, h⟩ := writeValues_cases h
    obtain ⟨htext, hw⟩ := copyEscaped_some hcopy
    rw [ih h, writeAll_written hwrite, htext, hw, List.flatMap_cons, List.append_assoc]

theorem writeOption_written (h : writeOption env key args st = some (0, st')) :
    st'.written = st.written ++ (escaped key ++ bytes "=\"" ++ args.flatMap valueText ++ bytes "\"\n") := by
  obtain ⟨copy, size, st₁, st₂, st₃, st₄, hcopy, hkey, heq, hvalues, hend⟩ := writeOption_cases h
  obtain ⟨htext, hw⟩ := copyEscaped_some hcopy
  rw [writeAll_written hend, writeValues_written hvalues, writeAll_written heq, writeAll_written hkey, htext, hw]
  simp [valueText]

end

/-! ### What curl makes of it -/

/-- What a backslash and this character stand for in a quoted parameter. -/
def curlEscape (c : Byte) : Byte :=
  if c = 116 then 9 else if c = 110 then 10 else if c = 114 then 13 else if c = 118 then 11 else c

/-- More characters at the beginning of the parameter. -/
def addChars (cs : Bytes) (r : Bytes × Bytes) : Bytes × Bytes := (cs ++ r.1, r.2)

/-- The parameter after an opening quotation mark, and what comes after the closing one. -/
def curlParam : Bytes → Option (Bytes × Bytes)
  | [] => none
  | [c] => if c = 34 then some ([], []) else none
  | c :: d :: rest =>
    if c = 34 then some ([], d :: rest)
    else if c = 92 then (curlParam rest).map (addChars [curlEscape d])
    else (curlParam (d :: rest)).map (addChars [c])

/-- Some quotation mark has no backslash before it that escapes it. -/
def hasBareQuote : Bytes → Bool
  | [] => false
  | [c] => c == 34
  | c :: d :: rest => if c = 92 then hasBareQuote rest else c == 34 || hasBareQuote (d :: rest)

/-- One line that sets an option to the given values, one after the other. -/
def CurlLine (key : Bytes) (values : List Bytes) (line : Bytes) : Prop :=
  ∃ body, line = key ++ bytes "=\"" ++ body ++ bytes "\"\n" ∧ 10 ∉ body ∧ hasBareQuote body = false ∧
    curlParam (body ++ bytes "\"\n") = some (values.flatten, bytes "\n")

/-- A value that may be passed without escaping: no quotation mark, backslash or control character. -/
def RawValue (value : Bytes) : Prop := ∀ c ∈ value, c ≠ 34 ∧ c ≠ 92 ∧ 32 ≤ c ∧ c ≠ 127

instance {value : Bytes} : Decidable (RawValue value) := List.decidableBAll _ value

/-- What curl reads for a character that was escaped. -/
def readBack (c : Byte) : Byte := if c = 12 then 102 else c

/-- What curl reads for a value. -/
def valueRead (a : Int × Bytes) : Bytes := if a.1 = 0 then a.2 else a.2.map readBack

section
variable {c : Byte} {value rest key : Bytes} {args : List (Int × Bytes)}

theorem curlParam_plain (hc : c ≠ 92) (hq : c ≠ 34) :
    curlParam (c :: rest) = (curlParam rest).map (addChars [c]) := by
  cases rest with
  | nil => simp [curlParam, hq]
  | cons d rest => simp [curlParam, hc, hq]

theorem hasBareQuote_plain (hc : c ≠ 92) (hq : c ≠ 34) : hasBareQuote (c :: rest) = hasBareQuote rest := by
  cases rest with
  | nil => simp [hasBareQuote, hq]
  | cons d rest => simp [hasBareQuote, hc, hq]

/-- Curl's escapes against the table. -/
theorem escChars_curl : ∀ p ∈ escChars, curlEscape p.2 = readBack p.1 := by
  intro p hp
  simp only [escChars, List.mem_cons, List.not_mem_nil, or_false] at hp
  rcases hp with rfl | rfl | rfl | rfl | rfl | rfl | rfl | rfl <;> decide

theorem curlParam_escapeByte :
    curlParam (escapeByte c ++ rest) = (curlParam rest).map (addChars [readBack c]) := by
  by_cases h : getEscape c = 0
  · obtain ⟨hc, hq⟩ := plain_ne h
    have hback : readBack c = c := by
      unfold readBack
      split
      · next h12 =>
        subst h12
        exact absurd h (by decide)
      · rfl
    rw [escapeByte_plain h, hback]
    exact curlParam_plain hc hq
  · have hread := escChars_curl _ (mem_escChars h)
    simp only at hread
    simp [escapeByte_escape h, escapeChar, curlParam, hread]

theorem hasBareQuote_escapeByte : hasBareQuote (escapeByte c ++ rest) = hasBareQuote rest := by
  by_cases h : getEscape c = 0
  · obtain ⟨hc, hq⟩ := plain_ne h
    rw [escapeByte_plain h]
    exact hasBareQuote_plain hc hq
  · simp [escapeByte_escape h, escapeChar, hasBareQuote]

theorem foldr_addChars {α : Type} {f : α → Bytes} {xs : List α} {r : Option (Bytes × Bytes)} :
    xs.foldr (fun a => Option.map (addChars (f a))) r = r.map (addChars (xs.flatMap f)) := by
  induction xs with
  | nil => cases r <;> rfl
  | cons a xs ih =>
    rw [List.foldr_cons, ih, Option.map_map]
    congr 1
    funext r
    simp [addChars]

theorem curlParam_value {a : Int × Bytes} (ha : a.1 = 0 → RawValue a.2) :
    curlParam (valueText a ++ rest) = (curlParam rest).map (addChars (valueRead a)) := by
  by_cases hz : a.1 = 0
  · have hread := Lib.read_flatMap (f := curlParam) (w := fun c => [c]) a.2 rest
      fun c hc rest => curlParam_plain (ha hz c hc).2.1 (ha hz c hc).1
    rw [List.flatMap_singleton'] at hread
    rw [valueText, if_pos hz, hread, foldr_addChars, List.flatMap_singleton', valueRead, if_pos hz]
  · have hread := Lib.read_flatMap (f := curlParam) (w := escapeByte) a.2 rest
      fun c _ rest => curlParam_escapeByte
    rw [valueText, if_neg hz, escaped, hread, foldr_addChars, valueRead, if_neg hz, List.map_eq_flatMap]

theorem hasBareQuote_value {a : Int × Bytes} (ha : a.1 = 0 → RawValue a.2) :
    hasBareQuote (valueText a ++ rest) = hasBareQuote rest := by
  by_cases hz : a.1 = 0
  · have hread := Lib.skip_flatMap (f := hasBareQuote) (w := fun c => [c]) a.2 rest
      fun c hc rest => hasBareQuote_plain (ha hz c hc).2.1 (ha hz c hc).1
    rw [List.flatMap_singleton'] at hread
    rw [valueText, if_pos hz, hread]
  · have hread := Lib.skip_flatMap (f := hasBareQuote) (w := escapeByte) a.2 rest
      fun c _ rest => hasBareQuote_escapeByte
    rw [valueText, if_neg hz, escaped, hread]

/-- What curl reads in the line. -/
theorem curlParam_body (hraw : ∀ a ∈ args, a.1 = 0 → RawValue a.2) :
    curlParam (args.flatMap valueText ++ bytes "\"\n") = some (args.flatMap valueRead, bytes "\n") := by
  have hread := Lib.read_flatMap (f := curlParam) (w := valueText) args (bytes "\"\n")
    fun a ha rest => curlParam_value (hraw a ha)
  have hend : curlParam (bytes "\"\n") = some ([], bytes "\n") := by decide
  rw [hread, foldr_addChars, hend]
  simp [addChars]

theorem hasBareQuote_body (hraw : ∀ a ∈ args, a.1 = 0 → RawValue a.2) :
    hasBareQuote (args.flatMap valueText) = false := by
  have hread := Lib.skip_flatMap (f := hasBareQuote) (w := valueText) args []
    fun a ha rest => hasBareQuote_value (hraw a ha)
  rw [List.append_nil] at hread
  exact hread

theorem newline_not_mem_body (hraw : ∀ a ∈ args, a.1 = 0 → RawValue a.2) : 10 ∉ args.flatMap valueText := by
  intro hmem
  obtain ⟨a, ha, hc⟩ := List.mem_flatMap.mp hmem
  by_cases hz : a.1 = 0
  · rw [valueText, if_pos hz] at hc
    exact absurd (hraw a ha hz 10 hc).2.2.1 (by decide)
  · rw [valueText, if_neg hz] at hc
    exact escaped_ne_newline hc

/-- Curl reads the values that were given if none that is escaped has a form feed in it. -/
theorem valueRead_eq_iff : args.flatMap valueRead = (args.map (·.2)).flatten ↔ ∀ a ∈ args, a.1 ≠ 0 → 12 ∉ a.2 := by
  have hmap : ∀ {value : Bytes}, value.map readBack = value ↔ 12 ∉ value := fun {value} => by
    induction value with
    | nil => simp
    | cons c value ih =>
      have hc : readBack c = c ↔ c ≠ 12 := by
        unfold readBack
        split
        · next h => simp [h]
        · next h => simp [h]
      rw [List.map_cons, List.cons.injEq, ih, hc, List.mem_cons, not_or]
      exact and_congr_left fun _ => ne_comm
  have hlen : ∀ a ∈ args, (valueRead a).length = a.2.length := by
    intro a _
    unfold valueRead
    split <;> simp
  rw [← List.flatMap_def]
  constructor
  · intro h a ha hz
    have heq := Lib.flatMap_inj hlen h a ha
    rw [valueRead, if_neg hz] at heq
    exact hmap.mp heq
  · intro h
    refine congrArg List.flatten (List.map_congr_left ?_)
    intro a ha
    by_cases hz : a.1 = 0
    · rw [valueRead, if_pos hz]
    · rw [valueRead, if_neg hz, hmap.mpr (h a ha hz)]

/-- No key goes on like its escaped text after a backslash. -/
theorem escaped_ne {x y : Bytes} (n : Nat) :
    List.replicate (n + 1) 92 ++ (escaped key ++ 61 :: x) ≠ key ++ 61 :: y := by
  induction key generalizing n with
  | nil => simp [List.replicate_succ]
  | cons c key ih =>
    intro h
    rw [List.replicate_succ, List.cons_append, List.cons_append, List.cons.injEq] at h
    obtain ⟨rfl, h⟩ := h
    have htext : escaped (92 :: key) = List.replicate 2 92 ++ escaped key := rfl
    rw [htext, List.append_assoc, ← List.append_assoc, List.replicate_append_replicate] at h
    exact ih (n + 1) h

/-- The escaped text of a key looks like the key only if nothing in it is escaped. -/
theorem plain_of_escaped {x y : Bytes} (h : escaped key ++ 61 :: x = key ++ 61 :: y) : ∀ c ∈ key, getEscape c = 0 := by
  induction key with
  | nil => nofun
  | cons c key ih =>
    have hcons : escaped (c :: key) = escapeByte c ++ escaped key := rfl
    rw [hcons, List.append_assoc] at h
    by_cases hc : getEscape c = 0
    · rw [escapeByte_plain hc, List.singleton_append, List.cons_append, List.cons.injEq] at h
      exact List.forall_mem_cons.mpr ⟨hc, ih h.2⟩
    · have hslash : getEscape escapeChar = 92 := by decide
      rw [escapeByte_escape hc, List.cons_append, List.singleton_append, List.cons_append, List.cons.injEq] at h
      obtain ⟨rfl, h⟩ := h
      rw [hslash] at h
      exact absurd h (escaped_ne 0)

theorem escaped_plain (h : ∀ c ∈ key, getEscape c = 0) : escaped key = key := by
  induction key with
  | nil => rfl
  | cons c key ih =>
    obtain ⟨hc, hkey⟩ := List.forall_mem_cons.mp h
    have hcons : escaped (c :: key) = escapeByte c ++ escaped key := rfl
    rw [hcons, escapeByte_plain hc, ih hkey]
    rfl

end

/-- When every call succeeds, the line sets the option to the values exactly if no character of the key is escaped
    and no escaped value has a form feed in it, which is written as `\f` and read as `f`. -/
theorem writeOption_curlLine_iff (env : OptionEnv) (key : Bytes) (args : List (Int × Bytes)) (st : OptionState)
    (hraw : ∀ a ∈ args, a.1 = 0 → RawValue a.2) (h : writeOption env key args {} = some (0, st)) :
    CurlLine key (args.map (·.2)) st.written ↔
      (∀ c ∈ key, getEscape c = 0) ∧ ∀ a ∈ args, a.1 ≠ 0 → 12 ∉ a.2 := by
  have hline := writeOption_written h
  have hquote : bytes "=\"" = [61, 34] := by decide
  have hstart : (({} : OptionState)).written = [] := rfl
  rw [hstart, List.nil_append] at hline
  constructor
  · rintro ⟨body, hbody, -, -, hread⟩
    rw [hline] at hbody
    have hkey : ∀ c ∈ key, getEscape c = 0 := by
      simp only [hquote, List.append_assoc, List.cons_append] at hbody
      exact plain_of_escaped hbody
    rw [escaped_plain hkey] at hbody
    have hbody' := List.append_cancel_left (List.append_cancel_right hbody)
    rw [← hbody', curlParam_body hraw] at hread
    exact ⟨hkey, valueRead_eq_iff.mp (Prod.mk.inj (Option.some.inj hread)).1⟩
  · rintro ⟨hkey, hvalues⟩
    refine ⟨args.flatMap valueText, ?_, newline_not_mem_body hraw, hasBareQuote_body hraw, ?_⟩
    · rw [hline, escaped_plain hkey]
    · rw [curlParam_body hraw, valueRead_eq_iff.mpr hvalues]

/-- A header `a:b` with the value `x"`. -/
theorem writeOption_curlLine_header :
    ∃ st, writeOption ⟨fun _ => true, fun n => [6, 2, 4, 2, 3, 2].getD n 0⟩ (bytes "header")
        [(1, [97, 58, 98]), (0, [58, 32]), (1, [120, 34])] {} = some (0, st) ∧
      CurlLine (bytes "header") [[97, 58, 98], [58, 32], [120, 34]] st.written := by
  refine ⟨⟨10, 6, [104, 101, 97, 100, 101, 114, 61, 34, 97, 92, 58, 98, 58, 32, 120, 92, 34, 34, 10]⟩, by decide, ?_⟩
  exact (writeOption_curlLine_iff ⟨fun _ => true, fun n => [6, 2, 4, 2, 3, 2].getD n 0⟩ (bytes "header")
    [(1, [97, 58, 98]), (0, [58, 32]), (1, [120, 34])] _ (by decide) (by decide)).mpr (by decide +kernel)

/-- A form feed. -/
theorem not_curlLine_formFeed :
    ∃ st, writeOption ⟨fun _ => true, fun n => [4, 2, 2, 2].getD n 0⟩ (bytes "data") [(1, [12])] {} = some (0, st) ∧
      ¬CurlLine (bytes "data") [[12]] st.written := by
  refine ⟨⟨6, 4, [100, 97, 116, 97, 61, 34, 92, 102, 34, 10]⟩, by decide, ?_⟩
  rintro ⟨body, hbody, -, -, hread⟩
  have hline : [100, 97, 116, 97, 61, 34, 92, 102, 34, 10] =
      bytes "data" ++ bytes "=\"" ++ [92, 102] ++ bytes "\"\n" := by decide
  rw [hline] at hbody
  rw [← List.append_cancel_left (List.append_cancel_right hbody)] at hread
  exact absurd hread (by decide)

end Nlutils.UrlReq
