import Nlutils.Hash.Footprint
import Nlutils.UrlReq.Form

/-! # Whose strings the form callback frees

The callback is to free the encoded strings that it has made and never a string of the hash. For form types that are
not encoded it frees the strings of the hash where `write_option` fails. -/

namespace Nlutils.UrlReq
open Lib

/-! ### When an option is written -/

/-- There is memory for the copy of a value and, if it is to be escaped, for a longer buffer (where it gets longer) and
    for the copy that is escaped from. -/
def Copies (env : OptionEnv) (a : Int × Bytes) (allocs : Nat) : Prop :=
  env.alloc allocs = true ∧ (a.1 ≠ 0 → nlCountEscapes a.2 < 2 ^ 31 ∧
    (nlCountEscapes a.2 ≠ 0 → env.alloc (allocs + 1) = true) ∧ env.alloc (allocs + 2) = true)

/-- How often memory is asked for to copy a value. -/
def copyAllocs (a : Int × Bytes) : Nat := if a.1 = 0 then 1 else 3

/-- Each value is copied, and `write` takes all of it. -/
def ValuesWritten (env : OptionEnv) : List (Int × Bytes) → Nat → Nat → Prop
  | [], _, _ => True
  | a :: args, allocs, writes => Copies env a allocs ∧ env.write writes = (valueText a).length ∧
      ValuesWritten env args (allocs + copyAllocs a) (writes + 1)

/-- What the environment answers when all of an option is written, from this number of allocations and of writes on. -/
def OptionWritten (env : OptionEnv) (key : Bytes) (args : List (Int × Bytes)) (allocs writes : Nat) : Prop :=
  Copies env (1, key) allocs ∧ env.write writes = (escaped key).length ∧ env.write (writes + 1) = 2 ∧
    ValuesWritten env args (allocs + 3) (writes + 2) ∧ env.write (writes + 2 + args.length) = 2

section
variable {env : OptionEnv} {a : Int × Bytes} {args : List (Int × Bytes)} {key buf copy : Bytes} {size : Nat} {r : Int}
  {st st' : OptionState}

theorem writeAll_true_iff : (writeAll env buf st).1 = true ↔ env.write st.writes = buf.length := beq_iff_eq

/-- When `nl_escape_string` escapes a string. -/
theorem nlEscapeString_zero_iff {reallocOk strdupOk : Bool} {str : Bytes} :
    (∃ copy size, nlEscapeString reallocOk strdupOk str (str.length + 1) = some (0, copy, size)) ↔
      nlCountEscapes str < 2 ^ 31 ∧ (nlCountEscapes str ≠ 0 → reallocOk = true) ∧ strdupOk = true := by
  unfold nlEscapeString
  split
  · next hcount =>
    constructor
    · rintro ⟨_, _, h⟩
      cases h
    · rintro ⟨h, -⟩
      exact absurd h (Nat.not_lt.mpr hcount)
  · next hcount =>
    have hlonger : str.length + nlCountEscapes str + 1 > str.length + 1 ↔ nlCountEscapes str ≠ 0 := by omega
    simp only [hlonger]
    constructor
    · rintro ⟨copy, size, h⟩
      split at h
      · cases h
      · next hlong =>
        split at h
        · next hdup => exact ⟨Nat.not_le.mp hcount, fun hne => by simpa [hne] using hlong, hdup⟩
        · cases h
    · rintro ⟨-, hrealloc, hdup⟩
      have hlong : ¬(nlCountEscapes str ≠ 0 ∧ (!reallocOk) = true) := by
        rintro ⟨hne, hno⟩
        rw [hrealloc hne] at hno
        cases hno
      rw [if_neg hlong, if_pos hdup]
      exact ⟨_, _, rfl⟩

theorem copyEscaped_copies (hc : Copies env a st.allocs) : ∃ copy size,
    copyEscaped env a.1 a.2 st = some (some (copy, size), { st with allocs := st.allocs + copyAllocs a }) ∧
      copy.take (size - 1) = valueText a := by
  obtain ⟨h0, hesc⟩ := hc
  by_cases hz : a.1 = 0
  · exact ⟨a.2, a.2.length + 1, by simp [copyEscaped, h0, hz, copyAllocs], by simp [valueText, hz]⟩
  · obtain ⟨copy, size, hcopy⟩ := nlEscapeString_zero_iff.mpr (hesc hz)
    refine ⟨copy, size, by simp [copyEscaped, h0, hz, hcopy, copyAllocs], ?_⟩
    obtain ⟨rfl, rfl⟩ := nlEscapeString_eq_zero hcopy
    simp [valueText, hz]

theorem copies_of_copyEscaped {c : Bytes × Nat} (h : copyEscaped env a.1 a.2 st = some (some c, st')) :
    Copies env a st.allocs := by
  unfold copyEscaped at h
  split at h
  · cases h
  · next h0 =>
    refine ⟨by simpa using h0, fun hz => ?_⟩
    rw [if_neg hz] at h
    obtain ⟨⟨r, copy, size⟩, hesc, h⟩ := Option.bind_eq_some_iff.mp h
    simp only [Option.pure_def, Option.some.injEq, Prod.mk.injEq] at h
    obtain ⟨hr, -⟩ := h
    split at hr
    · cases hr
    · next hzero =>
      obtain rfl := Decidable.not_not.mp hzero
      exact nlEscapeString_zero_iff.mp ⟨copy, size, hesc⟩

theorem writeAll_eq (st : OptionState) (hw : env.write st.writes = buf.length) :
    ∃ st', writeAll env buf st = (true, st') ∧ st'.allocs = st.allocs ∧ st'.writes = st.writes + 1 :=
  ⟨(writeAll env buf st).2, Prod.ext (writeAll_true_iff.mpr hw) rfl, rfl, rfl⟩

theorem writeValues_of (h : ValuesWritten env args st.allocs st.writes) :
    ∃ st', writeValues env args st = some (0, st') ∧ st'.allocs = st.allocs + (args.map copyAllocs).sum ∧
      st'.writes = st.writes + args.length := by
  induction args generalizing st with
  | nil => exact ⟨st, rfl, rfl, rfl⟩
  | cons a args ih =>
    obtain ⟨hc, hw, hargs⟩ := h
    obtain ⟨copy, size, hcopy, htext⟩ := copyEscaped_copies hc
    rw [← htext] at hw
    obtain ⟨st₂, hwrite, hallocs, hwrites⟩ := writeAll_eq { st with allocs := st.allocs + copyAllocs a } hw
    have hargs : ValuesWritten env args st₂.allocs st₂.writes := by rwa [hallocs, hwrites]
    obtain ⟨st', hvalues, ha, hn⟩ := ih hargs
    refine ⟨st', by simp [writeValues, hcopy, hwrite, hvalues], ?_, ?_⟩
    · rw [ha, hallocs, List.map_cons, List.sum_cons, Nat.add_assoc]
    · rw [hn, hwrites, List.length_cons, Nat.add_assoc, Nat.add_comm 1]

theorem writeOption_of (h : OptionWritten env key args st.allocs st.writes) :
    ∃ st', writeOption env key args st = some (0, st') ∧ st'.allocs = st.allocs + 3 + (args.map copyAllocs).sum ∧
      st'.writes = st.writes + 3 + args.length := by
  obtain ⟨hc, hkey, heq, hargs, hend⟩ := h
  obtain ⟨copy, size, hcopy, htext⟩ := copyEscaped_copies hc
  have hkey' : env.write st.writes = (copy.take (size - 1)).length := by rw [htext, hkey]; rfl
  obtain ⟨st₂, hw₂, ha₂, hn₂⟩ := writeAll_eq { st with allocs := st.allocs + 3 } hkey'
  have heq' : env.write st₂.writes = (bytes "=\"").length := by rw [hn₂, heq]; rfl
  obtain ⟨st₃, hw₃, ha₃, hn₃⟩ := writeAll_eq st₂ heq'
  have hargs' : ValuesWritten env args st₃.allocs st₃.writes := by rwa [ha₃, hn₃, ha₂, hn₂]
  obtain ⟨st₄, hvalues, ha₄, hn₄⟩ := writeValues_of hargs'
  have hend' : env.write st₄.writes = (bytes "\"\n").length := by rw [hn₄, hn₃, hn₂, hend]; rfl
  obtain ⟨st', hw', ha', hn'⟩ := writeAll_eq st₄ hend'
  refine ⟨st', ?_, ?_, ?_⟩
  · have hcopy' : copyEscaped env 1 key st = some (some (copy, size), { st with allocs := st.allocs + 3 }) := hcopy
    simp [writeOption, hcopy', hw₂, hw₃, hvalues, hw']
  · rw [ha', ha₄, ha₃, ha₂]
  · rw [hn', hn₄, hn₃, hn₂]
    exact Nat.add_right_comm (st.writes + 2) args.length 1

theorem writeAll_true (h : writeAll env buf st = (true, st')) :
    env.write st.writes = buf.length ∧ st'.allocs = st.allocs ∧ st'.writes = st.writes + 1 := by
  have hw : (writeAll env buf st).1 = true := by rw [h]
  obtain ⟨st₁, heq, ha, hn⟩ := writeAll_eq st (writeAll_true_iff.mp hw)
  cases h.symm.trans heq
  exact ⟨writeAll_true_iff.mp hw, ha, hn⟩

theorem valuesWritten_of (h : writeValues env args st = some (0, st')) :
    ValuesWritten env args st.allocs st.writes := by
  induction args generalizing st with
  | nil => trivial
  | cons a args ih =>
    obtain ⟨escape, value⟩ := a
    obtain ⟨copy, size, st₁, st₂, hcopy, hwrite, h⟩ := writeValues_cases h
    have hc : Copies env (escape, value) st.allocs := copies_of_copyEscaped hcopy
    obtain ⟨copy', size', hcopy', htext⟩ := copyEscaped_copies hc
    cases hcopy.symm.trans hcopy'
    obtain ⟨hw, ha₂, hn₂⟩ := writeAll_true hwrite
    have hargs := ih h
    rw [ha₂, hn₂] at hargs
    exact ⟨hc, by rwa [htext] at hw, hargs⟩

theorem writeOption_iff :
    (∃ st', writeOption env key args st = some (0, st')) ↔ OptionWritten env key args st.allocs st.writes := by
  refine ⟨?_, fun h => have ⟨st', hw, _⟩ := writeOption_of h; ⟨st', hw⟩⟩
  rintro ⟨st', h⟩
  obtain ⟨copy, size, st₁, st₂, st₃, st₄, hcopy, hw₂, hw₃, hvalues, hw₅⟩ := writeOption_cases h
  have hc : Copies env (1, key) st.allocs := copies_of_copyEscaped hcopy
  obtain ⟨copy', size', hcopy', htext⟩ := copyEscaped_copies hc
  cases hcopy.symm.trans hcopy'
  obtain ⟨hkey, ha₂, hn₂⟩ := writeAll_true hw₂
  obtain ⟨heq, ha₃, hn₃⟩ := writeAll_true hw₃
  obtain ⟨hend, -, -⟩ := writeAll_true hw₅
  have hargs := valuesWritten_of hvalues
  obtain ⟨st₄', hvalues', -, hn₄⟩ := writeValues_of hargs
  cases hvalues.symm.trans hvalues'
  rw [htext] at hkey
  rw [hn₂] at heq
  rw [ha₃, hn₃, ha₂, hn₂] at hargs
  rw [hn₄, hn₃, hn₂] at hend
  exact ⟨hc, hkey, heq, hargs, hend⟩

/-! ### Writing always has a result -/

theorem nlEscapeString_total (reallocOk strdupOk : Bool) (size : Nat) {str : Bytes}
    (hc : nlCountEscapes str < 2 ^ 31) : ∃ r, nlEscapeString reallocOk strdupOk str size = some r := by
  rw [nlEscapeString, if_neg (Nat.not_le.mpr hc)]
  simp only
  split
  · exact ⟨_, rfl⟩
  · split
    · exact ⟨_, rfl⟩
    · exact ⟨_, rfl⟩

theorem copyEscaped_total (env : OptionEnv) (hc : a.1 ≠ 0 → nlCountEscapes a.2 < 2 ^ 31) (st : OptionState) :
    ∃ c st', copyEscaped env a.1 a.2 st = some (c, st') ∧ st.allocs ≤ st'.allocs := by
  unfold copyEscaped
  split
  · exact ⟨none, _, rfl, Nat.le_succ _⟩
  · split
    · exact ⟨_, _, rfl, Nat.le_succ _⟩
    · next hz =>
      obtain ⟨r, hesc⟩ := nlEscapeString_total (env.alloc (st.allocs + 1)) (env.alloc (st.allocs + 2)) (a.2.length + 1)
        (hc hz)
      exact ⟨_, _, by rw [hesc]; rfl, Nat.le_add_right _ _⟩

theorem writeAll_allocs {ok : Bool} (h : writeAll env buf st = (ok, st')) : st'.allocs = st.allocs := by
  cases h
  rfl

theorem writeValues_total (env : OptionEnv) (hc : ∀ a ∈ args, a.1 ≠ 0 → nlCountEscapes a.2 < 2 ^ 31)
    (st : OptionState) : ∃ r st', writeValues env args st = some (r, st') ∧ st.allocs ≤ st'.allocs := by
  induction args generalizing st with
  | nil => exact ⟨0, st, rfl, Nat.le_refl _⟩
  | cons a args ih =>
    obtain ⟨hca, hcs⟩ := List.forall_mem_cons.mp hc
    obtain ⟨copy, st₁, hcopy, hle₁⟩ := copyEscaped_total env hca st
    rcases copy with _ | ⟨copy, size⟩
    · exact ⟨-1, st₁, by simp [writeValues, hcopy], hle₁⟩
    rcases hwrite : writeAll env (copy.take (size - 1)) st₁ with ⟨_ | _, st₂⟩
    · exact ⟨-1, st₂, by simp [writeValues, hcopy, hwrite], writeAll_allocs hwrite ▸ hle₁⟩
    obtain ⟨r, st', hvalues, hle⟩ := ih hcs st₂
    rw [writeAll_allocs hwrite] at hle
    exact ⟨r, st', by simp [writeValues, hcopy, hwrite, hvalues], Nat.le_trans hle₁ hle⟩

theorem writeOption_total (env : OptionEnv) (hkey : nlCountEscapes key < 2 ^ 31)
    (hc : ∀ a ∈ args, a.1 ≠ 0 → nlCountEscapes a.2 < 2 ^ 31) (st : OptionState) :
    ∃ r st', writeOption env key args st = some (r, st') ∧ st.allocs ≤ st'.allocs := by
  obtain ⟨copy, st₁, hcopy, hle₁⟩ := copyEscaped_total env (a := (1, key)) (fun _ => hkey) st
  simp only at hcopy
  rcases copy with _ | ⟨copy, size⟩
  · exact ⟨-1, st₁, by simp [writeOption, hcopy], hle₁⟩
  rcases hw₂ : writeAll env (copy.take (size - 1)) st₁ with ⟨_ | _, st₂⟩
  · exact ⟨-1, st₂, by simp [writeOption, hcopy, hw₂], writeAll_allocs hw₂ ▸ hle₁⟩
  rcases hw₃ : writeAll env (bytes "=\"") st₂ with ⟨ok, st₃⟩
  have hle₃ : st.allocs ≤ st₃.allocs := by rwa [writeAll_allocs hw₃, writeAll_allocs hw₂]
  cases ok with
  | false => exact ⟨-1, st₃, by simp [writeOption, hcopy, hw₂, hw₃], hle₃⟩
  | true =>
    obtain ⟨r, st₄, hvalues, hle₄⟩ := writeValues_total env hc st₃
    by_cases hr : r = 0
    · rcases hw₅ : writeAll env (bytes "\"\n") st₄ with ⟨ok, st₅⟩
      have hle₅ : st.allocs ≤ st₅.allocs := writeAll_allocs hw₅ ▸ Nat.le_trans hle₃ hle₄
      exact ⟨if ok then 0 else -1, st₅, by simp [writeOption, hcopy, hw₂, hw₃, hvalues, hr, hw₅], hle₅⟩
    · exact ⟨r, st₄, by simp [writeOption, hcopy, hw₂, hw₃, hvalues, hr], Nat.le_trans hle₃ hle₄⟩

end

/-! ### The strings of a call -/

/-- The strings that a call of the callback makes (`write_option` frees its own). -/
def encodedStrings (env : OptionEnv) (opts : FormOptions) (key value : CStr) (st : FormState) : List StrPtr :=
  if opts.raw then []
  else
    match encodeParam env key st with
    | (none, _) => []
    | (some encodedKey, st) =>
      match encodeParam env value st with
      | (none, _) => [encodedKey.ptr]
      | (some encodedValue, _) => [encodedKey.ptr, encodedValue.ptr]

/-- The same of all the calls of an iteration. -/
def allEncodedStrings (env : OptionEnv) (opts : FormOptions) : List (CStr × CStr) → FormState → List StrPtr
  | [], _ => []
  | (key, value) :: form, st => encodedStrings env opts key value st ++
      ((formHashCallback env opts key value st).elim [] fun r =>
        if r.1 ≠ 0 then [] else allEncodedStrings env opts form r.2)

/-- The form in a hash with these entries, as the callback gets it. -/
def formOf (xs : List Slot) : List (CStr × CStr) := xs.map fun s => (⟨.hash s.keyAt, s.key⟩, ⟨.hash s.valueAt, s.value⟩)

/-- `free` of a string, in the memory of the hash. -/
def freeStr (m : HashMem) : StrPtr → Option HashMem
  | .hash a => m.freeString (some a)
  | .block _ => some m

/-- The iteration over the form in the hash at `h` has a result, it frees what it has made, each string once and none
    of the hash, and in the memory after that the hash can be iterated and destroyed. -/
structure FreesOwn (env : OptionEnv) (opts : FormOptions) (m : HashMem) (h : Addr) (xs : List Slot) (st : FormState) :
    Prop where
  result : ∃ st', iterateForm env opts (formOf xs) st = some st' ∧
    st'.freed = st.freed ++ allEncodedStrings env opts (formOf xs) st
  once : (allEncodedStrings env opts (formOf xs) st).Nodup
  own : ∀ a, .hash a ∉ allEncodedStrings env opts (formOf xs) st
  hash : ∃ m', (allEncodedStrings env opts (formOf xs) st).foldlM freeStr m = some m' ∧
    (∀ (σ : Type) (f : σ → Bytes → Bytes → Int × σ) (d : σ),
      nlHashIterate (some h) (pureCallback f) d m' = some (OrderedMap.visit f (xs.map Slot.pair) d, m')) ∧
    ∃ m'', nlHashDestroy (some h) m' = some m''

section
variable {env : OptionEnv} {opts : FormOptions} {key value encodedKey encodedValue : CStr} {st st' : FormState}
  {form : List (CStr × CStr)} {formType : Int} {str : Bytes} {r : Int}

/-- Nothing in an encoded text is escaped. -/
theorem count_encode : nlCountEscapes (nlUrlEncode str true false) = 0 := by
  refine List.countP_eq_zero.mpr ?_
  intro c hc hne
  have hmem := mem_escChars (c := c) (by simpa using hne)
  have hno : ∀ p ∈ escChars, isalnum p.1 = false ∧ p.1 ∉ bytes "-_.~%" := by
    simp [escChars, bytes, isalnum, isalpha, isdigit]
  obtain ⟨halnum, hmark⟩ := hno _ hmem
  exact not_mem_encode halnum hmark hc

theorem count_formopt : nlCountEscapes (formOptions formType).formopt = 0 := by
  refine List.countP_eq_zero.mpr ?_
  intro c hc
  simp [plain_formopt c hc]

/-! ### Forms that are encoded -/

/-- Whether or not the option is written, both strings are freed. -/
theorem sendParam_encoded (env : OptionEnv) (hraw : opts.raw = false) (hopt : nlCountEscapes opts.formopt = 0)
    (hk : nlCountEscapes encodedKey.text = 0) (hv : nlCountEscapes encodedValue.text = 0) (st : FormState) :
    ∃ r st', sendParam env opts encodedKey encodedValue st = some (r, st') ∧
      st'.freed = st.freed ++ [encodedKey.ptr, encodedValue.ptr] ∧ st.option.allocs ≤ st'.option.allocs := by
  have hlt : ∀ {n : Nat}, n = 0 → n < 2 ^ 31 := fun hn => hn ▸ Nat.two_pow_pos 31
  have hargs : ∀ a ∈ [((1 : Int), encodedKey.text), (0, bytes "="), (1, encodedValue.text)],
      a.1 ≠ 0 → nlCountEscapes a.2 < 2 ^ 31 := by
    simp only [List.mem_cons, List.not_mem_nil, or_false]
    rintro a (rfl | rfl | rfl) hne
    · exact hlt hk
    · exact absurd rfl hne
    · exact hlt hv
  obtain ⟨r, option, hwrite, hle⟩ := writeOption_total env (hlt hopt) hargs st.option
  by_cases hr : r = 0
  · exact ⟨0, { st with option, freed := st.freed ++ [encodedKey.ptr, encodedValue.ptr] },
      by simp [sendParam, hwrite, hr, hraw], rfl, hle⟩
  · exact ⟨-1, (formError [encodedKey, encodedValue] { st with option }).2, by simp [sendParam, hwrite, hr, formError],
      rfl, hle⟩

/-- What a call makes are the next one or two strings, and it frees them. -/
theorem formHashCallback_encoded (env : OptionEnv) (hraw : opts.raw = false) (hopt : nlCountEscapes opts.formopt = 0)
    (key value : CStr) (st : FormState) : ∃ r st', formHashCallback env opts key value st = some (r, st') ∧
      st'.freed = st.freed ++ encodedStrings env opts key value st ∧
      st.option.allocs ≤ st'.option.allocs ∧ (encodedStrings env opts key value st).Nodup ∧
      ∀ p ∈ encodedStrings env opts key value st, ∃ n, p = .block n ∧ st.option.allocs ≤ n ∧ n < st'.option.allocs := by
  unfold formHashCallback encodedStrings
  simp only [hraw, Bool.false_eq_true, if_false]
  rcases hkey : encodeParam env key st with ⟨_ | k, st₁⟩
  · obtain ⟨-, ⟨hfreed, hallocs⟩, -⟩ := encodeParam_spec hkey
    have hle : st.option.allocs ≤ st₁.option.allocs := hallocs ▸ Nat.le_succ _
    exact ⟨-1, _, rfl, by simp [hfreed], hle, List.nodup_nil, by simp⟩
  obtain ⟨-, ⟨hfreed₁, hallocs₁⟩, hk⟩ := encodeParam_spec hkey
  obtain ⟨hkptr, hktext⟩ := hk k rfl
  simp only
  rcases hvalue : encodeParam env value st₁ with ⟨_ | v, st₂⟩
  · obtain ⟨-, ⟨hfreed₂, hallocs₂⟩, -⟩ := encodeParam_spec hvalue
    have hlt : st.option.allocs < st₂.option.allocs := by omega
    refine ⟨-1, _, rfl, by simp [hfreed₂, hfreed₁], Nat.le_of_lt hlt, by simp, ?_⟩
    intro p hp
    exact ⟨st.option.allocs, (List.mem_singleton.mp hp).trans hkptr, Nat.le_refl _, hlt⟩
  obtain ⟨-, ⟨hfreed₂, hallocs₂⟩, hv⟩ := encodeParam_spec hvalue
  obtain ⟨hvptr, hvtext⟩ := hv v rfl
  have hk0 : nlCountEscapes k.text = 0 := hktext ▸ count_encode
  have hv0 : nlCountEscapes v.text = 0 := hvtext ▸ count_encode
  obtain ⟨r, st', hsend, hfreed, hle⟩ := sendParam_encoded env hraw hopt hk0 hv0 st₂
  rw [hallocs₂, hallocs₁] at hle
  rw [hallocs₁] at hvptr
  refine ⟨r, st', hsend, by rw [hfreed, hfreed₂, hfreed₁], by omega, by simp [hkptr, hvptr], ?_⟩
  intro p hp
  rcases List.mem_cons.mp hp with rfl | hp
  · exact ⟨st.option.allocs, hkptr, Nat.le_refl _, by omega⟩
  · exact ⟨st.option.allocs + 1, (List.mem_singleton.mp hp).trans hvptr, Nat.le_succ _, by omega⟩

theorem iterateForm_encoded (env : OptionEnv) (hraw : opts.raw = false) (hopt : nlCountEscapes opts.formopt = 0)
    (form : List (CStr × CStr)) (st : FormState) : (∃ st', iterateForm env opts form st = some st' ∧
      st'.freed = st.freed ++ allEncodedStrings env opts form st) ∧ (allEncodedStrings env opts form st).Nodup ∧
      ∀ p ∈ allEncodedStrings env opts form st, ∃ n, p = .block n ∧ st.option.allocs ≤ n := by
  induction form generalizing st with
  | nil => exact ⟨⟨st, rfl, (List.append_nil _).symm⟩, List.nodup_nil, by simp [allEncodedStrings]⟩
  | cons pair form ih =>
    obtain ⟨key, value⟩ := pair
    obtain ⟨r, st₁, hcall, hfreed, hle, honce, hown⟩ := formHashCallback_encoded env hraw hopt key value st
    by_cases hr : r = 0
    · obtain ⟨⟨st', hiterate, hfreed'⟩, honce', hown'⟩ := ih st₁
      have hall : allEncodedStrings env opts ((key, value) :: form) st =
          encodedStrings env opts key value st ++ allEncodedStrings env opts form st₁ := by
        simp [allEncodedStrings, hcall, hr]
      rw [hall]
      refine ⟨⟨st', by simp [iterateForm, hcall, hr, hiterate], by rw [hfreed', hfreed, List.append_assoc]⟩, ?_, ?_⟩
      · refine List.nodup_append.mpr ⟨honce, honce', ?_⟩
        -- What the call makes has smaller numbers than what the calls after it make.
        rintro p hp q hq rfl
        obtain ⟨n, hn, -, hlt⟩ := hown p hp
        obtain ⟨n', hn', hle'⟩ := hown' p hq
        cases hn.symm.trans hn'
        exact Nat.lt_irrefl _ (Nat.lt_of_lt_of_le hlt hle')
      · intro p hp
        rcases List.mem_append.mp hp with hp | hp
        · obtain ⟨n, hn, hle, -⟩ := hown p hp
          exact ⟨n, hn, hle⟩
        · obtain ⟨n, hn, hle'⟩ := hown' p hp
          exact ⟨n, hn, Nat.le_trans hle hle'⟩
    · have hall : allEncodedStrings env opts ((key, value) :: form) st = encodedStrings env opts key value st := by
        simp [allEncodedStrings, hcall, hr]
      rw [hall]
      refine ⟨⟨st₁, by simp [iterateForm, hcall, hr], hfreed⟩, honce, ?_⟩
      intro p hp
      obtain ⟨n, hn, hle, -⟩ := hown p hp
      exact ⟨n, hn, hle⟩

/-! ### Forms that are not -/

/-- A call makes no string, and frees those of the hash if the option is not written. -/
theorem formHashCallback_raw (key value : CStr) (hraw : opts.raw = true) {option : OptionState}
    (hwrite : writeOption env opts.formopt [(1, key.text), (0, bytes "="), (1, value.text)] st.option =
      some (r, option)) :
    ∃ r' st', formHashCallback env opts key value st = some (r', st') ∧
      if r = 0 then r' = 0 ∧ st' = { st with option } else r' ≠ 0 ∧ st'.freed = st.freed ++ [key.ptr, value.ptr] := by
  by_cases hr : r = 0
  · exact ⟨0, { st with option }, by simp [formHashCallback, hraw, sendParam, hwrite, hr], by simp [hr]⟩
  · refine ⟨-1, (formError [key, value] { st with option }).2, ?_, ?_⟩
    · simp [formHashCallback, hraw, sendParam, hwrite, hr, formError]
    · simp [hr, formError]

theorem allEncodedStrings_raw (env : OptionEnv) (hraw : opts.raw = true) (form : List (CStr × CStr)) (st : FormState) :
    allEncodedStrings env opts form st = [] := by
  induction form generalizing st with
  | nil => rfl
  | cons pair form ih =>
    have hnone : encodedStrings env opts pair.1 pair.2 st = [] := by simp [encodedStrings, hraw]
    rw [allEncodedStrings, hnone, List.nil_append]
    cases formHashCallback env opts pair.1 pair.2 st with
    | none => rfl
    | some r =>
      rw [Option.elim_some, ih]
      exact ite_self []

/-- What `write_option` is called with for an entry. -/
def paramArgs (s : Slot) : List (Int × Bytes) := [(1, s.key), (0, bytes "="), (1, s.value)]

/-- The first option, and those that come 10 allocations and 6 writes later. -/
theorem optionsWritten_cons {opt : Bytes} {a w : Nat} {s : Slot} {xs : List Slot} :
    (∀ i s', (s :: xs)[i]? = some s' → OptionWritten env opt (paramArgs s') (a + 10 * i) (w + 6 * i)) ↔
      OptionWritten env opt (paramArgs s) a w ∧
        ∀ i s', xs[i]? = some s' → OptionWritten env opt (paramArgs s') (a + 10 + 10 * i) (w + 6 + 6 * i) := by
  constructor
  · intro h
    refine ⟨h 0 s rfl, ?_⟩
    intro i s' hs
    have hi := h (i + 1) s' hs
    rwa [Nat.mul_succ, Nat.mul_succ, Nat.add_comm _ 10, Nat.add_comm _ 6, ← Nat.add_assoc, ← Nat.add_assoc] at hi
  · rintro ⟨hw, h⟩ i s' hs
    cases i with
    | zero =>
      obtain rfl := Option.some.inj hs
      exact hw
    | succ i =>
      have hi := h i s' hs
      rwa [Nat.add_assoc, Nat.add_assoc, Nat.add_comm 10, Nat.add_comm 6] at hi

/-- Each option takes 10 allocations and 6 writes. -/
theorem iterateForm_raw (hraw : opts.raw = true) (xs : List Slot) (st : FormState) :
    (∃ st', iterateForm env opts (formOf xs) st = some st' ∧ st'.freed = st.freed) ↔
      ∀ i s, xs[i]? = some s →
        OptionWritten env opts.formopt (paramArgs s) (st.option.allocs + 10 * i) (st.option.writes + 6 * i) := by
  induction xs generalizing st with
  | nil => exact ⟨fun _ i s hs => by simp at hs, fun _ => ⟨st, rfl, rfl⟩⟩
  | cons s xs ih =>
    have hform : formOf (s :: xs) = (⟨.hash s.keyAt, s.key⟩, ⟨.hash s.valueAt, s.value⟩) :: formOf xs := rfl
    rw [optionsWritten_cons]
    by_cases hw : OptionWritten env opts.formopt (paramArgs s) st.option.allocs st.option.writes
    · obtain ⟨option, hwrite, hallocs, hwrites⟩ := writeOption_of hw
      have hallocs : option.allocs = st.option.allocs + 10 := hallocs
      have hwrites : option.writes = st.option.writes + 6 := hwrites
      obtain ⟨r', st', hcall, hr⟩ := formHashCallback_raw ⟨.hash s.keyAt, s.key⟩ ⟨.hash s.valueAt, s.value⟩ hraw
        hwrite
      obtain ⟨rfl, rfl⟩ := (if_pos rfl).mp hr
      have hstep : iterateForm env opts (formOf (s :: xs)) st =
          iterateForm env opts (formOf xs) { st with option } := by
        simp [hform, iterateForm, hcall]
      rw [hstep, and_iff_right hw, ← hallocs, ← hwrites]
      exact ih { st with option }
    · refine ⟨?_, fun h => absurd h.1 hw⟩
      rintro ⟨st', hiterate, hfreed⟩
      rcases hwrite : writeOption env opts.formopt (paramArgs s) st.option with _ | ⟨r, option⟩
      · have hnone : sendParam env opts ⟨.hash s.keyAt, s.key⟩ ⟨.hash s.valueAt, s.value⟩ st = none := by
          rw [paramArgs] at hwrite
          simp [sendParam, hwrite]
        simp [hform, iterateForm, formHashCallback, hraw, hnone] at hiterate
      · have hr : r ≠ 0 := by
          rintro rfl
          exact hw (writeOption_iff.mp ⟨option, hwrite⟩)
        obtain ⟨r', st₁, hcall, hfail⟩ := formHashCallback_raw ⟨.hash s.keyAt, s.key⟩ ⟨.hash s.valueAt, s.value⟩
          hraw hwrite
        rw [if_neg hr] at hfail
        simp only [hform, iterateForm, hcall, Option.bind_eq_bind, Option.bind_some, if_pos hfail.1, Option.pure_def,
          Option.some.injEq] at hiterate
        rw [← hiterate, hfail.2] at hfreed
        simp at hfreed

/-! ### The hash afterwards -/

theorem freeStr_blocks {m : HashMem} {ps : List StrPtr} (h : ∀ p ∈ ps, ∃ n, p = .block n) :
    ps.foldlM freeStr m = some m := by
  induction ps with
  | nil => rfl
  | cons p ps ih =>
    obtain ⟨⟨n, rfl⟩, hps⟩ := List.forall_mem_cons.mp h
    rw [List.foldlM_cons]
    exact ih hps

end

/-- For every answer of the environment, the callback frees just what it has made if and only if the form is encoded
    or every parameter is written. -/
theorem freesOwn_iff (env : OptionEnv) (formType : Int) (m : HashMem) (h t : Addr) (xs : List Slot) (st : FormState)
    (R : HashRep m h t xs) (hlen : xs.length < 2 ^ 32) : FreesOwn env (formOptions formType) m h xs st ↔
      formType ≠ nlMultipart ∨ ∀ i s, xs[i]? = some s → OptionWritten env (formOptions formType).formopt (paramArgs s)
        (st.option.allocs + 10 * i) (st.option.writes + 6 * i) := by
  have hafter : ∀ ps : List StrPtr, (∀ p ∈ ps, ∃ n, p = .block n) → ∃ m', ps.foldlM freeStr m = some m' ∧
      (∀ (σ : Type) (f : σ → Bytes → Bytes → Int × σ) (d : σ),
        nlHashIterate (some h) (pureCallback f) d m' = some (OrderedMap.visit f (xs.map Slot.pair) d, m')) ∧
      ∃ m'', nlHashDestroy (some h) m' = some m'' := by
    intro ps hps
    have I : IsMap xs R.toMap := rfl
    obtain ⟨m'', hdestroy, -⟩ := hashDestroy_rep R hlen
    exact ⟨m, freeStr_blocks hps, fun _ f d => hashIterate_rep f d R I hlen, m'', hdestroy⟩
  by_cases hm : formType = nlMultipart
  · have hraw : (formOptions formType).raw = true := decide_eq_true hm
    have hnone := allEncodedStrings_raw env hraw (formOf xs) st
    rw [← iterateForm_raw hraw xs st]
    constructor
    · intro F
      obtain ⟨st', hiterate, hfreed⟩ := F.result
      rw [hnone, List.append_nil] at hfreed
      exact Or.inr ⟨st', hiterate, hfreed⟩
    · rintro (hne | ⟨st', hiterate, hfreed⟩)
      · exact absurd hm hne
      · have hmade := hafter [] (by simp)
        refine ⟨⟨st', hiterate, ?_⟩, ?_, ?_, ?_⟩
        · rw [hnone, List.append_nil, hfreed]
        · exact hnone ▸ List.nodup_nil
        · exact hnone ▸ fun _ => List.not_mem_nil
        · rwa [hnone]
  · have hraw : (formOptions formType).raw = false := decide_eq_false hm
    refine ⟨fun _ => Or.inl hm, fun _ => ?_⟩
    obtain ⟨hresult, honce, hown⟩ := iterateForm_encoded env hraw count_formopt (formOf xs) st
    refine ⟨hresult, honce, ?_, hafter _ fun p hp => ?_⟩
    · intro a ha
      obtain ⟨n, hn, -⟩ := hown _ ha
      cases hn
    · obtain ⟨n, hn, -⟩ := hown p hp
      exact ⟨n, hn⟩

/-- A hash with the pair `f` and `x`. -/
theorem exists_formHash : ∃ m h t s, HashRep m h t [s] ∧ s.pair = ([102], [120]) := by
  obtain ⟨h, t, m, -, R, -, -⟩ := hashCreate_rep {}
  have hnew : ([102] : Bytes) ∉ ([] : List Slot).map (·.key) := List.not_mem_nil
  obtain ⟨m', -, R', -⟩ := hashAdd_rep [120] allocates_allocated R (by decide) hnew
  exact ⟨m', h, t, _, R', rfl⟩

/-- As `curl` gets it where all is written. -/
theorem freesOwn_iff_pair : ∃ m h t s, HashRep m h t [s] ∧ s.pair = ([102], [120]) ∧
    (FreesOwn ⟨fun _ => true, fun n => [4, 2, 1, 1, 1, 2].getD n 0⟩ (formOptions nlMultipart) m h [s] {} ↔
      nlMultipart ≠ nlMultipart ∨ ∀ i s', [s][i]? = some s' →
        OptionWritten ⟨fun _ => true, fun n => [4, 2, 1, 1, 1, 2].getD n 0⟩ (formOptions nlMultipart).formopt
          (paramArgs s') (0 + 10 * i) (0 + 6 * i)) := by
  obtain ⟨m, h, t, s, R, hpair⟩ := exists_formHash
  exact ⟨m, h, t, s, R, hpair, freesOwn_iff ⟨fun _ => true, fun n => [4, 2, 1, 1, 1, 2].getD n 0⟩ nlMultipart m h t [s]
    {} R (by simp)⟩

/-- Nothing can be written. -/
theorem not_freesOwn : ∃ m h t s, HashRep m h t [s] ∧ s.pair = ([102], [120]) ∧
    ¬FreesOwn ⟨fun _ => true, fun _ => -1⟩ (formOptions nlMultipart) m h [s] {} := by
  obtain ⟨m, h, t, s, R, hpair⟩ := exists_formHash
  refine ⟨m, h, t, s, R, hpair, ?_⟩
  intro F
  have hraw : (formOptions nlMultipart).raw = true := by decide
  obtain ⟨st', hiterate, hfreed⟩ := F.result
  rw [allEncodedStrings_raw _ hraw, List.append_nil] at hfreed
  obtain ⟨-, hwrite, -⟩ := (iterateForm_raw hraw [s] {}).mp ⟨st', hiterate, hfreed⟩ 0 s rfl
  simp at hwrite

end Nlutils.UrlReq
