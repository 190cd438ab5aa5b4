import Nlutils.Lib.Heap
import Nlutils.Url.RoundTrip
import Nlutils.UrlReq.CurlOption
import Nlutils.UrlReq.State

/-! # Form parameters for curl

`start_curl` hands each pair of a form to curl as one option. For forms that are encoded, the texts that curl reads
determine the form. -/

namespace Nlutils.UrlReq

/-- Where a string is: in the hash, or in the memory from one of the allocations. -/
inductive StrPtr
  | hash (a : Lib.Addr)
  | block (n : Nat)
  deriving DecidableEq, Repr

structure CStr where
  ptr : StrPtr
  text : Bytes
  deriving DecidableEq, Repr

/-- `struct form_options`, without the pointer to `writefd` -/
structure FormOptions where
  formopt : Bytes
  raw : Bool
  deriving DecidableEq, Repr

/-- What is written, `writefd`, and which descriptors have been closed and strings freed. -/
structure FormState where
  option : OptionState := {}
  writefd : Int := 3
  closed : List Int := []
  freed : List StrPtr := []
  deriving DecidableEq, Repr

/-- `nl_url_encode(str, 1, 0)` -/
def encodeParam (env : OptionEnv) (str : CStr) (st : FormState) : Option CStr × FormState :=
  let st' := { st with option := { st.option with allocs := st.option.allocs + 1 } }
  (if env.alloc st.option.allocs then some ⟨.block st.option.allocs, nlUrlEncode str.text true false⟩ else none, st')

/-- The error label of `form_hash_callback`. -/
def formError (encoded : List CStr) (st : FormState) : Int × FormState :=
  (-1, { st with
    freed := st.freed ++ encoded.map (·.ptr)
    closed := st.closed ++ [st.writefd]
    writefd := -1 })

/-- From `write_option` on. -/
def sendParam (env : OptionEnv) (opts : FormOptions) (encodedKey encodedValue : CStr) (st : FormState) :
    Option (Int × FormState) := do
  let (r, option) ←
    writeOption env opts.formopt [(1, encodedKey.text), (0, bytes "="), (1, encodedValue.text)] st.option
  let st := { st with option }
  if r ≠ 0 then return formError [encodedKey, encodedValue] st
  else if opts.raw then return (0, st)
  else return (0, { st with freed := st.freed ++ [encodedKey.ptr, encodedValue.ptr] })

def formHashCallback (env : OptionEnv) (opts : FormOptions) (key value : CStr) (st : FormState) :
    Option (Int × FormState) :=
  if opts.raw then sendParam env opts key value st
  else
    match encodeParam env key st with
    | (none, st) => some (formError [] st)
    | (some encodedKey, st) =>
      match encodeParam env value st with
      | (none, st) => some (formError [encodedKey] st)
      | (some encodedValue, st) => sendParam env opts encodedKey encodedValue st

/-- `nl_hash_iterate` with `form_hash_callback` over the pairs of a hash. -/
def iterateForm (env : OptionEnv) (opts : FormOptions) : List (CStr × CStr) → FormState → Option FormState
  | [], st => some st
  | (key, value) :: form, st => do
    let (r, st) ← formHashCallback env opts key value st
    if r ≠ 0 then return st else iterateForm env opts form st

/-- The options for a form type. -/
def formOptions (formType : Int) : FormOptions where
  formopt := if formType = nlMultipart then bytes "form" else bytes "data-binary"
  raw := formType = nlMultipart

/-- The option for forms that are appended to the URL. -/
def writeGet (env : OptionEnv) (formType : Int) (st : OptionState) : Option (Int × OptionState) :=
  if formType = nlOnUrl then writeOption env (bytes "get") [] st else some (0, st)

/-- The form data in `start_curl`: 0, or -1 where it goes on at its error label. -/
def sendForm (env : OptionEnv) (formType : Int) (form : List (CStr × CStr)) (st : FormState) :
    Option (Int × FormState) := do
  let (r, option) ← writeGet env formType st.option
  if r ≠ 0 then return (-1, { st with option })
  let st ← iterateForm env (formOptions formType) form { st with option }
  return (if st.writefd = -1 then -1 else 0, st)

/-! ### What the texts mean -/

/-- The text that curl is to read for a pair. -/
def formParam (formType : Int) (pair : Bytes × Bytes) : Bytes :=
  if formType = nlMultipart then pair.1.map readBack ++ bytes "=" ++ pair.2.map readBack
  else nlUrlEncode pair.1 true false ++ bytes "=" ++ nlUrlEncode pair.2 true false

/-- A piece with one `=` in it, split there and decoded. -/
def decodePair (ignorePlus : Bool) (piece : Bytes) : Option (Bytes × Bytes) :=
  match piece.splitOn 61 with
  | [key, value] => some (nlUrlDecode ignorePlus key, nlUrlDecode ignorePlus value)
  | _ => none

/-- The pairs in a text that joins them with `&`. -/
def decodeForm (ignorePlus : Bool) (text : Bytes) : Option (List (Bytes × Bytes)) :=
  if text = [] then some [] else (text.splitOn 38).mapM (decodePair ignorePlus)

/-- The texts of the pairs of a form in memory. -/
def formTexts (form : List (CStr × CStr)) : List (Bytes × Bytes) := form.map fun p => (p.1.text, p.2.text)

/-- What is written in front of the parameters. -/
def formHead (formType : Int) : Bytes := if formType = nlOnUrl then bytes "get=\"\"\n" else []

/-- Curl reads a parameter for each pair, and the parameters that it joins determine the pairs. -/
structure FormKept (pairs : List (Bytes × Bytes)) (formType : Int) : Prop where
  decode : ∀ ignorePlus, decodeForm ignorePlus ((bytes "&").intercalate (pairs.map (formParam formType))) = some pairs
  lines : ∀ env form st st', formTexts form = pairs → sendForm env formType form st = some (0, st') →
    ∃ lines, st'.option.written = st.option.written ++ formHead formType ++ lines.flatten ∧
      List.Forall₂ (fun pair line => CurlLine (formOptions formType).formopt [formParam formType pair] line) pairs lines

section
variable {env : OptionEnv} {opts : FormOptions} {k v : CStr} {st st' : FormState} {form : List (CStr × CStr)}
  {formType : Int} {str key value param line : Bytes} {args : List (Int × Bytes)} {pairs : List (Bytes × Bytes)}
  {ignorePlus : Bool} {c : Byte} {r : Int}

/-! ### Encoded texts -/

/-- What never comes out of encoding. -/
theorem not_mem_encode (halnum : isalnum c = false) (hmark : c ∉ bytes "-_.~%") : c ∉ nlUrlEncode str true false := by
  intro hmem
  obtain ⟨d, -, hd⟩ := List.mem_flatMap.mp hmem
  have hpercent : c ≠ 37 := fun h => hmark (h ▸ by decide)
  have hxdigit : isxdigit c = false := by
    simp only [isalnum, isalpha, isdigit, isxdigit, Bool.or_eq_false_iff, Bool.and_eq_false_iff,
      decide_eq_false_iff_not, UInt8.not_le, UInt8.lt_iff_toNat_lt, UInt8.toNat_ofNat] at halnum ⊢
    omega
  have hpiece : ∀ {p}, UrlPiece true false d p → c ∉ p := by
    intro p hp
    cases hp with
    | unreserved h =>
      rw [List.mem_singleton]
      rintro rfl
      rcases h with h | h
      · exact Bool.noConfusion (halnum.symm.trans h)
      · exact hmark (List.mem_append_left [37] h)
    | reserved h => cases h
    | plus h => cases h
    | escape hx hy =>
      simp only [List.mem_cons, List.not_mem_nil, or_false, not_or]
      refine ⟨hpercent, ?_, ?_⟩
      · rintro rfl
        exact Bool.noConfusion (hxdigit.symm.trans hx)
      · rintro rfl
        exact Bool.noConfusion (hxdigit.symm.trans hy)
  exact hpiece (urlEncodeByte_piece d) hd

theorem formParam_encoded (hm : formType ≠ nlMultipart) :
    formParam formType (key, value) = [61].intercalate [nlUrlEncode key true false, nlUrlEncode value true false] := by
  rw [formParam, if_neg hm]
  simp [bytes, List.intercalate]

theorem decodePair_formParam (hm : formType ≠ nlMultipart) (hk : 0 ∉ key) (hv : 0 ∉ value) :
    decodePair ignorePlus (formParam formType (key, value)) = some (key, value) := by
  have hsep : ∀ str, (61 : Byte) ∉ nlUrlEncode str true false := fun str => not_mem_encode (by decide) (by decide)
  have hsplit : (formParam formType (key, value)).splitOn 61 =
      [nlUrlEncode key true false, nlUrlEncode value true false] := by
    rw [formParam_encoded hm]
    refine List.splitOn_intercalate 61 ?_ (List.cons_ne_nil _ _)
    simp only [List.mem_cons, List.not_mem_nil, or_false]
    rintro l (rfl | rfl)
    · exact hsep key
    · exact hsep value
  have hback : ∀ {str : Bytes}, 0 ∉ str → nlUrlDecode ignorePlus (nlUrlEncode str true false) = str := by
    intro str h
    rw [nlUrlDecode_encode h, map_urlReadBack_eq_iff]
    simp
  simp only [decodePair, hsplit, hback hk, hback hv]

theorem mapM_decodePair (hm : formType ≠ nlMultipart) (h : ∀ p ∈ pairs, 0 ∉ p.1 ∧ 0 ∉ p.2) :
    (pairs.map (formParam formType)).mapM (decodePair ignorePlus) = some pairs := by
  induction pairs with
  | nil => rfl
  | cons p pairs ih =>
    obtain ⟨⟨hk, hv⟩, hpairs⟩ := List.forall_mem_cons.mp h
    rw [List.map_cons, List.mapM_cons, decodePair_formParam hm hk hv, ih hpairs]
    rfl

theorem formParam_ne_nil {p : Bytes × Bytes} : formParam formType p ≠ [] := by
  have heq : bytes "=" = [61] := by decide
  unfold formParam
  split <;> simp [heq]

theorem decodeForm_join (hm : formType ≠ nlMultipart) (h : ∀ p ∈ pairs, 0 ∉ p.1 ∧ 0 ∉ p.2) :
    decodeForm ignorePlus ((bytes "&").intercalate (pairs.map (formParam formType))) = some pairs := by
  have hamp : bytes "&" = [38] := by decide
  rw [hamp]
  cases pairs with
  | nil => rfl
  | cons p pairs =>
    have hsep : ∀ l ∈ (p :: pairs).map (formParam formType), (38 : Byte) ∉ l := by
      intro l hl
      obtain ⟨⟨key, value⟩, -, rfl⟩ := List.mem_map.mp hl
      have hne : ∀ str, (38 : Byte) ∉ nlUrlEncode str true false := fun str => not_mem_encode (by decide) (by decide)
      rw [formParam, if_neg hm]
      simp [hne, bytes]
    have hsplit := List.splitOn_intercalate 38 hsep (List.cons_ne_nil _ _)
    have htext : [38].intercalate ((p :: pairs).map (formParam formType)) ≠ [] := by
      intro hnil
      rw [hnil, List.splitOn_nil, List.map_cons, List.cons.injEq] at hsplit
      exact formParam_ne_nil hsplit.1.symm
    rw [decodeForm, if_neg htext, hsplit, mapM_decodePair hm h]

/-! ### What is written -/

/-- A line that sets an option whose name needs no escaping. -/
theorem curlLine_of_args (hkey : ∀ c ∈ key, getEscape c = 0) (hraw : ∀ a ∈ args, a.1 = 0 → RawValue a.2) :
    CurlLine key [args.flatMap valueRead] (escaped key ++ bytes "=\"" ++ args.flatMap valueText ++ bytes "\"\n") := by
  refine ⟨args.flatMap valueText, by rw [escaped_plain hkey], newline_not_mem_body hraw, hasBareQuote_body hraw, ?_⟩
  rw [curlParam_body hraw, List.flatten_singleton]

theorem plain_formopt : ∀ c ∈ (formOptions formType).formopt, getEscape c = 0 := by
  have hform : bytes "form" = [102, 111, 114, 109] := by decide
  have hdata : bytes "data-binary" = [100, 97, 116, 97, 45, 98, 105, 110, 97, 114, 121] := by decide
  unfold formOptions
  split
  · simp [hform, getEscape, escChars]
  · simp [hdata, getEscape, escChars]

theorem sendParam_spec (hopt : ∀ c ∈ opts.formopt, getEscape c = 0) (h : sendParam env opts k v st = some (r, st')) :
    (r ≠ 0 ∧ st'.writefd = -1) ∨ (r = 0 ∧ st'.writefd = st.writefd ∧ ∃ line,
      st'.option.written = st.option.written ++ line ∧
      CurlLine opts.formopt [k.text.map readBack ++ bytes "=" ++ v.text.map readBack] line) := by
  simp only [sendParam, Option.bind_eq_bind, Option.bind_eq_some_iff] at h
  obtain ⟨⟨r', option⟩, hwrite, h⟩ := h
  simp only at h
  split at h
  · simp only [formError, Option.pure_def, Option.some.injEq, Prod.mk.injEq] at h
    obtain ⟨rfl, rfl⟩ := h
    exact Or.inl ⟨by decide, rfl⟩
  · next hr =>
    obtain rfl := not_not.mp hr
    have hraw : ∀ a ∈ [((1 : Int), k.text), (0, bytes "="), (1, v.text)], a.1 = 0 → RawValue a.2 := by
      simp only [List.mem_cons, List.not_mem_nil, or_false]
      rintro a (rfl | rfl | rfl) h0
      · exact absurd h0 Int.one_ne_zero
      · decide
      · exact absurd h0 Int.one_ne_zero
    have hline := curlLine_of_args hopt hraw
    have hread : [(1, k.text), (0, bytes "="), (1, v.text)].flatMap valueRead =
        k.text.map readBack ++ bytes "=" ++ v.text.map readBack := by simp [valueRead]
    rw [hread] at hline
    have hwritten := writeOption_written hwrite
    split at h
    · simp only [Option.pure_def, Option.some.injEq, Prod.mk.injEq] at h
      obtain ⟨rfl, rfl⟩ := h
      exact Or.inr ⟨rfl, rfl, _, hwritten, hline⟩
    · simp only [Option.pure_def, Option.some.injEq, Prod.mk.injEq] at h
      obtain ⟨rfl, rfl⟩ := h
      exact Or.inr ⟨rfl, rfl, _, hwritten, hline⟩

theorem map_readBack_encode : (nlUrlEncode str true false).map readBack = nlUrlEncode str true false := by
  have hff : (12 : Byte) ∉ nlUrlEncode str true false := not_mem_encode (by decide) (by decide)
  have hmap : (nlUrlEncode str true false).map readBack = (nlUrlEncode str true false).map id := by
    refine List.map_congr_left ?_
    intro c hc
    have hne : c ≠ 12 := fun h => hff (h ▸ hc)
    exact if_neg hne
  rw [hmap, List.map_id]

/-- The string that is made has the number of its allocation. -/
theorem encodeParam_spec {str : CStr} {e : Option CStr} (h : encodeParam env str st = (e, st')) :
    (st'.writefd = st.writefd ∧ st'.option.written = st.option.written) ∧
      (st'.freed = st.freed ∧ st'.option.allocs = st.option.allocs + 1) ∧
      ∀ s, e = some s → s.ptr = .block st.option.allocs ∧ s.text = nlUrlEncode str.text true false := by
  simp only [encodeParam, Prod.mk.injEq] at h
  obtain ⟨rfl, rfl⟩ := h
  refine ⟨⟨rfl, rfl⟩, ⟨rfl, rfl⟩, ?_⟩
  intro s hs
  split at hs
  · obtain rfl := Option.some.inj hs
    exact ⟨rfl, rfl⟩
  · cases hs

/-- A call of the callback fails and gives up the descriptor, or writes a line for its pair. -/
theorem formHashCallback_spec (h : formHashCallback env (formOptions formType) k v st = some (r, st')) :
    (r ≠ 0 ∧ st'.writefd = -1) ∨ (r = 0 ∧ st'.writefd = st.writefd ∧ ∃ line,
      st'.option.written = st.option.written ++ line ∧
      CurlLine (formOptions formType).formopt [formParam formType (k.text, v.text)] line) := by
  unfold formHashCallback at h
  split at h
  · next hraw =>
    have hm : formType = nlMultipart := of_decide_eq_true hraw
    have hspec := sendParam_spec plain_formopt h
    rwa [formParam, if_pos hm]
  · next hraw =>
    have hm : formType ≠ nlMultipart := fun hm => hraw (decide_eq_true hm)
    have herror : ∀ {encoded st₁}, some (formError encoded st₁) = some (r, st') → r ≠ 0 ∧ st'.writefd = -1 := by
      intro encoded st₁ h
      simp only [formError, Option.some.injEq, Prod.mk.injEq] at h
      obtain ⟨rfl, rfl⟩ := h
      exact ⟨by decide, rfl⟩
    rcases hkey : encodeParam env k st with ⟨_ | encodedKey, st₁⟩
    · rw [hkey] at h
      exact Or.inl (herror h)
    rcases hvalue : encodeParam env v st₁ with ⟨_ | encodedValue, st₂⟩
    · simp only [hkey, hvalue] at h
      exact Or.inl (herror h)
    simp only [hkey, hvalue] at h
    obtain ⟨⟨hfd₁, hw₁⟩, -, hk⟩ := encodeParam_spec hkey
    obtain ⟨⟨hfd₂, hw₂⟩, -, hv⟩ := encodeParam_spec hvalue
    obtain ⟨-, htextk⟩ := hk encodedKey rfl
    obtain ⟨-, htextv⟩ := hv encodedValue rfl
    have hspec := sendParam_spec plain_formopt h
    rw [htextk, htextv, map_readBack_encode, map_readBack_encode, hfd₂, hfd₁, hw₂, hw₁] at hspec
    rwa [formParam, if_neg hm]

theorem iterateForm_spec (h : iterateForm env (formOptions formType) form st = some st') (hfd : st'.writefd ≠ -1) :
    ∃ lines, st'.option.written = st.option.written ++ lines.flatten ∧
      List.Forall₂ (fun pair line => CurlLine (formOptions formType).formopt [formParam formType pair] line)
        (formTexts form) lines := by
  induction form generalizing st with
  | nil =>
    obtain rfl : st = st' := Option.some.inj h
    exact ⟨[], by simp, .nil⟩
  | cons p form ih =>
    obtain ⟨k, v⟩ := p
    simp only [iterateForm, Option.bind_eq_bind, Option.bind_eq_some_iff] at h
    obtain ⟨⟨r, st₁⟩, hcall, h⟩ := h
    rcases formHashCallback_spec hcall with ⟨hr, hfd₁⟩ | ⟨rfl, -, line, hw, hline⟩
    · simp only [hr, ne_eq, not_false_eq_true, if_true, Option.pure_def, Option.some.injEq] at h
      exact absurd (h ▸ hfd₁) hfd
    · simp only [ne_eq, not_true_eq_false, if_false] at h
      obtain ⟨lines, hlines, hforall⟩ := ih h
      refine ⟨line :: lines, ?_, .cons hline hforall⟩
      rw [hlines, hw, List.flatten_cons, List.append_assoc]

theorem sendForm_spec (h : sendForm env formType form st = some (0, st')) :
    ∃ lines, st'.option.written = st.option.written ++ formHead formType ++ lines.flatten ∧
      List.Forall₂ (fun pair line => CurlLine (formOptions formType).formopt [formParam formType pair] line)
        (formTexts form) lines := by
  simp only [sendForm, Option.bind_eq_bind, Option.bind_eq_some_iff] at h
  obtain ⟨⟨r, option⟩, hget, h⟩ := h
  have hhead : r = 0 → option.written = st.option.written ++ formHead formType := by
    rintro rfl
    unfold formHead
    unfold writeGet at hget
    split at hget
    · next hurl =>
      rw [writeOption_written hget, if_pos hurl]
      rfl
    · next hurl =>
      rw [if_neg hurl, List.append_nil]
      obtain ⟨-, rfl⟩ := Prod.mk.inj (Option.some.inj hget)
      rfl
  simp only at h
  split at h
  · cases h
  · next hr =>
    obtain ⟨st₁, hiterate, h⟩ := Option.bind_eq_some_iff.mp h
    simp only [Option.pure_def, Option.some.injEq, Prod.mk.injEq] at h
    obtain ⟨hfd, rfl⟩ := h
    obtain ⟨lines, hlines, hforall⟩ := iterateForm_spec hiterate fun hminus => by simp [hminus] at hfd
    exact ⟨lines, by rw [hlines, hhead (not_not.mp hr)], hforall⟩

end

/-- The parameters of a form that is encoded determine its pairs. -/
theorem formKept (pairs : List (Bytes × Bytes)) (formType : Int) (hm : formType ≠ nlMultipart)
    (h : ∀ p ∈ pairs, 0 ∉ p.1 ∧ 0 ∉ p.2) : FormKept pairs formType where
  decode _ := decodeForm_join hm h
  lines _ _ _ _ hpairs hsend := hpairs ▸ sendForm_spec hsend

/-- An empty key and separators in the values. -/
theorem formKept_separators : (1 : Int) ≠ nlMultipart ∧ FormKept [([97, 32], [38, 61]), ([], [61])] 1 :=
  ⟨by decide, formKept [([97, 32], [38, 61]), ([], [61])] 1 (by decide) (by decide)⟩

end Nlutils.UrlReq
