import Nlutils.Hash.Refinement
import Nlutils.Kvp.Containment
import Nlutils.Kvp.Numbers
import Nlutils.Kvp.RoundTrip
import Nlutils.Variant.Text

/-! # Lines of records

Pairs of a key and a typed value are written into a line, with white space only where it is needed, and come back from
`nl_parse_kvp_variant`; `nl_hash_parse` puts them into a hash. -/

namespace Nlutils
open Lib Scan

/-- How a key is written: in quotation marks with escapes, or as it is. -/
inductive RecordKey
  | quoted (key : Bytes)
  | bare (key : Bytes)
  deriving DecidableEq, Repr

/-- A string in quotation marks, a word as it is, or an integer. -/
inductive RecordValue
  | quoted (value : Bytes)
  | word (value : Bytes)
  | integer (n : Int32)
  deriving DecidableEq, Repr

/-- A pair and the white space in front of it. -/
structure Record where
  space : Bytes
  key : RecordKey
  value : RecordValue
  deriving DecidableEq, Repr

def quotedText (s : Bytes) : Bytes := 34 :: (escaped s ++ [34])

def RecordKey.text : RecordKey → Bytes
  | quoted key => quotedText key
  | bare key => key

def RecordKey.string : RecordKey → Bytes
  | quoted key | bare key => key

def RecordValue.text : RecordValue → Bytes
  | quoted value => quotedText value
  | word value => value
  | integer n => printInt n.toInt

/-- The value as a string. -/
def RecordValue.string : RecordValue → Bytes
  | quoted value | word value => value
  | integer n => printInt n.toInt

/-- The value with its type. -/
def RecordValue.typed : RecordValue → KvpValue
  | quoted value | word value => .string value
  | integer n => .integer n

def RecordValue.isQuoted : RecordValue → Bool
  | quoted _ => true
  | _ => false

def Record.text (r : Record) : Bytes := r.space ++ (r.key.text ++ 61 :: r.value.text)

def recordsText (rs : List Record) : Bytes := rs.flatMap Record.text

/-- The text of a key and that of its value. -/
def Record.texts (r : Record) : KvpText := (r.key.text, r.value.text)

/-- The call of a typed callback that a record is to lead to. -/
def Record.call (r : Record) : TypedCall := (r.key.string, r.value.string, r.value.typed)

/-- A closing quotation mark must not look like an escaped one, and what is not quoted must not end early. -/
def RecordKey.Readable : RecordKey → Prop
  | quoted key => ¬EndsWith key 92
  | bare key => key ≠ [] ∧ key.at 0 ≠ 34 ∧ ∀ c ∈ key, isspace c = false ∧ c ≠ 61

/-- A word does not look like a number or a truth value. -/
def RecordValue.Readable : RecordValue → Prop
  | quoted value => ¬EndsWith value 92
  | word value => value ≠ [] ∧ (∀ c ∈ value, isspace c = false) ∧ isdigit (value.at 0) = false ∧
      value.at 0 ∉ [34, 43, 45, 46] ∧ value ≠ bytes "true" ∧ value ≠ bytes "false"
  | integer _ => True

structure Record.Readable (r : Record) : Prop where
  space : ∀ c ∈ r.space, isspace c = true
  key : r.key.Readable
  value : r.value.Readable

/-- There is white space behind each value that is not quoted, but for the last one. -/
def Separated : List Record → Prop
  | r :: q :: rs => (r.value.isQuoted = true ∨ q.space ≠ []) ∧ Separated (q :: rs)
  | _ => True

/-- White space, or the end of the line. -/
def AtGap (rest : Bytes) : Prop := ∀ c, rest.head? = some c → isspace c = true

section
variable {rest key value v : Bytes} {r : Record} {rs : List Record} {dup : Nat → Bool} {n : Nat} {c : Byte} {s : Scan}

/-! ### The scan of a record -/

theorem scan_unquoted (hs : s.inQuotes = false) : scan (c :: rest) s = s.found c ++ scan rest (s.next c) := by
  refine scan_cons ?_
  rintro ⟨hq, -⟩
  rw [hs] at hq
  cases hq

theorem scan_spaces (h : ∀ c ∈ value, isspace c = true) : scan (value ++ rest) expectKey = scan rest expectKey := by
  induction value with
  | nil => rfl
  | cons c value ih =>
    obtain ⟨hc, hvalue⟩ := List.forall_mem_cons.mp h
    obtain ⟨hfound, hnext⟩ := next_space (s := expectKey) hc rfl
    rw [List.cons_append, scan_unquoted rfl, hfound, hnext, ih hvalue]
    rfl

/-- A key goes on until the equals sign. -/
theorem scan_readKey (h : ∀ c ∈ value, isspace c = false ∧ c ≠ 61) :
    scan (value ++ 61 :: rest) (readKey key) = scan rest (expectValue (key ++ value)) := by
  induction value generalizing key with
  | nil =>
    rw [List.append_nil]
    exact scan_equalsSign
  | cons c value ih =>
    obtain ⟨⟨hspace, hne⟩, hvalue⟩ := List.forall_mem_cons.mp h
    have hnext : (readKey key).next c = readKey (key ++ [c]) := by simp [next, hspace, hne]
    rw [List.cons_append, scan_unquoted rfl, hnext, ih hvalue, List.append_assoc]
    rfl

theorem scan_recordKey {k : RecordKey} (h : k.Readable) :
    scan (k.text ++ 61 :: rest) expectKey = scan rest (expectValue k.text) := by
  cases k with
  | quoted key =>
    have htext : (RecordKey.quoted key).text ++ 61 :: rest = 34 :: (escaped key ++ 34 :: 61 :: rest) := by
      simp [RecordKey.text, quotedText]
    have hnone : ∀ {k}, (readQuotedKey k).found 34 = [] := rfl
    rw [htext, scan_quote]
    show scan (escaped key ++ 34 :: 61 :: rest) (readQuotedKey [34]) = _
    rw [scan_escaped_inQuotes rfl, if_neg h, grow, hnone, List.nil_append, scan_equalsSign]
    rfl
  | bare key =>
    obtain ⟨hne, hquote, hkey⟩ := h
    obtain ⟨c, key, rfl⟩ := List.exists_cons_of_ne_nil hne
    obtain ⟨⟨hspace, hequals⟩, hkey⟩ := List.forall_mem_cons.mp hkey
    have hquote : c ≠ 34 := hquote
    have hnext : expectKey.next c = readKey [c] := by simp [next, hspace, hequals, hquote]
    show scan (c :: (key ++ 61 :: rest)) expectKey = _
    rw [scan_unquoted rfl, hnext, scan_readKey hkey]
    rfl

/-- A value that is not quoted goes on up to white space or the end of the line. -/
theorem scan_readValue_append (h : ∀ c ∈ value, isspace c = false) (hrest : AtGap rest) :
    scan (value ++ rest) (readValue key v) = (key, v ++ value) :: scan rest expectKey := by
  induction value generalizing v with
  | nil =>
    rw [List.nil_append, List.append_nil]
    cases rest with
    | nil => rfl
    | cons c rest =>
      obtain ⟨hfound, hnext⟩ := next_space (s := readValue key v) (hrest c rfl) rfl
      obtain ⟨hfound', hnext'⟩ := next_space (s := expectKey) (hrest c rfl) rfl
      rw [scan_unquoted rfl, scan_unquoted rfl, hfound, hnext, hfound', hnext']
      rfl
  | cons c value ih =>
    obtain ⟨hc, hvalue⟩ := List.forall_mem_cons.mp h
    have hfound : (readValue key v).found c = [] := by simp [found, hc]
    have hnext : (readValue key v).next c = readValue key (v ++ [c]) := by simp [next, hc]
    rw [List.cons_append, scan_unquoted rfl, hfound, hnext, ih hvalue, List.append_assoc]
    rfl

/-- A value that does not begin with a quotation mark. -/
theorem scan_plainValue (hne : value ≠ []) (hquote : value.at 0 ≠ 34) (h : ∀ c ∈ value, isspace c = false)
    (hrest : AtGap rest) : scan (value ++ rest) (expectValue key) = (key, value) :: scan rest expectKey := by
  obtain ⟨c, value, rfl⟩ := List.exists_cons_of_ne_nil hne
  obtain ⟨hc, hvalue⟩ := List.forall_mem_cons.mp h
  have hquote : c ≠ 34 := hquote
  have hnext : (expectValue key).next c = readValue key [c] := by simp [next, hc, hquote]
  rw [List.cons_append, scan_unquoted rfl, hnext, scan_readValue_append hvalue hrest]
  rfl

/-- The text of an integer has no white space and no quotation mark. -/
theorem printInt_plain (n : Int) : printInt n ≠ [] ∧ (printInt n).at 0 ≠ 34 ∧ ∀ c ∈ printInt n, isspace c = false := by
  obtain ⟨c, ds, heq, hc, hds⟩ := printInt_eq_cons n
  have hspace : isspace c = false := by
    rcases hc with hc | rfl
    · exact (isdigit_spec hc).1
    · rfl
  rw [heq]
  refine ⟨List.cons_ne_nil _ _, ?_, List.forall_mem_cons.mpr ⟨hspace, fun d hd => (isdigit_spec (hds d hd)).1⟩⟩
  show c ≠ 34
  rcases hc with hc | rfl
  · rintro rfl
    cases hc
  · decide

theorem scan_recordValue {w : RecordValue} (h : w.Readable) (hrest : w.isQuoted = true ∨ AtGap rest) :
    scan (w.text ++ rest) (expectValue key) = (key, w.text) :: scan rest expectKey := by
  cases w with
  | quoted value =>
    have htext : (RecordValue.quoted value).text ++ rest = 34 :: (escaped value ++ 34 :: rest) := by
      simp [RecordValue.text, quotedText]
    rw [htext, scan_quote]
    exact scan_value h
  | word value =>
    obtain ⟨hne, hspace, -, hstart, -⟩ := h
    have hquote : value.at 0 ≠ 34 := fun hquote => hstart (hquote ▸ List.mem_cons_self)
    exact scan_plainValue hne hquote hspace (hrest.resolve_left Bool.false_ne_true)
  | integer n =>
    obtain ⟨hne, hquote, hspace⟩ := printInt_plain n.toInt
    exact scan_plainValue hne hquote hspace (hrest.resolve_left Bool.false_ne_true)

theorem scan_record (h : r.Readable) (hrest : r.value.isQuoted = true ∨ AtGap rest) :
    scan (r.text ++ rest) expectKey = r.texts :: scan rest expectKey := by
  rw [Record.text, List.append_assoc, List.append_assoc, List.cons_append, scan_spaces h.space, scan_recordKey h.key,
    scan_recordValue h.value hrest]
  rfl

theorem recordsText_cons : recordsText (r :: rs) = r.text ++ recordsText rs := List.flatMap_cons

theorem scan_records (h : ∀ r ∈ rs, r.Readable) (hsep : Separated rs) :
    scan (recordsText rs) expectKey = rs.map Record.texts := by
  induction rs with
  | nil => rfl
  | cons r rs ih =>
    obtain ⟨hr, hrs⟩ := List.forall_mem_cons.mp h
    have hends : (r.value.isQuoted = true ∨ AtGap (recordsText rs)) ∧ Separated rs := by
      cases rs with
      | nil => exact ⟨Or.inr nofun, trivial⟩
      | cons q rs =>
        refine ⟨hsep.1.imp_right fun hne => ?_, hsep.2⟩
        obtain ⟨c, space, hspace⟩ := List.exists_cons_of_ne_nil hne
        have hc : isspace c = true := (hrs q List.mem_cons_self).space c (hspace ▸ List.mem_cons_self)
        intro d hd
        rw [recordsText_cons, Record.text, hspace] at hd
        exact Option.some.inj hd ▸ hc
    rw [recordsText_cons, scan_record hr hends.1, ih hrs hends.2, List.map_cons]

/-! ### The calls for a record -/

theorem unescape_quotedText (s : Bytes) : (nlUnescapeString (quotedText s) false .ifQuoted).1 = s := by
  simp [quotedText, unescape_quoted ifQuoted_ne, unescapeLoop_quote, addBytes]

theorem RecordKey.unescape_text {k : RecordKey} (h : k.Readable) :
    (if k.text.at 0 = 34 then (nlUnescapeString k.text false .ifQuoted).1 else k.text) = k.string := by
  cases k with
  | quoted key => exact (if_pos rfl).trans (unescape_quotedText key)
  | bare key => exact if_neg h.2.1

theorem RecordValue.unescape_text {w : RecordValue} (h : w.Readable) :
    (if w.text.at 0 = 34 then (nlUnescapeString w.text false .ifQuoted).1 else w.text) = w.string ∧
      (w.text.at 0 == 34) = w.isQuoted := by
  cases w with
  | quoted value => exact ⟨(if_pos rfl).trans (unescape_quotedText value), rfl⟩
  | word value =>
    have hquote : value.at 0 ≠ 34 := fun hquote => h.2.2.2.1 (hquote ▸ List.mem_cons_self)
    exact ⟨if_neg hquote, beq_false_of_ne hquote⟩
  | integer n =>
    have hquote := (printInt_plain n.toInt).2.1
    exact ⟨if_neg hquote, beq_false_of_ne hquote⟩

theorem Record.call_texts (h : r.Readable) :
    Nlutils.call r.texts = (r.key.string, r.value.string, r.value.isQuoted) := by
  obtain ⟨hvalue, hquoted⟩ := RecordValue.unescape_text h.value
  rw [Nlutils.call, kvpCall, Record.texts, RecordKey.unescape_text h.key, hvalue, hquoted]

/-- The text of an integer is a decimal value. -/
theorem exists_decimal (n : Int32) : ∃ d : Decimal, d.text = printInt n.toInt ∧ d.val = n.toInt := by
  by_cases hneg : n.toInt < 0
  · refine ⟨⟨[45], printNat n.toInt.natAbs, by decide, printNat_ne_nil, isdigit_printNat⟩, (if_pos hneg).symm, ?_⟩
    show -((digitsVal 10 (printNat n.toInt.natAbs) : Nat) : Int) = n.toInt
    rw [digitsVal_printNat]
    omega
  · refine ⟨⟨[], printNat n.toInt.natAbs, by decide, printNat_ne_nil, isdigit_printNat⟩, (if_neg hneg).symm, ?_⟩
    show ((digitsVal 10 (printNat n.toInt.natAbs) : Nat) : Int) = n.toInt
    rw [digitsVal_printNat]
    omega

theorem RecordValue.kvpValue_string (atof : Bytes → Float) {w : RecordValue} (h : w.Readable) :
    kvpValue atof w.string w.isQuoted = w.typed := by
  cases w with
  | quoted value => rfl
  | word value =>
    obtain ⟨-, -, hdigit, hstart, htrue, hfalse⟩ := h
    simp only [List.mem_cons, List.not_mem_nil, or_false, not_or] at hstart
    show kvpValue atof value false = .string value
    rw [kvpValue, if_neg Bool.false_ne_true, if_neg htrue, if_neg hfalse, hdigit, if_pos ⟨rfl, Or.inr hstart.2⟩]
  | integer n =>
    obtain ⟨d, htext, hval⟩ := exists_decimal n
    have hrange := (d.atoi_text).mpr (hval ▸ ⟨n.le_toInt, n.toInt_lt⟩)
    show kvpValue atof (printInt n.toInt) false = .integer n
    rw [← htext, d.kvpValue_text, Int32.toInt_inj.mp (hrange.trans hval)]

/-- Every pair is sent when there is memory for all copies. -/
theorem sendAll_all {ts : List KvpText} (h : ∀ i < 2 * ts.length, dup (n + i) = true) :
    sendAll dup n ts = ts.map Nlutils.call := by
  induction ts generalizing n with
  | nil => rfl
  | cons t ts ih =>
    obtain ⟨k, v⟩ := t
    obtain ⟨h₀, h₁, hrest⟩ := (dups_iff dup n (2 * ts.length)).mpr h
    simp only [sendAll, h₀, h₁, Bool.not_true, Bool.false_eq_true, if_false, ih hrest]
    rfl

theorem nlParseKvp_records (h : ∀ r ∈ rs, r.Readable) (hsep : Separated rs)
    (hdup : ∀ i < 2 * rs.length, dup i = true) :
    nlParseKvp dup (some (recordsText rs)) = rs.map fun r => (r.key.string, r.value.string, r.value.isQuoted) := by
  have hcalls : ∀ i < 2 * (rs.map Record.texts).length, dup (0 + i) = true := by
    rw [List.length_map]
    simpa using hdup
  rw [nlParseKvp_eq_scan, scan_records h hsep, sendAll_all hcalls, List.map_map]
  exact List.map_congr_left fun r hr => Record.call_texts (h r hr)

theorem nlParseKvpVariant_records (atof : Bytes → Float) (h : ∀ r ∈ rs, r.Readable) (hsep : Separated rs)
    (hdup : ∀ i < 2 * rs.length, dup i = true) :
    nlParseKvpVariant atof dup (some (recordsText rs)) = rs.map Record.call := by
  rw [nlParseKvpVariant, nlParseKvp_records h hsep hdup, List.map_map]
  refine List.map_congr_left fun r hr => ?_
  show (r.key.string, r.value.string, kvpValue atof r.value.string r.value.isQuoted) = r.call
  rw [RecordValue.kvpValue_string atof (h r hr).value]
  rfl

/-! ### Printed variants -/

/-- The text of a value, without the quotation marks around a quoted one. -/
def RecordValue.inner : RecordValue → Bytes
  | quoted value => escaped value
  | word value => value
  | integer n => printInt n.toInt

/-- The variant has this value, and its text has a length that fits an `int`. -/
inductive HasValue (h : VariantHeap) : Variant → RecordValue → Prop
  | integer (n : Int32) : HasValue h (.integer n) (.integer n)
  | string {p : Addr} {s : Bytes} : h.strings.get p = some s → s.length + nlCountEscapes s < 2 ^ 31 →
    HasValue h (.string (some p)) (.quoted s)

/-- What `nl_fprint_variant` writes for a variant is the text of its value, but for the quotation marks. -/
theorem HasValue.printed {h : VariantHeap} {w : Variant} {u : RecordValue} (hw : HasValue h w u)
    (overlong : Bytes → Bytes) (printE printF : Float32 → Bytes) :
    nlFprintVariant true true true overlong printE printF h w = some ((u.inner.length : Int), u.inner) := by
  cases hw with
  | integer n =>
    have hlen := length_printInt n
    exact congrArg some (fprintf_fits (by omega))
  | @string p s hs hlt =>
    have hcount : nlCountEscapes s < 2 ^ 31 := by omega
    rw [print_string hs hcount, fprintf_fits (by rw [length_escaped]; exact hlt)]
    rfl

/-! ### A hash of records -/

/-- What `nl_hash_parse` does for a record. -/
def Record.edit (r : Record) : OrderedMap.Edit Bytes Bytes := .set r.key.string r.value.string

/-- What a key has after records have been put into a hash. -/
def recordGet (rs : List Record) (key : Bytes) (old : Option Bytes) : Option Bytes :=
  ((rs.reverse.find? (·.key.string = key)).map (·.value.string)).or old

theorem records_edits (h : ∀ r ∈ rs, r.Readable) (hsep : Separated rs) :
    (nlParseKvp allocated (some (recordsText rs))).map buildEdit = rs.map Record.edit := by
  have hcalls : nlParseKvp allocated (some (recordsText rs)) = _ := nlParseKvp_records h hsep fun _ _ => rfl
  rw [hcalls, List.map_map]
  rfl

theorem lastSet_records {es : History} :
    OrderedMap.lastSet key (es ++ rs.map Record.edit) = recordGet rs key (OrderedMap.lastSet key es) := by
  have hedits : rs.map Record.edit = (rs.map fun r => (r.key.string, r.value.string)).map fun p => .set p.1 p.2 := by
    rw [List.map_map]
    rfl
  rw [hedits, OrderedMap.lastSet_sets, ← List.map_reverse, List.find?_map, Option.map_map]
  rfl

/-- The records go to the hash, and no other hash changes. -/
theorem hashParse_records {s : Hashes} {σ : List History} {hs : List HashAt} {i : Nat} (S : HashesRep s σ hs)
    (hi : i < σ.length) (h : ∀ r ∈ rs, r.Readable) (hsep : Separated rs)
    (hroom : (OrderedMap.ofEdits (historyAt σ i)).size + rs.length < 2 ^ 31) : ∃ p m,
      s.ptrs[i]? = some p ∧ nlHashParse allocated allocated (some p) (some (recordsText rs)) s.mem = some m ∧
        AllBehave ⟨s.ptrs, m⟩ (σ.modify i (· ++ rs.map Record.edit)) ∧
        ∀ key old, nlHashGet (some p) (some key) s.mem = some old →
          nlHashGet (some p) (some key) m = some (recordGet rs key old) := by
  have hedits : (HashOp.parse i (recordsText rs)).edits = rs.map Record.edit := records_edits h hsep
  have hfit : (HashOp.parse i (recordsText rs)).FitsIn σ := by
    refine OrderedMap.fitIn_of_length ?_
    rw [hedits, List.length_map]
    omega
  obtain ⟨a, -, hptr, hes, I⟩ := S.get hi
  obtain ⟨s', hs', hrun, S'⟩ := hashOp_run_spec S hfit
  simp only [HashOp.run, hptr] at hrun
  obtain ⟨m, hparse, hm⟩ := Option.map_eq_some_iff.mp hrun
  obtain ⟨-, rfl⟩ := Prod.mk.inj hm
  have B := S'.allBehave
  simp only [HashOp.spec, hedits] at B
  refine ⟨a.h, m, hptr, hparse, B, ?_⟩
  intro key old hold
  have hhistory : (σ.modify i (· ++ rs.map Record.edit))[i]? = some (historyAt σ i ++ rs.map Record.edit) := by
    rw [List.getElem?_modify_eq, hes]
    rfl
  have hnew := (B.2 i a.h _ hptr hhistory).get key
  rw [I.behavesAs.get key] at hold
  rw [hnew, lastSet_records, Option.some.inj hold]

end

/-- Records come back from the line that they are written in, with their types, whatever the keys and the strings hold
    but for a backslash at the end; and a variant with the value of a record is written by `nl_fprint_variant` as in the
    line, but for the quotation marks around a string. -/
theorem records_roundTrip (atof : Bytes → Float) (dup : Nat → Bool) (rs : List Record) (h : ∀ r ∈ rs, r.Readable)
    (hsep : Separated rs) (hdup : ∀ i < 2 * rs.length, dup i = true) :
    nlParseKvpVariant atof dup (some (recordsText rs)) = rs.map Record.call ∧
      ∀ r ∈ rs, ∀ overlong printE printF heap v, HasValue heap v r.value →
        nlFprintVariant true true true overlong printE printF heap v =
            some ((r.value.inner.length : Int), r.value.inner) ∧
          r.value.text = if r.value.isQuoted then 34 :: (r.value.inner ++ [34]) else r.value.inner := by
  refine ⟨nlParseKvpVariant_records atof h hsep hdup, fun r _ overlong printE printF heap v hv => ?_⟩
  exact ⟨hv.printed overlong printE printF, by cases r.value <;> rfl⟩

/-- A line of records is put into a hash after any calls on some hashes: each key of a record has the value of the last
    one, each other key the value that it had, and no other hash changes. -/
theorem records_intoHash (ops : List HashOp) (hfit : HashesFit ops []) (i : Nat) (rs : List Record)
    (hi : i < (runHistories ops []).2.length) (h : ∀ r ∈ rs, r.Readable) (hsep : Separated rs)
    (hroom : (OrderedMap.ofEdits (historyAt (runHistories ops []).2 i)).size + rs.length < 2 ^ 31) :
    ∃ s p m, runHashes ops {} = some ((runHistories ops []).1, s) ∧ s.ptrs[i]? = some p ∧
      nlHashParse allocated allocated (some p) (some (recordsText rs)) s.mem = some m ∧
      AllBehave ⟨s.ptrs, m⟩ ((runHistories ops []).2.modify i (· ++ rs.map Record.edit)) ∧
      ∀ key old, nlHashGet (some p) (some key) s.mem = some old →
        nlHashGet (some p) (some key) m = some (recordGet rs key old) := by
  obtain ⟨s, hs, hrun, S⟩ := runHashes_spec HashesRep.init hfit
  obtain ⟨p, m, hptr, hparse, B, hget⟩ := hashParse_records S hi h hsep hroom
  exact ⟨s, p, m, hrun, hptr, hparse, B, hget⟩

/-- A key with a quotation mark, a value with no white space behind it, a number and a word. -/
def someRecords : List Record :=
  [⟨[], .quoted [97, 61, 34, 32], .quoted [92, 9]⟩, ⟨[], .bare [110], .integer (-7)⟩,
    ⟨[32, 9], .bare [119], .word [120, 34]⟩]

theorem someRecords_readable : (∀ r ∈ someRecords, r.Readable) ∧ Separated someRecords := by
  have hquoted : Record.Readable ⟨[], .quoted [97, 61, 34, 32], .quoted [92, 9]⟩ := by
    refine ⟨by simp, ?_, ?_⟩
    · exact (by decide : ¬EndsWith [97, 61, 34, 32] 92)
    · exact (by decide : ¬EndsWith [92, 9] 92)
  have hinteger : Record.Readable ⟨[], .bare [110], .integer (-7)⟩ :=
    ⟨by simp, ⟨by decide, by decide, by simp [isspace]⟩, trivial⟩
  have hword : Record.Readable ⟨[32, 9], .bare [119], .word [120, 34]⟩ :=
    ⟨by simp [isspace], ⟨by decide, by decide, by simp [isspace]⟩, by decide, by simp [isspace], by decide, by decide,
      by decide, by decide⟩
  refine ⟨by simp [someRecords, hquoted, hinteger, hword], Or.inl rfl, Or.inr (by decide), trivial⟩

theorem records_roundTrip_some :
    nlParseKvpVariant (fun _ => 0) (fun _ => true) (some (recordsText someRecords)) = someRecords.map Record.call ∧
      ∀ r ∈ someRecords, ∀ overlong printE printF heap v, HasValue heap v r.value →
        nlFprintVariant true true true overlong printE printF heap v =
            some ((r.value.inner.length : Int), r.value.inner) ∧
          r.value.text = if r.value.isQuoted then 34 :: (r.value.inner ++ [34]) else r.value.inner :=
  records_roundTrip (fun _ => 0) (fun _ => true) someRecords someRecords_readable.1 someRecords_readable.2
    fun _ _ => rfl

/-- The key of the number has been set before, and there is another hash. -/
theorem records_intoHash_some : ∃ s p m, runHashes [.create, .create, .set 0 [110] [49]] {} =
      some ((runHistories [.create, .create, .set 0 [110] [49]] []).1, s) ∧ s.ptrs[0]? = some p ∧
      nlHashParse allocated allocated (some p) (some (recordsText someRecords)) s.mem = some m ∧
      AllBehave ⟨s.ptrs, m⟩ ((runHistories [.create, .create, .set 0 [110] [49]] []).2.modify 0
        (· ++ someRecords.map Record.edit)) ∧
      ∀ key old, nlHashGet (some p) (some key) s.mem = some old →
        nlHashGet (some p) (some key) m = some (recordGet someRecords key old) :=
  records_intoHash [.create, .create, .set 0 [110] [49]] (by decide) 0 someRecords (by decide) someRecords_readable.1
    someRecords_readable.2 (by decide)

end Nlutils
