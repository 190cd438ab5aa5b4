import Nlutils.Str.Partition
import Nlutils.UrlReq.LineLocality

/-! # The code of the response

The code comes from the first status line that has no colon, and whose number is not zero. -/

namespace Nlutils.UrlReq
open Lib

/-- A line that starts like a status line and has no colon, and the number at its first space, which is not zero. -/
def SetsCode (log : Bytes) (line : Nat × Nat) (code : Int32) : Prop :=
  ∃ version phrase, lineAt log line.1 line.2 = bytes "< HTTP/" ++ (version ++ 32 :: phrase) ∧ 32 ∉ version ∧
    58 ∉ lineAt log line.1 line.2 ∧ code = atoi (log.drop (line.1 + (7 + version.length))) ∧ code ≠ 0

/-- A status line: three digits between single spaces, or at the end. -/
def statusLine (version digits phrase : Bytes) : Bytes := bytes "< HTTP/" ++ (version ++ 32 :: (digits ++ phrase))

/-- The number of the first such line, or zero. -/
inductive FirstCode (log : Bytes) : List (Nat × Nat) → Int32 → Prop
  | none : FirstCode log [] 0
  | here {line : Nat × Nat} {lines : List (Nat × Nat)} {code : Int32} : SetsCode log line code →
    FirstCode log (line :: lines) code
  | later {line : Nat × Nat} {lines : List (Nat × Nat)} {code : Int32} : (∀ n, ¬SetsCode log line n) →
    FirstCode log lines code → FirstCode log (line :: lines) code

section
variable {alloc : Nat → Bool} {log : Bytes} {line : Nat × Nat} {lines as bs : List (Nat × Nat)} {code n : Int32}
  {r r' : UrlResult} {m : HashMem}

/-! ### The first code -/

theorem SetsCode.unique (h : SetsCode log line code) (h' : SetsCode log line n) : code = n := by
  obtain ⟨version, phrase, hline, hversion, -, hcode, -⟩ := h
  obtain ⟨version', phrase', hline', hversion', -, hcode', -⟩ := h'
  have hsplit := congrArg (List.splitOn 32) (List.append_cancel_left (hline.symm.trans hline'))
  rw [List.splitOn_append_cons_self_of_not_mem hversion, List.splitOn_append_cons_self_of_not_mem hversion'] at hsplit
  rw [hcode, hcode', (List.cons.inj hsplit).1]

theorem SetsCode.ne_zero (h : SetsCode log line code) : code ≠ 0 := by
  obtain ⟨version, phrase, -, -, -, -, hne⟩ := h
  exact hne

theorem SetsCode.starts (h : SetsCode log line code) : bytes "< HTTP/" <+: lineAt log line.1 line.2 := by
  obtain ⟨version, phrase, hline, -⟩ := h
  rw [hline]
  exact List.prefix_append _ _

theorem FirstCode.unique (h : FirstCode log lines code) (h' : FirstCode log lines n) : code = n := by
  induction h with
  | none =>
    cases h'
    rfl
  | here hset =>
    cases h' with
    | here hset' => exact hset.unique hset'
    | later hno => exact absurd hset (hno _)
  | later hno _ ih =>
    cases h' with
    | here hset => exact absurd hset (hno _)
    | later _ h' => exact ih h'

/-- Lines that set no code can be left out. -/
theorem firstCode_append (has : ∀ line ∈ as, ∀ n, ¬SetsCode log line n) :
    FirstCode log (as ++ bs) code ↔ FirstCode log bs code := by
  induction as with
  | nil => rfl
  | cons a as ih =>
    have ha := has a List.mem_cons_self
    rw [← ih fun line hline => has line (List.mem_cons_of_mem _ hline)]
    constructor
    · intro h
      cases h with
      | here hset => exact absurd hset (ha _)
      | later _ h => exact h
    · exact .later ha

/-! ### A call -/

/-- A number is read from the log, which a zero byte ends. -/
theorem memAtoi_memoryAt {start k : Nat} (h : start + k ≤ log.length) :
    memAtoi ((memoryAt log start).drop k) = some (atoi (log.drop (start + k))) := by
  rw [memoryAt, List.drop_drop, List.drop_append_of_le_length h]
  exact memAtoi_line (Or.inl rfl) (Or.inl rfl)

/-- A line in the memory, and the character behind it. -/
theorem memoryAt_terminated (L : IsLine log line.1 line.2) : ∃ t more,
    memoryAt log line.1 = lineAt log line.1 line.2 ++ t :: more ∧ (lineAt log line.1 line.2).length = line.2 ∧
      (t = 0 ∨ t = 13 ∨ t = 10) := by
  obtain ⟨term, more, hmem, hlen, -, hterm⟩ := memoryAt_line L
  rcases hterm with ⟨hterm, -⟩ | ⟨rfl, -⟩
  · simp only [List.mem_cons, List.not_mem_nil, or_false] at hterm
    rcases hterm with rfl | rfl | rfl <;> exact ⟨_, _, hmem, hlen, by decide⟩
  · exact ⟨0, more, hmem, hlen, Or.inl rfl⟩

/-- The number of a status line is read from its first space on. -/
theorem memAtoi_status {version phrase rest : Bytes} (L : IsLine log line.1 line.2)
    (hline : lineAt log line.1 line.2 = bytes "< HTTP/" ++ (version ++ 32 :: phrase))
    (hmem : memoryAt log line.1 = lineAt log line.1 line.2 ++ rest) :
    memAtoi (32 :: (phrase ++ rest)) = some (atoi (log.drop (line.1 + (7 + version.length)))) := by
  have hsplit : bytes "< HTTP/" ++ (version ++ 32 :: phrase) ++ rest =
      (bytes "< HTTP/" ++ version) ++ 32 :: (phrase ++ rest) := by simp
  have hlength : (bytes "< HTTP/" ++ version).length = 7 + version.length := List.length_append
  have hdrop := congrArg (List.drop (7 + version.length)) hmem
  rw [hline, hsplit, List.drop_left' hlength] at hdrop
  have hle : line.1 + (7 + version.length) ≤ log.length := by
    obtain ⟨-, -, -, hlen, -⟩ := memoryAt_line L
    have hfits := L.fits
    rw [← hlen, hline, ← List.append_assoc, List.length_append, hlength] at hfits
    omega
  rw [← hdrop]
  exact memAtoi_memoryAt hle

/-- What the callback reads of a line that sets the code. -/
theorem readHeaderLine_of_setsCode (L : IsLine log line.1 line.2) (hheaders : r.responseHeaders ≠ none)
    (hcode : r.code = 0) (h : SetsCode log line n) :
    readHeaderLine alloc (memoryAt log line.1) line.2 r = some (.code n, r.mem) := by
  obtain ⟨version, phrase, hline, hversion, hcolon, rfl, -⟩ := h
  obtain ⟨t, more, hmem, hlen, -⟩ := memoryAt_terminated L
  rw [hline] at hcolon
  have hread : readHeaderLine alloc (bytes "< HTTP/" ++ (version ++ 32 :: phrase) ++ t :: more) _ r = _ :=
    readHeaderLine_status hheaders hcode hversion hcolon
  rw [← hline, hlen, ← hmem, memAtoi_status L hline hmem] at hread
  exact hread

theorem memStarts_status {c : Byte} {rest : Bytes} (h : memStarts (c :: rest) (bytes "< HTTP/") = some true) :
    c = 60 ∧ rest.head? = some 32 := by
  rw [bytes_status, memStarts] at h
  by_cases hc : c = 60
  · rw [if_pos hc] at h
    refine ⟨hc, ?_⟩
    cases rest with
    | nil => cases h
    | cons d rest =>
      rw [memStarts] at h
      by_cases hd : d = 32
      · rw [hd]
        rfl
      · rw [if_neg hd] at h
        cases h
  · rw [if_neg hc] at h
    cases h

/-- What the callback has found when it takes a code from a line. -/
theorem readHeaderLine_code {data : Bytes} {size : Nat}
    (h : readHeaderLine alloc data size r = some (.code n, m)) :
    memchr 58 (data.drop 2) (sizeSub size 2) = some none ∧ memStarts data (bytes "< HTTP/") = some true ∧ r.code = 0 ∧
      ∃ space, memchr 32 (data.drop 2) (sizeSub size 2) = some (some space) ∧
        memAtoi (data.drop (space + 2)) = some n := by
  have hsize : size > 0 := by
    by_contra hsize
    simp only [readHeaderLine, if_neg hsize, Option.bind_eq_bind, Option.bind_some] at h
    cases h
  simp only [readHeaderLine, if_pos hsize, Option.bind_eq_bind, Option.bind_eq_some_iff] at h
  obtain ⟨headers, -, h⟩ := h
  cases headers with
  | none => cases h
  | some headers =>
    simp only [Option.bind_eq_some_iff] at h
    obtain ⟨colon, hcolon, h⟩ := h
    cases colon with
    | some colon =>
      simp only [Option.bind_eq_some_iff] at h
      obtain ⟨⟨key, m₁⟩, -, h⟩ := h
      cases key with
      | none => cases h
      | some key =>
        simp only [Option.bind_eq_some_iff] at h
        obtain ⟨value, -, ⟨text, m₂⟩, -, h⟩ := h
        cases text <;> cases h
    | none =>
      simp only [Option.bind_eq_some_iff] at h
      obtain ⟨starts, hstarts, h⟩ := h
      split at h
      · next hcond =>
        obtain ⟨rfl, hcode⟩ := hcond
        simp only [Option.bind_eq_some_iff] at h
        obtain ⟨space, hspace, h⟩ := h
        cases space with
        | none => cases h
        | some space =>
          simp only [Option.bind_eq_some_iff] at h
          obtain ⟨k, hk, h⟩ := h
          cases h
          exact ⟨hcolon, hstarts, hcode, space, hspace, hk⟩
      · cases h

/-- The terminator is no part of the start of a status line, and it is not the space after the direction. -/
theorem line_of_memStarts {l more : Bytes} {t : Byte} (ht : t = 0 ∨ t = 13 ∨ t = 10)
    (h : memStarts (l ++ t :: more) (bytes "< HTTP/") = some true) : ∃ c d text, l = c :: d :: text := by
  cases l with
  | nil =>
    obtain ⟨rfl, -⟩ := memStarts_status h
    rcases ht with ht | ht | ht <;> cases ht
  | cons c tail =>
    cases tail with
    | nil =>
      obtain ⟨-, hhead⟩ := memStarts_status h
      obtain rfl := Option.some.inj hhead
      rcases ht with ht | ht | ht <;> cases ht
    | cons d text => exact ⟨c, d, text, rfl⟩

/-- A line that the callback takes a code from. -/
theorem setsCode_of_readHeaderLine (L : IsLine log line.1 line.2)
    (h : readHeaderLine alloc (memoryAt log line.1) line.2 r = some (.code n, m)) (hn : n ≠ 0) :
    r.code = 0 ∧ SetsCode log line n := by
  obtain ⟨t, more, hdata, hlen, ht⟩ := memoryAt_terminated L
  obtain ⟨hcolon, hstarts, hcode, space, hspace, hatoi⟩ := readHeaderLine_code h
  refine ⟨hcode, ?_⟩
  rw [hdata] at hstarts
  obtain ⟨c, d, text, hline⟩ := line_of_memStarts ht hstarts
  rw [hline] at hstarts hdata hlen
  have hsize : sizeSub line.2 2 = text.length := by simp [← hlen, sizeSub]
  have hdrop : (memoryAt log line.1).drop 2 = text ++ t :: more := by
    rw [hdata]
    rfl
  rw [hsize, hdrop] at hcolon hspace
  have hnocolon : 58 ∉ text := by
    rcases split_at 58 text with ⟨hnot, -⟩ | ⟨pre, post, rfl, hpre, -⟩
    · exact hnot
    · rw [memchr_found hpre] at hcolon
      cases hcolon
  rcases split_at 32 text with ⟨hnot, -⟩ | ⟨pre, post, rfl, hpre, -⟩
  · rw [memchr_missing hnot] at hspace
    cases hspace
  · rw [memchr_found hpre] at hspace
    obtain rfl := Option.some.inj (Option.some.inj hspace)
    have hterm : t ∉ bytes "< HTTP/" := by rcases ht with rfl | rfl | rfl <;> decide
    have hstatus : memStarts (c :: d :: (pre ++ 32 :: post) ++ t :: more) (bytes "< HTTP/") = _ := memStarts_line hterm
    obtain ⟨rfl, rfl, version, rfl⟩ := status_version (Option.some.inj (hstatus.symm.trans hstarts))
    have hversion : 32 ∉ version := fun h => hpre (List.mem_append_right _ h)
    refine ⟨version, post, ?_, hversion, ?_, ?_, hn⟩
    · rw [hline, bytes_status]
      simp
    · rw [hline]
      simpa using hnocolon
    · have hlength : (bytes "HTTP/" ++ version).length + 2 = 7 + version.length := by
        rw [List.length_append]
        exact Nat.add_right_comm 5 version.length 2
      have hle : line.1 + (7 + version.length) ≤ log.length := by
        have hfits := L.fits
        rw [← hlen, List.length_cons, List.length_cons, List.length_append] at hfits
        omega
      rw [hlength, memAtoi_memoryAt hle] at hatoi
      exact (Option.some.inj hatoi).symm

/-- What a call makes of the code. -/
theorem headerLineCallback_code {k : Int} (L : IsLine log line.1 line.2) (hheaders : r.responseHeaders ≠ none)
    (h : headerLineCallback alloc (memoryAt log line.1) line.2 r = some (k, r')) :
    r'.responseHeaders = r.responseHeaders ∧ (r.code ≠ 0 → r'.code = r.code) ∧
      (r.code = 0 → SetsCode log line r'.code ∨ r'.code = 0 ∧ ∀ n, ¬SetsCode log line n) := by
  have hset : r.code = 0 → ∀ n, SetsCode log line n →
      readHeaderLine alloc (memoryAt log line.1) line.2 r = some (.code n, r.mem) :=
    fun hcode n => readHeaderLine_of_setsCode L hheaders hcode
  rw [headerLineCallback] at h
  cases hread : readHeaderLine alloc (memoryAt log line.1) line.2 r with
  | none =>
    rw [hread] at h
    cases h
  | some read =>
    obtain ⟨what, m⟩ := read
    rw [hread] at h hset
    cases what with
    | nothing | failed =>
      cases h
      refine ⟨rfl, fun _ => rfl, fun hcode => Or.inr ⟨hcode, ?_⟩⟩
      intro n hn
      cases hset hcode n hn
    | header headers key value =>
      simp only [Option.bind_eq_bind, Option.bind_some] at h
      obtain ⟨⟨n, m'⟩, -, heq⟩ := Option.bind_eq_some_iff.mp h
      cases heq
      refine ⟨rfl, fun _ => rfl, fun hcode => Or.inr ⟨hcode, ?_⟩⟩
      intro n hn
      cases hset hcode n hn
    | code n =>
      cases h
      obtain ⟨-, -, hcode, -⟩ := readHeaderLine_code hread
      refine ⟨rfl, fun hne => absurd hcode hne, fun _ => ?_⟩
      by_cases hn : n = 0
      · refine Or.inr ⟨hn, ?_⟩
        intro j hj
        have hjn := hset hcode j hj
        simp only [Option.some.injEq, Prod.mk.injEq, HeaderLine.code.injEq] at hjn
        exact hj.ne_zero (hjn.1.symm.trans hn)
      · exact Or.inl (setsCode_of_readHeaderLine L hread hn).2

/-- The code after all lines have been passed. -/
theorem passLines_code (hlines : ∀ line ∈ lines, IsLine log line.1 line.2) (hheaders : r.responseHeaders ≠ none)
    (hall : (passLines (logCallback alloc log) lines (some r)).1.length = lines.length)
    (h : (passLines (logCallback alloc log) lines (some r)).2 = some r') :
    (r.code ≠ 0 → r'.code = r.code) ∧ (r.code = 0 → FirstCode log lines r'.code) := by
  induction lines generalizing r with
  | nil =>
    obtain rfl := Option.some.inj h
    exact ⟨fun _ => rfl, fun hcode => hcode ▸ .none⟩
  | cons line lines ih =>
    have L := hlines line List.mem_cons_self
    rw [passLines] at hall h
    simp only at hall h
    cases hcall : headerLineCallback alloc (memoryAt log line.1) line.2 r with
    | none =>
      have hlog : logCallback alloc log (some r) line.1 line.2 = (1, none) := by
        rw [logCallback, Option.bind_some, hcall]
      rw [hlog, if_pos (by decide)] at h
      cases h
    | some p =>
      obtain ⟨k, r₁⟩ := p
      have hlog : logCallback alloc log (some r) line.1 line.2 = (k, some r₁) := by
        rw [logCallback, Option.bind_some, hcall]
      obtain ⟨hkeep, hold, hnew⟩ := headerLineCallback_code L hheaders hcall
      rw [hlog] at hall h
      have hrest : (r₁.code ≠ 0 → r'.code = r₁.code) ∧ (r₁.code = 0 → FirstCode log lines r'.code) := by
        by_cases hk : k ≠ 0
        · rw [if_pos hk] at hall h
          obtain rfl : lines = [] := List.length_eq_zero_iff.mp (Nat.succ.inj hall).symm
          obtain rfl := Option.some.inj h
          exact ⟨fun _ => rfl, fun hcode => hcode ▸ .none⟩
        · rw [if_neg hk] at hall h
          exact ih (fun line hline => hlines line (List.mem_cons_of_mem _ hline)) (hkeep ▸ hheaders)
            (Nat.succ.inj hall) h
      constructor
      · intro hne
        rw [← hold hne]
        exact hrest.1 (hold hne ▸ hne)
      · intro hcode
        rcases hnew hcode with hset | ⟨hzero, hno⟩
        · rw [hrest.1 hset.ne_zero]
          exact .here hset
        · exact .later hno (hrest.2 hzero)

/-! ### The status line -/

/-- The number of digits after a space. -/
theorem memAtoi_digits {digits rest : Bytes} (hlen : digits.length = 3) (hdigits : ∀ c ∈ digits, isdigit c = true)
    (hrest : NoDigit rest) (hne : rest ≠ []) :
    memAtoi (32 :: (digits ++ rest)) = some (Int32.ofInt (digitsVal 10 digits)) := by
  have hnil : digits ≠ [] := by
    rintro rfl
    cases hlen
  have hloose : numeral ([32] ++ ([] ++ digits) ++ rest) 10 = _ :=
    numeral_loose (by simp [isspace]) (by simp) hnil hdigits hrest
  have hnum : numeral (32 :: (digits ++ rest)) 10 = ⟨false, digits, rest⟩ := hloose
  have hlt := digitsVal_lt hdigits
  rw [hlen] at hlt
  rw [memAtoi, hnum, if_neg hne, atoi, strtol]
  simp only [hnum, if_neg hnil, Bool.false_eq_true, if_false]
  rw [if_neg (by omega), if_neg (by omega)]

/-- What a first status line says of the code. -/
theorem setsCode_status {version digits phrase : Bytes} (L : IsLine log line.1 line.2)
    (hline : lineAt log line.1 line.2 = bytes "< HTTP/" ++ (version ++ 32 :: (digits ++ phrase)))
    (hversion : 32 ∉ version ∧ 58 ∉ version) (hlen : digits.length = 3) (hdigits : ∀ c ∈ digits, isdigit c = true)
    (hphrase : phrase = [] ∨ ∃ reason, phrase = 32 :: reason) :
    SetsCode log line n ↔ 58 ∉ phrase ∧ digitsVal 10 digits ≠ 0 ∧ n = Int32.ofInt (digitsVal 10 digits) := by
  have hcolon : 58 ∉ lineAt log line.1 line.2 ↔ 58 ∉ phrase := by
    have hstatus : (58 : Byte) ∉ bytes "< HTTP/" := by decide
    have hno : (58 : Byte) ∉ digits := fun h => absurd (hdigits 58 h) (by decide)
    rw [hline]
    simp [hstatus, hversion.2, hno]
  have hatoi : atoi (log.drop (line.1 + (7 + version.length))) = Int32.ofInt (digitsVal 10 digits) := by
    obtain ⟨t, more, hmem, -, ht⟩ := memoryAt_terminated L
    have hrest : NoDigit (phrase ++ t :: more) := by
      intro c hc
      rcases hphrase with rfl | ⟨reason, rfl⟩
      · rw [← Option.some.inj hc]
        rcases ht with rfl | rfl | rfl <;> decide
      · rw [← Option.some.inj hc]
        decide
    have hread := memAtoi_digits hlen hdigits hrest (List.append_ne_nil_of_right_ne_nil _ (List.cons_ne_nil t more))
    rw [← List.append_assoc, memAtoi_status L hline hmem] at hread
    exact Option.some.inj hread
  have hzero : Int32.ofInt (digitsVal 10 digits) = 0 ↔ digitsVal 10 digits = 0 := by
    have hlt := digitsVal_lt hdigits
    rw [hlen] at hlt
    refine ⟨fun h => ?_, fun h => by rw [h]; rfl⟩
    have hint := congrArg Int32.toInt h
    rw [Int32.toInt_ofInt_of_le (by omega) (by omega)] at hint
    exact Int.ofNat_eq_zero.mp hint
  constructor
  · rintro ⟨version', phrase', hline', hversion', hno, hcode, hne⟩
    have hsplit := congrArg (List.splitOn 32) (List.append_cancel_left (hline.symm.trans hline'))
    rw [List.splitOn_append_cons_self_of_not_mem hversion.1,
      List.splitOn_append_cons_self_of_not_mem hversion'] at hsplit
    rw [← (List.cons.inj hsplit).1, hatoi] at hcode
    exact ⟨hcolon.mp hno, mt hzero.mpr (hcode ▸ hne), hcode⟩
  · rintro ⟨hno, hne, hcode⟩
    exact ⟨version, _, hline, hversion.1, hcolon.mpr hno, hcode.trans hatoi.symm, hcode ▸ mt hzero.mp hne⟩

/-- The places of the lines in front of a line, its own place, and those of the lines after it. -/
theorem spans_around {before after : List (Bytes × Bytes)} {l : Bytes × Bytes}
    (L : IsLines log (before ++ l :: after)) : ∃ as line bs, spans 0 (before ++ l :: after) = as ++ line :: bs ∧
      as.length = before.length ∧ as.map (fun s => lineAt log s.1 s.2) = before.map (·.1) ∧
      lineAt log line.1 line.2 = l.1 := by
  obtain ⟨off, hspans⟩ := spans_append 0 before (l :: after)
  have hlines := lineAt_spans [] (before ++ l :: after)
  have hlength := length_spans 0 before
  rw [List.nil_append, L.parts.1] at hlines
  change (spans 0 (before ++ l :: after)).map _ = _ at hlines
  rw [hspans, List.map_append, List.map_append] at hlines
  obtain ⟨hbefore, hl⟩ := List.append_inj hlines (by rw [List.length_map, List.length_map, hlength])
  exact ⟨_, _, _, hspans, hlength, hbefore, (List.cons.inj hl).1⟩

end

/-- After a run over all lines, the code is that of the first status line if and only if that line has no colon and
    its code is not zero, or the lines after it give the same code. -/
theorem responseCode_iff (alloc : Nat → Bool) (log version digits phrase term : Bytes)
    (before after : List (Bytes × Bytes)) (r₀ r : UrlResult)
    (L : IsLines log (before ++ (statusLine version digits phrase, term) :: after))
    (hfirst : ∀ l ∈ before, ¬bytes "< HTTP/" <+: l.1) (hversion : 32 ∉ version ∧ 58 ∉ version)
    (hlen : digits.length = 3) (hdigits : ∀ c ∈ digits, isdigit c = true)
    (hphrase : phrase = [] ∨ ∃ reason, phrase = 32 :: reason) (hcode : r₀.code = 0)
    (hheaders : r₀.responseHeaders ≠ none)
    (hrun : nlSplitLines (some (logCallback alloc log)) (some log) (some r₀) =
      (some ((before.length + 1 + after.length : Nat) : Int), some r)) :
    r.code = Int32.ofInt (digitsVal 10 digits) ↔ 58 ∉ phrase ∧ digitsVal 10 digits ≠ 0 ∨
      FirstCode log ((spans 0 (before ++ (statusLine version digits phrase, term) :: after)).drop (before.length + 1))
        (Int32.ofInt (digitsVal 10 digits)) := by
  obtain ⟨as, line, bs, hspans, hlength, hbefore, hline⟩ := spans_around L
  have hcount : (as ++ line :: bs).length = before.length + 1 + after.length := by
    rw [← hspans, length_spans, List.length_append, List.length_cons, Nat.add_comm after.length, ← Nat.add_assoc]
  obtain ⟨hall, hdata⟩ := passLines_of_result L hrun
  rw [hspans] at hall hdata
  have hlines : ∀ place ∈ as ++ line :: bs, IsLine log place.1 place.2 := by
    rw [← hspans]
    exact isLine_spans L []
  have has : ∀ place ∈ as, ∀ n, ¬SetsCode log place n := by
    intro place hplace n hset
    have hmem := List.mem_map_of_mem (f := fun s => lineAt log s.1 s.2) hplace
    rw [hbefore] at hmem
    obtain ⟨l, hl, heq⟩ := List.mem_map.mp hmem
    exact hfirst l hl (heq ▸ hset.starts)
  have hdrop : (as ++ line :: bs).drop (before.length + 1) = bs := by
    rw [← hlength, ← List.drop_drop, List.drop_left]
    rfl
  have hfinal := (passLines_code hlines hheaders (hall.trans hcount.symm) hdata).2 hcode
  have hset : ∀ n, SetsCode log line n ↔ _ :=
    fun n => setsCode_status (hlines line (by simp)) hline hversion hlen hdigits hphrase
  rw [firstCode_append has] at hfinal
  rw [hspans, hdrop]
  by_cases hsets : 58 ∉ phrase ∧ digitsVal 10 digits ≠ 0
  · have hstatus := (hset _).mpr ⟨hsets.1, hsets.2, rfl⟩
    exact iff_of_true (hfinal.unique (.here hstatus)) (Or.inl hsets)
  · rw [or_iff_right hsets]
    cases hfinal with
    | here hstatus =>
      obtain ⟨hno, hne, -⟩ := (hset _).mp hstatus
      exact absurd ⟨hno, hne⟩ hsets
    | later _ hlater =>
      constructor
      · intro h
        exact h ▸ hlater
      · exact hlater.unique

/-- A log that is one status line. -/
def statusLog (phrase : Bytes) : Bytes := statusLine [49, 46, 49] [50, 48, 48] phrase

theorem statusLog_plain {phrase : Bytes} (hphrase : ∀ c ∈ phrase, c ≠ 13 ∧ c ≠ 10) :
    ∀ c ∈ statusLog phrase, c ≠ 13 ∧ c ≠ 10 := by
  have hstart : ∀ c ∈ bytes "< HTTP/" ++ ([49, 46, 49] ++ 32 :: [50, 48, 48]), c ≠ 13 ∧ c ≠ 10 := by
    simp [bytes]
  intro c hc
  have hsplit : statusLog phrase = bytes "< HTTP/" ++ ([49, 46, 49] ++ 32 :: [50, 48, 48]) ++ phrase := rfl
  rw [hsplit] at hc
  rcases List.mem_append.mp hc with hc | hc
  · exact hstart c hc
  · exact hphrase c hc

theorem isLines_statusLog {phrase : Bytes} (hphrase : ∀ c ∈ phrase, c ≠ 13 ∧ c ≠ 10) :
    IsLines (statusLog phrase) [(statusLog phrase, [])] :=
  .last (List.cons_ne_nil _ _) (statusLog_plain hphrase)

/-- The status line of a request that has succeeded, between two other lines. -/
def okLog : Bytes := bytes "* up" ++ ([10] ++ (statusLog [32, 79, 75] ++ ([13, 10] ++ bytes "< A: b")))

theorem isLines_okLog : IsLines okLog
    ([(bytes "* up", [10])] ++ (statusLog [32, 79, 75], [13, 10]) :: [(bytes "< A: b", [])]) := by
  have hlast : IsLines (bytes "< A: b") [(bytes "< A: b", [])] := .last (by simp [bytes]) (by simp [bytes])
  exact .line (by simp [bytes]) (Or.inr (Or.inr rfl)) (.line (statusLog_plain (by simp)) (Or.inl rfl) hlast)

theorem responseCode_ok : ∃ r, nlSplitLines (some (logCallback (fun _ => true) okLog)) (some okLog) (some emptyResult) =
    (some 3, some r) ∧ r.code = Int32.ofInt (digitsVal 10 [50, 48, 48]) := by
  have hrun : (nlSplitLines (some (logCallback (fun _ => true) okLog)) (some okLog) (some emptyResult)).1 = some 3 ∧
      (nlSplitLines (some (logCallback (fun _ => true) okLog)) (some okLog) (some emptyResult)).2.isSome = true := by
    decide
  obtain ⟨hcount, hdata⟩ := hrun
  obtain ⟨r, hr⟩ := Option.isSome_iff_exists.mp hdata
  have hrun : nlSplitLines (some (logCallback (fun _ => true) okLog)) (some okLog) (some emptyResult) =
      (some 3, some r) := Prod.ext hcount hr
  refine ⟨r, hrun, ?_⟩
  exact (responseCode_iff _ _ _ _ _ _ [(bytes "* up", [10])] [(bytes "< A: b", [])] emptyResult r isLines_okLog
    (by decide) (by decide) rfl (by simp [isdigit]) (Or.inr ⟨_, rfl⟩) rfl (by decide) hrun).mpr (Or.inl (by decide))

/-- With a colon in the phrase, the line is taken for a header. -/
theorem not_responseCode : ¬∀ (alloc : Nat → Bool) (log version digits phrase term : Bytes)
    (before after : List (Bytes × Bytes)) (r₀ r : UrlResult),
    IsLines log (before ++ (statusLine version digits phrase, term) :: after) →
    (∀ l ∈ before, ¬bytes "< HTTP/" <+: l.1) → 32 ∉ version ∧ 58 ∉ version → digits.length = 3 →
    (∀ c ∈ digits, isdigit c = true) → (phrase = [] ∨ ∃ reason, phrase = 32 :: reason) → r₀.code = 0 →
    r₀.responseHeaders ≠ none →
    nlSplitLines (some (logCallback alloc log)) (some log) (some r₀) =
      (some ((before.length + 1 + after.length : Nat) : Int), some r) →
    r.code = Int32.ofInt (digitsVal 10 digits) := by
  intro hall
  have hrun : (nlSplitLines (some (logCallback (fun _ => true) (statusLog [32, 97, 58, 98])))
      (some (statusLog [32, 97, 58, 98])) (some emptyResult)).1 = some 1 ∧
      (nlSplitLines (some (logCallback (fun _ => true) (statusLog [32, 97, 58, 98])))
        (some (statusLog [32, 97, 58, 98])) (some emptyResult)).2.map (·.code) = some 0 := by decide
  obtain ⟨hcount, hdata⟩ := hrun
  obtain ⟨r, hr, hcode⟩ := Option.map_eq_some_iff.mp hdata
  have hwrong := hall _ _ _ _ _ _ [] [] emptyResult r (isLines_statusLog (by simp)) nofun (by decide) rfl
    (by simp [isdigit]) (Or.inr ⟨_, rfl⟩) rfl (by decide) (Prod.ext hcount hr)
  rw [hcode] at hwrong
  exact absurd hwrong (by decide)

end Nlutils.UrlReq
