import Nlutils.Hash.Strings
import Nlutils.UrlReq.HeaderCallback

/-! # Locality of the lines of the log

What the callback makes of a line is given by the line alone, except where it looks for a character in a line of
one byte, and where it looks for a number in a line with nothing but white space left. -/

namespace Nlutils.UrlReq
open Lib

/-- How long the terminator is with which the memory starts. -/
def terminatorLength : Bytes → Nat
  | 13 :: 10 :: _ => 2
  | _ => 1

/-- What is to hold of a call of the callback. -/
structure IsLocal (alloc : Nat → Bool) (log : Bytes) (r : UrlResult) (start size : Nat) : Prop where
  /-- A buffer that ends with the terminator of the line is enough. -/
  reads : readHeaderLine alloc
    ((memoryAt log start).take (size + terminatorLength (memoryAt log (start + size)))) size r ≠ none
  changes : headerLineCallback alloc (memoryAt log start) size r =
    headerLineCallback alloc (lineAt log start size ++ [0]) size r
  stores : ∀ n r', headerLineCallback alloc (memoryAt log start) size r = some (n, r') → ∀ a s,
    r'.mem.strings.get a = some s → r.mem.strings.get a = some s ∨ s <:+: lineAt log start size

/-- The first status line, without a colon, and with nothing but white space after its first space but one. -/
def LacksCode (r : UrlResult) (line : Bytes) : Prop :=
  r.responseHeaders ≠ none ∧ r.code = 0 ∧ ∃ version ws, line = bytes "< HTTP/" ++ (version ++ 32 :: ws) ∧ 58 ∉ line ∧
    32 ∉ version ∧ ∀ c ∈ ws, isspace c = true

/-- A line of one byte that says where the header goes, or a terminated status line without a code. -/
def LeavesLine (log : Bytes) (r : UrlResult) (start size : Nat) : Prop :=
  (∃ c, lineAt log start size = [c] ∧ r.headersFor c ≠ none) ∨
    LacksCode r (lineAt log start size) ∧ start + size < log.length

/-! ### The meaning of a line -/

/-- The copy of a string. -/
def copyOf (alloc : Nat → Bool) (s : Bytes) (m : HashMem) : Option Bytes × HashMem :=
  (if refused alloc s.length m then none else some s, { m with allocs := m.allocs + 1 })

/-- What a line asks for, by the line alone. -/
def meaning (alloc : Nat → Bool) (line : Bytes) (r : UrlResult) : HeaderLine × HashMem :=
  match line.head?.bind r.headersFor with
  | none => (.nothing, r.mem)
  | some headers =>
    let text := line.drop 2
    match text.dropWhile (· != 58) with
    | _ :: value =>
      match copyOf alloc (text.takeWhile (· != 58)) r.mem with
      | (none, m) => (.failed, m)
      | (some key, m) =>
        match copyOf alloc (value.dropWhile (· == 32)) m with
        | (none, m) => (.failed, m)
        | (some value, m) => (.header headers (cString key) (cString value), m)
    | [] =>
      if (bytes "< HTTP/").isPrefixOf line ∧ r.code = 0 then
        match text.dropWhile (· != 32) with
        | space :: ws => (.code (atoi (space :: ws)), r.mem)
        | [] => (.nothing, r.mem)
      else (.nothing, r.mem)

section
variable {alloc : Nat → Bool} {c t : Byte} {s line rest : Bytes} {r : UrlResult} {m : HashMem} {n size pos : Nat}

theorem memchr_missing (hc : c ∉ s) : memchr c (s ++ rest) s.length = some none := by
  induction s with
  | nil => cases rest <;> rfl
  | cons b s ih =>
    obtain ⟨hb, hs⟩ := not_or.mp (mt List.mem_cons.mpr hc)
    rw [List.cons_append, List.length_cons, memchr, if_neg (Ne.symm hb), ih hs]
    rfl

theorem memchr_found {post : Bytes} (hc : c ∉ s) :
    memchr c (s ++ c :: post ++ rest) (s ++ c :: post).length = some (some s.length) := by
  induction s with
  | nil =>
    rw [List.nil_append, List.length_cons, List.cons_append, memchr, if_pos rfl]
    rfl
  | cons b s ih =>
    obtain ⟨hb, hs⟩ := not_or.mp (mt List.mem_cons.mpr hc)
    rw [List.cons_append, List.length_cons, List.cons_append, memchr, if_neg (Ne.symm hb), ih hs]
    rfl

theorem drop_found {post : Bytes} : (s ++ c :: post ++ rest).drop s.length = c :: (post ++ rest) := by
  rw [List.append_assoc, List.drop_left]
  rfl

theorem memStarts_self {start : Bytes} : memStarts (start ++ rest) start = some true := by
  induction start with
  | nil => cases rest <;> rfl
  | cons c start ih => rw [List.cons_append, memStarts, if_pos rfl, ih]

theorem memStarts_line {start : Bytes} (ht : t ∉ start) :
    memStarts (s ++ t :: rest) start = some (start.isPrefixOf s) := by
  induction start generalizing s with
  | nil =>
    rw [List.isPrefixOf]
    cases s <;> rfl
  | cons c start ih =>
    obtain ⟨hc, hstart⟩ := not_or.mp (mt List.mem_cons.mpr ht)
    cases s with
    | nil =>
      rw [List.nil_append, memStarts, if_neg hc]
      rfl
    | cons b s =>
      rw [List.cons_append, memStarts, List.isPrefixOf]
      by_cases hb : b = c
      · simp [hb, ih hstart]
      · have hne : (c == b) = false := by simpa using Ne.symm hb
        rw [if_neg hb, hne, Bool.false_and]

theorem skipSpaces_line (hsize : pos + s.length = size) (ht : t ≠ 32) :
    skipSpaces size (s ++ t :: rest) pos = some (pos + (s.takeWhile (· == 32)).length) := by
  induction s generalizing pos with
  | nil => simp [skipSpaces, ht]
  | cons b s ih =>
    rw [List.length_cons] at hsize
    rw [List.cons_append, skipSpaces]
    by_cases hb : b = 32
    · have heq : (b == 32) = true := by simpa using hb
      rw [if_pos ⟨hb, by omega⟩, ih (by omega), List.takeWhile_cons_of_pos (p := (· == 32)) heq, List.length_cons,
        Nat.add_right_comm, Nat.add_assoc]
    · have hne : ¬(b == 32) = true := by simpa using hb
      rw [if_neg (fun h => hb h.1), List.takeWhile_cons_of_neg (p := (· == 32)) hne]
      rfl

theorem copyOf_eq_some {s' : Bytes} {m' : HashMem} (h : copyOf alloc s m = (some s', m')) : s' = s := by
  rw [copyOf, Prod.mk.injEq] at h
  have hs := h.1
  split at hs
  · cases hs
  · exact (Option.some.inj hs).symm

theorem nlStrndupTerm_append : nlStrndupTerm alloc (s ++ rest) s.length m = some (copyOf alloc s m) := by
  rw [nlStrndupTerm, copyOf]
  have hle : s.length ≤ (s ++ rest).length := by
    rw [List.length_append]
    exact Nat.le_add_right _ _
  by_cases h : refused alloc s.length m = true
  · simp only [if_pos h]
  · simp only [if_neg h, if_pos hle, List.take_left]

theorem skipSign_line (hminus : t ≠ 45) (hplus : t ≠ 43) :
    skipSign (s ++ t :: rest) = ((skipSign s).1, (skipSign s).2 ++ t :: rest) := by
  cases s with
  | nil =>
    have hat : Bytes.at ([] ++ t :: rest) 0 = t := rfl
    rw [skipSign, hat, if_neg hminus, if_neg hplus]
    rfl
  | cons c s =>
    have hat : Bytes.at (c :: s ++ t :: rest) 0 = Bytes.at (c :: s) 0 := rfl
    rw [skipSign, skipSign, hat]
    split
    · rfl
    · split <;> rfl

theorem numeral_line (ht : t = 0 ∨ t = 13 ∨ t = 10) (hs : t = 0 ∨ ∃ c ∈ s, isspace c = false) :
    numeral (s ++ t :: rest) 10 =
      ⟨(numeral s 10).neg, (numeral s 10).digits, (numeral s 10).rest ++ t :: rest⟩ := by
  have hplain : t ≠ 45 ∧ t ≠ 43 ∧ isdigit t = false := by rcases ht with rfl | rfl | rfl <;> decide
  have hspace : (s ++ t :: rest).dropWhile isspace = s.dropWhile isspace ++ t :: rest := by
    rcases hs with rfl | ⟨c, hc, hne⟩
    · exact (span_stop rfl).2
    · have hnil : s.dropWhile isspace ≠ [] := by
        intro h
        exact absurd (List.dropWhile_eq_nil_iff.mp h c hc) (by simp [hne])
      rw [List.dropWhile_append, if_neg (by simpa using hnil)]
  rw [numeral_ten, numeral_ten, hspace, skipSign_line hplain.1 hplain.2.1]
  simp only [span_stop hplain.2.2]

theorem memAtoi_line (ht : t = 0 ∨ t = 13 ∨ t = 10) (hs : t = 0 ∨ ∃ c ∈ s, isspace c = false) :
    memAtoi (s ++ t :: rest) = some (atoi s) := by
  have hnum : numeral (s ++ t :: rest) 10 = _ := numeral_line ht hs
  have hatoi : atoi (s ++ t :: rest) = atoi s := by
    simp only [atoi, strtol, hnum, apply_ite Prod.fst]
  rw [memAtoi, hnum, hatoi]
  exact if_neg (List.append_ne_nil_of_right_ne_nil _ (List.cons_ne_nil t rest))

/-- White space up to the end of the memory. -/
theorem memAtoi_space (hs : ∀ c ∈ s, isspace c = true) : memAtoi s = none := by
  have hnil : s.dropWhile isspace = [] := List.dropWhile_eq_nil_iff.mpr hs
  rw [memAtoi, numeral, hnil]
  rfl

/-! ### What the callback reads -/

/-- What is in front of the character that ends a scan, and what is there from it on. -/
theorem split_at (c : Byte) (text : Bytes) : (c ∉ text ∧ text.dropWhile (· != c) = []) ∨
    ∃ pre post, text = pre ++ c :: post ∧ c ∉ pre ∧ text.takeWhile (· != c) = pre ∧
      text.dropWhile (· != c) = c :: post := by
  by_cases hc : c ∈ text
  · obtain ⟨pre, post, rfl, hpre⟩ := List.eq_append_cons_of_mem hc
    have hstop : (c != c) = false := bne_self_eq_false c
    have hall : ∀ b ∈ pre, (b != c) = true := by
      intro b hb
      exact bne_iff_ne.mpr fun h => hpre (h ▸ hb)
    obtain ⟨htake, hdrop⟩ := span_append (s := c :: post) hall fun b hb => Option.some.inj hb ▸ hstop
    exact Or.inr ⟨pre, post, rfl, hpre, htake, hdrop⟩
  · refine Or.inl ⟨hc, List.dropWhile_eq_nil_iff.mpr ?_⟩
    intro b hb
    exact bne_iff_ne.mpr fun h => hc (h ▸ hb)

/-- The callback on a line of at least two bytes. -/
theorem readHeaderLine_cons {d : Byte} {text : Bytes} :
    readHeaderLine alloc (c :: d :: text ++ rest) (text.length + 2) r =
    match r.headersFor c with
    | none => some (.nothing, r.mem)
    | some headers => do
      match ← memchr 58 (text ++ rest) text.length with
      | some colon =>
        match ← nlStrndupTerm alloc (text ++ rest) colon r.mem with
        | (none, m) => return (.failed, m)
        | (some key, m) =>
          let value ← skipSpaces (text.length + 2) ((text ++ rest).drop (colon + 1)) (colon + 3)
          match ← nlStrndupTerm alloc ((c :: d :: text ++ rest).drop value) (sizeSub (text.length + 2) value) m with
          | (none, m) => return (.failed, m)
          | (some value, m) => return (.header headers (cString key) (cString value), m)
      | none =>
        if (← memStarts (c :: d :: text ++ rest) (bytes "< HTTP/")) ∧ r.code = 0 then
          match ← memchr 32 (text ++ rest) text.length with
          | some space => return (.code (← memAtoi ((text ++ rest).drop space)), r.mem)
          | none => return (.nothing, r.mem)
        else return (.nothing, r.mem) := by
  have hsize : sizeSub (text.length + 2) 2 = text.length := by simp [sizeSub]
  simp only [readHeaderLine, hsize]
  rfl

/-- A line with a colon. -/
theorem readHeaderLine_header {d : Byte} {key value : Bytes} {headers : Addr} (hheaders : r.headersFor c = some headers)
    (hkey : 58 ∉ key) (ht : t ≠ 32) :
    readHeaderLine alloc (c :: d :: (key ++ 58 :: value) ++ t :: rest) ((key ++ 58 :: value).length + 2) r =
      some (match copyOf alloc key r.mem with
        | (none, m) => (.failed, m)
        | (some key, m) =>
          match copyOf alloc (value.dropWhile (· == 32)) m with
          | (none, m) => (.failed, m)
          | (some value, m) => (.header headers (cString key) (cString value), m)) := by
  have hlen : (key ++ 58 :: value).length = key.length + (value.length + 1) := by simp
  have hcopy : nlStrndupTerm alloc (key ++ 58 :: value ++ t :: rest) key.length r.mem =
      some (copyOf alloc key r.mem) := by
    rw [List.append_assoc]
    exact nlStrndupTerm_append
  have hdrop : (key ++ 58 :: value ++ t :: rest).drop (key.length + 1) = value ++ t :: rest := by
    rw [← List.drop_drop, drop_found]
    rfl
  have hskip : skipSpaces ((key ++ 58 :: value).length + 2) (value ++ t :: rest) (key.length + 3) = _ :=
    skipSpaces_line (by omega) ht
  have hsplit := List.takeWhile_append_dropWhile (p := (· == 32)) (l := value)
  have hspaces := congrArg List.length hsplit
  rw [List.length_append] at hspaces
  have hvalue : (c :: d :: (key ++ 58 :: value) ++ t :: rest).drop
      (key.length + 3 + (value.takeWhile (· == 32)).length) = value.dropWhile (· == 32) ++ t :: rest := by
    rw [← List.drop_drop]
    change ((key ++ 58 :: value ++ t :: rest).drop (key.length + 1)).drop _ = _
    rw [hdrop]
    nth_rewrite 2 [← hsplit]
    rw [List.append_assoc, List.drop_left]
  have hsize : sizeSub ((key ++ 58 :: value).length + 2) (key.length + 3 + (value.takeWhile (· == 32)).length) =
      (value.dropWhile (· == 32)).length := by
    rw [sizeSub, if_pos (by omega)]
    omega
  rw [readHeaderLine_cons, hheaders]
  simp only [memchr_found hkey, Option.bind_eq_bind, Option.bind_some, hcopy]
  rcases copyOf alloc key r.mem with ⟨_ | key', m⟩
  · rfl
  · simp only [hdrop, hskip, Option.bind_some, hvalue, hsize, nlStrndupTerm_append]
    rcases copyOf alloc (value.dropWhile (· == 32)) m with ⟨_ | value', m'⟩ <;> rfl

theorem bytes_status : bytes "< HTTP/" = 60 :: 32 :: bytes "HTTP/" := rfl

/-- A status line has its first space after the version. -/
theorem status_version {d : Byte} {pre ws : Bytes}
    (hstatus : (bytes "< HTTP/").isPrefixOf (c :: d :: (pre ++ 32 :: ws)) = true) :
    c = 60 ∧ d = 32 ∧ ∃ version, pre = bytes "HTTP/" ++ version := by
  obtain ⟨more, heq⟩ := List.isPrefixOf_iff_prefix.mp hstatus
  rw [bytes_status, List.cons_append, List.cons_append, List.cons.injEq, List.cons.injEq] at heq
  obtain ⟨rfl, rfl, heq⟩ := heq
  refine ⟨rfl, rfl, ?_⟩
  rcases List.append_eq_append_iff.mp heq with ⟨version, hpre', -⟩ | ⟨left, hleft, hws'⟩
  · exact ⟨version, hpre'⟩
  · cases left with
    | nil => exact ⟨[], by rw [hleft, List.append_nil, List.append_nil]⟩
    | cons b left =>
      rw [List.cons_append, List.cons.injEq] at hws'
      have hmem : (32 : Byte) ∈ bytes "HTTP/" := by
        rw [hleft, ← hws'.1]
        simp
      exact absurd hmem (by decide)

theorem lacksCode_of {d : Byte} {pre ws : Bytes} {headers : Addr} (hheaders : r.headersFor c = some headers)
    (hstatus : (bytes "< HTTP/").isPrefixOf (c :: d :: (pre ++ 32 :: ws)) = true ∧ r.code = 0)
    (hcolon : 58 ∉ pre ++ 32 :: ws) (hpre : 32 ∉ pre) (hws : ∀ b ∈ ws, isspace b = true) :
    LacksCode r (c :: d :: (pre ++ 32 :: ws)) := by
  obtain ⟨rfl, rfl, version, rfl⟩ := status_version hstatus.1
  refine ⟨?_, hstatus.2, version, ws, by rw [bytes_status]; simp, ?_, ?_, hws⟩
  · intro hnone
    rw [UrlResult.headersFor, if_neg (by decide), if_pos rfl, hnone] at hheaders
    cases hheaders
  · simpa using hcolon
  · exact fun h => hpre (List.mem_append_right _ h)

/-- What the callback reads of a terminated line is its meaning. -/
theorem readHeaderLine_line (ht : t = 0 ∨ t = 13 ∨ t = 10) (hshort : ∀ c, line = [c] → r.headersFor c = none)
    (hcode : t = 0 ∨ ¬LacksCode r line) :
    readHeaderLine alloc (line ++ t :: rest) line.length r = some (meaning alloc line r) := by
  cases line with
  | nil => rfl
  | cons c line =>
    cases line with
    | nil =>
      have hnone := hshort c rfl
      simp [readHeaderLine, meaning, hnone]
    | cons d text =>
      have hlen : (c :: d :: text).length = text.length + 2 := rfl
      have hhead : (c :: d :: text).head?.bind r.headersFor = r.headersFor c := rfl
      cases hheaders : r.headersFor c with
      | none => rw [hlen, readHeaderLine_cons, meaning, hhead, hheaders]
      | some headers =>
        rcases split_at 58 text with ⟨hcolon, hnil⟩ | ⟨key, value, rfl, hkey, htake, hdrop⟩
        · have hstart : memStarts (c :: d :: text ++ t :: rest) (bytes "< HTTP/") =
              some ((bytes "< HTTP/").isPrefixOf (c :: d :: text)) := by
            refine memStarts_line ?_
            rcases ht with rfl | rfl | rfl <;> decide
          rw [hlen, readHeaderLine_cons, meaning, hhead, hheaders]
          simp only [memchr_missing hcolon, Option.bind_eq_bind, Option.bind_some, hstart, List.drop_succ_cons,
            List.drop_zero, hnil]
          split
          · next hstatus =>
            rcases split_at 32 text with ⟨hspace, hnil⟩ | ⟨pre, ws, rfl, hpre, -, hdrop⟩
            · simp only [memchr_missing hspace, Option.bind_some, hnil]
              rfl
            · have hatoi : memAtoi (32 :: (ws ++ t :: rest)) = some (atoi (32 :: ws)) := by
                rw [← List.cons_append]
                refine memAtoi_line ht (hcode.imp_right fun hlacks => ?_)
                by_contra hall
                push Not at hall
                refine hlacks (lacksCode_of hheaders hstatus hcolon hpre ?_)
                exact fun b hb => by simpa using hall b (List.mem_cons_of_mem _ hb)
              simp only [memchr_found hpre, Option.bind_some, hdrop, drop_found, hatoi]
              rfl
          · rfl
        · have ht' : t ≠ 32 := by rcases ht with rfl | rfl | rfl <;> decide
          rw [hlen, readHeaderLine_header hheaders hkey ht', meaning, hhead, hheaders]
          simp only [List.drop_succ_cons, List.drop_zero, htake, hdrop]

/-- With a line of one byte, the search for a colon goes on behind the terminator. -/
theorem readHeaderLine_short {term : Bytes} (hterm : term ∈ [[13, 10], [13], [10], [0]]) (hc : r.headersFor c ≠ none) :
    readHeaderLine alloc (c :: term) 1 r = none := by
  obtain ⟨headers, hheaders⟩ := Option.ne_none_iff_exists'.mp hc
  simp only [List.mem_cons, List.not_mem_nil, or_false] at hterm
  rcases hterm with rfl | rfl | rfl | rfl <;> simp [readHeaderLine, hheaders, sizeSub, memchr]

/-- A status line without a colon: the number is read from its first space on. -/
theorem readHeaderLine_status {version ws : Bytes} (hheaders : r.responseHeaders ≠ none) (hcode : r.code = 0)
    (hversion : 32 ∉ version) (hcolon : 58 ∉ bytes "< HTTP/" ++ (version ++ 32 :: ws)) :
    readHeaderLine alloc (bytes "< HTTP/" ++ (version ++ 32 :: ws) ++ rest)
      (bytes "< HTTP/" ++ (version ++ 32 :: ws)).length r =
      (memAtoi (32 :: (ws ++ rest))).map fun n => (.code n, r.mem) := by
  obtain ⟨headers, hheaders⟩ := Option.ne_none_iff_exists'.mp hheaders
  have hline : bytes "< HTTP/" ++ (version ++ 32 :: ws) = 60 :: 32 :: (bytes "HTTP/" ++ version ++ 32 :: ws) := by
    rw [bytes_status, List.append_assoc]
    rfl
  have hfor : r.headersFor 60 = some headers := hheaders
  have hpre : 32 ∉ bytes "HTTP/" ++ version := by
    intro h
    rcases List.mem_append.mp h with h | h
    · exact absurd h (by decide)
    · exact hversion h
  have htext : 58 ∉ bytes "HTTP/" ++ version ++ 32 :: ws := by
    rw [hline] at hcolon
    exact fun h => hcolon (List.mem_cons_of_mem _ (List.mem_cons_of_mem _ h))
  have hstart : memStarts (60 :: 32 :: (bytes "HTTP/" ++ version ++ 32 :: ws) ++ rest) (bytes "< HTTP/") =
      some true := by
    simp [bytes_status, memStarts, memStarts_self]
  rw [hline]
  refine readHeaderLine_cons.trans ?_
  rw [hfor]
  simp only [memchr_missing htext, Option.bind_eq_bind, Option.bind_some, hstart, hcode, and_self, if_true,
    memchr_found hpre, drop_found]
  cases memAtoi (32 :: (ws ++ rest)) <;> rfl

/-- The search for a number passes over the terminator. -/
theorem readHeaderLine_lacksCode {term : Bytes} (hterm : ∀ c ∈ term, isspace c = true) (h : LacksCode r line)  :
    readHeaderLine alloc (line ++ term) line.length r = none := by
  obtain ⟨hheaders, hcode, version, ws, rfl, hcolon, hversion, hws⟩ := h
  have hatoi : memAtoi (32 :: (ws ++ term)) = none := by
    refine memAtoi_space ?_
    intro c hc
    rcases List.mem_cons.mp hc with rfl | hc
    · rfl
    · rcases List.mem_append.mp hc with hc | hc
      · exact hws c hc
      · exact hterm c hc
  rw [readHeaderLine_status hheaders hcode hversion hcolon, hatoi]
  rfl

/-- The strings that a line asks to store are parts of it. -/
theorem meaning_infix {headers : Addr} {key value : Bytes} (h : meaning alloc line r = (.header headers key value, m)) :
    key <:+: line ∧ value <:+: line := by
  have hcString : ∀ {s : Bytes}, s <:+: line → cString s <:+: line :=
    fun hs => (List.takeWhile_prefix _).isInfix.trans hs
  have htext : line.drop 2 <:+: line := (List.drop_suffix 2 line).isInfix
  unfold meaning at h
  split at h
  · cases h
  · simp only at h
    split at h
    · next hvalue =>
      have hsuffix := (List.dropWhile_suffix (l := line.drop 2) (· != 58)).isInfix
      rw [hvalue] at hsuffix
      have hrest := ((List.suffix_cons _ _).isInfix.trans hsuffix).trans htext
      split at h
      · cases h
      · next hkey =>
        split at h
        · cases h
        · next hvalue' =>
          cases h
          rw [copyOf_eq_some hkey, copyOf_eq_some hvalue']
          exact ⟨hcString ((List.takeWhile_prefix _).isInfix.trans htext),
            hcString ((List.dropWhile_suffix _).isInfix.trans hrest)⟩
    · split at h
      · split at h <;> cases h
      · cases h

theorem copyOf_strings {s' : Option Bytes} {m' : HashMem} (h : copyOf alloc s m = (s', m')) :
    m'.strings = m.strings := by
  rw [copyOf, Prod.mk.injEq] at h
  rw [← h.2]

/-- Reading a line stores nothing. -/
theorem meaning_strings (what : HeaderLine) (m : HashMem) (h : meaning alloc line r = (what, m)) :
    m.strings = r.mem.strings := by
  unfold meaning at h
  split at h
  · cases h
    rfl
  · simp only at h
    split at h
    · split at h
      · next hkey =>
        cases h
        exact copyOf_strings hkey
      · next hkey =>
        split at h
        · next hvalue =>
          cases h
          exact (copyOf_strings hvalue).trans (copyOf_strings hkey)
        · next hvalue =>
          cases h
          exact (copyOf_strings hvalue).trans (copyOf_strings hkey)
    · split at h
      · split at h <;> (cases h; rfl)
      · cases h
        rfl

/-- The change that the callback makes of a line whose meaning it reads. -/
theorem headerLineCallback_stores {data : Bytes} {n' : Int} {r' : UrlResult}
    (hread : readHeaderLine alloc data size r = some (meaning alloc line r))
    (h : headerLineCallback alloc data size r = some (n', r')) {a : Addr} (hs : r'.mem.strings.get a = some s) :
    r.mem.strings.get a = some s ∨ s <:+: line := by
  have hkeep : ∀ what m, meaning alloc line r = (what, m) → m.strings = r.mem.strings := meaning_strings
  rw [headerLineCallback, hread] at h
  rcases hmeaning : meaning alloc line r with ⟨what, m⟩
  have hstrings := hkeep what m hmeaning
  rw [hmeaning] at h
  cases what with
  | nothing =>
    cases h
    exact Or.inl (hstrings ▸ hs)
  | failed =>
    cases h
    exact Or.inl (hstrings ▸ hs)
  | code n =>
    cases h
    exact Or.inl (hstrings ▸ hs)
  | header headers key value =>
    simp only [Option.bind_eq_bind, Option.bind_some] at h
    obtain ⟨⟨n, m'⟩, hset, heq⟩ := Option.bind_eq_some_iff.mp h
    cases heq
    obtain ⟨hkey, hvalue⟩ := meaning_infix hmeaning
    rcases hashSet_addsOnly hset a s hs with hs | hs
    · exact Or.inl (hstrings ▸ hs)
    · simp only [List.mem_cons, List.not_mem_nil, or_false] at hs
      rcases hs with rfl | rfl
      · exact Or.inr hkey
      · exact Or.inr hvalue

end

/-! ### Lines in the log -/

section
variable {alloc : Nat → Bool} {log : Bytes} {r : UrlResult} {start size : Nat}

/-- The memory from a line on: the line, its terminator, and more. -/
theorem memoryAt_line (L : IsLine log start size) : ∃ term more,
    memoryAt log start = lineAt log start size ++ (term ++ more) ∧ (lineAt log start size).length = size ∧
      terminatorLength (memoryAt log (start + size)) = term.length ∧
      (term ∈ [[13, 10], [13], [10]] ∧ start + size < log.length ∨ term = [0] ∧ start + size = log.length) := by
  have hdrop : memoryAt log start = log.drop start ++ [0] :=
    List.drop_append_of_le_length (Nat.le_trans (Nat.le_add_right _ _) L.fits)
  have hend : memoryAt log (start + size) = log.drop (start + size) ++ [0] := List.drop_append_of_le_length L.fits
  have hsplit : log.drop start = lineAt log start size ++ log.drop (start + size) := by
    rw [lineAt, ← List.drop_drop, List.take_append_drop]
  have hlen : (lineAt log start size).length = size := by
    have hfits := L.fits
    rw [lineAt, List.length_take, List.length_drop]
    omega
  rw [hdrop, hend, hsplit]
  cases hrest : log.drop (start + size) with
  | nil =>
    have hle := List.drop_eq_nil_iff.mp hrest
    exact ⟨[0], [], by simp, hlen, rfl, Or.inr ⟨rfl, Nat.le_antisymm L.fits hle⟩⟩
  | cons c rest =>
    have hlt : start + size < log.length := by
      by_contra hge
      rw [List.drop_eq_nil_of_le (Nat.le_of_not_lt hge)] at hrest
      cases hrest
    have hc : log[start + size]? = some c := by
      rw [← List.head?_drop, hrest]
      rfl
    by_cases hpair : c = 13 ∧ rest.head? = some 10
    · obtain ⟨rfl, hhead⟩ := hpair
      obtain ⟨rest, rfl⟩ : ∃ more, rest = 10 :: more := by
        cases rest with
        | nil => cases hhead
        | cons b rest => exact ⟨rest, by rw [Option.some.inj hhead]⟩
      exact ⟨[13, 10], rest ++ [0], by simp, hlen, rfl, Or.inl ⟨by simp, hlt⟩⟩
    · have hone : terminatorLength (c :: rest ++ [0]) = 1 := by
        unfold terminatorLength
        split
        · next heq =>
          rw [List.cons_append, List.cons.injEq] at heq
          refine absurd ⟨heq.1, ?_⟩ hpair
          cases rest with
          | nil => cases heq.2
          | cons b rest =>
            rw [List.cons_append, List.cons.injEq] at heq
            rw [heq.2.1]
            rfl
        · rfl
      refine ⟨[c], rest ++ [0], by simp, hlen, hone, Or.inl ⟨?_, hlt⟩⟩
      rcases L.ends c hc with rfl | rfl
      · simp
      · simp

theorem isLocal_of_line (L : IsLine log start size) (h : ¬LeavesLine log r start size) :
    IsLocal alloc log r start size := by
  obtain ⟨term, more, hmem, hlen, hterm, hcases⟩ := memoryAt_line L
  obtain ⟨hshort, hcode⟩ := not_or.mp h
  have hshort : ∀ c, lineAt log start size = [c] → r.headersFor c = none := by
    intro c hc
    by_contra hne
    exact hshort ⟨c, hc, hne⟩
  obtain ⟨t, ts, rfl, ht, hcode⟩ : ∃ t ts, term = t :: ts ∧ (t = 0 ∨ t = 13 ∨ t = 10) ∧
      (t = 0 ∨ ¬LacksCode r (lineAt log start size)) := by
    rcases hcases with ⟨hterm, hlt⟩ | ⟨rfl, -⟩
    · have hcode : ¬LacksCode r (lineAt log start size) := fun hlacks => hcode ⟨hlacks, hlt⟩
      simp only [List.mem_cons, List.not_mem_nil, or_false] at hterm
      rcases hterm with rfl | rfl | rfl <;> exact ⟨_, _, rfl, by decide, Or.inr hcode⟩
    · exact ⟨0, [], rfl, Or.inl rfl, Or.inl rfl⟩
  have hread : ∀ rest, readHeaderLine alloc (lineAt log start size ++ t :: rest) size r =
      some (meaning alloc (lineAt log start size) r) := by
    intro rest
    have hline : readHeaderLine alloc (lineAt log start size ++ t :: rest) (lineAt log start size).length r = _ :=
      readHeaderLine_line ht hshort hcode
    rwa [hlen] at hline
  have hzero : readHeaderLine alloc (lineAt log start size ++ [0]) size r =
      some (meaning alloc (lineAt log start size) r) := by
    have hline : readHeaderLine alloc (lineAt log start size ++ [0]) (lineAt log start size).length r = _ :=
      readHeaderLine_line (Or.inl rfl) hshort (Or.inl rfl)
    rwa [hlen] at hline
  have hhere : readHeaderLine alloc (memoryAt log start) size r = some (meaning alloc (lineAt log start size) r) := by
    rw [hmem, List.cons_append]
    exact hread _
  refine ⟨?_, ?_, ?_⟩
  · have htake : (lineAt log start size ++ (t :: ts ++ more)).take (size + (t :: ts).length) =
        lineAt log start size ++ t :: ts := by
      rw [← List.append_assoc]
      refine List.take_left' ?_
      rw [List.length_append, hlen]
    rw [hterm, hmem, htake, hread]
    exact Option.some_ne_none _
  · rw [headerLineCallback, headerLineCallback, hhere, hzero]
  · exact fun n r' hcall a s => headerLineCallback_stores hhere hcall

theorem not_leavesLine (L : IsLine log start size) (I : IsLocal alloc log r start size) :
    ¬LeavesLine log r start size := by
  obtain ⟨term, more, hmem, hlen, hterm, hcases⟩ := memoryAt_line L
  have htake : (lineAt log start size ++ (term ++ more)).take (size + term.length) = lineAt log start size ++ term := by
    rw [← List.append_assoc]
    refine List.take_left' ?_
    rw [List.length_append, hlen]
  have hreads := I.reads
  rw [hterm, hmem, htake] at hreads
  rintro (⟨c, hc, hne⟩ | ⟨hlacks, hlt⟩)
  · rw [hc] at hreads hlen
    refine hreads ?_
    rw [← hlen]
    refine readHeaderLine_short ?_ hne
    rcases hcases with ⟨hmem, -⟩ | ⟨rfl, -⟩
    · simp only [List.mem_cons, List.not_mem_nil, or_false] at hmem ⊢
      rcases hmem with rfl | rfl | rfl <;> simp
    · simp
  · have hspace : ∀ c ∈ term, isspace c = true := by
      rcases hcases with ⟨hmem, -⟩ | ⟨-, heq⟩
      · simp only [List.mem_cons, List.not_mem_nil, or_false] at hmem
        rcases hmem with rfl | rfl | rfl <;> simp [isspace]
      · exact absurd heq (Nat.ne_of_lt hlt)
    refine hreads ?_
    have hnone : readHeaderLine alloc (lineAt log start size ++ term) (lineAt log start size).length r = none :=
      readHeaderLine_lacksCode hspace hlacks
    rwa [hlen] at hnone

end

/-- In every run over a log, a call keeps to its line if and only if the line is not one that it leaves. -/
theorem isLocal_iff (alloc : Nat → Bool) (log : Bytes) (r₀ r : UrlResult) (start size : Nat)
    (hcall : (some r, start, size) ∈ headerCalls alloc log r₀) :
    IsLocal alloc log r start size ↔ ¬LeavesLine log r start size := by
  have hline : IsLine log start size := isLine_of_mem hcall
  exact ⟨not_leavesLine hline, isLocal_of_line hline⟩

/-- A result with an empty list for the headers of the response. -/
def emptyResult : UrlResult :=
  match nlHashCreate (fun _ => true) {} with
  | some (headers, m) => { responseHeaders := headers, mem := m }
  | none => {}

/-- A header of the response. -/
theorem isLocal_header : (some emptyResult, 0, 6) ∈ headerCalls (fun _ => true) (bytes "< A: b\r\n") emptyResult ∧
    IsLocal (fun _ => true) (bytes "< A: b\r\n") emptyResult 0 6 := by
  have hcall : (some emptyResult, 0, 6) ∈ headerCalls (fun _ => true) (bytes "< A: b\r\n") emptyResult := by decide
  refine ⟨hcall, (isLocal_iff _ _ _ _ _ _ hcall).mpr ?_⟩
  have hline : lineAt (bytes "< A: b\r\n") 0 6 = bytes "< A: b" := rfl
  rintro (⟨c, hc, -⟩ | ⟨⟨-, -, version, ws, heq, -⟩, -⟩)
  · rw [hline] at hc
    exact absurd (congrArg List.length hc) (by simp [bytes])
  · rw [hline] at heq
    exact absurd (congrArg (·[2]?) heq) (by simp [bytes])

/-- A line that holds nothing but the direction. -/
theorem not_isLocal_direction : ¬∀ alloc log r₀ r start size, (some r, start, size) ∈ headerCalls alloc log r₀ →
    IsLocal alloc log r start size := by
  intro hall
  have hcall : (some emptyResult, 0, 1) ∈ headerCalls (fun _ => true) (bytes "<\r\n") emptyResult := by decide
  refine not_leavesLine (isLine_of_mem hcall) (hall _ _ _ _ _ _ hcall) (Or.inl ⟨60, rfl, ?_⟩)
  exact Option.some_ne_none 0

end Nlutils.UrlReq
