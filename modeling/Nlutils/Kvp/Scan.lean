import Nlutils.Kvp.Code

/-! # The texts of the pairs in a line

`Kvp/Code.lean` keeps offsets into the line. The scan here keeps the texts that they stand for: that of a key or
a value as far as it has been read, with its quotation marks and escapes. -/

namespace Nlutils

inductive Scan
  | expectKey
  | skipKey
  | readKey (key : Bytes)
  | readQuotedKey (key : Bytes)
  | expectEquals (key : Bytes)
  | expectValue (key : Bytes)
  | readValue (key value : Bytes)
  | readQuotedValue (key value : Bytes)
  deriving DecidableEq, Repr

/-- The text of a key and that of its value. -/
abbrev KvpText := Bytes × Bytes

namespace Scan

def next (c : Byte) : Scan → Scan
  | expectKey => if c = 61 then skipKey else if isspace c then expectKey else
    if c = 34 then readQuotedKey [c] else readKey [c]
  | skipKey => if isspace c then expectKey else skipKey
  | readKey k => if isspace c then expectKey else if c = 61 then expectValue k else readKey (k ++ [c])
  | readQuotedKey k => if c = 34 then expectEquals (k ++ [c]) else readQuotedKey (k ++ [c])
  | expectEquals k => if c = 61 then expectValue k else expectKey
  | expectValue k => if isspace c then expectKey else if c = 34 then readQuotedValue k [c] else readValue k [c]
  | readValue k v => if isspace c then expectKey else readValue k (v ++ [c])
  | readQuotedValue k v => if c = 34 then expectKey else readQuotedValue k (v ++ [c])

/-- The pair that ends with a character. -/
def found (c : Byte) : Scan → List KvpText
  | readValue k v => if isspace c then [(k, v)] else []
  | readQuotedValue k v => if c = 34 then [(k, v ++ [c])] else []
  | _ => []

/-- The pair that the end of the line ends. -/
def pending : Scan → List KvpText
  | readValue k v | readQuotedValue k v => [(k, v)]
  | _ => []

def inQuotes : Scan → Bool
  | readQuotedKey _ | readQuotedValue _ _ => true
  | _ => false

/-- After an escaped quotation mark within quotes. -/
def skipQuote : Scan → Scan
  | readQuotedKey k => readQuotedKey (k ++ [92, 34])
  | readQuotedValue k v => readQuotedValue k (v ++ [92, 34])
  | s => s

end Scan

open Scan

def scan : Bytes → Scan → List KvpText
  | [], s => s.pending
  | [c], s => s.found c ++ (s.next c).pending
  | c :: d :: rest, s =>
    if s.inQuotes ∧ c = 92 ∧ d = 34 then scan rest s.skipQuote else s.found c ++ scan (d :: rest) (s.next c)

/-- The calls made for these pairs, when `nl_strndup_term` has been called `n` times before. -/
def sendAll (dup : Nat → Bool) : Nat → List KvpText → List KvpCall
  | _, [] => []
  | n, (k, v) :: ps =>
    if !dup n then sendAll dup (n + 1) ps
    else if !dup (n + 1) then sendAll dup (n + 2) ps
    else kvpCall k v :: sendAll dup (n + 2) ps

/-- The offsets stand for the texts, where `done` is the part of the line that has been read. -/
def Tracks (done : Bytes) (t : KvpParse) : Scan → Prop
  | expectKey => t.state = .expectKey
  | skipKey => t.state = .skipKey
  | readKey k => t.state = .readKey ∧ ∃ pre, done = pre ++ k ∧ t.keyStart = pre.length
  | readQuotedKey k => t.state = .readQuotedKey ∧ ∃ pre, done = pre ++ k ∧ t.keyStart = pre.length
  | expectEquals k => t.state = .expectEquals ∧ ∃ pre, done = pre ++ k ∧ t.keyStart = pre.length
  | expectValue k => t.state = .expectValue ∧
    ∃ pre, done = pre ++ k ++ [61] ∧ t.keyStart = pre.length ∧ t.keyLength = k.length
  | readValue k v => t.state = .readValue ∧
    ∃ pre, done = pre ++ k ++ [61] ++ v ∧ t.keyStart = pre.length ∧ t.keyLength = k.length ∧
      t.valueStart = (pre ++ k ++ [61]).length
  | readQuotedValue k v => t.state = .readQuotedValue ∧
    ∃ pre, done = pre ++ k ++ [61] ++ v ∧ t.keyStart = pre.length ∧ t.keyLength = k.length ∧
      t.valueStart = (pre ++ k ++ [61]).length

section
variable {dup : Nat → Bool} {line done rest pre k v : Bytes} {c : Byte} {s : Scan} {t : KvpParse} {ps : List KvpText}

theorem scan_cons (h : ¬(s.inQuotes = true ∧ c = 92 ∧ rest.head? = some 34)) :
    scan (c :: rest) s = s.found c ++ scan rest (s.next c) := by
  cases rest with
  | nil => simp only [scan]
  | cons d rest =>
    have h' : ¬(s.inQuotes = true ∧ c = 92 ∧ d = 34) := fun hc => h ⟨hc.1, hc.2.1, congrArg some hc.2.2⟩
    simp only [scan, if_neg h']

theorem scan_skipQuote (h : s.inQuotes = true) : scan (92 :: 34 :: rest) s = scan rest s.skipQuote := by
  simp [scan, h]

/-- A character that is no backslash. -/
theorem scan_char (h : c ≠ 92) : scan (c :: rest) s = s.found c ++ scan rest (s.next c) :=
  scan_cons fun hc => h hc.2.1

theorem scan_quote : scan (34 :: rest) s = s.found 34 ++ scan rest (s.next 34) := scan_char (by decide)

theorem scan_space : scan (32 :: rest) s = s.found 32 ++ scan rest (s.next 32) := scan_char (by decide)

theorem scan_equalsSign : scan (61 :: rest) s = s.found 61 ++ scan rest (s.next 61) := scan_char (by decide)

/-! ### The parser follows the scan -/

theorem slice_append (hpre : done = pre ++ k ++ rest) : slice done pre.length k.length = k := by
  subst hpre
  simp [slice]

theorem sendPair_calls (t : KvpParse) (ps : List KvpText) (hk : slice line t.keyStart t.keyLength = k)
    (hv : slice line t.valueStart t.valueLength = v) :
    (sendPair dup line t).calls ++ sendAll dup (sendPair dup line t).dups ps =
      t.calls ++ sendAll dup t.dups ((k, v) :: ps) := by
  cases h : dup t.dups <;> cases h' : dup (t.dups + 1) <;> simp [sendPair, sendAll, h, h', hk, hv]

@[simp] theorem sendPair_off : (sendPair dup line t).off = t.off := by
  unfold sendPair
  split
  · rfl
  · split <;> rfl

/-- The part of the line that has been read is that before `off`. -/
structure Follows (done : Bytes) (t : KvpParse) (s : Scan) : Prop where
  tracks : Tracks done t s
  off : t.off = done.length

theorem Follows.inQuotes (F : Follows done t s) : t.inQuotes = s.inQuotes := by
  have hT := F.tracks
  cases s <;> simp only [Tracks] at hT <;> simp [KvpParse.inQuotes, Scan.inQuotes, hT]

/-- Where a key starts, and what of the line comes before it. -/
theorem sub_length {n : Nat} (hoff : t.off = done.length) (hdone : done = pre ++ k) (hn : n = pre.length) :
    t.off - n = k.length := by
  rw [hoff, hdone, List.length_append, hn, Nat.add_sub_cancel_left]

/-- A character that ends no pair. -/
theorem kvpChar_follows (F : Follows done t s) (hnone : s.found c = []) :
    Follows (done ++ [c]) (kvpChar dup line c t) (s.next c) ∧
      (kvpChar dup line c t).calls = t.calls ∧ (kvpChar dup line c t).dups = t.dups := by
  obtain ⟨hT, hoff⟩ := F
  have hlen : t.off + 1 = (done ++ [c]).length := by simp [hoff]
  cases s with
  | expectKey =>
    have hs : t.state = .expectKey := hT
    simp only [kvpChar, hs, Scan.next]
    split
    · exact ⟨⟨rfl, hlen⟩, rfl, rfl⟩
    · split
      · exact ⟨⟨hs, hlen⟩, rfl, rfl⟩
      · split
        · exact ⟨⟨⟨rfl, done, rfl, hoff⟩, hlen⟩, rfl, rfl⟩
        · exact ⟨⟨⟨rfl, done, rfl, hoff⟩, hlen⟩, rfl, rfl⟩
  | skipKey =>
    have hs : t.state = .skipKey := hT
    simp only [kvpChar, hs, Scan.next]
    split
    · exact ⟨⟨rfl, hlen⟩, rfl, rfl⟩
    · exact ⟨⟨hs, hlen⟩, rfl, rfl⟩
  | readKey k =>
    obtain ⟨hs, pre, hdone, hks⟩ := hT
    simp only [kvpChar, hs, Scan.next]
    split
    · exact ⟨⟨rfl, hlen⟩, rfl, rfl⟩
    · split
      · next h61 => exact ⟨⟨⟨rfl, pre, by rw [hdone, h61], hks, sub_length hoff hdone hks⟩, hlen⟩, rfl, rfl⟩
      · exact ⟨⟨⟨hs, pre, by rw [hdone, List.append_assoc], hks⟩, hlen⟩, rfl, rfl⟩
  | readQuotedKey k =>
    obtain ⟨hs, pre, hdone, hks⟩ := hT
    simp only [kvpChar, hs, Scan.next]
    split
    · exact ⟨⟨⟨rfl, pre, by rw [hdone, List.append_assoc], hks⟩, hlen⟩, rfl, rfl⟩
    · exact ⟨⟨⟨hs, pre, by rw [hdone, List.append_assoc], hks⟩, hlen⟩, rfl, rfl⟩
  | expectEquals k =>
    obtain ⟨hs, pre, hdone, hks⟩ := hT
    simp only [kvpChar, hs, Scan.next]
    split
    · next h61 => exact ⟨⟨⟨rfl, pre, by rw [hdone, h61], hks, sub_length hoff hdone hks⟩, hlen⟩, rfl, rfl⟩
    · exact ⟨⟨rfl, hlen⟩, rfl, rfl⟩
  | expectValue k =>
    obtain ⟨hs, pre, hdone, hks, hkl⟩ := hT
    have hvs : t.off = (pre ++ k ++ [61]).length := hdone ▸ hoff
    simp only [kvpChar, hs, Scan.next]
    split
    · exact ⟨⟨rfl, hlen⟩, rfl, rfl⟩
    · split
      · exact ⟨⟨⟨rfl, pre, by rw [hdone], hks, hkl, hvs⟩, hlen⟩, rfl, rfl⟩
      · exact ⟨⟨⟨rfl, pre, by rw [hdone], hks, hkl, hvs⟩, hlen⟩, rfl, rfl⟩
  | readValue k v =>
    obtain ⟨hs, pre, hdone, hks, hkl, hvs⟩ := hT
    have hsp : ¬isspace c = true := fun hc => by simp [found, hc] at hnone
    have hchar : kvpChar dup line c t = { t with off := t.off + 1 } := by simp [kvpChar, hs, hsp]
    rw [hchar, Scan.next, if_neg hsp]
    exact ⟨⟨⟨hs, pre, by rw [hdone, List.append_assoc], hks, hkl, hvs⟩, hlen⟩, rfl, rfl⟩
  | readQuotedValue k v =>
    obtain ⟨hs, pre, hdone, hks, hkl, hvs⟩ := hT
    have hq : c ≠ 34 := fun hc => by simp [found, hc] at hnone
    have hchar : kvpChar dup line c t = { t with off := t.off + 1 } := by simp [kvpChar, hs, hq]
    rw [hchar, Scan.next, if_neg hq]
    exact ⟨⟨⟨hs, pre, by rw [hdone, List.append_assoc], hks, hkl, hvs⟩, hlen⟩, rfl, rfl⟩

/-- The slices of a pair that has been read are its texts. -/
theorem slices (hline : line = pre ++ k ++ [61] ++ v ++ rest) (hks : t.keyStart = pre.length)
    (hkl : t.keyLength = k.length) (hvs : t.valueStart = (pre ++ k ++ [61]).length) :
    slice line t.keyStart t.keyLength = k ∧ slice line t.valueStart v.length = v := by
  rw [hks, hkl, hvs]
  constructor
  · have happ : line = pre ++ k ++ ([61] ++ v ++ rest) := by simp [hline]
    exact slice_append happ
  · exact slice_append hline

/-- A character that ends a pair. -/
theorem kvpChar_found {p : KvpText} (ps : List KvpText) (F : Follows done t s) (hline : line = done ++ c :: rest)
    (hp : s.found c = [p]) :
    Follows (done ++ [c]) (kvpChar dup line c t) (s.next c) ∧
      (kvpChar dup line c t).calls ++ sendAll dup (kvpChar dup line c t).dups ps =
        t.calls ++ sendAll dup t.dups (p :: ps) := by
  obtain ⟨hT, hoff⟩ := F
  have hlen : t.off + 1 = (done ++ [c]).length := by simp [hoff]
  cases s with
  | readValue k v =>
    obtain ⟨hs, pre, hdone, hks, hkl, hvs⟩ := hT
    by_cases hsp : isspace c = true
    · obtain rfl : p = (k, v) := by simpa [found, hsp] using hp.symm
      have hsub := sub_length hoff hdone hvs
      obtain ⟨hk, hv⟩ := slices (hdone ▸ hline) hks hkl hvs
      simp only [kvpChar, hs, Scan.next, if_pos hsp, sendPair_off]
      exact ⟨⟨rfl, hlen⟩, sendPair_calls _ _ hk (by rw [hsub]; exact hv)⟩
    · simp [found, hsp] at hp
  | readQuotedValue k v =>
    obtain ⟨hs, pre, hdone, hks, hkl, hvs⟩ := hT
    by_cases hq : c = 34
    · obtain rfl : p = (k, v ++ [c]) := by simpa [found, hq] using hp.symm
      have hsub := sub_length hoff hdone hvs
      have hline' : line = pre ++ k ++ [61] ++ (v ++ [c]) ++ rest := by rw [hline, hdone]; simp
      obtain ⟨hk, hv⟩ := slices hline' hks hkl hvs
      rw [List.length_append] at hv
      simp only [kvpChar, hs, Scan.next, if_pos hq, sendPair_off]
      exact ⟨⟨rfl, hlen⟩, sendPair_calls _ _ hk (by rw [hsub]; exact hv)⟩
    · simp [found, hq] at hp
  | _ => simp [found] at hp

/-- An escaped quotation mark within quotes. -/
theorem skipQuote_follows (F : Follows done t s) (hq : s.inQuotes = true) :
    Follows (done ++ [92, 34]) { t with off := t.off + 2 } s.skipQuote := by
  obtain ⟨hT, hoff⟩ := F
  have hlen : t.off + 2 = (done ++ [92, 34]).length := by simp [hoff]
  cases s with
  | readQuotedKey k =>
    obtain ⟨hs, pre, hdone, hks⟩ := hT
    exact ⟨⟨hs, pre, by rw [hdone, List.append_assoc], hks⟩, hlen⟩
  | readQuotedValue k v =>
    obtain ⟨hs, pre, hdone, hks, hkl, hvs⟩ := hT
    exact ⟨⟨hs, pre, by rw [hdone, List.append_assoc], hks, hkl, hvs⟩, hlen⟩
  | _ => simp [Scan.inQuotes] at hq

theorem finalPair_calls (ps : List KvpText) (F : Follows line t s) :
    (finalPair dup line t).calls ++ sendAll dup (finalPair dup line t).dups ps =
      t.calls ++ sendAll dup t.dups (s.pending ++ ps) := by
  obtain ⟨hT, hoff⟩ := F
  cases s with
  | readValue k v | readQuotedValue k v =>
    obtain ⟨hs, pre, hdone, hks, hkl, hvs⟩ := hT
    have hsub := sub_length hoff hdone hvs
    have hline : line = pre ++ k ++ [61] ++ v ++ [] := by rw [List.append_nil, ← hdone]
    obtain ⟨hk, hv⟩ := slices hline hks hkl hvs
    have hfinal : finalPair dup line t = sendPair dup line { t with valueLength := t.off - t.valueStart } := by
      simp [finalPair, hs]
    rw [hfinal]
    exact sendPair_calls _ _ hk (by rw [hsub]; exact hv)
  | expectKey | skipKey =>
    have hs : t.state = _ := hT
    simp [finalPair, hs, Scan.pending]
  | readKey k | readQuotedKey k | expectEquals k | expectValue k =>
    have hs : t.state = _ := hT.1
    simp [finalPair, hs, Scan.pending]

theorem found_cases : s.found c = [] ∨ ∃ p, s.found c = [p] := by
  cases s with
  | readValue k v | readQuotedValue k v => simp only [found]; split <;> simp
  | _ => simp [found]

theorem kvpChar_step (dup : Nat → Bool) (F : Follows done t s) (hline : line = done ++ c :: rest) :
    Follows (done ++ [c]) (kvpChar dup line c t) (s.next c) ∧
      ∀ ps, (kvpChar dup line c t).calls ++ sendAll dup (kvpChar dup line c t).dups ps =
        t.calls ++ sendAll dup t.dups (s.found c ++ ps) := by
  rcases found_cases (c := c) (s := s) with hnone | ⟨p, hp⟩
  · obtain ⟨F', hcalls, hdups⟩ := kvpChar_follows F hnone
    exact ⟨F', fun ps => by rw [hcalls, hdups, hnone, List.nil_append]⟩
  · refine ⟨(kvpChar_found [] F hline hp).1, ?_⟩
    intro ps
    rw [hp, List.singleton_append]
    exact (kvpChar_found ps F hline hp).2

/-- The parser makes the calls for the texts that the scan finds. -/
theorem kvpLoop_calls (dup : Nat → Bool) (ps : List KvpText) (F : Follows done t s) (hline : line = done ++ rest) :
    (finalPair dup line (kvpLoop dup line rest t)).calls ++
        sendAll dup (finalPair dup line (kvpLoop dup line rest t)).dups ps =
      t.calls ++ sendAll dup t.dups (scan rest s ++ ps) := by
  induction rest, s using scan.induct generalizing done t with
  | case1 s =>
    rw [List.append_nil] at hline
    exact finalPair_calls ps (hline ▸ F)
  | case2 c s =>
    obtain ⟨F', hcalls⟩ := kvpChar_step dup F hline
    rw [← hline] at F'
    rw [kvpLoop, finalPair_calls ps F', scan, List.append_assoc, hcalls]
  | case3 c d rest s h ih =>
    obtain ⟨hq, rfl, rfl⟩ := h
    rw [kvpLoop, if_pos ⟨F.inQuotes.trans hq, rfl, rfl⟩, scan_skipQuote hq]
    exact ih (skipQuote_follows F hq) (by rw [hline]; simp)
  | case4 c d rest s h ih =>
    obtain ⟨F', hcalls⟩ := kvpChar_step dup F hline
    rw [kvpLoop, if_neg (F.inQuotes ▸ h), ih F' (by rw [hline]; simp), scan, if_neg h, List.append_assoc, hcalls]

end

theorem nlParseKvp_eq_scan (dup : Nat → Bool) (line : Bytes) :
    nlParseKvp dup (some line) = sendAll dup 0 (scan line .expectKey) := by
  have F : Follows [] {} .expectKey := ⟨rfl, rfl⟩
  have h := kvpLoop_calls dup [] F (rfl : line = [] ++ line)
  rw [sendAll, List.append_nil, List.append_nil] at h
  exact h

end Nlutils
