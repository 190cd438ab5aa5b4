import Nlutils.Kvp.Scan

/-! # Garbage in a line

Whatever a line holds, a whitespace character after it brings the parser back to where it started, unless the
line leaves a quotation open. -/

namespace Nlutils
open Scan

/-- Where the scan of a text ends. -/
def scanEnd : Bytes → Scan → Scan
  | [], s => s
  | [c], s => s.next c
  | c :: d :: rest, s =>
    if s.inQuotes ∧ c = 92 ∧ d = 34 then scanEnd rest s.skipQuote else scanEnd (d :: rest) (s.next c)

section
variable {dup : Nat → Bool} {line done rest a b : Bytes} {w : Byte} {s : Scan} {t : KvpParse} {ps : List KvpText}
  {n : Nat}

/-- The parser ends where the scan does. -/
theorem kvpLoop_follows (dup : Nat → Bool) (F : Follows done t s) (hline : line = done ++ rest) :
    Follows line (kvpLoop dup line rest t) (scanEnd rest s) := by
  induction rest, s using scanEnd.induct generalizing done t with
  | case1 s =>
    rw [List.append_nil] at hline
    exact hline ▸ F
  | case2 c s =>
    have F' := (kvpChar_step dup F hline).1
    rw [← hline] at F'
    exact F'
  | case3 c d rest s h ih =>
    obtain ⟨hq, rfl, rfl⟩ := h
    rw [kvpLoop, if_pos ⟨F.inQuotes.trans hq, rfl, rfl⟩, scanEnd, if_pos ⟨hq, rfl, rfl⟩]
    exact ih (skipQuote_follows F hq) (by rw [hline]; simp)
  | case4 c d rest s h ih =>
    have F' := (kvpChar_step dup F hline).1
    rw [kvpLoop, if_neg (F.inQuotes ▸ h), scanEnd, if_neg h]
    exact ih F' (by rw [hline]; simp)

/-- Outside of quotes, a whitespace character ends what the end of the line would end, and starts anew. -/
theorem next_space (hw : isspace w = true) (hq : s.inQuotes = false) :
    s.found w = s.pending ∧ s.next w = expectKey := by
  have heq : w ≠ 61 := by
    rintro rfl
    exact absurd hw (by decide)
  cases s with
  | readQuotedKey k | readQuotedValue k v => simp [inQuotes] at hq
  | expectKey | skipKey | readKey k | expectEquals k | expectValue k | readValue k v =>
    simp [found, pending, next, hw, heq]

theorem scan_space_append (hw : isspace w = true) (hq : (scanEnd a s).inQuotes = false) :
    scan (a ++ w :: b) s = scan a s ++ scan b expectKey := by
  have hslash : w ≠ 92 := by
    rintro rfl
    exact absurd hw (by decide)
  have hquote : w ≠ 34 := by
    rintro rfl
    exact absurd hw (by decide)
  induction a, s using scanEnd.induct with
  | case1 s =>
    rw [scanEnd] at hq
    obtain ⟨hf, hn⟩ := next_space hw hq
    rw [List.nil_append, scan_char hslash, hf, hn, scan]
  | case2 c s =>
    rw [scanEnd] at hq
    obtain ⟨hf, hn⟩ := next_space hw hq
    have hskip : ¬(s.inQuotes = true ∧ c = 92 ∧ (w :: b).head? = some 34) := fun h =>
      hquote (Option.some.inj h.2.2)
    rw [List.singleton_append, scan_cons hskip, scan_char hslash, hf, hn, scan, List.append_assoc]
  | case3 c d rest s h ih =>
    obtain ⟨hs, rfl, rfl⟩ := h
    rw [scanEnd, if_pos ⟨hs, rfl, rfl⟩] at hq
    rw [List.cons_append, List.cons_append, scan_skipQuote hs, scan_skipQuote hs]
    exact ih hq
  | case4 c d rest s h ih =>
    rw [scanEnd, if_neg h] at hq
    rw [List.cons_append, List.cons_append, scan, if_neg h, scan, if_neg h, List.append_assoc, ← ih hq]
    rfl

theorem sendAll_shift : sendAll (fun i => dup (n + i)) 0 ps = sendAll dup n ps := by
  have hgen : ∀ k, sendAll (fun i => dup (n + i)) k ps = sendAll dup (n + k) ps := by
    induction ps with
    | nil => exact fun _ => rfl
    | cons p ps ih =>
      intro k
      simp only [sendAll, ih, Nat.add_assoc]
  exact hgen 0

end

/-- The callbacks for `a`, a whitespace character and `b` are those for `a` and then those for `b`, whose copies
    are the ones after the copies made for `a`. -/
theorem nlParseKvp_append (dup : Nat → Bool) (a b : Bytes) (w : Byte) (hw : isspace w = true)
    (hq : (kvpLoop dup a a {}).inQuotes = false) :
    nlParseKvp dup (some (a ++ w :: b)) = nlParseKvp dup (some a) ++
      nlParseKvp (fun i => dup ((finalPair dup a (kvpLoop dup a a {})).dups + i)) (some b) := by
  have F : Follows [] {} expectKey := ⟨rfl, rfl⟩
  have hend : (scanEnd a expectKey).inQuotes = false :=
    (kvpLoop_follows dup F (rfl : a = [] ++ a)).inQuotes.symm.trans hq
  have hcalls := kvpLoop_calls dup (scan b expectKey) F (rfl : a = [] ++ a)
  rw [nlParseKvp_eq_scan, nlParseKvp_eq_scan _ b, scan_space_append hw hend, sendAll_shift]
  exact hcalls.symm

/-- A key without a value, a tab and a pair. -/
theorem nlParseKvp_append_garbage :
    nlParseKvp (fun _ => true) (some (bytes "x= \"y" ++ 34 :: (9 :: bytes "a=b"))) =
      nlParseKvp (fun _ => true) (some (bytes "x= \"y\"")) ++ nlParseKvp (fun _ => true) (some (bytes "a=b")) :=
  nlParseKvp_append (fun _ => true) (bytes "x= \"y\"") (bytes "a=b") 9 (by decide) (by decide)

end Nlutils
