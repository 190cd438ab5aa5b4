import Nlutils.Escape.RoundTrip
import Nlutils.Kvp.Quoting

/-! # Which pairs come back from a line

Pairs are written with quotation marks and escapes, and read with `nl_parse_kvp`. Where a quotation mark is
missed, the quoted values that are found afterwards are one too few: a value starts where a quotation mark comes
right after an equals sign, at most once in a pair, except where the pair's own value ends with an equals sign. -/

namespace Nlutils
open Scan

/-- `"key"="value"`, with the key and the value escaped by `nl_escape_string`. -/
def pairText (p : Bytes × Bytes) : Option Bytes := do
  let (_, key, _) ← nlEscapeString true true p.1 (p.1.length + 1)
  let (_, value, _) ← nlEscapeString true true p.2 (p.2.length + 1)
  some (34 :: (key ++ 34 :: 61 :: 34 :: (value ++ [34])))

/-- The line of the pairs, if each of them can be written. -/
def kvpText (ps : List (Bytes × Bytes)) : Option Bytes := (ps.mapM pairText).map [32].intercalate

/-- The call that a pair is to lead to. -/
def goodCall (p : Bytes × Bytes) : KvpCall := (p.1, p.2, true)

/-- A copy of `send_pair` is not unescaped, or what `nl_unescape_string` removes from it can be counted in an `int`. -/
def Counted (text : Bytes) : Prop := text.at 0 = 34 → nlUnescapeStringInt text false .ifQuoted ≠ none

/-- The pairs are written to a line, and `nl_parse_kvp` makes the calls for them when it reads the line. -/
def ComesBack (dup : Nat → Bool) (ps : List (Bytes × Bytes)) : Prop :=
  ∃ line, kvpText ps = some line ∧ nlParseKvp dup (some line) = ps.map goodCall ∧
    ∀ t ∈ scan line expectKey, Counted t.1 ∧ Counted t.2

/-- `"key"="value"` with what `nl_escape_string` makes of strings that it can escape. -/
def escapedPair (p : Bytes × Bytes) : Bytes := 34 :: (escaped p.1 ++ 34 :: 61 :: 34 :: (escaped p.2 ++ [34]))

def escapedLine (ps : List (Bytes × Bytes)) : Bytes := [32].intercalate (ps.map escapedPair)

/-- The texts of the key and of the value that are found for a pair. -/
def quotedTexts (p : Bytes × Bytes) : KvpText := (34 :: (escaped p.1 ++ [34]), 34 :: (escaped p.2 ++ [34]))

/-- The text of a pair after its first quotation mark, and what comes after the pair. -/
def bodyText (p : Bytes × Bytes) (rest : Bytes) : Bytes :=
  escaped p.1 ++ 34 :: 61 :: 34 :: (escaped p.2 ++ 34 :: rest)

/-- What comes after a pair. -/
def restText : List (Bytes × Bytes) → Bytes
  | [] => []
  | p :: ps => 32 :: 34 :: bodyText p (restText ps)

def call (t : KvpText) : KvpCall := kvpCall t.1 t.2

/-- How many quoted values are being read. -/
def openValues : Scan → Nat
  | readQuotedValue _ _ => 1
  | _ => 0

section
variable {rest : Bytes} {s : Scan} {p : Bytes × Bytes} {ps : List (Bytes × Bytes)} {k v : Bytes}
  {dup : Nat → Bool} {n : Nat}

theorem escapedLine_cons : escapedLine (p :: ps) = 34 :: bodyText p (restText ps) := by
  induction ps generalizing p with
  | nil => simp [escapedLine, escapedPair, bodyText, restText, List.intercalate]
  | cons q ps ih =>
    have hcons : escapedLine (p :: q :: ps) = escapedPair p ++ 32 :: escapedLine (q :: ps) := by
      simp [escapedLine, List.intercalate]
    rw [hcons, ih, restText]
    simp [escapedPair, bodyText]

/-! ### The texts of a pair -/

theorem at_quoted : Bytes.at (34 :: rest) 0 = 34 := rfl

theorem call_quoted : call (quotedTexts p) = goodCall p := by
  simp [call, quotedTexts, kvpCall, at_quoted, unescape_quoted ifQuoted_ne, unescapeLoop_quote, addBytes, goodCall]

/-- The value of a text that a quotation mark was missed in. -/
theorem call_missed : call (k, 34 :: (escaped v ++ [34, 32, 34])) = ((call (k, [])).1, v ++ [34, 32], true) := by
  have hend : unescapeLoop false true [34, 32, 34] = ([34, 32], 1) := by rfl
  simp [call, kvpCall, at_quoted, unescape_quoted ifQuoted_ne, hend, addBytes]

theorem call_space : (call (k, [34, 32, 34])).2.1 = [32] := by rfl

theorem call_end : (call (k, [34])).2.1 = [] := by rfl

/-! ### Calls and texts -/

theorem sendAll_sublist (dup : Nat → Bool) (n : Nat) (ts : List KvpText) :
    (sendAll dup n ts).Sublist (ts.map call) := by
  induction ts generalizing n with
  | nil => exact List.Sublist.refl _
  | cons t ts ih =>
    obtain ⟨k, v⟩ := t
    unfold sendAll
    split
    · exact (ih _).cons _
    · split
      · exact (ih _).cons _
      · exact (ih _).cons_cons _

theorem sublist_quoted {ts : List KvpText} (h : (ps.map goodCall).Sublist (ts.map call)) :
    (ps.map goodCall).Sublist ((quoted ts).map call) := by
  have hf := h.filter (·.2.2)
  have hgood : (ps.map goodCall).filter (·.2.2) = ps.map goodCall := List.filter_eq_self.mpr fun c hc => by
    obtain ⟨p, -, rfl⟩ := List.mem_map.mp hc
    rfl
  have hts : (ts.map call).filter (·.2.2) = (quoted ts).map call := by
    rw [List.filter_map]
    rfl
  rwa [hgood, hts] at hf

/-! ### A pair that is read from its beginning -/

theorem scan_key (h : ¬EndsWith p.1 92) : scan (bodyText p rest) (readQuotedKey [34]) =
    scan (escaped p.2 ++ 34 :: rest) (readQuotedValue (34 :: (escaped p.1 ++ [34])) [34]) := by
  rw [bodyText, scan_escaped_inQuotes rfl, if_neg h]
  have hnone : ∀ {k}, (readQuotedKey k).found 34 = [] := rfl
  rw [grow, hnone, List.nil_append, scan_equalsSign, scan_quote]
  rfl

theorem scan_key_missed (rest : Bytes) (h : EndsWith p.1 92) : ∃ k, scan (bodyText p rest) (readQuotedKey [34]) =
    scan (escaped p.2 ++ 34 :: rest) (expectEquals k) := by
  refine ⟨[34] ++ (escaped p.1 ++ [34]) ++ [61] ++ [34], ?_⟩
  rw [bodyText, scan_escaped_inQuotes rfl, if_pos h, grow, scan_equalsSign, scan_quote]
  rfl

theorem scan_value (h : ¬EndsWith v 92) : scan (escaped v ++ 34 :: rest) (readQuotedValue k [34]) =
    (k, 34 :: (escaped v ++ [34])) :: scan rest expectKey := by
  rw [scan_escaped_inQuotes rfl, if_neg h]
  simp [grow, found, next]

theorem scan_value_missed (h : EndsWith v 92) : scan (escaped v ++ 34 :: rest) (readQuotedValue k [34]) =
    scan rest (readQuotedValue k (34 :: (escaped v ++ [34]))) := by
  rw [scan_escaped_inQuotes rfl, if_pos h]
  rfl

/-! ### A pair that is not read from its beginning -/

/-- The end of one pair and the first quotation mark of the next. -/
theorem scan_gap (rest : Bytes) (hs : s.Idle ∨ openValues s = 1) :
    ∃ es s', scan (32 :: 34 :: rest) s = es ++ scan rest s' ∧ s'.Idle ∧ s'.wantsValue = false ∧
      (quoted es).length ≤ openValues s ∧ ∀ k, s = readQuotedValue k [34] → quoted es = [(k, [34, 32, 34])] := by
  have h32 : scan (32 :: 34 :: rest) s = s.found 32 ++ scan (34 :: rest) (s.next 32) := scan_space
  have h34 : scan (34 :: rest) (s.next 32) = (s.next 32).found 34 ++ scan rest ((s.next 32).next 34) := scan_quote
  rw [h34, ← List.append_assoc] at h32
  refine ⟨_, _, h32, ?_⟩
  cases s with
  | readQuotedValue k v =>
    refine ⟨trivial, rfl, List.length_filter_le .., ?_⟩
    rintro j hj
    obtain ⟨rfl, rfl⟩ := Scan.readQuotedValue.inj hj
    rfl
  | readValue k v =>
    have hi : (readValue k v).Idle := hs.resolve_right (by simp [openValues])
    obtain ⟨d, v, rfl⟩ := List.exists_cons_of_ne_nil hi.1
    have hd : d ≠ 34 := hi.2
    refine ⟨trivial, rfl, ?_, fun k hk => by cases hk⟩
    simp [found, next, quoted, isspace, Bytes.at, hd]
  | expectKey | skipKey | readKey k | readQuotedKey k | expectEquals k | expectValue k =>
    exact ⟨trivial, rfl, Nat.le_of_eq rfl, fun k hk => by cases hk⟩

/-- The quotation mark after an equals sign. -/
theorem scan_equals (rest : Bytes) (hi : s.Idle) :
    ∃ es s', scan (61 :: 34 :: rest) s = es ++ scan rest s' ∧ quoted es = [] ∧
      (s'.Idle ∧ s'.wantsValue = false ∨ ∃ k, s' = readQuotedValue k [34]) := by
  have h61 : scan (61 :: 34 :: rest) s = s.found 61 ++ scan (34 :: rest) (s.next 61) := scan_equalsSign
  obtain ⟨hi', hf⟩ := next_idle (c := 61) hi (Or.inl (by decide))
  obtain ⟨es, s', hscan, hes, hs'⟩ := scan_escaped_idle [] rest hi'
  have hnil : escaped [] ++ 34 :: rest = 34 :: rest := rfl
  rw [hnil] at hscan
  exact ⟨s.found 61 ++ es, s', by rw [h61, hscan, List.append_assoc], by rw [quoted_append, hf, hes]; rfl,
    hs'.imp_right (·.1)⟩

/-- At most one value starts in a pair, except where a second one starts at its end. -/
theorem scan_body (p : Bytes × Bytes) (rest : Bytes) (hi : s.Idle) :
    ∃ es s', scan (bodyText p rest) s = es ++ scan rest s' ∧ (s'.Idle ∨ openValues s' = 1) ∧
      ((quoted es).length + openValues s' ≤ 1 ∨
        (quoted es).length = 1 ∧ (∃ k, s' = readQuotedValue k [34]) ∧ EndsWith p.2 61) := by
  have hzero : ∀ {s : Scan}, s.Idle → openValues s = 0 := fun {s} h => by
    cases s <;> first | rfl | exact h.elim
  obtain ⟨es₁, s₁, hscan₁, hes₁, hs₁⟩ :=
    scan_escaped_idle p.1 (61 :: 34 :: (escaped p.2 ++ 34 :: rest)) hi
  rcases hs₁ with ⟨hi₁, -⟩ | ⟨⟨k, rfl⟩, -⟩
  · obtain ⟨es₂, s₂, hscan₂, hes₂, hs₂⟩ := scan_equals (escaped p.2 ++ 34 :: rest) hi₁
    have hes : quoted (es₁ ++ es₂) = [] := by rw [quoted_append, hes₁, hes₂]; rfl
    rw [hscan₂, ← List.append_assoc] at hscan₁
    rcases hs₂ with ⟨hi₂, hw₂⟩ | ⟨k, rfl⟩
    · obtain ⟨es₃, s₃, hscan₃, hes₃, hs₃⟩ := scan_escaped_idle p.2 rest hi₂
      refine ⟨es₁ ++ es₂ ++ es₃, s₃, by simp only [bodyText, hscan₁, hscan₃, List.append_assoc], ?_, Or.inl ?_⟩
      · rcases hs₃ with ⟨hi₃, -⟩ | ⟨⟨k, rfl⟩, -⟩
        · exact Or.inl hi₃
        · exact Or.inr rfl
      · rw [quoted_append, hes, hes₃]
        rcases hs₃ with ⟨hi₃, -⟩ | ⟨⟨k, rfl⟩, -⟩
        · simp [hzero hi₃]
        · simp [openValues]
    · by_cases hv : EndsWith p.2 92
      · refine ⟨es₁ ++ es₂, _, by rw [bodyText, hscan₁, scan_value_missed hv], Or.inr rfl, Or.inl ?_⟩
        rw [hes]
        exact Nat.le_of_eq rfl
      · refine ⟨es₁ ++ es₂ ++ [(k, 34 :: (escaped p.2 ++ [34]))], expectKey, ?_, Or.inl trivial, Or.inl ?_⟩
        · simp only [bodyText, hscan₁, scan_value hv, List.append_assoc, List.singleton_append]
        · rw [quoted_append, hes]
          exact List.length_filter_le ..
  · have hscan₂ : scan (61 :: 34 :: (escaped p.2 ++ 34 :: rest)) (readQuotedValue k [34]) =
        [(k, [34, 61, 34])] ++ scan (escaped p.2 ++ 34 :: rest) expectKey := by
      rw [scan_equalsSign, scan_quote]
      rfl
    obtain ⟨es₃, s₃, hscan₃, hes₃, hs₃⟩ := scan_escaped_idle p.2 rest (s := expectKey) trivial
    have hone : (quoted (es₁ ++ [(k, [34, 61, 34])] ++ es₃)).length = 1 := by
      rw [quoted_append, quoted_append, hes₁, hes₃]
      rfl
    refine ⟨es₁ ++ [(k, [34, 61, 34])] ++ es₃, s₃, ?_, ?_⟩
    · simp only [bodyText, hscan₁, hscan₂, hscan₃, List.append_assoc]
    · rcases hs₃ with ⟨hi₃, -⟩ | ⟨⟨j, rfl⟩, hend⟩
      · have hopen := hzero hi₃
        exact ⟨Or.inl hi₃, Or.inl (by omega)⟩
      · refine ⟨Or.inr rfl, Or.inr ⟨hone, ⟨j, rfl⟩, hend.resolve_right ?_⟩⟩
        rintro ⟨-, h⟩
        cases h

/-! ### Values that are missing for good -/

/-- The pairs from `p` on are among those that the calls are still to be made for, but too few values are left:
    one less than there are pairs, or as many when the last one of them is not that of `p`. -/
structure Lost (p : Bytes × Bytes) (ps todo : List (Bytes × Bytes)) (found : List KvpText) (s : Scan) : Prop where
  state : s.Idle ∨ openValues s = 1
  suffix : (p :: ps) <:+ todo
  few : (quoted found).length + openValues s + ps.length ≤ todo.length
  full : (quoted found).length + openValues s + ps.length = todo.length →
    (∃ k, s = readQuotedValue k [34]) ∧ EndsWith p.2 61

/-- After a pair whose beginning has been missed, there are too few values for the pairs from it on. -/
theorem lost_of_body {todo : List (Bytes × Bytes)} (hi : s.Idle) (hs : (p :: ps) <:+ todo)
    (hlen : ps.length + 2 ≤ todo.length) : ∃ es s',
    scan (bodyText p (restText ps)) s = es ++ scan (restText ps) s' ∧ Lost p ps todo es s' := by
  obtain ⟨es, s', hbody, hs', hcount⟩ := scan_body p (restText ps) hi
  refine ⟨es, s', hbody, hs', hs, ?_, ?_⟩
  · rcases hcount with hcount | ⟨hone, ⟨k, rfl⟩, -⟩
    · omega
    · rw [hone, openValues]
      omega
  · intro hfull
    rcases hcount with hcount | ⟨-, hq⟩
    · omega
    · exact hq

/-- Where the last value found is needed for the last pair, it has another text. -/
theorem lost_last {todo : List (Bytes × Bytes)} {found : List KvpText} (hs : [p] <:+ todo)
    (h : (todo.map goodCall).Sublist ((quoted (found ++ [(k, v)])).map call))
    (hlen : (quoted (found ++ [(k, v)])).length ≤ todo.length) (hv : v.at 0 = 34) : (call (k, v)).2.1 = p.2 := by
  have heq := h.eq_of_length_le (by simpa using hlen)
  obtain ⟨pre, rfl⟩ := hs
  have hq : quoted [(k, v)] = [(k, v)] := by simp [quoted, hv]
  rw [quoted_append, hq, List.map_append, List.map_append] at heq
  obtain ⟨-, hlast⟩ := List.append_inj' heq rfl
  have hcall : goodCall p = call (k, v) := (List.cons.inj hlast).1
  rw [← hcall]
  rfl

theorem length_pending (hs : s.Idle ∨ openValues s = 1) : (quoted s.pending).length ≤ openValues s := by
  cases s with
  | readQuotedValue k v => exact List.length_filter_le ..
  | readValue k v =>
    have hi : (readValue k v).Idle := hs.resolve_right (by simp [openValues])
    simp [pending, quoted, hi.2]
  | _ => exact Nat.le_refl 0

theorem not_calls_of_lost {todo : List (Bytes × Bytes)} {found : List KvpText} (L : Lost p ps todo found s) :
    ¬(todo.map goodCall).Sublist ((quoted (found ++ scan (restText ps) s)).map call) := by
  intro h
  induction ps generalizing p todo found s with
  | nil =>
    have hfew := L.few
    have hpend := length_pending L.state
    have hlen := h.length_le
    simp only [restText, scan, quoted_append, List.length_map, List.length_append, List.length_nil] at hlen hfew
    obtain ⟨⟨k, rfl⟩, hend⟩ := L.full (by simp only [List.length_nil]; omega)
    have hlast : (call (k, [34])).2.1 = p.2 := by
      refine lost_last L.suffix h ?_ rfl
      rw [quoted_append, List.length_append]
      exact hfew
    rw [← hlast, call_end] at hend
    cases hend
  | cons q ps ih =>
    obtain ⟨es, s', hscan, hi', -, hlen, hgap⟩ := scan_gap (bodyText q (restText ps)) L.state
    rw [restText, hscan, ← List.append_assoc, quoted_append, List.map_append] at h
    obtain ⟨l₁, l₂, hl, h₁, h₂⟩ := List.sublist_append_iff.mp h
    obtain ⟨todo₁, todo₂, rfl, rfl, rfl⟩ := List.map_eq_append_iff.mp hl
    have hlen₁ := h₁.length_le
    have hfew := L.few
    simp only [quoted_append, List.length_map, List.length_append, List.length_cons] at hlen₁ hfew
    by_cases hlong : ps.length + 2 ≤ todo₂.length
    · -- Still too few values are left for the pairs from `q` on.
      have hsuf : (q :: ps) <:+ todo₂ := by
        refine List.suffix_of_suffix_length_le ((List.suffix_cons p (q :: ps)).trans L.suffix)
          (List.suffix_append _ _) ?_
        simp only [List.length_cons]
        omega
      obtain ⟨es', s'', hbody, L'⟩ := lost_of_body hi' hsuf hlong
      rw [hbody] at h₂
      exact ih L' h₂
    · obtain ⟨⟨k, rfl⟩, hend⟩ := L.full (by
        simp only [List.length_append, List.length_cons]
        omega)
      have hes := hgap k rfl
      have hsuf : [p] <:+ todo₁ := by
        obtain ⟨pre, hpre⟩ := L.suffix
        have hpre' : (pre ++ [p]) ++ q :: ps = todo₁ ++ todo₂ := by rw [← hpre]; simp
        refine ⟨pre, (List.append_inj' hpre' ?_).1⟩
        simp only [List.length_cons]
        omega
      have hquoted : quoted (found ++ es) = quoted (found ++ [(k, [34, 32, 34])]) := by
        rw [quoted_append, hes, quoted_append]
        rfl
      have hlast : (call (k, [34, 32, 34])).2.1 = p.2 := by
        refine lost_last hsuf (hquoted ▸ h₁) ?_ rfl
        rw [← hquoted, quoted_append, List.length_append]
        omega
      rw [← hlast, call_space] at hend
      exact absurd hend (by decide)

/-- A pair whose beginning has been missed: there is one value less than there are pairs. -/
theorem not_calls_of_missed {todo : List (Bytes × Bytes)} (hi : s.Idle) (hs : (p :: ps) <:+ todo)
    (hlen : ps.length + 2 ≤ todo.length) :
    ¬(todo.map goodCall).Sublist ((quoted (scan (bodyText p (restText ps)) s)).map call) := by
  obtain ⟨es, s', hbody, L⟩ := lost_of_body hi hs hlen
  rw [hbody]
  exact not_calls_of_lost L

/-! ### The whole line -/

/-- No key ends with a backslash, and no value but the last one. -/
def Readable (ps : List (Bytes × Bytes)) : Prop :=
  (∀ p ∈ ps, ¬EndsWith p.1 92) ∧ ∀ p ∈ ps.dropLast, ¬EndsWith p.2 92

theorem readable_one : Readable [p] ↔ ¬EndsWith p.1 92 := by simp [Readable]

theorem readable_cons {q : Bytes × Bytes} :
    Readable (p :: q :: ps) ↔ (¬EndsWith p.1 92 ∧ ¬EndsWith p.2 92) ∧ Readable (q :: ps) := by
  simp only [Readable, List.dropLast_cons_cons, List.forall_mem_cons]
  constructor
  · rintro ⟨⟨h₁, h₂, h₃⟩, h₄, h₅⟩
    exact ⟨⟨h₁, h₄⟩, ⟨h₂, h₃⟩, h₅⟩
  · rintro ⟨⟨h₁, h₄⟩, ⟨h₂, h₃⟩, h₅⟩
    exact ⟨⟨h₁, h₂, h₃⟩, h₄, h₅⟩

theorem dups_iff (dup : Nat → Bool) (n m : Nat) :
    (dup n = true ∧ dup (n + 1) = true ∧ ∀ i < m, dup (n + 2 + i) = true) ↔ ∀ i < m + 2, dup (n + i) = true := by
  constructor
  · rintro ⟨h₀, h₁, h⟩ i hi
    match i with
    | 0 => exact h₀
    | 1 => exact h₁
    | i + 2 =>
      have hadd : n + (i + 2) = n + 2 + i := by omega
      rw [hadd]
      exact h i (Nat.lt_of_add_lt_add_right hi)
  · intro h
    refine ⟨h 0 (by omega), h 1 (by omega), ?_⟩
    intro i hi
    rw [Nat.add_assoc]
    exact h (2 + i) (by omega)

/-- If the rest does not make all the calls, then the first pair makes the first one. -/
theorem sendAll_cons_iff {t : KvpText} {ts : List KvpText}
    (hrest : ¬((p :: ps).map goodCall).Sublist (ts.map call)) :
    sendAll dup n (t :: ts) = (p :: ps).map goodCall ↔
      call t = goodCall p ∧ dup n = true ∧ dup (n + 1) = true ∧ sendAll dup (n + 2) ts = ps.map goodCall := by
  obtain ⟨k, v⟩ := t
  have hne : ∀ m, ¬sendAll dup m ts = (p :: ps).map goodCall := fun m h => hrest (h ▸ sendAll_sublist dup m ts)
  rw [sendAll]
  cases h₀ : dup n with
  | false => simpa using hne (n + 1)
  | true =>
    cases h₁ : dup (n + 1) with
    | false => simpa using hne (n + 2)
    | true => simp [call]

/-- A pair whose key ends with a backslash. -/
theorem not_calls_of_key (h : EndsWith p.1 92) :
    sendAll dup n (scan (bodyText p (restText ps)) (readQuotedKey [34])) ≠ (p :: ps).map goodCall := by
  intro hcalls
  obtain ⟨k, hscan⟩ := scan_key_missed (restText ps) h
  obtain ⟨es, s', hscan', hes, hs'⟩ := scan_escaped_idle p.2 (restText ps)
    (s := expectEquals k) trivial
  have hsub := sendAll_sublist dup n (es ++ scan (restText ps) s')
  rw [← hscan', ← hscan, hcalls, hscan, hscan'] at hsub
  refine not_calls_of_lost ⟨?_, List.suffix_refl _, ?_, ?_⟩ (sublist_quoted hsub)
  · rcases hs' with ⟨hi, -⟩ | ⟨⟨j, rfl⟩, -⟩
    · exact Or.inl hi
    · exact Or.inr rfl
  · have hopen : openValues s' ≤ 1 := by cases s' <;> simp [openValues]
    rw [hes, List.length_cons, List.length_nil]
    omega
  · intro hfull
    rcases hs' with ⟨hi, -⟩ | ⟨hk, hend⟩
    · have hopen : openValues s' = 0 := by cases s' <;> first | rfl | exact hi.elim
      rw [hes, hopen, List.length_cons, List.length_nil] at hfull
      omega
    · exact ⟨hk, hend.resolve_right fun h => by cases h.2⟩

/-- A pair whose value ends with a backslash, and another one after it. -/
theorem not_calls_of_value {q : Bytes × Bytes} (hk : ¬EndsWith p.1 92) (h : EndsWith p.2 92) :
    sendAll dup n (scan (bodyText p (restText (q :: ps))) (readQuotedKey [34])) ≠
      (p :: q :: ps).map goodCall := by
  intro hcalls
  have hgap : ∀ {k v rest}, scan (32 :: 34 :: rest) (readQuotedValue k v) =
      (k, v ++ [32] ++ [34]) :: scan rest expectKey := fun {k v rest} => by
    rw [scan_space, scan_quote]
    rfl
  have hsub := sendAll_sublist dup n (scan (bodyText p (restText (q :: ps))) (readQuotedKey [34]))
  rw [hcalls, scan_key hk, scan_value_missed h, restText, hgap, List.map_cons, List.map_cons] at hsub
  rcases List.sublist_cons_iff.mp hsub with hsub | ⟨r, heq, -⟩
  · have hall : ((p :: q :: ps).map goodCall).Sublist _ := hsub
    exact not_calls_of_missed (s := expectKey) trivial (List.suffix_cons p (q :: ps)) (Nat.le_refl _)
      (sublist_quoted hall)
  · have htext : 34 :: (escaped p.2 ++ [34]) ++ [32] ++ [34] = 34 :: (escaped p.2 ++ [34, 32, 34]) := by simp
    have hval := congrArg (fun c : KvpCall => c.2.1.length) (List.cons.inj heq).1
    rw [htext, call_missed] at hval
    simp [goodCall] at hval

/-- The last pair may have a value that ends with a backslash: it ends with the line. -/
theorem scan_last (hk : ¬EndsWith p.1 92) : scan (bodyText p (restText [])) (readQuotedKey [34]) = [quotedTexts p] := by
  by_cases hv : EndsWith p.2 92
  · rw [scan_key hk, scan_value_missed hv]
    rfl
  · rw [scan_key hk, scan_value hv]
    rfl

theorem scan_next (hk : ¬EndsWith p.1 92) (hv : ¬EndsWith p.2 92) (q : Bytes × Bytes) :
    scan (bodyText p (restText (q :: ps))) (readQuotedKey [34]) =
      quotedTexts p :: scan (bodyText q (restText ps)) (readQuotedKey [34]) := by
  rw [scan_key hk, scan_value hv, restText, scan_space, scan_quote]
  rfl

/-- The texts that are found for readable pairs. -/
theorem scan_readable (h : Readable (p :: ps)) :
    scan (bodyText p (restText ps)) (readQuotedKey [34]) = (p :: ps).map quotedTexts := by
  induction ps generalizing p with
  | nil => exact scan_last (readable_one.mp h)
  | cons q ps ih =>
    obtain ⟨⟨hk, hv⟩, hrest⟩ := readable_cons.mp h
    rw [scan_next hk hv, ih hrest]
    rfl

theorem sendAll_body_iff : sendAll dup n (scan (bodyText p (restText ps)) (readQuotedKey [34])) =
    (p :: ps).map goodCall ↔ Readable (p :: ps) ∧ ∀ i < 2 * (p :: ps).length, dup (n + i) = true := by
  induction ps generalizing p n with
  | nil =>
    have hdups := dups_iff dup n 0
    by_cases hk : EndsWith p.1 92
    · exact iff_of_false (not_calls_of_key hk) fun h => readable_one.mp h.1 hk
    · have hlen : 2 * [p].length = 0 + 2 := rfl
      rw [scan_last hk, sendAll_cons_iff (by simp), call_quoted, readable_one, hlen, ← hdups]
      simp [hk, sendAll]
  | cons q ps ih =>
    by_cases hk : EndsWith p.1 92
    · exact iff_of_false (not_calls_of_key hk) fun h => (readable_cons.mp h.1).1.1 hk
    · by_cases hv : EndsWith p.2 92
      · exact iff_of_false (not_calls_of_value hk hv) fun h => (readable_cons.mp h.1).1.2 hv
      · have hrest : ¬((p :: q :: ps).map goodCall).Sublist
            ((scan (bodyText q (restText ps)) (readQuotedKey [34])).map call) := fun h =>
          not_calls_of_missed (s := readQuotedKey [34]) trivial (List.suffix_cons p (q :: ps)) (Nat.le_refl _)
            (sublist_quoted h)
        have hdups := dups_iff dup n (2 * (q :: ps).length)
        have hlen : 2 * (p :: q :: ps).length = 2 * (q :: ps).length + 2 := by
          rw [List.length_cons, Nat.mul_add]
        rw [scan_next hk hv, sendAll_cons_iff hrest, call_quoted, ih, readable_cons, hlen, ← hdups]
        simp only [hk, hv, not_false_eq_true, true_and]
        constructor
        · rintro ⟨h₀, h₁, hr, h⟩
          exact ⟨hr, h₀, h₁, h⟩
        · rintro ⟨hr, h₀, h₁, h⟩
          exact ⟨h₀, h₁, hr, h⟩

theorem scan_start : scan (34 :: rest) expectKey = scan rest (readQuotedKey [34]) := by
  rw [scan_quote]
  rfl

theorem kvp_escapedLine_iff (dup : Nat → Bool) (ps : List (Bytes × Bytes)) :
    nlParseKvp dup (some (escapedLine ps)) = ps.map goodCall ↔ Readable ps ∧ ∀ i < 2 * ps.length, dup i = true := by
  cases ps with
  | nil => simp [escapedLine, List.intercalate, nlParseKvp, kvpLoop, finalPair, Readable]
  | cons p ps =>
    rw [nlParseKvp_eq_scan, escapedLine_cons, scan_start, sendAll_body_iff]
    simp

/-- The texts that are found in the line. -/
theorem scan_escapedLine (h : Readable ps) : scan (escapedLine ps) expectKey = ps.map quotedTexts := by
  cases ps with
  | nil => rfl
  | cons p ps => rw [escapedLine_cons, scan_start, scan_readable h]

/-! ### Counting in an `int` -/

theorem nlEscapeString_overflow {str : Bytes} (h : ¬nlCountEscapes str < 2 ^ 31) (size : Nat) :
    nlEscapeString true true str size = none := if_pos (Nat.le_of_not_lt h)

theorem pairText_eq_some {text : Bytes} : pairText p = some text ↔
    (nlCountEscapes p.1 < 2 ^ 31 ∧ nlCountEscapes p.2 < 2 ^ 31) ∧ text = escapedPair p := by
  by_cases hk : nlCountEscapes p.1 < 2 ^ 31
  · obtain ⟨size, hkey⟩ := nlEscapeString_escaped hk (p.1.length + 1)
    by_cases hv : nlCountEscapes p.2 < 2 ^ 31
    · obtain ⟨size', hvalue⟩ := nlEscapeString_escaped hv (p.2.length + 1)
      have htext : pairText p = some (escapedPair p) := by rw [pairText, hkey, hvalue]; rfl
      rw [htext, Option.some.injEq]
      exact ⟨fun h => ⟨⟨hk, hv⟩, h.symm⟩, fun h => h.2.symm⟩
    · have htext : pairText p = none := by rw [pairText, hkey, nlEscapeString_overflow hv]; rfl
      rw [htext]
      exact iff_of_false (by simp) fun h => hv h.1.2
  · have htext : pairText p = none := by rw [pairText, nlEscapeString_overflow hk]; rfl
    rw [htext]
    exact iff_of_false (by simp) fun h => hk h.1.1

theorem mapM_pairText {texts : List Bytes} : ps.mapM pairText = some texts ↔
    (∀ p ∈ ps, nlCountEscapes p.1 < 2 ^ 31 ∧ nlCountEscapes p.2 < 2 ^ 31) ∧ texts = ps.map escapedPair := by
  induction ps generalizing texts with
  | nil => simp [eq_comm]
  | cons p ps ih =>
    rw [List.mapM_cons, Option.bind_eq_bind, Option.bind_eq_some_iff, List.forall_mem_cons, List.map_cons]
    constructor
    · rintro ⟨text, htext, hmore⟩
      obtain ⟨rest, hrest, heq⟩ := Option.bind_eq_some_iff.mp hmore
      obtain ⟨hp, rfl⟩ := pairText_eq_some.mp htext
      obtain ⟨hps, rfl⟩ := ih.mp hrest
      exact ⟨⟨hp, hps⟩, (Option.some.inj heq).symm⟩
    · rintro ⟨⟨hp, hps⟩, rfl⟩
      exact ⟨escapedPair p, pairText_eq_some.mpr ⟨hp, rfl⟩,
        Option.bind_eq_some_iff.mpr ⟨_, ih.mpr ⟨hps, rfl⟩, rfl⟩⟩

theorem kvpText_eq_some {line : Bytes} : kvpText ps = some line ↔
    (∀ p ∈ ps, nlCountEscapes p.1 < 2 ^ 31 ∧ nlCountEscapes p.2 < 2 ^ 31) ∧ line = escapedLine ps := by
  rw [kvpText, Option.map_eq_some_iff]
  constructor
  · rintro ⟨texts, htexts, rfl⟩
    obtain ⟨hlt, rfl⟩ := mapM_pairText.mp htexts
    exact ⟨hlt, rfl⟩
  · rintro ⟨hlt, rfl⟩
    exact ⟨ps.map escapedPair, mapM_pairText.mpr ⟨hlt, rfl⟩, rfl⟩

theorem counted_quoted (str : Bytes) : Counted (34 :: (escaped str ++ [34])) ↔ nlCountEscapes str + 2 < 2 ^ 31 := by
  have hunescape : nlUnescapeString (34 :: (escaped str ++ [34])) false .ifQuoted = (str, nlCountEscapes str + 2) :=
    unescape_escaped_quoted ifQuoted_ne
  simp only [Counted, at_quoted, true_imp_iff, nlUnescapeStringInt, hunescape, ne_eq, ite_eq_right_iff, reduceCtorEq,
    imp_false, not_not]

end

/-- The pairs of a line come back exactly when no key and no value but the last ends with a backslash, there is memory
    for the copies, and the escapes of each key and value, with the quotation marks around it, can be counted. -/
theorem kvp_roundTrip_iff (dup : Nat → Bool) (ps : List (Bytes × Bytes)) :
    ComesBack dup ps ↔ Readable ps ∧ (∀ i < 2 * ps.length, dup i = true) ∧
      ∀ p ∈ ps, nlCountEscapes p.1 + 2 < 2 ^ 31 ∧ nlCountEscapes p.2 + 2 < 2 ^ 31 := by
  constructor
  · rintro ⟨line, hline, hcalls, hcounted⟩
    obtain ⟨-, rfl⟩ := kvpText_eq_some.mp hline
    obtain ⟨hreadable, hdups⟩ := (kvp_escapedLine_iff dup ps).mp hcalls
    refine ⟨hreadable, hdups, fun p hp => ?_⟩
    obtain ⟨hk, hv⟩ := hcounted (quotedTexts p) (by rw [scan_escapedLine hreadable]; exact List.mem_map_of_mem hp)
    exact ⟨(counted_quoted p.1).mp hk, (counted_quoted p.2).mp hv⟩
  · rintro ⟨hreadable, hdups, hcount⟩
    have hlt : ∀ p ∈ ps, nlCountEscapes p.1 < 2 ^ 31 ∧ nlCountEscapes p.2 < 2 ^ 31 := fun p hp => by
      have h := hcount p hp
      omega
    refine ⟨escapedLine ps, kvpText_eq_some.mpr ⟨hlt, rfl⟩, (kvp_escapedLine_iff dup ps).mpr ⟨hreadable, hdups⟩, ?_⟩
    rw [scan_escapedLine hreadable]
    intro t ht
    obtain ⟨p, hp, rfl⟩ := List.mem_map.mp ht
    exact ⟨(counted_quoted p.1).mpr (hcount p hp).1, (counted_quoted p.2).mpr (hcount p hp).2⟩

/-- The key is a letter and a backslash: its closing quotation mark is missed. -/
theorem not_kvp_roundTrip_backslash : ¬∀ ps : List (Bytes × Bytes), ComesBack (fun _ => true) ps := by
  intro h
  obtain ⟨line, hline, hcalls, -⟩ := h [([97, 92], [98])]
  obtain rfl : [34, 97, 92, 92, 34, 61, 34, 98, 34] = line := Option.some.inj hline
  exact absurd hcalls (by decide)

end Nlutils
