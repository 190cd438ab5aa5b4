import Nlutils.Kvp.Code
import Nlutils.Strtol

/-! # The types of values

`nl_kvp_wrapper` decides whether an unquoted value is an integer, a number in floating point or a string. -/

namespace Nlutils

/-- The variants that the callback is given. -/
inductive KvpValue
  | integer (value : Int32)
  | floating (value : Float32)
  | string (value : Bytes)

/-- A call of a typed callback: the key, the value as a string, and the variant. -/
abbrev TypedCall := Bytes × Bytes × KvpValue

/-- The loop over a number, from `ptr` on, with the character before it: whether there is an exponent and whether there
    is a period. There is no result where the value is sent as a string. -/
def scanNumber (last : Byte) (exponent period : Bool) : Bytes → Option (Bool × Bool)
  | [] => some (exponent, period)
  | c :: ptr =>
    if c = 46 then
      if exponent ∨ period ∨ (!isdigit (Bytes.at ptr 0) ∧ Bytes.at ptr 0 ≠ 0) then none
      else scanNumber c exponent true ptr
    else if isdigit last ∧ (c = 101 ∨ c = 69) then
      if exponent then none
      else
        match ptr with
        | [] => none
        | sign :: rest =>
          if sign = 43 ∨ sign = 45 then if !isdigit (Bytes.at rest 0) then none else scanNumber sign true period rest
          else if !isdigit sign then none
          else scanNumber c true period (sign :: rest)
    else if !isdigit c then none
    else scanNumber c exponent period ptr

/-- The value that `nl_kvp_wrapper` sends. The parameter is `atof`. -/
def kvpValue (atof : Bytes → Float) (value : Bytes) (quoted : Bool) : KvpValue :=
  if quoted then .string value
  else if value = bytes "true" then .integer 1
  else if value = bytes "false" then .integer 0
  else if !isdigit (value.at 0) ∧ (value.at 1 = 0 ∨ (value.at 0 ≠ 43 ∧ value.at 0 ≠ 45 ∧ value.at 0 ≠ 46)) then
    .string value
  else if value.at 0 = 48 ∧ value.at 1 = 120 then
    if (value.drop 2).all isxdigit then .integer (Int32.ofInt (strtol (value.drop 2) 16).1) else .string value
  else
    match scanNumber (value.at 0) false (value.at 0 == 46) (value.drop 1) with
    | none => .string value
    | some (exponent, period) =>
      if exponent || period then .floating (atof value).toFloat32 else .integer (atoi value)

def nlKvpWrapper (atof : Bytes → Float) (call : KvpCall) : TypedCall :=
  (call.1, call.2.1, kvpValue atof call.2.1 call.2.2)

/-- `dup` gives the calls of `nl_strndup_term` that get memory. -/
def nlParseKvpVariant (atof : Bytes → Float) (dup : Nat → Bool) (kvpLine : Option Bytes) : List TypedCall :=
  (nlParseKvp dup kvpLine).map (nlKvpWrapper atof)

/-- A value that is not quoted. -/
structure UnquotedValue where
  text : Bytes
  ne_nil : text ≠ []
  plain : ∀ c ∈ text, c ≠ 0 ∧ isspace c = false

/-! ### Numbers -/

def IsDigits (s : Bytes) : Prop := s ≠ [] ∧ ∀ c ∈ s, isdigit c = true

/-- `e` or `E`, an optional sign and digits. -/
def IsExponent (s : Bytes) : Prop :=
  ∃ e sign ds, s = e :: (sign ++ ds) ∧ e ∈ [101, 69] ∧ sign ∈ [[], [43], [45]] ∧ IsDigits ds

inductive IsIntegerValue : Bytes → Prop
  | true : IsIntegerValue (bytes "true")
  | false : IsIntegerValue (bytes "false")
  | hex {ds : Bytes} : ds ≠ [] → (∀ c ∈ ds, isxdigit c = true) → IsIntegerValue (bytes "0x" ++ ds)
  | decimal {sign ds : Bytes} : sign ∈ [[], [43], [45]] → IsDigits ds → IsIntegerValue (sign ++ ds)

/-- Digits with a period, digits with an exponent, or a period and digits with or without an exponent. -/
inductive IsFloatBody : Bytes → Prop
  | trailing {ds : Bytes} : IsDigits ds → IsFloatBody (ds ++ [46])
  | exponent {ds ex : Bytes} : IsDigits ds → IsExponent ex → IsFloatBody (ds ++ ex)
  | fraction {ds fs ex : Bytes} : (∀ c ∈ ds, isdigit c = true) → IsDigits fs → ex = [] ∨ IsExponent ex →
    IsFloatBody (ds ++ 46 :: (fs ++ ex))

def IsFloatValue (s : Bytes) : Prop := ∃ sign body, s = sign ++ body ∧ sign ∈ [[], [43], [45]] ∧ IsFloatBody body

/-- The type of an unquoted value goes by what the text looks like, and a string keeps its text. -/
structure DeliversType (atof : Bytes → Float) (value : Bytes) : Prop where
  integer : (∃ n, kvpValue atof value false = .integer n) ↔ IsIntegerValue value
  floating : (∃ x, kvpValue atof value false = .floating x) ↔ IsFloatValue value
  string : kvpValue atof value false = .string value ↔ ¬IsIntegerValue value ∧ ¬IsFloatValue value

section
variable {last c : Byte} {exponent period : Bool} {s ds : Bytes} {r : Bool × Bool}

/-! ### The scan -/

theorem isdigit_ne (h : isdigit c = true) : c ≠ 46 ∧ c ≠ 101 ∧ c ≠ 69 ∧ c ≠ 0 := by
  refine ⟨?_, ?_, ?_, ?_⟩ <;> rintro rfl <;> exact absurd h (by decide)

theorem scanNumber_digit (h : isdigit c = true) :
    scanNumber last exponent period (c :: s) = scanNumber c exponent period s := by
  obtain ⟨h46, h101, h69, -⟩ := isdigit_ne h
  have hexp : ¬(isdigit last = true ∧ (c = 101 ∨ c = 69)) := by
    rintro ⟨-, h | h⟩
    · exact h101 h
    · exact h69 h
  have hdigit : ¬(!isdigit c) = true := by simp [h]
  rw [scanNumber.eq_def]
  simp only [if_neg h46, if_neg hexp, if_neg hdigit]

/-- The last character that has been read. -/
def lastRead (last : Byte) : Bytes → Byte
  | [] => last
  | c :: ds => lastRead c ds

theorem scanNumber_digits (h : ∀ c ∈ ds, isdigit c = true) :
    scanNumber last exponent period (ds ++ s) = scanNumber (lastRead last ds) exponent period s := by
  induction ds generalizing last with
  | nil => rfl
  | cons c ds ih =>
    obtain ⟨hc, hds⟩ := List.forall_mem_cons.mp h
    rw [List.cons_append, scanNumber_digit hc, ih hds]
    rfl

theorem isdigit_lastRead (h : ∀ c ∈ ds, isdigit c = true) :
    isdigit (lastRead last ds) = true ↔ ds ≠ [] ∨ isdigit last = true := by
  induction ds generalizing last with
  | nil => simp [lastRead]
  | cons c ds ih =>
    obtain ⟨hc, hds⟩ := List.forall_mem_cons.mp h
    rw [lastRead, ih hds]
    simp [hc]

/-- In an exponent there are only digits. -/
theorem scanNumber_exponent : scanNumber last true period s = if s.all isdigit then some (true, period) else none := by
  induction s generalizing last with
  | nil => rfl
  | cons c s ih =>
    by_cases hc : isdigit c = true
    · rw [scanNumber_digit hc, ih]
      simp [hc]
    · have hall : ¬(c :: s).all isdigit = true := by simp [hc]
      rw [scanNumber.eq_def, if_neg hall]
      simp only [true_or, if_true, Bool.not_eq_true] at hc ⊢
      simp [hc]

theorem isDigits_iff : IsDigits s ↔ isdigit (Bytes.at s 0) = true ∧ s.all isdigit = true := by
  rw [IsDigits, List.all_eq_true]
  cases s with
  | nil => simp [Bytes.at, isdigit]
  | cons c s =>
    have hat : Bytes.at (c :: s) 0 = c := rfl
    rw [hat]
    exact and_congr_left fun h => iff_of_true (List.cons_ne_nil _ _) (h c List.mem_cons_self)

/-- A sign in front of something that does not begin with one. -/
theorem signed_iff {P : Bytes → Prop} (hP : ∀ b : Bytes, P b → b.at 0 ≠ 43 ∧ b.at 0 ≠ 45) :
    (∃ sign b, s = sign ++ b ∧ sign ∈ [[], [43], [45]] ∧ P b) ↔ P (skipSign s).2 := by
  constructor
  · rintro ⟨sign, b, rfl, hsign, hb⟩
    simp only [List.mem_cons, List.not_mem_nil, or_false] at hsign
    rcases hsign with rfl | rfl | rfl
    · obtain ⟨h43, h45⟩ := hP b hb
      rw [List.nil_append, skipSign, if_neg h45, if_neg h43]
      exact hb
    · exact hb
    · exact hb
  · intro h
    obtain ⟨sign, hsign, hsplit, -⟩ := skipSign_split s
    exact ⟨sign, _, hsplit, hsign, h⟩

theorem isDigits_start (h : IsDigits s) : Bytes.at s 0 ≠ 43 ∧ Bytes.at s 0 ≠ 45 := by
  have hspec := isdigit_spec (isDigits_iff.mp h).1
  exact ⟨hspec.2.2, hspec.2.1⟩

theorem isExponent_cons : IsExponent (c :: s) ↔ (c = 101 ∨ c = 69) ∧ IsDigits (skipSign s).2 := by
  rw [← signed_iff fun _ => isDigits_start]
  constructor
  · rintro ⟨e, sign, ds, heq, he, hsign, hds⟩
    obtain ⟨rfl, rfl⟩ := List.cons.inj heq
    exact ⟨by simpa using he, sign, ds, rfl, hsign, hds⟩
  · rintro ⟨he, sign, ds, rfl, hsign, hds⟩
    exact ⟨c, sign, ds, rfl, by simpa using he, hsign, hds⟩

theorem isExponent_start (h : IsExponent s) : ∃ c u, s = c :: u ∧ isdigit c = false ∧ c ≠ 46 := by
  obtain ⟨e, sign, ds, rfl, he, -⟩ := h
  simp only [List.mem_cons, List.not_mem_nil, or_false] at he
  rcases he with rfl | rfl
  · exact ⟨101, _, rfl, rfl, by decide⟩
  · exact ⟨69, _, rfl, rfl, by decide⟩

/-- At an `e` after a digit the text goes on as an exponent. -/
theorem scanNumber_e (hlast : isdigit last = true) (hc : c = 101 ∨ c = 69) :
    scanNumber last false period (c :: s) = some r ↔ IsExponent (c :: s) ∧ r = (true, period) := by
  have h46 : c ≠ 46 := by rcases hc with rfl | rfl <;> decide
  have hall : ∀ {u : Bytes}, (if u.all isdigit then some (true, period) else none) = some r ↔
      u.all isdigit = true ∧ r = (true, period) := by
    intro u
    rw [Option.ite_none_right_eq_some, Option.some.injEq, eq_comm (a := r)]
  rw [isExponent_cons, isDigits_iff, scanNumber.eq_def]
  simp only [if_neg h46, hlast, hc, and_self, if_true, true_and, Bool.false_eq_true, if_false]
  cases s with
  | nil => simp [skipSign, Bytes.at, isdigit]
  | cons x rest =>
    have hat : Bytes.at (x :: rest) 0 = x := rfl
    by_cases hx : x = 43 ∨ x = 45
    · have hskip : (skipSign (x :: rest)).2 = rest := by rcases hx with rfl | rfl <;> rfl
      rw [hskip]
      simp only [if_pos hx]
      by_cases hd : isdigit (Bytes.at rest 0) = true
      · simp only [hd, Bool.not_true, Bool.false_eq_true, if_false, true_and, scanNumber_exponent, hall]
      · simp [hd]
    · have hskip : (skipSign (x :: rest)).2 = x :: rest := by
        obtain ⟨h43, h45⟩ := not_or.mp hx
        rw [skipSign, hat, if_neg h45, if_neg h43]
      rw [hskip, hat]
      simp only [if_neg hx]
      by_cases hd : isdigit x = true
      · simp only [hd, Bool.not_true, Bool.false_eq_true, if_false, true_and, scanNumber_exponent, hall]
      · simp [hd]

/-- After a period and digits there is nothing left but an exponent. -/
theorem scanNumber_tail (hs : NoDigit s) : scanNumber last false true s = some r ↔
    (s = [] ∧ r = (false, true)) ∨ (isdigit last = true ∧ IsExponent s ∧ r = (true, true)) := by
  cases s with
  | nil =>
    have hnil : ¬IsExponent [] := fun h => by obtain ⟨c, u, h, -⟩ := isExponent_start h; cases h
    have hend : scanNumber last false true [] = some (false, true) := rfl
    rw [hend, Option.some.injEq, eq_comm]
    simp [hnil]
  | cons c s =>
    have hc : isdigit c = false := hs c rfl
    by_cases hexp : isdigit last = true ∧ (c = 101 ∨ c = 69)
    · rw [scanNumber_e hexp.1 hexp.2]
      simp [hexp.1]
    · have hnone : scanNumber last false true (c :: s) = none := by
        rw [scanNumber.eq_def]
        by_cases h46 : c = 46
        · simp [h46]
        · simp only [if_neg h46, if_neg hexp, hc, Bool.not_false, if_true]
      rw [hnone, isExponent_cons]
      simp only [reduceCtorEq, false_and, false_or, false_iff, not_and]
      exact fun hl h => absurd ⟨hl, h.1⟩ hexp

theorem noDigit_dropWhile : NoDigit (s.dropWhile isdigit) := fun _ => head?_dropWhile

theorem mem_takeWhile : ∀ c ∈ s.takeWhile isdigit, isdigit c = true := fun _ => List.mem_takeWhile_imp

/-- After a period. -/
theorem scanNumber_fraction : scanNumber last false true s = some r ↔
    (s.dropWhile isdigit = [] ∧ r = (false, true)) ∨
      ((s.takeWhile isdigit ≠ [] ∨ isdigit last = true) ∧ IsExponent (s.dropWhile isdigit) ∧ r = (true, true)) := by
  have hsplit := @scanNumber_digits last false true (s.dropWhile isdigit) _ (mem_takeWhile (s := s))
  rw [List.takeWhile_append_dropWhile] at hsplit
  rw [hsplit, scanNumber_tail noDigit_dropWhile, isdigit_lastRead mem_takeWhile]

/-- Where no character has been read, or a sign. -/
theorem scanNumber_start (hlast : isdigit last = false) : scanNumber last false false s = some r ↔
    (s.dropWhile isdigit = [] ∧ r = (false, false)) ∨
      (s.takeWhile isdigit ≠ [] ∧ IsExponent (s.dropWhile isdigit) ∧ r = (true, false)) ∨
      ∃ rest, s.dropWhile isdigit = 46 :: rest ∧ (isdigit (Bytes.at rest 0) = true ∨ Bytes.at rest 0 = 0) ∧
        scanNumber 46 false true rest = some r := by
  have hsplit := @scanNumber_digits last false false (s.dropWhile isdigit) _ (mem_takeWhile (s := s))
  rw [List.takeWhile_append_dropWhile] at hsplit
  have hdigit : isdigit (lastRead last (s.takeWhile isdigit)) = true ↔ s.takeWhile isdigit ≠ [] := by
    simp [isdigit_lastRead mem_takeWhile, hlast]
  rw [hsplit]
  generalize lastRead last (s.takeWhile isdigit) = l at hdigit ⊢
  have htail := noDigit_dropWhile (s := s)
  generalize s.dropWhile isdigit = tail at htail ⊢
  cases tail with
  | nil =>
    have hnil : ¬IsExponent [] := fun h => by obtain ⟨c, u, h, -⟩ := isExponent_start h; cases h
    have hend : scanNumber l false false [] = some (false, false) := rfl
    rw [hend, Option.some.injEq, eq_comm]
    simp [hnil]
  | cons c tail =>
    have hc : isdigit c = false := htail c rfl
    by_cases h46 : c = 46
    · subst h46
      have hexp : ¬IsExponent (46 :: tail) := by
        rw [isExponent_cons]
        rintro ⟨h | h, -⟩ <;> cases h
      rw [scanNumber.eq_def]
      by_cases hnext : isdigit (Bytes.at tail 0) = true ∨ Bytes.at tail 0 = 0
      · have hgo : ¬(isdigit (Bytes.at tail 0) = false ∧ ¬Bytes.at tail 0 = 0) := by
          rintro ⟨h, h0⟩
          rcases hnext with h' | h'
          · exact Bool.noConfusion (h.symm.trans h')
          · exact h0 h'
        simp [hexp, hgo, hnext]
      · obtain ⟨hdigit', h0⟩ := not_or.mp hnext
        simp [hexp, hdigit', h0]
    · by_cases hexp : isdigit l = true ∧ (c = 101 ∨ c = 69)
      · rw [scanNumber_e hexp.1 hexp.2]
        simp [hdigit.mp hexp.1, h46]
      · have hnone : scanNumber l false false (c :: tail) = none := by
          rw [scanNumber.eq_def]
          simp only [if_neg h46, if_neg hexp, hc, Bool.not_false, if_true]
        refine iff_of_false (by simp [hnone]) ?_
        rintro (⟨h, -⟩ | ⟨hne, h, -⟩ | ⟨rest, h, -⟩)
        · cases h
        · exact hexp ⟨hdigit.mpr hne, (isExponent_cons.mp h).1⟩
        · exact h46 (List.cons.inj h).1

/-! ### The forms of a number -/

theorem isDigits_iff_tail (hs : s ≠ []) : IsDigits s ↔ s.dropWhile isdigit = [] := by
  rw [IsDigits, List.dropWhile_eq_nil_iff]
  exact and_iff_right hs

/-- The forms of a number in floating point, by its first digits and what comes after them. -/
theorem isFloatBody_iff : IsFloatBody s ↔
    (s.takeWhile isdigit ≠ [] ∧ s.dropWhile isdigit = [46]) ∨
      (s.takeWhile isdigit ≠ [] ∧ IsExponent (s.dropWhile isdigit)) ∨
      ∃ rest, s.dropWhile isdigit = 46 :: rest ∧ rest.takeWhile isdigit ≠ [] ∧
        (rest.dropWhile isdigit = [] ∨ IsExponent (rest.dropWhile isdigit)) := by
  have hstop : ∀ {u}, NoDigit (46 :: u) := fun c hc => by obtain rfl := Option.some.inj hc; rfl
  have hexp : ∀ {u}, u = [] ∨ IsExponent u → NoDigit u := by
    rintro u (rfl | h) c hc
    · cases hc
    · obtain ⟨e, v, rfl, he, -⟩ := isExponent_start h
      exact Option.some.inj hc ▸ he
  constructor
  · intro h
    cases h with
    | trailing hds =>
      obtain ⟨htake, hdrop⟩ := span_append hds.2 hstop
      rw [htake, hdrop]
      exact Or.inl ⟨hds.1, rfl⟩
    | exponent hds hex =>
      obtain ⟨htake, hdrop⟩ := span_append hds.2 (hexp (Or.inr hex))
      rw [htake, hdrop]
      exact Or.inr (Or.inl ⟨hds.1, hex⟩)
    | @fraction ds fs ex hds hfs hex =>
      obtain ⟨-, hdrop⟩ := span_append hds (hstop (u := fs ++ ex))
      obtain ⟨htake', hdrop'⟩ := span_append hfs.2 (hexp hex)
      refine Or.inr (Or.inr ⟨fs ++ ex, hdrop, ?_⟩)
      rw [htake', hdrop']
      exact ⟨hfs.1, hex⟩
  · have hs := List.takeWhile_append_dropWhile (p := isdigit) (l := s)
    rintro (⟨hne, h⟩ | ⟨hne, h⟩ | ⟨rest, h, hne, hex⟩)
    · rw [← hs, h]
      exact .trailing ⟨hne, mem_takeWhile⟩
    · rw [← hs]
      exact .exponent ⟨hne, mem_takeWhile⟩ h
    · have hrest := List.takeWhile_append_dropWhile (p := isdigit) (l := rest)
      rw [← hs, h, ← hrest]
      exact .fraction mem_takeWhile ⟨hne, mem_takeWhile⟩ hex

/-- The scan takes digits for an integer. -/
theorem scanNumber_integer (hlast : isdigit last = false) (hs : s ≠ []) :
    scanNumber last false false s = some (false, false) ↔ IsDigits s := by
  rw [scanNumber_start hlast, isDigits_iff_tail hs]
  simp [scanNumber_fraction]

/-- The scan takes a number in floating point for one, and also a period without digits. -/
theorem scanNumber_floating (hlast : isdigit last = false) :
    (∃ r, scanNumber last false false s = some r ∧ (r.1 || r.2) = true) ↔ IsFloatBody s ∨ s = [46] := by
  have hs := List.takeWhile_append_dropWhile (p := isdigit) (l := s)
  rw [isFloatBody_iff]
  constructor
  · rintro ⟨r, h, hr⟩
    rcases (scanNumber_start hlast).mp h with ⟨-, rfl⟩ | ⟨hne, hexp, -⟩ | ⟨rest, htail, -, hrest⟩
    · cases hr
    · exact Or.inl (Or.inr (Or.inl ⟨hne, hexp⟩))
    · have htake := List.takeWhile_append_dropWhile (p := isdigit) (l := rest)
      rcases scanNumber_fraction.mp hrest with ⟨hend, -⟩ | ⟨hne | h46, hexp, -⟩
      · by_cases hnil : rest = []
        · subst hnil
          by_cases hds : s.takeWhile isdigit = []
          · right
            rw [← hs, hds, htail]
            rfl
          · exact Or.inl (Or.inl ⟨hds, htail⟩)
        · rw [hend, List.append_nil] at htake
          exact Or.inl (Or.inr (Or.inr ⟨rest, htail, by rwa [htake], Or.inl hend⟩))
      · exact Or.inl (Or.inr (Or.inr ⟨rest, htail, hne, Or.inr hexp⟩))
      · cases h46
  · have hperiod : s.dropWhile isdigit = [46] → scanNumber last false false s = some (false, true) := fun h =>
      (scanNumber_start hlast).mpr (Or.inr (Or.inr ⟨[], h, Or.inr rfl, rfl⟩))
    rintro ((⟨-, h⟩ | ⟨hne, h⟩ | ⟨rest, htail, hne, hex⟩) | rfl)
    · exact ⟨_, hperiod h, rfl⟩
    · exact ⟨(true, false), (scanNumber_start hlast).mpr (Or.inr (Or.inl ⟨hne, h, rfl⟩)), rfl⟩
    · have hdigit : isdigit (Bytes.at rest 0) = true := by
        cases rest with
        | nil => exact absurd rfl hne
        | cons c rest =>
          have hat : Bytes.at (c :: rest) 0 = c := rfl
          by_contra hc
          rw [hat] at hc
          exact hne (List.takeWhile_cons_of_neg hc)
      have hgo : ∀ r, scanNumber 46 false true rest = some r → scanNumber last false false s = some r := fun r h =>
        (scanNumber_start hlast).mpr (Or.inr (Or.inr ⟨rest, htail, Or.inl hdigit, h⟩))
      rcases hex with hend | hexp
      · exact ⟨(false, true), hgo _ (scanNumber_fraction.mpr (Or.inl ⟨hend, rfl⟩)), rfl⟩
      · exact ⟨(true, true), hgo _ (scanNumber_fraction.mpr (Or.inr ⟨Or.inl hne, hexp, rfl⟩)), rfl⟩
    · exact ⟨_, hperiod rfl, rfl⟩

end

end Nlutils
