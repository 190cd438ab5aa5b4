import Nlutils.Strtol
import Nlutils.UrlReq.Code
import Nlutils.UrlReq.FormOwnership
import Mathlib.Data.Nat.Digits.Lemmas

/-! # The timeouts of a request

curl is told the timeouts in seconds, and the library gives up a little later. Where an `int` overflows, there is no
result. -/

namespace Nlutils.UrlReq

def intMax : Int := 2147483647

/-- The value of a signed expression. -/
def toInt (n : Int) : Option Int := if -intMax - 1 ≤ n ∧ n ≤ intMax then some n else none

/-- `%0wd` -/
def printPadded (w : Nat) (n : Int) : Bytes :=
  let sign := if n < 0 then [45] else []
  let ds := printNat n.natAbs
  sign ++ (List.replicate (w - sign.length - ds.length) 48 ++ ds)

/-- The text of a time, as `snprintf` leaves it in 32 bytes. -/
def timeText (milliseconds : Int) : Bytes :=
  (printInt (milliseconds.tdiv 1000) ++ 46 :: printPadded 3 (milliseconds.tmod 1000)).take 31

def writeTimeOption (env : OptionEnv) (key : Bytes) (milliseconds : Int) (st : OptionState) :
    Option (Int × OptionState) :=
  writeOption env key [(0, timeText milliseconds)] st

def defaultConnectTimeout : Int := 30000
def defaultRequestTimeout : Int := 30000

def Params.connectMillis (p : Params) : Int :=
  if p.connectTimeout > 0 then p.connectTimeout else defaultConnectTimeout

def Params.requestMillis (p : Params) : Int :=
  if p.requestTimeout > 0 then p.requestTimeout else defaultRequestTimeout

/-- The seconds after which the library gives up. -/
def readTimeout (requestTimeout : Int) : Option Int :=
  (toInt (requestTimeout + 1999)).map fun t => if 5 > t.tdiv 1000 then 5 else t.tdiv 1000

/-- The part of `start_curl` that sends the timeouts: `read_timeout`, or `none` where it goes to `error`. -/
def sendTimeouts (env : OptionEnv) (p : Params) (st : OptionState) : Option (Option Int × OptionState) := do
  let (r, st) ← writeTimeOption env (bytes "connect-timeout") p.connectMillis st
  if r ≠ 0 then return (none, st)
  let (r, st) ← writeTimeOption env (bytes "max-time") p.requestMillis st
  if r ≠ 0 then return (none, st)
  let t ← readTimeout p.requestMillis
  return (some t, st)

/-- `text` is a decimal number of seconds that are `ms` milliseconds. -/
def IsSeconds (text : Bytes) (ms : Int) : Prop :=
  ∃ whole frac, text = whole ++ 46 :: frac ∧ whole ≠ [] ∧ frac ≠ [] ∧ (∀ c ∈ whole ++ frac, isdigit c = true) ∧
    (digitsVal 10 (whole ++ frac) * 1000 : Int) = ms * 10 ^ frac.length

/-- The timeouts are sent as they are, and the library does not give up before the second of them has passed. -/
def SendsTimeouts (env : OptionEnv) (p : Params) (st : OptionState) : Prop :=
  ∃ r st', sendTimeouts env p st = some (r, st') ∧ ∀ t, r = some t →
    (∃ connect request, IsSeconds connect p.connectMillis ∧ IsSeconds request p.requestMillis ∧
      st'.written = st.written ++ (bytes "connect-timeout" ++ bytes "=\"" ++ connect ++ bytes "\"\n") ++
        (bytes "max-time" ++ bytes "=\"" ++ request ++ bytes "\"\n")) ∧
    p.requestMillis ≤ 1000 * t

section
variable {env : OptionEnv} {p : Params} {st st' : OptionState} {n k : Nat} {ms t : Int} {key a b : Bytes}

/-! ### The text of a time -/

theorem digitsVal_append : digitsVal 10 (a ++ b) = digitsVal 10 a * 10 ^ b.length + digitsVal 10 b := by
  induction b using List.reverseRecOn with
  | nil => simp [digitsVal]
  | append_singleton b c ih =>
    have hstep : ∀ ds : Bytes, digitsVal 10 (ds ++ [c]) = digitsVal 10 ds * 10 + (digitVal c).getD 0 := by
      intro ds
      rw [digitsVal, List.foldl_append]
      rfl
    rw [← List.append_assoc, hstep, hstep, ih, List.length_append, List.length_singleton, Nat.pow_succ, Nat.add_mul,
      Nat.mul_assoc, Nat.add_assoc]

theorem digitsVal_zeros : digitsVal 10 (List.replicate k 48 ++ b) = digitsVal 10 b := by
  have hzero : digitsVal 10 (List.replicate k 48) = 0 := by
    induction k with
    | zero => rfl
    | succ k ih =>
      rw [List.replicate_succ', digitsVal, List.foldl_append]
      rw [digitsVal] at ih
      rw [ih]
      rfl
  rw [digitsVal_append, hzero, Nat.zero_mul, Nat.zero_add]

theorem printNat_length (h : n < 10 ^ k) (hk : 0 < k) : (printNat n).length ≤ k := by
  rw [printNat]
  split
  · exact hk
  · rw [List.length_map, List.length_reverse]
    exact (Nat.digits_length_le_iff (by decide) n).mpr h

theorem printInt_natCast (n : Nat) : printInt n = printNat n := if_neg (Int.not_lt.mpr (Int.natCast_nonneg n))

theorem printPadded_natCast (k n : Nat) :
    printPadded k n = List.replicate (k - (printNat n).length) 48 ++ printNat n := by
  have hneg : ¬(n : Int) < 0 := Int.not_lt.mpr (Int.natCast_nonneg n)
  simp only [printPadded, if_neg hneg, List.length_nil, Nat.sub_zero, List.nil_append, Int.natAbs_natCast]

theorem timeText_natCast (hn : n ≤ 2147483647) : timeText n =
    printNat (n / 1000) ++ 46 :: (List.replicate (3 - (printNat (n % 1000)).length) 48 ++ printNat (n % 1000)) := by
  have hdiv : (n : Int).tdiv 1000 = (n / 1000 : Nat) := (Int.ofNat_tdiv n 1000).symm
  have hmod : (n : Int).tmod 1000 = (n % 1000 : Nat) := (Int.ofNat_tmod n 1000).symm
  have hwhole : (printNat (n / 1000)).length ≤ 7 := printNat_length (by omega) (by decide)
  have hfrac : (printNat (n % 1000)).length ≤ 3 := printNat_length (by omega) (by decide)
  rw [timeText, hdiv, hmod, printInt_natCast, printPadded_natCast]
  refine List.take_of_length_le ?_
  simp only [List.length_append, List.length_cons, List.length_replicate]
  omega

theorem timeText_isSeconds (h0 : 0 ≤ ms) (hmax : ms ≤ intMax) : IsSeconds (timeText ms) ms := by
  obtain ⟨n, rfl⟩ := Int.eq_ofNat_of_zero_le h0
  have hfrac : (printNat (n % 1000)).length ≤ 3 := printNat_length (by omega) (by decide)
  have hlen : (List.replicate (3 - (printNat (n % 1000)).length) (48 : Byte) ++ printNat (n % 1000)).length = 3 := by
    rw [List.length_append, List.length_replicate, Nat.sub_add_cancel hfrac]
  refine ⟨_, _, timeText_natCast (Int.ofNat_le.mp hmax), printNat_ne_nil, ?_, ?_, ?_⟩
  · exact fun hnil => printNat_ne_nil (List.append_eq_nil_iff.mp hnil).2
  · intro c hc
    rcases List.mem_append.mp hc with hc | hc
    · exact isdigit_printNat c hc
    · rcases List.mem_append.mp hc with hc | hc
      · rw [List.eq_of_mem_replicate hc]
        rfl
      · exact isdigit_printNat c hc
  · rw [digitsVal_append, digitsVal_zeros, digitsVal_printNat, digitsVal_printNat, hlen]
    have hsum : n / 1000 * 10 ^ 3 + n % 1000 = n := Nat.div_add_mod' n 1000
    rw [hsum]
    rfl

/-! ### The time limit of the library -/

theorem readTimeout_iff (h0 : 0 ≤ ms) : (∃ t, readTimeout ms = some t) ↔ ms ≤ 2147481648 := by
  have hrange : (-intMax - 1 ≤ ms + 1999 ∧ ms + 1999 ≤ intMax) ↔ ms ≤ 2147481648 := by
    rw [intMax]
    omega
  rw [readTimeout, toInt]
  by_cases h : ms ≤ 2147481648
  · rw [if_pos (hrange.mpr h)]
    exact iff_of_true ⟨_, rfl⟩ h
  · rw [if_neg (mt hrange.mp h)]
    exact iff_of_false nofun h

/-- It is more than the time that curl gets. -/
theorem le_readTimeout (h : readTimeout ms = some t) : ms ≤ 1000 * t := by
  rw [readTimeout, toInt] at h
  split at h
  · obtain rfl := Option.some.inj h
    have hdiv : ms + 1999 = 1000 * (ms + 1999).tdiv 1000 + (ms + 1999).tmod 1000 :=
      (Int.mul_tdiv_add_tmod _ _).symm
    have hmod : (ms + 1999).tmod 1000 < 1000 := Int.tmod_lt_of_pos _ (by decide)
    simp only
    split <;> omega
  · cases h

/-! ### What is sent -/

theorem writeTimeOption_total (env : OptionEnv) (hkey : nlCountEscapes key < 2 ^ 31) (ms : Int) (st : OptionState) :
    ∃ r st', writeTimeOption env key ms st = some (r, st') := by
  have hplain : ∀ a ∈ [((0 : Int), timeText ms)], a.1 ≠ 0 → nlCountEscapes a.2 < 2 ^ 31 := by simp
  obtain ⟨r, st', hw, -⟩ := writeOption_total env hkey hplain st
  exact ⟨r, st', hw⟩

theorem writeTimeOption_written (hkey : escaped key = key) (h : writeTimeOption env key ms st = some (0, st')) :
    st'.written = st.written ++ (key ++ bytes "=\"" ++ timeText ms ++ bytes "\"\n") := by
  rw [writeOption_written h, hkey]
  simp [valueText]

theorem millis_bounds (hc : p.connectTimeout ≤ intMax) (hr : p.requestTimeout ≤ intMax) :
    (0 ≤ p.connectMillis ∧ p.connectMillis ≤ intMax) ∧ 0 ≤ p.requestMillis ∧ p.requestMillis ≤ intMax := by
  rw [intMax] at hc hr ⊢
  simp only [Params.connectMillis, Params.requestMillis, defaultConnectTimeout, defaultRequestTimeout]
  omega

theorem requestMillis_le_iff : p.requestMillis ≤ 2147481648 ↔ p.requestTimeout ≤ 2147481648 := by
  rw [Params.requestMillis, defaultRequestTimeout]
  omega

theorem sendsTimeouts_of_le (hc : p.connectTimeout ≤ intMax) (hr : p.requestTimeout ≤ intMax)
    (hle : p.requestMillis ≤ 2147481648) (env : OptionEnv) (st : OptionState) : SendsTimeouts env p st := by
  obtain ⟨⟨hc0, hcmax⟩, hr0, hrmax⟩ := millis_bounds hc hr
  have hconnect : nlCountEscapes (bytes "connect-timeout") < 2 ^ 31 := by decide
  have hrequest : nlCountEscapes (bytes "max-time") < 2 ^ 31 := by decide
  obtain ⟨r₁, st₁, h₁⟩ := writeTimeOption_total env hconnect p.connectMillis st
  by_cases hz₁ : r₁ = 0
  · subst hz₁
    obtain ⟨r₂, st₂, h₂⟩ := writeTimeOption_total env hrequest p.requestMillis st₁
    by_cases hz₂ : r₂ = 0
    · subst hz₂
      obtain ⟨t, ht⟩ := (readTimeout_iff hr0).mpr hle
      refine ⟨some t, st₂, ?_, ?_⟩
      · simp [sendTimeouts, h₁, h₂, ht]
      · rintro _ ⟨⟩
        refine ⟨⟨timeText p.connectMillis, timeText p.requestMillis, timeText_isSeconds hc0 hcmax,
          timeText_isSeconds hr0 hrmax, ?_⟩, le_readTimeout ht⟩
        rw [writeTimeOption_written (by decide) h₂, writeTimeOption_written (by decide) h₁]
    · exact ⟨none, st₂, by simp [sendTimeouts, h₁, h₂, hz₂], nofun⟩
  · exact ⟨none, st₁, by simp [sendTimeouts, h₁, hz₁], nofun⟩

/-- An environment in which everything is written. -/
def writesTimeouts (p : Params) : OptionEnv where
  alloc _ := true
  write n := [(15 : Int), 2, (timeText p.connectMillis).length, 2, 8, 2, (timeText p.requestMillis).length, 2].getD n 0

theorem sendTimeouts_eq (p : Params) : ∃ st', sendTimeouts (writesTimeouts p) p {} =
    (readTimeout p.requestMillis).map fun t => (some t, st') := by
  have hkey : ∀ key n, nlCountEscapes key < 2 ^ 31 → Copies (writesTimeouts p) (1, key) n :=
    fun key n hkey => ⟨rfl, fun _ => ⟨hkey, fun _ => rfl, rfl⟩⟩
  have htext : ∀ text n, Copies (writesTimeouts p) (0, text) n := fun text n => ⟨rfl, fun hne => absurd rfl hne⟩
  have hconnect : OptionWritten (writesTimeouts p) (bytes "connect-timeout") [(0, timeText p.connectMillis)]
      ({} : OptionState).allocs ({} : OptionState).writes :=
    ⟨hkey _ _ (by decide), rfl, rfl, ⟨htext _ _, rfl, trivial⟩, rfl⟩
  obtain ⟨st₁, h₁, -, hwrites⟩ := writeOption_of hconnect
  have hrequest : OptionWritten (writesTimeouts p) (bytes "max-time") [(0, timeText p.requestMillis)]
      st₁.allocs st₁.writes := by
    have hfour : st₁.writes = 4 := hwrites
    rw [hfour]
    exact ⟨hkey _ _ (by decide), rfl, rfl, ⟨htext _ _, rfl, trivial⟩, rfl⟩
  obtain ⟨st₂, h₂, -, -⟩ := writeOption_of hrequest
  refine ⟨st₂, ?_⟩
  cases ht : readTimeout p.requestMillis <;> simp [sendTimeouts, writeTimeOption, h₁, h₂, ht]

end

/-- With a request timeout near the greatest `int`, rounding it up overflows. -/
theorem sendsTimeouts_iff (p : Params) (hc : p.connectTimeout ≤ intMax) (hr : p.requestTimeout ≤ intMax) :
    (∀ env st, SendsTimeouts env p st) ↔ p.requestTimeout ≤ 2147481648 := by
  rw [← requestMillis_le_iff]
  refine ⟨fun hsends => ?_, fun hle env st => sendsTimeouts_of_le hc hr hle env st⟩
  obtain ⟨st', hsend⟩ := sendTimeouts_eq p
  obtain ⟨r, st, hsome, -⟩ := hsends (writesTimeouts p) {}
  obtain ⟨t, ht, -⟩ := Option.map_eq_some_iff.mp (hsend.symm.trans hsome)
  exact (readTimeout_iff (millis_bounds hc hr).2.1).mp ⟨t, ht⟩

/-- The default for the one, and two seconds for the other. -/
theorem sendsTimeouts_iff_twoSeconds :
    (∀ env st, SendsTimeouts env { requestTimeout := 2000 } st) ↔ (2000 : Int) ≤ 2147481648 :=
  sendsTimeouts_iff { requestTimeout := 2000 } (by decide) (by decide)

/-- The first request timeout that cannot be rounded up. -/
theorem not_sendsTimeouts : ∃ (s : State) (p : Params) (env : OptionEnv), addCheck s p = 0 ∧
    p.connectTimeout ≤ intMax ∧ p.requestTimeout ≤ intMax ∧ ¬SendsTimeouts env p {} := by
  refine ⟨{ running := true, evPipeWritefd := 4 }, { url := some (bytes "http://h"), requestTimeout := 2147481649 },
    ⟨fun _ => true, fun n => [15, 2, 6, 2, 8, 2, 11, 2].getD n 0⟩, by decide, by decide, by decide, ?_⟩
  rintro ⟨r, st', hsome, -⟩
  have hnone : sendTimeouts ⟨fun _ => true, fun n => [15, 2, 6, 2, 8, 2, 11, 2].getD n 0⟩
      { url := some (bytes "http://h"), requestTimeout := 2147481649 } {} = none := by
    decide +kernel
  cases hnone.symm.trans hsome

end Nlutils.UrlReq
