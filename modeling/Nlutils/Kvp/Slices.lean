import Nlutils.Kvp.Scan
import Nlutils.Lib.Machine

/-! # The offsets of the pairs

`send_pair` is given offsets into the line. The loop is run here with a log of what it has been given. -/

namespace Nlutils
open Lib Scan

/-- The arguments of `send_pair`. -/
structure PairSlice where
  keyStart : Nat
  keyLength : Nat
  valueStart : Nat
  valueLength : Nat
  deriving DecidableEq, Repr

def PairSlice.key (line : Bytes) (p : PairSlice) : Bytes := slice line p.keyStart p.keyLength

def PairSlice.value (line : Bytes) (p : PairSlice) : Bytes := slice line p.valueStart p.valueLength

def PairSlice.text (line : Bytes) (p : PairSlice) : KvpText := (p.key line, p.value line)

/-- Where the value ends. -/
def PairSlice.stop (p : PairSlice) : Nat := p.valueStart + p.valueLength

def KvpParse.pair (s : KvpParse) (valueLength : Nat) : PairSlice :=
  ⟨s.keyStart, s.keyLength, s.valueStart, valueLength⟩

/-- What `send_pair` is given at a character. -/
def sentAt (c : Byte) (s : KvpParse) : List PairSlice :=
  match s.state with
  | .readValue => if isspace c then [s.pair (s.off - s.valueStart)] else []
  | .readQuotedValue => if c = 34 then [s.pair (s.off - s.valueStart + 1)] else []
  | _ => []

/-- What `send_pair` is given after the loop. -/
def sentLast (s : KvpParse) : List PairSlice :=
  if s.state = .readValue ∨ s.state = .readQuotedValue then [s.pair (s.off - s.valueStart)] else []

/-- A state of the loop: what `ptr` points to, the variables, and what `send_pair` has been given. -/
structure KvpRun where
  ptr : Bytes
  parse : KvpParse := {}
  sent : List PairSlice := []
  deriving DecidableEq, Repr

def kvpRound (dup : Nat → Bool) (kvpLine : Bytes) (r : KvpRun) : Option KvpRun :=
  match r.ptr with
  | [] => none
  | c :: ptr =>
    if r.parse.inQuotes ∧ c = 92 ∧ ptr.head? = some 34 then
      some { r with ptr := ptr.tail, parse := { r.parse with off := r.parse.off + 2 } }
    else some ⟨ptr, kvpChar dup kvpLine c r.parse, r.sent ++ sentAt c r.parse⟩

/-- The loop on a line. -/
def kvpRun (dup : Nat → Bool) (kvpLine : Bytes) : Machine KvpRun Unit :=
  ⟨{ ptr := kvpLine }, fun r _ => kvpRound dup kvpLine r⟩

/-- What `send_pair` has been given, that after the loop included. -/
def KvpRun.pairs (r : KvpRun) : List PairSlice := if r.ptr = [] then r.sent ++ sentLast r.parse else r.sent

/-- An unquoted key holds no white space and no equals sign. -/
def SoundKey (key : Bytes) : Prop := key.head? ≠ some 34 → ∀ c ∈ key, isspace c = false ∧ c ≠ 61

/-- An unquoted value is not empty and holds no white space. -/
def SoundValue (value : Bytes) : Prop := value.head? ≠ some 34 → value ≠ [] ∧ ∀ c ∈ value, isspace c = false

/-- The key, an equals sign and the value follow one another in the line. -/
structure PairSlice.Sound (kvpLine : Bytes) (p : PairSlice) : Prop where
  equalsSign : kvpLine[p.keyStart + p.keyLength]? = some 61
  next : p.valueStart = p.keyStart + p.keyLength + 1
  inside : p.stop ≤ kvpLine.length
  key : SoundKey (p.key kvpLine)
  value : SoundValue (p.value kvpLine)
  quoted : (kvpCall (p.key kvpLine) (p.value kvpLine)).2.2 = true ↔ kvpLine[p.valueStart]? = some 34

/-- The offsets are sound: `off` is that of `ptr` in every state of the loop, what `send_pair` has been given is sound
    and in order, and when the loop is over the calls are those for what it has been given. -/
structure SlicesSound (dup : Nat → Bool) (line : Bytes) : Prop where
  off : ∀ r, (kvpRun dup line).Reach Machine.anyStep r → r.parse.off ≤ line.length ∧ r.ptr = line.drop r.parse.off
  pairs : ∀ r, (kvpRun dup line).Reach Machine.anyStep r → ∀ p ∈ r.pairs, p.Sound line
  order : ∀ r, (kvpRun dup line).Reach Machine.anyStep r → r.pairs.Pairwise fun p q => p.stop ≤ q.keyStart
  ends : ∃ r, (kvpRun dup line).Reach Machine.anyStep r ∧ r.ptr = []
  calls : ∀ r, (kvpRun dup line).Reach Machine.anyStep r → r.ptr = [] → r.parse = kvpLoop dup line line {} ∧
    nlParseKvp dup (some line) = sendAll dup 0 (r.pairs.map (PairSlice.text line))

section
variable {dup : Nat → Bool} {line done rest pre k v : Bytes} {c : Byte} {s : Scan} {t : KvpParse} {r r' : KvpRun}

/-! ### What has been read -/

/-- What a key and a value hold as far as they have been read. -/
def Scan.Plain : Scan → Prop
  | expectKey | skipKey => True
  | readKey k => ∀ c ∈ k, isspace c = false ∧ c ≠ 61
  | readQuotedKey k | expectEquals k => k.head? = some 34
  | expectValue k => SoundKey k
  | readValue k v => SoundKey k ∧ v ≠ [] ∧ ∀ c ∈ v, isspace c = false
  | readQuotedValue k v => SoundKey k ∧ v.head? = some 34

theorem head?_append_of_eq {b : Byte} (h : k.head? = some b) : (k ++ v).head? = some b := by
  rw [List.head?_append, h, Option.some_or]

theorem forall_mem_concat {P : Byte → Prop} (h : ∀ b ∈ k, P b) (hc : P c) : ∀ b ∈ k ++ [c], P b := by
  intro b hb
  rcases List.mem_append.mp hb with hb | hb
  · exact h b hb
  · exact List.mem_singleton.mp hb ▸ hc

theorem Scan.Plain.next (h : s.Plain) (c : Byte) : (s.next c).Plain := by
  cases s with
  | expectKey =>
    simp only [Scan.next]
    split
    · trivial
    · next hc =>
      split
      · trivial
      · next hsp =>
        split
        · next hq => exact congrArg some hq
        · intro b hb
          rw [List.mem_singleton.mp hb]
          exact ⟨Bool.not_eq_true _ ▸ hsp, hc⟩
  | skipKey =>
    simp only [Scan.next]
    split <;> trivial
  | readKey k =>
    simp only [Scan.next]
    split
    · trivial
    · next hsp =>
      split
      · exact fun _ => h
      · next hc => exact forall_mem_concat h ⟨Bool.not_eq_true _ ▸ hsp, hc⟩
  | readQuotedKey k =>
    simp only [Scan.next]
    split
    · exact head?_append_of_eq h
    · exact head?_append_of_eq h
  | expectEquals k =>
    simp only [Scan.next]
    split
    · exact fun hne => absurd h hne
    · trivial
  | expectValue k =>
    simp only [Scan.next]
    split
    · trivial
    · next hsp =>
      split
      · next hq => exact ⟨h, congrArg some hq⟩
      · refine ⟨h, List.cons_ne_nil _ _, fun b hb => ?_⟩
        rw [List.mem_singleton.mp hb]
        exact Bool.not_eq_true _ ▸ hsp
  | readValue k v =>
    obtain ⟨hk, -, hv⟩ := h
    simp only [Scan.next]
    split
    · trivial
    · next hsp => exact ⟨hk, by simp, forall_mem_concat hv (Bool.not_eq_true _ ▸ hsp)⟩
  | readQuotedValue k v =>
    simp only [Scan.next]
    split
    · trivial
    · exact ⟨h.1, head?_append_of_eq h.2⟩

theorem Scan.Plain.skipQuote (h : s.Plain) : s.skipQuote.Plain := by
  cases s with
  | readQuotedKey k => exact head?_append_of_eq h
  | readQuotedValue k v => exact ⟨h.1, head?_append_of_eq h.2⟩
  | expectKey | skipKey | readKey k | expectEquals k | expectValue k | readValue k v => exact h

/-! ### The slices of a pair -/

theorem sound_of_append (hline : line = pre ++ k ++ [61] ++ v ++ rest) (hk : SoundKey k) (hv : SoundValue v)
    {p : PairSlice} (hp : p = ⟨pre.length, k.length, (pre ++ k ++ [61]).length, v.length⟩) :
    p.Sound line ∧ p.text line = (k, v) := by
  have hkey : p.key line = k := by
    subst hp
    have happ : line = pre ++ k ++ ([61] ++ v ++ rest) := by simp [hline]
    exact slice_append happ
  have hvalue : p.value line = v := by
    subst hp
    exact slice_append hline
  refine ⟨?_, by rw [PairSlice.text, hkey, hvalue]⟩
  constructor
  · subst hp
    simp [hline]
  · subst hp
    simp only [List.length_append, List.length_singleton]
  · subst hp
    simp [hline, PairSlice.stop]
    omega
  · rw [hkey]
    exact hk
  · rw [hvalue]
    exact hv
  · rw [hkey, hvalue]
    have hhead : (pre ++ k ++ [61] ++ (v ++ rest))[p.valueStart]? = (v ++ rest).head? := by
      subst hp
      rw [List.getElem?_append_right (Nat.le_refl _), Nat.sub_self, List.head?_eq_getElem?]
    rw [hline, List.append_assoc, hhead]
    cases v with
    | nil => exact absurd rfl (hv (by simp)).1
    | cons b v => simp [kvpCall, Bytes.at]

/-- Where the pair begins that is being read. -/
def KvpParse.start (t : KvpParse) : Nat :=
  match t.state with
  | .expectKey | .skipKey => t.off
  | _ => t.keyStart

/-- A pair that a state stands for. -/
theorem sound_of_tracks {n : Nat} (hks : t.keyStart = pre.length) (hkl : t.keyLength = k.length)
    (hvs : t.valueStart = (pre ++ k ++ [61]).length) (hn : n = v.length)
    (hline : line = pre ++ k ++ [61] ++ v ++ rest) (hk : SoundKey k) (hv : SoundValue v) :
    (t.pair n).Sound line ∧ (t.pair n).text line = (k, v) := by
  refine sound_of_append hline hk hv ?_
  rw [KvpParse.pair, hks, hkl, hvs, hn]

theorem Follows.start_le (F : Follows done t s) : t.start ≤ t.off := by
  obtain ⟨hT, hoff⟩ := F
  unfold KvpParse.start
  cases s with
  | expectKey | skipKey =>
    have hs : t.state = _ := hT
    rw [hs]
  | readKey k | readQuotedKey k | expectEquals k =>
    obtain ⟨hs, pre, hdone, hks⟩ := hT
    rw [hs]
    simp only [hks, hoff, hdone, List.length_append]
    omega
  | expectValue k =>
    obtain ⟨hs, pre, hdone, hks, -⟩ := hT
    rw [hs]
    simp only [hks, hoff, hdone, List.length_append]
    omega
  | readValue k v | readQuotedValue k v =>
    obtain ⟨hs, pre, hdone, hks, -⟩ := hT
    rw [hs]
    simp only [hks, hoff, hdone, List.length_append]
    omega

/-- What is sent at a character is what the scan finds there. -/
theorem sentAt_spec (dup : Nat → Bool) (F : Follows done t s) (hs : s.Plain) (hline : line = done ++ c :: rest) :
    (sentAt c t = [] ∧ s.found c = []) ∨
      ∃ p, sentAt c t = [p] ∧ s.found c = [p.text line] ∧ p.Sound line ∧ p.keyStart = t.start ∧
        p.stop ≤ (kvpChar dup line c t).start := by
  obtain ⟨hT, hoff⟩ := F
  cases s with
  | expectKey | skipKey =>
    have ht : t.state = _ := hT
    exact Or.inl ⟨by simp [sentAt, ht], rfl⟩
  | readKey k | readQuotedKey k | expectEquals k | expectValue k =>
    obtain ⟨ht, -⟩ := hT
    exact Or.inl ⟨by simp [sentAt, ht], rfl⟩
  | readValue k v =>
    obtain ⟨ht, pre, hdone, hks, hkl, hvs⟩ := hT
    obtain ⟨hk, hne, hv⟩ := hs
    by_cases hsp : isspace c = true
    · right
      have hsub := sub_length hoff hdone hvs
      obtain ⟨hsound, htext⟩ := sound_of_tracks hks hkl hvs hsub (hdone ▸ hline) hk fun _ => ⟨hne, hv⟩
      have hkey : (t.pair (t.off - t.valueStart)).keyStart = t.start := by simp [KvpParse.start, ht, KvpParse.pair]
      refine ⟨_, by simp [sentAt, ht, hsp], ?_, hsound, hkey, ?_⟩
      · rw [htext]
        simp [found, hsp]
      · have hvalue : t.valueStart ≤ t.off := by
          simp only [hoff, hdone, hvs, List.length_append]
          omega
        simp only [kvpChar, ht, if_pos hsp, KvpParse.start, sendPair_off, KvpParse.pair, PairSlice.stop]
        omega
    · exact Or.inl ⟨by simp [sentAt, ht, hsp], by simp [found, hsp]⟩
  | readQuotedValue k v =>
    obtain ⟨ht, pre, hdone, hks, hkl, hvs⟩ := hT
    obtain ⟨hk, hv⟩ := hs
    by_cases hq : c = 34
    · right
      have hsub := sub_length hoff hdone hvs
      have hlen : t.off - t.valueStart + 1 = (v ++ [c]).length := by rw [hsub]; simp
      have hline' : line = pre ++ k ++ [61] ++ (v ++ [c]) ++ rest := by rw [hline, hdone]; simp
      obtain ⟨hsound, htext⟩ := sound_of_tracks hks hkl hvs hlen hline' hk fun h => absurd (head?_append_of_eq hv) h
      have hkey : (t.pair (t.off - t.valueStart + 1)).keyStart = t.start := by simp [KvpParse.start, ht, KvpParse.pair]
      refine ⟨_, by simp [sentAt, ht, hq], ?_, hsound, hkey, ?_⟩
      · rw [htext]
        simp [found, hq]
      · have hvalue : t.valueStart ≤ t.off := by
          simp only [hoff, hdone, hvs, List.length_append]
          omega
        simp only [kvpChar, ht, if_pos hq, KvpParse.start, sendPair_off, KvpParse.pair, PairSlice.stop]
        omega
    · exact Or.inl ⟨by simp [sentAt, ht, hq], by simp [found, hq]⟩

theorem sentLast_spec (F : Follows line t s) (hs : s.Plain) :
    (sentLast t = [] ∧ s.pending = []) ∨
      ∃ p, sentLast t = [p] ∧ s.pending = [p.text line] ∧ p.Sound line ∧ p.keyStart = t.start := by
  obtain ⟨hT, hoff⟩ := F
  cases s with
  | expectKey | skipKey =>
    have ht : t.state = _ := hT
    exact Or.inl ⟨by simp [sentLast, ht], rfl⟩
  | readKey k | readQuotedKey k | expectEquals k | expectValue k =>
    obtain ⟨ht, -⟩ := hT
    exact Or.inl ⟨by simp [sentLast, ht], rfl⟩
  | readValue k v =>
    obtain ⟨ht, pre, hdone, hks, hkl, hvs⟩ := hT
    obtain ⟨hk, hne, hv⟩ := hs
    have hline : line = pre ++ k ++ [61] ++ v ++ [] := by rw [List.append_nil, ← hdone]
    obtain ⟨hsound, htext⟩ := sound_of_tracks hks hkl hvs (sub_length hoff hdone hvs) hline hk fun _ => ⟨hne, hv⟩
    refine Or.inr ⟨_, by simp [sentLast, ht], ?_, hsound, by simp [KvpParse.start, ht, KvpParse.pair]⟩
    rw [htext]
    rfl
  | readQuotedValue k v =>
    obtain ⟨ht, pre, hdone, hks, hkl, hvs⟩ := hT
    obtain ⟨hk, hv⟩ := hs
    have hline : line = pre ++ k ++ [61] ++ v ++ [] := by rw [List.append_nil, ← hdone]
    obtain ⟨hsound, htext⟩ := sound_of_tracks hks hkl hvs (sub_length hoff hdone hvs) hline hk fun h => absurd hv h
    refine Or.inr ⟨_, by simp [sentLast, ht], ?_, hsound, by simp [KvpParse.start, ht, KvpParse.pair]⟩
    rw [htext]
    rfl

theorem Follows.start_le_advance (F : Follows done t s) (n : Nat) :
    t.start ≤ KvpParse.start { t with off := t.off + n } := by
  have hle := F.start_le
  unfold KvpParse.start at hle ⊢
  split
  · next hs =>
    simp only [hs]
    omega
  · next hs =>
    simp only [hs]
    omega
  · exact Nat.le_refl _

/-- Where a pair begins does not go back. -/
theorem start_le_kvpChar (F : Follows done t s) : t.start ≤ (kvpChar dup line c t).start := by
  have hle := F.start_le
  have hnext : t.start ≤ t.off + 1 := Nat.le_succ_of_le hle
  have hsame := F.start_le_advance 1
  cases ht : t.state with
  | expectKey =>
    simp only [kvpChar, ht]
    split
    · exact hnext
    · split
      · exact hsame
      · split
        · exact hle
        · exact hle
  | skipKey =>
    simp only [kvpChar, ht]
    split
    · exact hnext
    · exact hsame
  | readKey =>
    simp only [kvpChar, ht]
    split
    · exact hnext
    · split
      · exact Nat.le_of_eq (by rw [KvpParse.start, ht]; rfl)
      · exact hsame
  | readQuotedKey =>
    simp only [kvpChar, ht]
    split
    · exact Nat.le_of_eq (by rw [KvpParse.start, ht]; rfl)
    · exact hsame
  | expectEquals =>
    simp only [kvpChar, ht]
    split
    · exact Nat.le_of_eq (by rw [KvpParse.start, ht]; rfl)
    · exact hnext
  | expectValue =>
    simp only [kvpChar, ht]
    split
    · exact hnext
    · split
      · exact Nat.le_of_eq (by rw [KvpParse.start, ht]; rfl)
      · exact Nat.le_of_eq (by rw [KvpParse.start, ht]; rfl)
  | readValue | readQuotedValue =>
    simp only [kvpChar, ht]
    split
    · show t.start ≤ (sendPair dup line _).off + 1
      rw [sendPair_off]
      exact hnext
    · exact hsame

/-! ### The run -/

/-- A state of the loop, with the scan beside it. -/
structure SentSound (line : Bytes) (r : KvpRun) (s : Scan) (done : Bytes) : Prop where
  follows : Follows done r.parse s
  split : line = done ++ r.ptr
  plain : s.Plain
  texts : r.sent.map (PairSlice.text line) ++ scan r.ptr s = scan line expectKey
  sound : ∀ p ∈ r.sent, p.Sound line
  before : ∀ p ∈ r.sent, p.stop ≤ r.parse.start
  order : r.sent.Pairwise fun p q => p.stop ≤ q.keyStart

theorem SentSound.init : SentSound line { ptr := line } expectKey [] :=
  ⟨⟨rfl, rfl⟩, rfl, trivial, rfl, nofun, nofun, .nil⟩

/-- Pairs that come after all those sent before. -/
theorem pairwise_concat {ps : List PairSlice} {p : PairSlice} (h : ps.Pairwise fun p q => p.stop ≤ q.keyStart)
    (hp : ∀ q ∈ ps, q.stop ≤ p.keyStart) : (ps ++ [p]).Pairwise fun p q => p.stop ≤ q.keyStart := by
  rw [List.pairwise_append]
  refine ⟨h, List.pairwise_singleton _ _, fun q hq p' hp' => ?_⟩
  rw [List.mem_singleton.mp hp']
  exact hp q hq

theorem SentSound.round (S : SentSound line r s done) (h : kvpRound dup line r = some r') :
    ∃ s' done', SentSound line r' s' done' ∧
      kvpLoop dup line r.ptr r.parse = kvpLoop dup line r'.ptr r'.parse := by
  obtain ⟨ptr, t, sent⟩ := r
  obtain ⟨F, hline, hplain, hscan, hsound, hbefore, horder⟩ := S
  simp only at F hline hscan hsound hbefore horder ⊢
  cases ptr with
  | nil => cases h
  | cons c ptr =>
    simp only [kvpRound] at h
    split at h
    · next hc =>
      obtain ⟨hq, rfl, hnext⟩ := hc
      obtain rfl := Option.some.inj h
      obtain ⟨ptr, rfl⟩ := List.head?_eq_some_iff.mp hnext
      have hsq : s.inQuotes = true := F.inQuotes.symm.trans hq
      rw [scan_skipQuote hsq] at hscan
      refine ⟨s.skipQuote, done ++ [92, 34], ?_, by rw [kvpLoop, if_pos ⟨hq, rfl, rfl⟩]; rfl⟩
      exact ⟨skipQuote_follows F hsq, by rw [hline]; simp, hplain.skipQuote, hscan, hsound,
        fun p hp => Nat.le_trans (hbefore p hp) (F.start_le_advance 2), horder⟩
    · next hc =>
      obtain rfl := Option.some.inj h
      have F' := (kvpChar_step dup F hline).1
      have hstart : t.start ≤ (kvpChar dup line c t).start := start_le_kvpChar F
      rw [scan_cons (F.inQuotes ▸ hc)] at hscan
      refine ⟨s.next c, done ++ [c], ?_, ?_⟩
      · rcases sentAt_spec dup F hplain hline with ⟨hnil, hfound⟩ | ⟨p, hp, hfound, hps, hkey, hstop⟩
        · rw [hfound] at hscan
          rw [hnil, List.append_nil]
          exact ⟨F', by rw [hline]; simp, hplain.next c, hscan, hsound,
            fun p hp => Nat.le_trans (hbefore p hp) hstart, horder⟩
        · rw [hfound] at hscan
          rw [hp]
          refine ⟨F', by rw [hline]; simp, hplain.next c, by simpa using hscan, ?_, ?_, ?_⟩
          · exact List.forall_mem_append.mpr ⟨hsound, by simpa using hps⟩
          · refine List.forall_mem_append.mpr ⟨fun q hq => Nat.le_trans (hbefore q hq) hstart, ?_⟩
            simpa using hstop
          · exact pairwise_concat horder fun q hq => hkey ▸ hbefore q hq
      · cases ptr with
        | nil => rfl
        | cons d ptr =>
          rw [kvpLoop, if_neg]
          rintro ⟨hq, h92, h34⟩
          exact hc ⟨hq, h92, congrArg some h34⟩

theorem sentSound_of_reach (h : (kvpRun dup line).Reach Machine.anyStep r) :
    (∃ s done, SentSound line r s done) ∧ kvpLoop dup line r.ptr r.parse = kvpLoop dup line line {} := by
  refine h.invariant (I := fun r => (∃ s done, SentSound line r s done) ∧
    kvpLoop dup line r.ptr r.parse = kvpLoop dup line line {}) ⟨⟨_, _, .init⟩, rfl⟩ ?_
  rintro r ⟨⟩ r' ⟨⟨s, done, S⟩, hloop⟩ - hround
  obtain ⟨s', done', S', hloop'⟩ := S.round hround
  exact ⟨⟨s', done', S'⟩, hloop'.symm.trans hloop⟩

/-- What `send_pair` has been given, with that after the loop. -/
theorem SentSound.pairs (S : SentSound line r s done) : (∀ p ∈ r.pairs, p.Sound line) ∧
    (r.pairs.Pairwise fun p q => p.stop ≤ q.keyStart) ∧
    (r.ptr = [] → r.pairs.map (PairSlice.text line) = scan line expectKey) := by
  obtain ⟨F, hline, hplain, hscan, hsound, hbefore, horder⟩ := S
  unfold KvpRun.pairs
  split
  · next hend =>
    rw [hend, List.append_nil] at hline
    rw [hend, scan] at hscan
    rw [← hscan]
    rcases sentLast_spec (hline ▸ F) hplain with ⟨hnil, hpending⟩ | ⟨p, hp, hpending, hps, hkey⟩
    · rw [hnil, hpending, List.append_nil, List.append_nil]
      exact ⟨hsound, horder, fun _ => rfl⟩
    · rw [hp, hpending]
      refine ⟨?_, pairwise_concat horder fun q hq => hkey ▸ hbefore q hq, fun _ => by simp⟩
      exact List.forall_mem_append.mpr ⟨hsound, by simpa using hps⟩
  · next hgo => exact ⟨hsound, horder, fun h => absurd h hgo⟩

/-- The loop comes to the end of the line. -/
theorem exists_reach_nil (h : (kvpRun dup line).Reach Machine.anyStep r) :
    ∃ r', (kvpRun dup line).Reach Machine.anyStep r' ∧ r'.ptr = [] := by
  have hdown : ∀ r r' : KvpRun, True → kvpRound dup line r = some r' → True ∧ r'.ptr.length < r.ptr.length := by
    rintro ⟨ptr, t, sent⟩ r' - hround
    refine ⟨trivial, ?_⟩
    cases ptr with
    | nil => cases hround
    | cons c ptr =>
      simp only [kvpRound] at hround
      split at hround
      · obtain rfl := Option.some.inj hround
        have hlen : ptr.tail.length ≤ ptr.length := by simp
        exact Nat.lt_succ_of_le hlen
      · obtain rfl := Option.some.inj hround
        exact Nat.lt_succ_self _
  obtain ⟨r', hr', hlast, -⟩ := h.exists_last (fun _ => True) (fun r => r.ptr.length) hdown trivial
  refine ⟨r', hr', ?_⟩
  cases hptr : r'.ptr with
  | nil => rfl
  | cons c ptr =>
    have hround : kvpRound dup line r' = none := hlast
    rw [kvpRound, hptr] at hround
    simp only at hround
    split at hround <;> cases hround

end

/-- The slices of every line are sound. -/
theorem slicesSound (dup : Nat → Bool) (line : Bytes) : SlicesSound dup line := by
  constructor
  · intro r hr
    obtain ⟨⟨s, done, S⟩, -⟩ := sentSound_of_reach hr
    rw [S.follows.off, S.split]
    simp
  · intro r hr
    obtain ⟨⟨s, done, S⟩, -⟩ := sentSound_of_reach hr
    exact S.pairs.1
  · intro r hr
    obtain ⟨⟨s, done, S⟩, -⟩ := sentSound_of_reach hr
    exact S.pairs.2.1
  · exact exists_reach_nil .init
  · intro r hr hend
    obtain ⟨⟨s, done, S⟩, hloop⟩ := sentSound_of_reach hr
    rw [hend, kvpLoop] at hloop
    rw [nlParseKvp_eq_scan, S.pairs.2.2 hend]
    exact ⟨hloop, rfl⟩

end Nlutils
