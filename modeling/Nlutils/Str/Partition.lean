import Nlutils.Str.Lines

/-! # The lines of data

Data is a sequence of lines, each with its terminator. The callback gets one after the other up to the first that it
stops at, and how many these are is returned if the count does not overflow. -/

namespace Nlutils

/-- A pair of CR and LF, a CR that no LF follows, or an LF, in front of the rest of the data. -/
def IsTerminator (term rest : Bytes) : Prop :=
  term = [13, 10] ∨ term = [13] ∧ rest.head? ≠ some 10 ∨ term = [10]

/-- The lines that data consists of, each with its terminator. The last one may have none, and is not empty then. -/
inductive IsLines : Bytes → List (Bytes × Bytes) → Prop
  | nil : IsLines [] []
  | last {seg : Bytes} : seg ≠ [] → (∀ c ∈ seg, c ≠ 13 ∧ c ≠ 10) → IsLines seg [(seg, [])]
  | line {seg term rest : Bytes} {ls : List (Bytes × Bytes)} : (∀ c ∈ seg, c ≠ 13 ∧ c ≠ 10) →
    IsTerminator term rest → IsLines rest ls → IsLines (seg ++ (term ++ rest)) ((seg, term) :: ls)

/-- Where lines start from an offset on, and how long they are. -/
def spans : Nat → List (Bytes × Bytes) → List (Nat × Nat)
  | _, [] => []
  | off, l :: ls => (off, l.1.length) :: spans (off + l.1.length + l.2.length) ls

section
variable {σ : Type}

/-- The calls for lines up to the first that the callback stops at, and what it has made of its data. -/
def passLines (cb : LineCallback σ) : List (Nat × Nat) → σ → List (σ × Nat × Nat) × σ
  | [], d => ([], d)
  | s :: ss, d =>
    let call := cb d s.1 s.2
    if call.1 ≠ 0 then ([(d, s)], call.2)
    else
      let more := passLines cb ss call.2
      ((d, s) :: more.1, more.2)

/-- The calls that are made. -/
def lineCalls (cb : LineCallback σ) (data : Bytes) (d : σ) : List (σ × Nat × Nat) :=
  (nlSplitLines (some (logging cb)) (some data) (d, [])).2.2

/-- What is to hold of a call on data of these lines. -/
structure PassesLines (cb : LineCallback σ) (data : Bytes) (ls : List (Bytes × Bytes)) (d : σ) : Prop where
  /-- The first lines are passed, in their order. -/
  inOrder : ∃ k, (lineCalls cb data d).map (·.2) = (spans 0 ls).take k
  /-- A callback that never stops is passed all of them. -/
  complete : (∀ call ∈ lineCalls cb data d, (cb call.1 call.2.1 call.2.2).1 = 0) →
    (lineCalls cb data d).map (·.2) = spans 0 ls
  /-- The call that the callback stops at is the last one. -/
  stops : ∀ call ∈ (lineCalls cb data d).dropLast, (cb call.1 call.2.1 call.2.2).1 = 0
  returns : (nlSplitLines (some cb) (some data) d).1 = some ((lineCalls cb data d).length : Int)

variable {cb : LineCallback σ} {seg term rest data : Bytes} {ls : List (Bytes × Bytes)} {start off count : Nat}
  {d : σ} {ss : List (Nat × Nat)} {calls : List (σ × Nat × Nat)}

/-! ### The loop on a line -/

theorem splitLoop_plain (hseg : ∀ c ∈ seg, c ≠ 13 ∧ c ≠ 10) :
    splitLoop cb (seg ++ rest) start off count d = splitLoop cb rest start (off + seg.length) count d := by
  induction seg generalizing off with
  | nil => rfl
  | cons c seg ih =>
    have hc : ¬(c = 13 ∨ c = 10) := not_or.mpr (hseg c List.mem_cons_self)
    have hnext : splitLoop cb (seg ++ rest) start (off + 1) count d = _ :=
      ih fun b hb => hseg b (List.mem_cons_of_mem _ hb)
    rw [List.length_cons, Nat.add_comm seg.length, ← Nat.add_assoc, ← hnext, List.cons_append]
    cases seg ++ rest with
    | nil => simp only [splitLoop, if_neg hc]
    | cons b bs => rw [splitLoop, if_neg hc]

/-- What is done at a terminator. -/
theorem splitLoop_term (hterm : IsTerminator term rest) : splitLoop cb (term ++ rest) start off count d =
    if (cb d start (off - start)).1 ≠ 0 ∨ lineCount (count + 1) = none then
      (lineCount (count + 1), (cb d start (off - start)).2)
    else splitLoop cb rest (off + term.length) (off + term.length) (count + 1) (cb d start (off - start)).2 := by
  have hone : ∀ c : Byte, c = 13 ∨ c = 10 → ¬(c = 13 ∧ rest.head? = some 10) →
      splitLoop cb (c :: rest) start off count d =
      if (cb d start (off - start)).1 ≠ 0 ∨ lineCount (count + 1) = none then
        (lineCount (count + 1), (cb d start (off - start)).2)
      else splitLoop cb rest (off + 1) (off + 1) (count + 1) (cb d start (off - start)).2 := by
    intro c hc hpair
    cases rest with
    | nil => simp only [splitLoop, if_pos hc, if_neg (Nat.lt_irrefl _), ite_self]
    | cons b rest =>
      have hpair : ¬(c = 13 ∧ b = 10) := fun h => hpair ⟨h.1, congrArg some h.2⟩
      rw [splitLoop, if_pos hc]
      simp only [if_neg hpair]
  rcases hterm with rfl | ⟨rfl, hrest⟩ | rfl
  · rfl
  · exact hone 13 (Or.inl rfl) fun h => hrest h.2
  · exact hone 10 (Or.inr rfl) fun h => absurd h.1 (by decide)

theorem lineCount_eq_none {n : Nat} : lineCount n = none ↔ 2 ^ 31 ≤ n := by
  rw [lineCount, ite_eq_right_iff, ← Nat.not_lt]
  exact ⟨fun h hn => Option.some_ne_none _ (h hn), fun h hn => absurd hn h⟩

theorem lineCount_eq_some {n m : Nat} : lineCount n = some (m : Int) ↔ n < 2 ^ 31 ∧ n = m := by
  rw [lineCount, Option.ite_none_right_eq_some, Option.some.injEq, Int.ofNat_inj]

/-- The loop from the start of a line on. -/
theorem splitLoop_eq (L : IsLines data ls) :
    (splitLoop cb data off off count d).1 = lineCount (count + (passLines cb (spans off ls) d).1.length) ∧
      (count + (passLines cb (spans off ls) d).1.length < 2 ^ 31 →
        (splitLoop cb data off off count d).2 = (passLines cb (spans off ls) d).2) := by
  induction L generalizing off count d with
  | nil =>
    simp only [splitLoop, spans, passLines, if_neg (Nat.lt_irrefl _), List.length_nil, Nat.add_zero, implies_true,
      and_self]
  | @last seg hne hseg =>
    have hpos : off < off + seg.length := Nat.lt_add_of_pos_right (List.length_pos_iff.mpr hne)
    have hloop : splitLoop cb (seg ++ []) off off count d = _ := splitLoop_plain hseg
    have hpass : (passLines cb (spans off [(seg, [])]) d).1.length = 1 ∧
        (passLines cb (spans off [(seg, [])]) d).2 = (cb d off seg.length).2 := by
      simp only [spans, passLines]
      split <;> exact ⟨rfl, rfl⟩
    rw [List.append_nil, splitLoop, if_pos hpos, Nat.add_sub_cancel_left] at hloop
    rw [hloop, hpass.1, hpass.2]
    exact ⟨rfl, fun _ => rfl⟩
  | @line seg term rest ls hseg hterm L ih =>
    rw [splitLoop_plain hseg, splitLoop_term hterm, Nat.add_sub_cancel_left]
    simp only [spans, passLines]
    by_cases hstop : (cb d off seg.length).1 ≠ 0
    · rw [if_pos (Or.inl hstop), if_pos hstop]
      exact ⟨rfl, fun _ => rfl⟩
    · rw [if_neg hstop]
      have hmore : (splitLoop cb rest (off + seg.length + term.length) (off + seg.length + term.length) (count + 1)
          (cb d off seg.length).2).1 = _ ∧ _ := ih
      obtain ⟨hresult, hdata⟩ := hmore
      generalize passLines cb (spans (off + seg.length + term.length) ls) (cb d off seg.length).2 = more
        at hresult hdata ⊢
      have hlen : count + ((d, off, seg.length) :: more.1).length = count + 1 + more.1.length := by
        rw [List.length_cons, Nat.add_comm more.1.length, Nat.add_assoc]
      rw [hlen]
      by_cases hover : lineCount (count + 1) = none
      · have hge : 2 ^ 31 ≤ count + 1 := lineCount_eq_none.mp hover
        rw [if_pos (Or.inr hover)]
        refine ⟨?_, fun hlt => absurd hlt (by omega)⟩
        rw [hover, lineCount_eq_none.mpr (Nat.le_add_right_of_le hge)]
      · rw [if_neg (not_or.mpr ⟨hstop, hover⟩)]
        exact ⟨hresult, hdata⟩

/-- Keeping the calls of a callback changes nothing else. -/
theorem passLines_logging : ((passLines (logging cb) ss (d, calls)).1.map (·.2) = (passLines cb ss d).1.map (·.2)) ∧
    (passLines (logging cb) ss (d, calls)).2 = ((passLines cb ss d).2, calls ++ (passLines cb ss d).1) := by
  induction ss generalizing d calls with
  | nil => exact ⟨rfl, by simp [passLines]⟩
  | cons s ss ih =>
    have hcall : logging cb (d, calls) s.1 s.2 = ((cb d s.1 s.2).1, (cb d s.1 s.2).2, calls ++ [(d, s)]) := rfl
    simp only [passLines, hcall]
    split
    · exact ⟨rfl, rfl⟩
    · obtain ⟨hlines, hdata⟩ :
          (passLines (logging cb) ss ((cb d s.1 s.2).2, calls ++ [(d, s)])).1.map (·.2) = _ ∧ _ := ih
      rw [hdata]
      exact ⟨congrArg (s :: ·) hlines, by simp⟩

/-- What is passed by the calls of a callback. -/
theorem passLines_take (cb : LineCallback σ) (ss : List (Nat × Nat)) (d : σ) :
    (∃ k, (passLines cb ss d).1.map (·.2) = ss.take k) ∧
      ((∀ call ∈ (passLines cb ss d).1, (cb call.1 call.2.1 call.2.2).1 = 0) → (passLines cb ss d).1.map (·.2) = ss) ∧
      ∀ call ∈ (passLines cb ss d).1.dropLast, (cb call.1 call.2.1 call.2.2).1 = 0 := by
  induction ss generalizing d with
  | nil => exact ⟨⟨0, rfl⟩, fun _ => rfl, nofun⟩
  | cons s ss ih =>
    rw [passLines]
    simp only
    split
    · next hstop =>
      refine ⟨⟨1, rfl⟩, fun hall => absurd (hall _ List.mem_cons_self) hstop, ?_⟩
      exact fun call hcall => absurd hcall List.not_mem_nil
    · next hstop =>
      obtain ⟨⟨k, hk⟩, hall, hlast⟩ := ih (cb d s.1 s.2).2
      refine ⟨⟨k + 1, congrArg (s :: ·) hk⟩, ?_, ?_⟩
      · intro h
        exact congrArg (s :: ·) (hall fun call hcall => h call (List.mem_cons_of_mem _ hcall))
      · intro call hcall
        cases hmore : (passLines cb ss (cb d s.1 s.2).2).1 with
        | nil =>
          rw [hmore] at hcall
          exact absurd hcall List.not_mem_nil
        | cons more mores =>
          rw [hmore] at hcall hlast
          rcases List.mem_cons.mp hcall with rfl | hcall
          · exact not_not.mp hstop
          · exact hlast call hcall

/-! ### The data -/

theorem IsLines.parts (L : IsLines data ls) : ls.flatMap (fun l => l.1 ++ l.2) = data ∧
    ∀ l ∈ ls, ∀ c ∈ l.1, c ≠ 13 ∧ c ≠ 10 := by
  induction L with
  | nil => exact ⟨rfl, nofun⟩
  | last _ hseg =>
    refine ⟨by simp, ?_⟩
    intro l hl
    rw [List.mem_singleton.mp hl]
    exact hseg
  | line hseg hterm L ih =>
    obtain ⟨hdata, hplain⟩ := ih
    refine ⟨by rw [List.flatMap_cons, hdata, List.append_assoc], ?_⟩
    intro l hl
    rcases List.mem_cons.mp hl with rfl | hl
    · exact hseg
    · exact hplain l hl

/-- The bytes at the place of a line are the line. -/
theorem lineAt_spans (before : Bytes) (ls : List (Bytes × Bytes)) :
    (spans before.length ls).map (fun s => lineAt (before ++ ls.flatMap fun l => l.1 ++ l.2) s.1 s.2) =
      ls.map (·.1) := by
  induction ls generalizing before with
  | nil => rfl
  | cons l ls ih =>
    have hrest := ih (before ++ (l.1 ++ l.2))
    rw [List.append_assoc, List.length_append, List.length_append, ← Nat.add_assoc] at hrest
    rw [List.flatMap_cons, spans, List.map_cons, List.map_cons, hrest, lineAt, List.drop_left, List.append_assoc,
      List.take_left]

theorem spans_append (off : Nat) (ls ms : List (Bytes × Bytes)) : ∃ off',
    spans off (ls ++ ms) = spans off ls ++ spans off' ms := by
  induction ls generalizing off with
  | nil => exact ⟨off, rfl⟩
  | cons l ls ih =>
    obtain ⟨off', hrest⟩ := ih (off + l.1.length + l.2.length)
    exact ⟨off', congrArg ((off, l.1.length) :: ·) hrest⟩

theorem length_spans (off : Nat) (ls : List (Bytes × Bytes)) : (spans off ls).length = ls.length := by
  induction ls generalizing off with
  | nil => rfl
  | cons l ls ih => exact congrArg (· + 1) (ih _)

theorem isLine_spans (L : IsLines rest ls) (before : Bytes) :
    ∀ s ∈ spans before.length ls, IsLine (before ++ rest) s.1 s.2 := by
  have hstart : ∀ {before seg tail : Bytes}, (∀ c ∈ seg, c ≠ 13 ∧ c ≠ 10) →
      (∀ c, tail.head? = some c → c = 13 ∨ c = 10) → IsLine (before ++ (seg ++ tail)) before.length seg.length := by
    intro before seg tail hseg htail
    have P : Passed (before ++ (seg ++ tail)) (before ++ seg) tail before.length := by
      refine ⟨(List.append_assoc _ _ _).symm, ?_, ?_⟩
      · rw [List.length_append]
        exact Nat.le_add_right _ _
      · rw [List.drop_left]
        exact hseg
    have hline := P.isLine htail
    rwa [List.length_append, Nat.add_sub_cancel_left] at hline
  induction L generalizing before with
  | nil => exact nofun
  | @last seg _ hseg =>
    intro s hs
    have hline : IsLine (before ++ (seg ++ [])) before.length seg.length := hstart hseg nofun
    rw [List.append_nil] at hline
    rw [List.mem_singleton.mp hs]
    exact hline
  | @line seg term rest ls hseg hterm L ih =>
    intro s hs
    rcases List.mem_cons.mp hs with rfl | hs
    · refine hstart hseg ?_
      intro c hc
      rcases hterm with rfl | ⟨rfl, -⟩ | rfl
      · exact Or.inl (Option.some.inj hc).symm
      · exact Or.inl (Option.some.inj hc).symm
      · exact Or.inr (Option.some.inj hc).symm
    · have hrest := ih (before ++ (seg ++ term)) s
      rw [List.length_append, List.length_append, ← Nat.add_assoc, List.append_assoc, List.append_assoc] at hrest
      exact hrest hs

/-- A line that starts with one more character. -/
theorem IsLines.cons {c : Byte} (hc : c ≠ 13 ∧ c ≠ 10) (L : IsLines data ls) : ∃ ls', IsLines (c :: data) ls' := by
  have hplain : ∀ {seg : Bytes}, (∀ b ∈ seg, b ≠ 13 ∧ b ≠ 10) → ∀ b ∈ c :: seg, b ≠ 13 ∧ b ≠ 10 := by
    intro seg hseg b hb
    rcases List.mem_cons.mp hb with rfl | hb
    · exact hc
    · exact hseg b hb
  cases L with
  | nil => exact ⟨_, .last (List.cons_ne_nil c []) (hplain nofun)⟩
  | last _ hseg => exact ⟨_, .last (List.cons_ne_nil c _) (hplain hseg)⟩
  | line hseg hterm L => exact ⟨_, .line (hplain hseg) hterm L⟩

/-- A line with nothing in it. -/
theorem IsLines.empty {term rest : Bytes} (hterm : IsTerminator term rest) (L : IsLines rest ls) :
    IsLines (term ++ rest) (([], term) :: ls) :=
  have hline : IsLines ([] ++ (term ++ rest)) (([], term) :: ls) := .line nofun hterm L
  hline

theorem exists_isLines (data : Bytes) : ∃ ls, IsLines data ls := by
  induction data using List.twoStepInduction with
  | nil => exact ⟨[], .nil⟩
  | singleton c =>
    by_cases hc : c ≠ 13 ∧ c ≠ 10
    · exact IsLines.nil.cons hc
    · have hterm : IsTerminator [c] [] := by
        rcases not_and_or.mp hc with h | h
        · exact Or.inr (Or.inl ⟨by rw [not_not.mp h], nofun⟩)
        · exact Or.inr (Or.inr (by rw [not_not.mp h]))
      exact ⟨_, .empty hterm .nil⟩
  | cons_cons c next rest ih ih' =>
    obtain ⟨ls', L'⟩ := ih' next
    by_cases hc : c ≠ 13 ∧ c ≠ 10
    · exact L'.cons hc
    · by_cases hpair : c = 13 ∧ next = 10
      · obtain ⟨ls, L⟩ := ih
        obtain ⟨rfl, rfl⟩ := hpair
        have hterm : IsTerminator [13, 10] rest := Or.inl rfl
        exact ⟨_, .empty hterm L⟩
      · have hterm : IsTerminator [c] (next :: rest) := by
          rcases not_and_or.mp hc with h | h
          · refine Or.inr (Or.inl ⟨by rw [not_not.mp h], ?_⟩)
            exact fun hnext => hpair ⟨not_not.mp h, Option.some.inj hnext⟩
          · exact Or.inr (Or.inr (by rw [not_not.mp h]))
        exact ⟨_, .empty hterm L'⟩

/-! ### The calls -/

theorem nlSplitLines_fst (L : IsLines data ls) :
    (nlSplitLines (some cb) (some data) d).1 = lineCount (passLines cb (spans 0 ls) d).1.length := by
  have hloop : (splitLoop cb data 0 0 0 d).1 = _ := (splitLoop_eq L).1
  rw [Nat.zero_add] at hloop
  exact hloop

theorem nlSplitLines_snd (L : IsLines data ls) (h : (passLines cb (spans 0 ls) d).1.length < 2 ^ 31) :
    (nlSplitLines (some cb) (some data) d).2 = (passLines cb (spans 0 ls) d).2 :=
  (splitLoop_eq L).2 (by rwa [Nat.zero_add])

/-- A result says how many lines have been passed, and what has been made of the data. -/
theorem passLines_of_result {d' : σ} {k : Nat} (L : IsLines data ls)
    (hrun : nlSplitLines (some cb) (some data) d = (some (k : Int), d')) :
    (passLines cb (spans 0 ls) d).1.length = k ∧ (passLines cb (spans 0 ls) d).2 = d' := by
  have hresult := congrArg Prod.fst hrun
  have hdata := congrArg Prod.snd hrun
  rw [nlSplitLines_fst L] at hresult
  obtain ⟨hlt, hpassed⟩ := lineCount_eq_some.mp hresult
  rw [nlSplitLines_snd L hlt] at hdata
  exact ⟨hpassed, hdata⟩

theorem lineCalls_eq (L : IsLines data ls) (h : (passLines cb (spans 0 ls) d).1.length < 2 ^ 31) :
    lineCalls cb data d = (passLines cb (spans 0 ls) d).1 := by
  obtain ⟨hlines, hdata⟩ : (passLines (logging cb) (spans 0 ls) (d, [])).1.map (·.2) = _ ∧ _ := passLines_logging
  have hlen := congrArg List.length hlines
  rw [List.length_map, List.length_map] at hlen
  rw [lineCalls, nlSplitLines_snd L (hlen ▸ h), hdata, List.nil_append]

theorem passesLines_of_lt (L : IsLines data ls) (h : (passLines cb (spans 0 ls) d).1.length < 2 ^ 31) :
    PassesLines cb data ls d := by
  have hcalls := lineCalls_eq L h
  obtain ⟨htake, hall, hlast⟩ := passLines_take cb (spans 0 ls) d
  rw [← hcalls] at htake hall hlast
  refine ⟨htake, hall, hlast, ?_⟩
  rw [nlSplitLines_fst L, ← hcalls, lineCount, if_pos (hcalls ▸ h)]

theorem lt_of_passesLines (L : IsLines data ls) (P : PassesLines cb data ls d) :
    (passLines cb (spans 0 ls) d).1.length < 2 ^ 31 := by
  have hreturns := P.returns
  rw [nlSplitLines_fst L] at hreturns
  by_contra hge
  rw [lineCount_eq_none.mpr (Nat.le_of_not_lt hge)] at hreturns
  cases hreturns

theorem isLines_feeds (n : Nat) : IsLines (List.replicate n 10) (List.replicate n ([], [10])) := by
  induction n with
  | zero => exact .nil
  | succ n ih => exact .empty (Or.inr (Or.inr rfl)) ih

end

/-- Data can be cut into lines, and whatever the lines are that it is cut into, they are those that the callback gets
    if and only if those up to where it stops are fewer than 2^31. -/
theorem passesLines_iff (data : Bytes) : (∃ ls, IsLines data ls) ∧ ∀ ls, IsLines data ls →
    ls.flatMap (fun l => l.1 ++ l.2) = data ∧ (∀ l ∈ ls, ∀ c ∈ l.1, c ≠ 13 ∧ c ≠ 10) ∧
    (spans 0 ls).map (fun s => lineAt data s.1 s.2) = ls.map (·.1) ∧
    ∀ (σ : Type) (cb : LineCallback σ) (d : σ),
      PassesLines cb data ls d ↔ (passLines cb (spans 0 ls) d).1.length < 2 ^ 31 := by
  refine ⟨exists_isLines data, ?_⟩
  intro ls L
  obtain ⟨hdata, hplain⟩ := L.parts
  have hlines := lineAt_spans [] ls
  rw [List.nil_append, hdata] at hlines
  exact ⟨hdata, hplain, hlines, fun _ _ _ => ⟨lt_of_passesLines L, passesLines_of_lt L⟩⟩

/-- Line 2147483648 has no number. -/
theorem not_passesLines : ¬∀ (data : Bytes) (ls : List (Bytes × Bytes)), IsLines data ls →
    PassesLines (fun d _ _ => (0, d)) data ls () := by
  intro hall
  have hlen : ∀ (ls : List (Bytes × Bytes)) (off : Nat),
      (passLines (fun d _ _ => (0, d)) (spans off ls) ()).1.length = ls.length := by
    intro ls
    induction ls with
    | nil => exact fun _ => rfl
    | cons l ls ih => exact fun off => congrArg (· + 1) (ih _)
  have hlt := lt_of_passesLines (isLines_feeds (2 ^ 31)) (hall _ _ (isLines_feeds (2 ^ 31)))
  rw [hlen, List.length_replicate] at hlt
  exact absurd hlt (Nat.lt_irrefl _)

end Nlutils
