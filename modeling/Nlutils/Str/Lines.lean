import Nlutils.Bytes
import Mathlib.Data.List.Induction

/-! # Lines (`nl_split_lines` of `str.c`)

A line is given by where it starts in the data and how long it is. The data is given by its bytes, as many as its
size says. -/

namespace Nlutils

/-- What a line callback returns, and what it makes of its data. -/
abbrev LineCallback (σ : Type) := σ → Nat → Nat → Int × σ

/-- A number of lines as an `int`, which overflows at 2^31. -/
def lineCount (n : Nat) : Option Int := if n < 2 ^ 31 then some n else none

section
variable {σ : Type}

/-- The loop of `nl_split_lines` from `off` on, and the final line. There is no result where the count overflows. -/
def splitLoop (cb : LineCallback σ) : Bytes → Nat → Nat → Nat → σ → Option Int × σ
  | [], start, off, count, d =>
    if start < off then (lineCount (count + 1), (cb d start (off - start)).2) else (lineCount count, d)
  | [c], start, off, count, d =>
    if c = 13 ∨ c = 10 then (lineCount (count + 1), (cb d start (off - start)).2)
    else splitLoop cb [] start (off + 1) count d
  | c :: next :: rest, start, off, count, d =>
    if c = 13 ∨ c = 10 then
      let call := cb d start (off - start)
      if call.1 ≠ 0 ∨ lineCount (count + 1) = none then (lineCount (count + 1), call.2)
      -- CR LF is one terminator.
      else if c = 13 ∧ next = 10 then splitLoop cb rest (off + 2) (off + 2) (count + 1) call.2
      else splitLoop cb (next :: rest) (off + 1) (off + 1) (count + 1) call.2
    else splitLoop cb (next :: rest) start (off + 1) count d

/-- The result, and what the callback has made of its data. -/
def nlSplitLines (cb : Option (LineCallback σ)) (data : Option Bytes) (d : σ) : Option Int × σ :=
  match cb, data with
  | none, _ => (some (-1), d)
  | some _, none => (some 0, d)
  | some cb, some data => splitLoop cb data 0 0 0 d

/-- A callback that also keeps its calls: the data it is given, and the line. -/
def logging (cb : LineCallback σ) : LineCallback (σ × List (σ × Nat × Nat)) := fun s start size =>
  let call := cb s.1 start size
  (call.1, call.2, s.2 ++ [(s.1, start, size)])

/-- The bytes of a line. -/
def lineAt (data : Bytes) (start size : Nat) : Bytes := (data.drop start).take size

/-- A stretch of the data without a terminator, up to a terminator or the end of the data. -/
structure IsLine (data : Bytes) (start size : Nat) : Prop where
  fits : start + size ≤ data.length
  plain : ∀ c ∈ lineAt data start size, c ≠ 13 ∧ c ≠ 10
  ends : ∀ c, data[start + size]? = some c → c = 13 ∨ c = 10

end

/-! ### What the callback is called with -/

section
variable {σ : Type} {cb : LineCallback σ} {data done rest : Bytes} {start off count : Nat} {d : σ}

/-- The loop has passed over `done`, and from `start` on it has met no terminator. -/
structure Passed (data done rest : Bytes) (start : Nat) : Prop where
  split : data = done ++ rest
  start_le : start ≤ done.length
  plain : ∀ c ∈ done.drop start, c ≠ 13 ∧ c ≠ 10

theorem Passed.next {c : Byte} (P : Passed data done (c :: rest) start) (hc : ¬(c = 13 ∨ c = 10)) :
    Passed data (done ++ [c]) rest start where
  split := by rw [P.split, List.append_assoc, List.singleton_append]
  start_le := by
    rw [List.length_append]
    exact Nat.le_add_right_of_le P.start_le
  plain := by
    rw [List.drop_append_of_le_length P.start_le]
    intro b hb
    rcases List.mem_append.mp hb with hb | hb
    · exact P.plain b hb
    · rw [List.mem_singleton.mp hb]
      exact not_or.mp hc

theorem Passed.restart {bs : Bytes} (P : Passed data done (bs ++ rest) start) :
    Passed data (done ++ bs) rest (done ++ bs).length where
  split := by rw [P.split, List.append_assoc]
  start_le := Nat.le_refl _
  plain := by
    rw [List.drop_length]
    exact nofun

theorem Passed.isLine (P : Passed data done rest start) (hends : ∀ c, rest.head? = some c → c = 13 ∨ c = 10) :
    IsLine data start (done.length - start) := by
  have hend : start + (done.length - start) = done.length := Nat.add_sub_cancel' P.start_le
  refine ⟨?_, ?_, ?_⟩
  · rw [hend, P.split, List.length_append]
    exact Nat.le_add_right _ _
  · have hline : lineAt data start (done.length - start) = done.drop start := by
      rw [lineAt, P.split, List.drop_append_of_le_length P.start_le, List.take_left' List.length_drop]
    rw [hline]
    exact P.plain
  · rw [hend, P.split, List.getElem?_append_right (Nat.le_refl _), Nat.sub_self, ← List.head?_eq_getElem?]
    exact hends

variable {I : σ → Prop}

/-- What each call on a line keeps holds after the loop. -/
theorem splitLoop_keeps (hstep : ∀ d start size, IsLine data start size → I d → I (cb d start size).2)
    (P : Passed data done rest start) (hd : I d) : I (splitLoop cb rest start done.length count d).2 := by
  have hterm : ∀ {c : Byte} {bs : Bytes}, c = 13 ∨ c = 10 → ∀ b, (c :: bs).head? = some b → b = 13 ∨ b = 10 := by
    intro c bs hc b hb
    exact Option.some.inj hb ▸ hc
  induction rest using List.twoStepInduction generalizing done start count d with
  | nil =>
    rw [splitLoop]
    split
    · exact hstep _ _ _ (P.isLine nofun) hd
    · exact hd
  | singleton c =>
    rw [splitLoop]
    split
    · next hc => exact hstep _ _ _ (P.isLine (hterm hc)) hd
    · next hc =>
      rw [splitLoop]
      split
      · have hline := (P.next hc).isLine nofun
        rw [List.length_append] at hline
        exact hstep _ _ _ hline hd
      · exact hd
  | cons_cons c next rest ih ih' =>
    rw [splitLoop]
    split
    · next hc =>
      have hcall := hstep _ _ _ (P.isLine (hterm hc)) hd
      simp only
      split
      · exact hcall
      · split
        · have P' : Passed data (done ++ [c, next]) rest (done ++ [c, next]).length := P.restart
          have hrest : I (splitLoop cb rest _ _ (count + 1) _).2 := ih P' hcall
          rwa [List.length_append] at hrest
        · have P' : Passed data (done ++ [c]) (next :: rest) (done ++ [c]).length := P.restart
          have hrest : I (splitLoop cb (next :: rest) _ _ (count + 1) _).2 := ih' next P' hcall
          rwa [List.length_append] at hrest
    · next hc =>
      have hrest : I (splitLoop cb (next :: rest) _ _ count _).2 := ih' next (P.next hc) hd
      rwa [List.length_append] at hrest

theorem nlSplitLines_keeps (hstep : ∀ d start size, IsLine data start size → I d → I (cb d start size).2) (hd : I d) :
    I (nlSplitLines (some cb) (some data) d).2 :=
  splitLoop_keeps hstep ⟨(List.nil_append data).symm, Nat.zero_le _, nofun⟩ hd

/-- Every call is for a line. -/
theorem isLine_of_mem {call : σ × Nat × Nat}
    (h : call ∈ (nlSplitLines (some (logging cb)) (some data) (d, [])).2.2) : IsLine data call.2.1 call.2.2 := by
  let I : σ × List (σ × Nat × Nat) → Prop := fun s => ∀ call ∈ s.2, IsLine data call.2.1 call.2.2
  have hnone : I (d, []) := by
    intro call hcall
    exact absurd hcall List.not_mem_nil
  refine nlSplitLines_keeps (I := I) ?_ hnone call h
  intro s start size hline hs call hcall
  rcases List.mem_append.mp hcall with hcall | hcall
  · exact hs call hcall
  · rw [List.mem_singleton.mp hcall]
    exact hline

/-- Keeping the calls changes nothing else. -/
theorem splitLoop_logging {calls : List (σ × Nat × Nat)} :
    (splitLoop (logging cb) rest start off count (d, calls)).1 = (splitLoop cb rest start off count d).1 ∧
      (splitLoop (logging cb) rest start off count (d, calls)).2.1 = (splitLoop cb rest start off count d).2 := by
  induction rest using List.twoStepInduction generalizing start off count d calls with
  | nil =>
    simp only [splitLoop, logging]
    split
    · exact ⟨rfl, rfl⟩
    · exact ⟨rfl, rfl⟩
  | singleton c =>
    simp only [splitLoop, logging]
    split
    · exact ⟨rfl, rfl⟩
    · split
      · exact ⟨rfl, rfl⟩
      · exact ⟨rfl, rfl⟩
  | cons_cons c next rest ih ih' =>
    by_cases hc : c = 13 ∨ c = 10
    · have hresult : ∀ s : σ × List (σ × Nat × Nat),
          (logging cb s start (off - start)).1 = (cb s.1 start (off - start)).1 := fun _ => rfl
      simp only [splitLoop, if_pos hc, hresult]
      by_cases hstop : (cb d start (off - start)).1 ≠ 0 ∨ lineCount (count + 1) = none
      · simp only [if_pos hstop]
        exact ⟨trivial, rfl⟩
      · simp only [if_neg hstop]
        by_cases hpair : c = 13 ∧ next = 10
        · simp only [if_pos hpair]
          exact ih
        · simp only [if_neg hpair]
          exact ih' next
    · simp only [splitLoop, if_neg hc]
      exact ih' next

end
end Nlutils
