import Nlutils.Strtol
import Nlutils.UrlReq.Form

/-! # Form parameters that curl takes literally

In an encoded parameter nothing is left that has a meaning to curl. The parameters of a multipart form are not
encoded, so that curl may take a value for something else than data. -/

namespace Nlutils.UrlReq

/-- What comes after the first `=`. -/
def formContent (param : Bytes) : Bytes := (param.dropWhile (· != 61)).tail

/-- A text that curl does not take for the name of a file. -/
def NoFile (content : Bytes) : Prop := content.head? ≠ some 64 ∧ content.head? ≠ some 60

/-- A parameter that curl takes for the data that it is. -/
def IsLiteral (formType : Int) (param : Bytes) : Prop :=
  if formType = nlMultipart then NoFile (formContent param) ∧ ¬bytes ";type=" <:+: formContent param
  else param.head? ≠ some 64

/-- The line sets the option for the form type to a literal parameter. -/
def TakenLiterally (formType : Int) (line : Bytes) : Prop :=
  ∃ param, CurlLine (formOptions formType).formopt [param] line ∧ IsLiteral formType param

/-- A pair of a multipart form in which nothing has a meaning to curl: of a key with a `=` in it, what comes after that
    belongs to the content already. -/
def IsPlainPair (key value : Bytes) : Prop :=
  ¬bytes ";type=" <:+: value ∧
    if 61 ∈ key then NoFile (formContent key ++ [61]) ∧ ¬bytes ";type=" <:+: formContent key ++ [61]
    else NoFile value

/-- A pattern whose last character is nowhere else in it does not lie across that character. -/
theorem infix_across {x : Byte} {pat a b : Bytes} (hx : x ∉ pat) :
    pat ++ [x] <:+: a ++ [x] ++ b ↔ pat ++ [x] <:+: a ++ [x] ∨ pat ++ [x] <:+: b := by
  constructor
  · intro h
    rcases List.infix_append_iff.mp h with h | h | ⟨l₁, l₂, heq, ⟨u, hu⟩, hl₂⟩
    · exact Or.inl h
    · exact Or.inr h
    · rcases List.eq_nil_or_concat' l₁ with rfl | ⟨l, y, rfl⟩
      · exact Or.inr (heq ▸ hl₂.isInfix)
      · rw [← List.append_assoc] at hu
        obtain rfl : y = x := List.singleton_inj.mp (List.append_inj_right' hu rfl)
        rw [List.append_assoc, List.singleton_append] at heq
        obtain ⟨rfl, -, rfl⟩ := (List.append_cons_inj_of_notMem hx List.not_mem_nil).mp heq
        refine Or.inl ⟨u, [], ?_⟩
        rw [List.append_nil, ← List.append_assoc, hu]
  · rintro (h | h)
    · exact List.infix_append_of_infix_left h
    · exact List.infix_append_of_infix_right h

section
variable {env : OptionEnv} {k v : CStr} {st st' : FormState} {formType : Int} {key value param line : Bytes}
  {c d : Byte} {pat text : Bytes}

theorem readBack_eq_iff (hc : c ≠ 12) (hc' : c ≠ 102) : readBack d = c ↔ d = c := by
  unfold readBack
  split
  · next h => exact iff_of_false hc'.symm fun hd => hc (hd ▸ h)
  · rfl

/-- Curl's reading does not bring a pattern without form feed and `f` in, nor take it away. -/
theorem infix_readBack (hpat : ∀ c ∈ pat, c ≠ 12 ∧ c ≠ 102) : pat <:+: text.map readBack ↔ pat <:+: text := by
  rw [List.infix_map_iff]
  have hsame : ∀ {l : Bytes}, pat = l.map readBack → pat = l := by
    intro l hl
    have hid : l.map readBack = l.map id := by
      refine List.map_congr_left ?_
      intro c hc
      have hmem : readBack c ∈ pat := hl ▸ List.mem_map_of_mem hc
      obtain ⟨h12, h102⟩ := hpat _ hmem
      exact ((readBack_eq_iff h12 h102).mp rfl).symm
    rw [hl, hid, List.map_id]
  constructor
  · rintro ⟨l, hl, heq⟩
    exact hsame heq ▸ hl
  · intro h
    refine ⟨pat, h, ?_⟩
    have hid : pat.map readBack = pat.map id :=
      List.map_congr_left fun c hc => (readBack_eq_iff (hpat c hc).1 (hpat c hc).2).mpr rfl
    rw [hid, List.map_id]

theorem head?_readBack (hc : c ≠ 12) (hc' : c ≠ 102) : (text.map readBack).head? = some c ↔ text.head? = some c := by
  cases text with
  | nil => simp
  | cons d text => simp [readBack_eq_iff hc hc']

theorem noFile_readBack : NoFile (text.map readBack) ↔ NoFile text := by
  have hat : (text.map readBack).head? = some 64 ↔ text.head? = some 64 := head?_readBack (by decide) (by decide)
  have hlt : (text.map readBack).head? = some 60 ↔ text.head? = some 60 := head?_readBack (by decide) (by decide)
  rw [NoFile, NoFile, ne_eq, ne_eq, hat, hlt]

theorem formContent_readBack : formContent (text.map readBack) = (formContent text).map readBack := by
  have hstop : (fun c => c != 61) ∘ readBack = fun c : Byte => c != 61 := by
    funext c
    have h : readBack c = 61 ↔ c = 61 := readBack_eq_iff (by decide) (by decide)
    exact Bool.eq_iff_iff.mpr (by simpa using not_congr h)
  rw [formContent, formContent, List.dropWhile_map, hstop, List.map_tail]

/-- The content begins in the key if there is a `=` in it. -/
theorem formContent_append :
    formContent (key ++ 61 :: value) = if 61 ∈ key then formContent key ++ [61] ++ value else value := by
  have hstop : (key ++ 61 :: value).dropWhile (· != 61) = key.dropWhile (· != 61) ++ 61 :: value :=
    (span_stop rfl).2
  rw [formContent, hstop]
  split
  · next hmem =>
    have hne : key.dropWhile (· != 61) ≠ [] := by
      rw [ne_eq, List.dropWhile_eq_nil_iff]
      intro h
      exact absurd (h 61 hmem) (by decide)
    rw [List.tail_append_of_ne_nil hne, formContent, List.append_assoc]
    rfl
  · next hmem =>
    have hnil : key.dropWhile (· != 61) = [] := by
      rw [List.dropWhile_eq_nil_iff]
      intro c hc
      simp only [bne_iff_ne, ne_eq]
      rintro rfl
      exact hmem hc
    rw [hnil]
    rfl

theorem noFile_append : NoFile (text ++ [61] ++ value) ↔ NoFile (text ++ [61]) := by
  cases text <;> rfl

/-- A raw parameter is literal if its pair is plain. -/
theorem isLiteral_raw : IsLiteral nlMultipart (formParam nlMultipart (key, value)) ↔ IsPlainPair key value := by
  have hequals : bytes "=" = [61].map readBack := by decide
  have htype : bytes ";type=" = [59, 116, 121, 112, 101] ++ [61] := by decide
  have hparam : formParam nlMultipart (key, value) = (key ++ 61 :: value).map readBack := by
    rw [formParam, if_pos rfl, hequals]
    simp
  have hpat : ∀ c ∈ bytes ";type=", c ≠ 12 ∧ c ≠ 102 := by
    rw [htype]
    simp
  rw [IsLiteral, if_pos rfl, hparam, formContent_readBack, noFile_readBack, infix_readBack hpat, formContent_append,
    IsPlainPair]
  split
  · rw [noFile_append, htype, infix_across (by simp), not_or, ← and_assoc, and_comm]
  · exact and_comm

/-- An encoded parameter is always literal. -/
theorem isLiteral_encoded (hm : formType ≠ nlMultipart) : IsLiteral formType (formParam formType (key, value)) := by
  have hat : ∀ str, (64 : Byte) ∉ nlUrlEncode str true false := fun str => not_mem_encode (by decide) (by decide)
  have hmem : (64 : Byte) ∉ formParam formType (key, value) := by
    rw [formParam, if_neg hm]
    simp [hat, bytes]
  rw [IsLiteral, if_neg hm]
  exact fun h => hmem (List.mem_of_mem_head? h)

/-- A line sets an option to one parameter. -/
theorem CurlLine.unique {p q : Bytes} (hp : CurlLine key [p] line) (hq : CurlLine key [q] line) : p = q := by
  obtain ⟨body, hbody, -, -, hread⟩ := hp
  obtain ⟨body', hbody', -, -, hread'⟩ := hq
  obtain rfl := List.append_cancel_left (List.append_cancel_right (hbody.symm.trans hbody'))
  simpa using hread.symm.trans hread'

end

/-- What a call of the callback writes is taken literally unless the pair goes to a multipart form and has something in
    it that has a meaning to curl. -/
theorem takenLiterally_iff (env : OptionEnv) (formType : Int) (key value : CStr) (st st' : FormState)
    (h : formHashCallback env (formOptions formType) key value st = some (0, st')) :
    ∃ line, st'.option.written = st.option.written ++ line ∧
      (TakenLiterally formType line ↔ (formType = nlMultipart → IsPlainPair key.text value.text)) := by
  rcases formHashCallback_spec h with ⟨hr, -⟩ | ⟨-, -, line, hw, hline⟩
  · exact absurd rfl hr
  refine ⟨line, hw, ?_⟩
  have hliteral : TakenLiterally formType line ↔ IsLiteral formType (formParam formType (key.text, value.text)) := by
    constructor
    · rintro ⟨param, hparam, hlit⟩
      exact hparam.unique hline ▸ hlit
    · exact fun hlit => ⟨_, hline, hlit⟩
  rw [hliteral]
  by_cases hm : formType = nlMultipart
  · subst hm
    rw [isLiteral_raw]
    exact ⟨fun h _ => h, fun h => h rfl⟩
  · exact iff_of_true (isLiteral_encoded hm) fun h => absurd h hm

/-- A multipart form with the pair `f` and `x`. -/
theorem takenLiterally_iff_plain :
    ∃ st', formHashCallback ⟨fun _ => true, fun n => [4, 2, 1, 1, 1, 2].getD n 0⟩ (formOptions nlMultipart)
        ⟨.hash 0, [102]⟩ ⟨.hash 1, [120]⟩ {} = some (0, st') ∧
      ∃ line, st'.option.written = [] ++ line ∧
        (TakenLiterally nlMultipart line ↔ (nlMultipart = nlMultipart → IsPlainPair [102] [120])) := by
  refine ⟨⟨⟨10, 6, [102, 111, 114, 109, 61, 34, 102, 61, 120, 34, 10]⟩, 3, [], []⟩, by decide, ?_⟩
  exact takenLiterally_iff ⟨fun _ => true, fun n => [4, 2, 1, 1, 1, 2].getD n 0⟩ nlMultipart ⟨.hash 0, [102]⟩
    ⟨.hash 1, [120]⟩ {} _ (by decide)

/-- A multipart form with the pair `f` and `@x`, which curl takes for the name of a file. -/
theorem not_takenLiterally_file :
    ∃ st', formHashCallback ⟨fun _ => true, fun n => [4, 2, 1, 1, 2, 2].getD n 0⟩ (formOptions nlMultipart)
        ⟨.hash 0, [102]⟩ ⟨.hash 1, [64, 120]⟩ {} = some (0, st') ∧
      ¬TakenLiterally nlMultipart st'.option.written := by
  refine ⟨⟨⟨10, 6, [102, 111, 114, 109, 61, 34, 102, 61, 64, 120, 34, 10]⟩, 3, [], []⟩, by decide, ?_⟩
  have hline : CurlLine (bytes "form") [[102, 61, 64, 120]]
      [102, 111, 114, 109, 61, 34, 102, 61, 64, 120, 34, 10] :=
    ⟨[102, 61, 64, 120], by decide, by decide, by decide, by decide⟩
  rintro ⟨param, hparam, hlit⟩
  obtain rfl := hparam.unique hline
  rw [IsLiteral, if_pos rfl] at hlit
  exact hlit.1.1 (by decide)

end Nlutils.UrlReq
