import Nlutils.Escape.Buffer
import Nlutils.Escape.Removed
import Nlutils.Escape.RoundTrip

/-! # Unescaping in place

The loops of `nl_unescape_string` leave what unescaping a copy of the string gives, as long as the characters that are
removed can be counted in an `int`. -/

namespace Nlutils
open Lib

/-- The states that the two loops go through. -/
inductive InLoops (str : Bytes) (includeZero : Bool) (mode : UnescapeDequote) : Unescape → Prop
  | skip {dequote : Bool} {u v : Unescape} : unescapeStart str mode = some (dequote, u) →
    (rounds (Unescape.skipMore dequote) (Unescape.skipRound dequote) u).Reach Machine.anyStep v →
    InLoops str includeZero mode v
  | main {dequote : Bool} {u v w : Unescape} : unescapeStart str mode = some (dequote, u) →
    whileLoop (Unescape.skipMore dequote) (Unescape.skipRound dequote) u.buf.length u = some v →
    (rounds Unescape.more (Unescape.round includeZero dequote) v).Reach Machine.anyStep w →
    InLoops str includeZero mode w

/-- The string is unescaped as from a copy: what has not been read has not been written to, `write` is as far behind as
    characters have been removed, and the result says by how much the string has become shorter. -/
structure UnescapesInPlace (str : Bytes) (includeZero : Bool) (mode : UnescapeDequote) : Prop where
  unread : ∀ u, InLoops str includeZero mode u →
    u.read ≤ str.length ∧ u.buf.drop u.read = (str ++ [0]).drop u.read
  counted : ∀ u, InLoops str includeZero mode u → u.write + u.count = u.read
  result : ∃ (count : Nat) (rest : Bytes), nlUnescapeStringInPlace str includeZero mode =
      some ((count : Int), (nlUnescapeString str includeZero mode).1 ++ 0 :: rest) ∧ rest.length = count ∧
    (nlUnescapeString str includeZero mode).1.length + count = str.length

section
variable {str rest buf : Bytes} {c : Byte} {includeZero dequote : Bool} {mode : UnescapeDequote} {u : Unescape}
  {T : Bytes × Nat} {n : Nat}

/-! ### The loops -/

theorem Towards.length (H : Towards str includeZero dequote T u rest) : u.read + rest.length = str.length := by
  obtain ⟨out, gap, U, -⟩ := H
  obtain ⟨done, rfl, hdone⟩ := U.split
  rw [List.length_append, hdone]

theorem Towards.not_mem (H : Towards str includeZero dequote T u rest) (hz : 0 ∉ str) : 0 ∉ rest := by
  obtain ⟨out, gap, U, -⟩ := H
  obtain ⟨done, rfl, -⟩ := U.split
  exact fun h => hz (List.mem_append_right _ h)

/-- The first loop; without quotation marks it writes nothing, as `write` and `str` are the same. -/
def Skipping (str : Bytes) (includeZero dequote : Bool) (T : Bytes × Nat) (u : Unescape) : Prop :=
  (∃ rest, Towards str includeZero dequote T u rest) ∧ u.left = false ∧ (dequote = false → u.count = 0)

theorem Skipping.round (S : Skipping str includeZero dequote T u) (hmore : u.skipMore dequote = true) :
    ∃ u', u.skipRound dequote = some u' ∧ Skipping str includeZero dequote T u' ∧
      str.length - u'.read < str.length - u.read := by
  obtain ⟨⟨rest, H⟩, hl, h0⟩ := S
  have hc : u.buf[u.str]? = some (rest.at 0) := H.load hl (Nat.zero_le _)
  simp only [Unescape.skipMore, hc, Option.all_some, Bool.and_eq_true, bne_iff_ne, Bool.not_eq_true',
    Bool.and_eq_false_iff, beq_eq_false_iff_ne] at hmore
  obtain ⟨⟨hesc, hne⟩, hq⟩ := hmore
  obtain ⟨c, rest, rfl, hat⟩ := exists_cons_of_at hne
  rw [hat] at hc hesc hq
  have hloop : unescapeLoop includeZero dequote (c :: rest) =
      addBytes [c] 0 (unescapeLoop includeZero dequote rest) :=
    unescapeLoop_plain hesc (hq.symm.imp_right Or.inl)
  have hlen := H.length
  have hless : ∀ {u'}, Towards str includeZero dequote T u' rest → str.length - u'.read < str.length - u.read := by
    intro u' H'
    have hlen' := H'.length
    rw [List.length_cons] at hlen
    omega
  simp only [Unescape.skipRound, hc, Option.bind_eq_bind, Option.bind_some]
  cases dequote with
  | true =>
    obtain ⟨u', hu', H', hl'⟩ := H.copy hl hloop
    exact ⟨u', hu', ⟨⟨rest, H'⟩, hl', fun h => Bool.noConfusion h⟩, hless H'⟩
  | false =>
    obtain ⟨out, gap, U, hT⟩ := H
    have hnil : gap = [] := List.length_eq_zero_iff.mp (U.count ▸ h0 rfl)
    subst hnil
    have H' : Towards str includeZero false T { u with write := u.write + 1, str := u.str + 1 } rest := by
      refine ⟨out ++ [c], [], .of_left hl (by simp [U.buf]) (by simp [U.write]) ?_ U.count ?_, ?_⟩
      · simp [U.str_eq hl]
      · exact split_append (a := [c]) (read_of_left hl ▸ U.split)
      · rw [← hT, hloop, addBytes_addBytes]
        rfl
    exact ⟨_, rfl, ⟨⟨rest, H'⟩, hl, h0⟩, hless H'⟩

/-- The main loop. -/
theorem Towards.round_more (hz : 0 ∉ str) (hlt : T.2 < 2 ^ 31)
    (H : ∃ rest, Towards str includeZero dequote T u rest) (hmore : u.more = true) :
    ∃ u', u.round includeZero dequote = some u' ∧ (∃ rest, Towards str includeZero dequote T u' rest) ∧
      str.length - u'.read < str.length - u.read := by
  obtain ⟨rest, H⟩ := H
  simp only [Unescape.more, Bool.and_eq_true, Bool.not_eq_true'] at hmore
  obtain ⟨hl, hc⟩ := hmore
  have hload : u.buf[u.str]? = some (rest.at 0) := H.load hl (Nat.zero_le _)
  rw [hload, Option.all_some, bne_iff_ne] at hc
  have hne : rest ≠ [] := by
    rintro rfl
    exact hc rfl
  obtain ⟨u', rest', hu', H', hlen⟩ := H.round hl (H.not_mem hz) hne hlt
  have hlen₁ := H.length
  have hlen₂ := H'.length
  exact ⟨u', hu', ⟨rest', H'⟩, by omega⟩

/-- When the loop is over, the string has been read. -/
theorem Towards.done (hz : 0 ∉ str) (H : Towards str includeZero dequote T u rest) (hmore : u.more = false) :
    rest = [] := by
  cases hl : u.left with
  | true =>
    obtain ⟨out, gap, U, -⟩ := H
    exact U.left hl
  | false =>
    have hload : u.buf[u.str]? = some (rest.at 0) := H.load hl (Nat.zero_le _)
    simp only [Unescape.more, hl, hload, Option.all_some, Bool.not_false, Bool.true_and, bne_eq_false_iff_eq] at hmore
    cases rest with
    | nil => rfl
    | cons c rest =>
      obtain rfl : c = 0 := hmore
      exact absurd List.mem_cons_self (H.not_mem hz)

/-- What has not been read has not been written to. -/
theorem Towards.unread (H : Towards str includeZero dequote T u rest) :
    u.read ≤ str.length ∧ u.buf.drop u.read = (str ++ [0]).drop u.read ∧ u.write + u.count = u.read := by
  have hlen := H.length
  obtain ⟨out, gap, U, -⟩ := H
  obtain ⟨done, rfl, hdone⟩ := U.split
  refine ⟨by omega, ?_, by rw [U.write, U.count, U.read]⟩
  have hbuf : u.buf = out ++ gap ++ (rest ++ [0]) := by rw [U.buf, List.append_assoc]
  rw [hbuf, List.append_assoc done, List.drop_left' hdone]
  refine List.drop_left' ?_
  rw [List.length_append, U.read]

/-- Where the loops start. -/
theorem skipping_start (h : unescapeStart str mode = some (dequote, u)) :
    Skipping str includeZero dequote (nlUnescapeString str includeZero mode) u := by
  have hplain : nlUnescapeString str includeZero mode = unescapeLoop includeZero false str →
      Skipping str includeZero false (nlUnescapeString str includeZero mode) { buf := str ++ [0] } := by
    intro heq
    refine ⟨⟨str, [], [], .of_left rfl rfl rfl rfl rfl ⟨[], rfl, rfl⟩, ?_⟩, rfl, fun _ => rfl⟩
    rw [heq]
    simp [addBytes]
  unfold unescapeStart at h
  split at h
  · next hm =>
    obtain ⟨rfl, rfl⟩ := Prod.mk.inj (Option.some.inj h)
    exact hplain (by rw [nlUnescapeString, if_pos hm, unescapeFrom_eq])
  · next hm =>
    split at h
    · next hq =>
      obtain ⟨rfl, rfl⟩ := Prod.mk.inj (Option.some.inj h)
      obtain ⟨str, rfl⟩ := eq_cons_of_at hq (by decide)
      refine ⟨⟨str, [], [34], .of_left rfl rfl rfl rfl rfl ⟨[34], rfl, rfl⟩, ?_⟩, rfl, fun h => Bool.noConfusion h⟩
      rw [nlUnescapeString, if_neg hm, if_pos hq, unescapeFrom_eq]
      rfl
    · next hq =>
      split at h
      · cases h
      · next hif =>
        obtain ⟨rfl, rfl⟩ := Prod.mk.inj (Option.some.inj h)
        exact hplain (by rw [nlUnescapeString, if_neg hm, if_neg hq, if_neg hif, unescapeFrom_eq])

/-! ### The count -/

theorem addCount_lt {count n count' : Nat} (h : addCount count n = some count') : count' < 2 ^ 31 := by
  obtain ⟨hlt, hcount⟩ := Option.ite_none_right_eq_some.mp h
  exact Option.some.inj hcount ▸ hlt

theorem copy_count {u' : Unescape} (h : u.copy = some u') : u'.count = u.count := by
  obtain ⟨c, -, h⟩ := Option.bind_eq_some_iff.mp h
  obtain ⟨buf, -, h⟩ := Option.bind_eq_some_iff.mp h
  exact Option.some.inj h ▸ rfl

theorem replace_count {u' : Unescape} (h : u.replace c n = some u') : u'.count < 2 ^ 31 := by
  obtain ⟨count, hcount, h⟩ := Option.bind_eq_some_iff.mp h
  obtain ⟨buf, -, h⟩ := Option.bind_eq_some_iff.mp h
  exact Option.some.inj h ▸ addCount_lt hcount

theorem remove_count {u' : Unescape} (h : u.remove n = some u') : u'.count < 2 ^ 31 := by
  obtain ⟨count, hcount, h⟩ := Option.bind_eq_some_iff.mp h
  exact Option.some.inj h ▸ addCount_lt hcount

theorem hexEscape_count {u' : Unescape} (h : u.hexEscape includeZero c n = some u') : u'.count < 2 ^ 31 := by
  unfold Unescape.hexEscape at h
  split at h
  · exact replace_count h
  · exact remove_count h

theorem unknownEscape_count {u' : Unescape} (h : u.unknownEscape = some u') : u'.count = u.count := by
  obtain ⟨v, hv, h⟩ := Option.bind_eq_some_iff.mp h
  obtain ⟨w, hw, h⟩ := Option.bind_eq_some_iff.mp h
  obtain ⟨d, -, h⟩ := Option.bind_eq_some_iff.mp h
  have hcount := (copy_count hw).trans (copy_count hv)
  split at h
  · exact Option.some.inj h ▸ hcount
  · exact Option.some.inj h ▸ hcount

/-- The count stays that of an `int`. -/
theorem round_count {u' : Unescape} (hlt : u.count < 2 ^ 31) (h : u.round includeZero dequote = some u') :
    u'.count < 2 ^ 31 := by
  obtain ⟨c, -, h⟩ := Option.bind_eq_some_iff.mp h
  split at h
  · obtain ⟨d, -, h⟩ := Option.bind_eq_some_iff.mp h
    split at h
    · obtain ⟨e, -, h⟩ := Option.bind_eq_some_iff.mp h
      split at h
      · obtain ⟨l, -, h⟩ := Option.bind_eq_some_iff.mp h
        split at h
        · exact hexEscape_count h
        · exact hexEscape_count h
      · obtain ⟨v, hv, h⟩ := Option.bind_eq_some_iff.mp h
        rwa [copy_count h, copy_count hv]
    · split at h
      · rwa [unknownEscape_count h]
      · exact replace_count h
  · split at h
    · obtain ⟨d, -, h⟩ := Option.bind_eq_some_iff.mp h
      split at h
      · exact remove_count h
      · rwa [copy_count h]
    · rwa [copy_count h]

theorem skipRound_count {u' : Unescape} (hlt : u.count < 2 ^ 31) (h : u.skipRound dequote = some u') :
    u'.count < 2 ^ 31 := by
  obtain ⟨c, -, h⟩ := Option.bind_eq_some_iff.mp h
  split at h
  · rwa [copy_count h]
  · exact Option.some.inj h ▸ hlt

theorem start_count (h : unescapeStart str mode = some (dequote, u)) : u.count ≤ 1 := by
  unfold unescapeStart at h
  split at h
  · obtain ⟨-, rfl⟩ := Prod.mk.inj (Option.some.inj h)
    exact Nat.zero_le _
  · split at h
    · obtain ⟨-, rfl⟩ := Prod.mk.inj (Option.some.inj h)
      exact Nat.le_refl _
    · split at h
      · cases h
      · obtain ⟨-, rfl⟩ := Prod.mk.inj (Option.some.inj h)
        exact Nat.zero_le _

theorem result_lt {count : Nat} (h : nlUnescapeStringInPlace str includeZero mode = some ((count : Int), buf)) :
    count < 2 ^ 31 := by
  rw [nlUnescapeStringInPlace] at h
  cases hstart : unescapeStart str mode with
  | none =>
    rw [hstart] at h
    obtain ⟨hcount, -⟩ := Prod.mk.inj (Option.some.inj h)
    omega
  | some p =>
    obtain ⟨dequote, u⟩ := p
    rw [hstart] at h
    obtain ⟨v, hv, h⟩ := Option.bind_eq_some_iff.mp h
    obtain ⟨w, hw, h⟩ := Option.bind_eq_some_iff.mp h
    obtain ⟨buf', -, h⟩ := Option.bind_eq_some_iff.mp h
    have hu : u.count < 2 ^ 31 := Nat.lt_of_le_of_lt (start_count hstart) (by decide)
    have hvlt := whileLoop_invariant (fun u => u.count < 2 ^ 31) (fun _ _ h _ => skipRound_count h) hu hv
    have hwlt := whileLoop_invariant (fun u => u.count < 2 ^ 31) (fun _ _ h _ => round_count h) hvlt hw
    obtain ⟨hcount, -⟩ := Prod.mk.inj (Option.some.inj h)
    omega

/-! ### The result -/

theorem lt_of_unescapesInPlace (h : UnescapesInPlace str includeZero mode) :
    (nlUnescapeString str includeZero mode).2 < 2 ^ 31 := by
  obtain ⟨count, rest, hresult, -, hcount⟩ := h.result
  have hlt := result_lt hresult
  have hlen := length_nlUnescapeString str includeZero mode
  omega

theorem start_none (h : unescapeStart str mode = none) : nlUnescapeString str includeZero mode = (str, 0) := by
  unfold unescapeStart at h
  unfold nlUnescapeString
  split at h
  · cases h
  · next hm =>
    split at h
    · cases h
    · next hq =>
      split at h
      · next hif => rw [if_neg hm, if_neg hq, if_pos hif]
      · cases h

theorem Skipping.of_whileLoop {u' : Unescape} (S : Skipping str includeZero dequote T u)
    (h : whileLoop (Unescape.skipMore dequote) (Unescape.skipRound dequote) n u = some u') :
    Skipping str includeZero dequote T u' := by
  refine whileLoop_invariant (Skipping str includeZero dequote T) ?_ S h
  intro s t S hc hbody
  obtain ⟨t', ht', S', -⟩ := S.round hc
  obtain rfl := Option.some.inj (hbody.symm.trans ht')
  exact S'

/-- The loops are on their way in all their states. -/
theorem towards_of_inLoops (hz : 0 ∉ str) (hlt : (nlUnescapeString str includeZero mode).2 < 2 ^ 31)
    (h : InLoops str includeZero mode u) :
    ∃ dequote rest, Towards str includeZero dequote (nlUnescapeString str includeZero mode) u rest := by
  cases h with
  | @skip dequote u₀ _ hstart hreach =>
    have S : Skipping str includeZero dequote (nlUnescapeString str includeZero mode) u := by
      refine rounds_invariant (Skipping str includeZero dequote _) ?_ (skipping_start hstart) hreach
      intro s S hc
      obtain ⟨t, ht, S', -⟩ := S.round hc
      exact ⟨t, ht, S'⟩
    obtain ⟨rest, H⟩ := S.1
    exact ⟨dequote, rest, H⟩
  | @main dequote u₀ v _ hstart hv hreach =>
    have S : Skipping str includeZero dequote (nlUnescapeString str includeZero mode) v :=
      (skipping_start hstart).of_whileLoop hv
    refine ⟨dequote, ?_⟩
    refine rounds_invariant (fun u => ∃ rest, Towards str includeZero dequote _ u rest) ?_ S.1 hreach
    intro s H hc
    obtain ⟨t, ht, H', -⟩ := Towards.round_more hz hlt H hc
    exact ⟨t, ht, H'⟩

theorem Towards.length_buf (H : Towards str includeZero dequote T u rest) : u.buf.length = str.length + 1 := by
  have hlen := H.length
  obtain ⟨out, gap, U, -⟩ := H
  have hread := U.read
  rw [U.buf]
  simp only [List.length_append, List.length_singleton]
  omega

/-- What is in the buffer when the loops are over. -/
theorem Towards.result (H : Towards str includeZero dequote T u []) :
    ∃ rest, store u.buf u.write 0 = some (T.1 ++ 0 :: rest) ∧ rest.length = T.2 ∧ u.count = T.2 := by
  obtain ⟨out, gap, U, rfl⟩ := H
  have hbuf : u.buf = out ++ (gap ++ [0] ++ []) := by rw [U.buf]; simp
  refine ⟨(gap ++ [0]).tail, ?_, ?_, ?_⟩
  · rw [hbuf, U.write, store_append (by simp)]
    simp [unescapeLoop, addBytes]
  · simp [unescapeLoop, addBytes]
  · simp [unescapeLoop, addBytes, U.count]

/-- Where the number of removed characters is that of an `int`, the loops end with what unescaping a copy gives. -/
theorem unescapesInPlace (hz : 0 ∉ str) (hlt : (nlUnescapeString str includeZero mode).2 < 2 ^ 31) :
    UnescapesInPlace str includeZero mode := by
  constructor
  · intro u hu
    obtain ⟨dequote, rest, H⟩ := towards_of_inLoops hz hlt hu
    exact ⟨H.unread.1, H.unread.2.1⟩
  · intro u hu
    obtain ⟨dequote, rest, H⟩ := towards_of_inLoops hz hlt hu
    exact H.unread.2.2
  · cases hstart : unescapeStart str mode with
    | none =>
      refine ⟨0, [], ?_, rfl, ?_⟩
      · rw [nlUnescapeStringInPlace, hstart, start_none hstart]
        rfl
      · rw [start_none hstart]
        rfl
    | some p =>
      obtain ⟨dequote, u⟩ := p
      have hfuel : ∀ {v rest}, Towards str includeZero dequote (nlUnescapeString str includeZero mode) v rest →
          str.length - v.read ≤ v.buf.length := by
        intro v rest H
        have hbuf := H.length_buf
        omega
      have S : Skipping str includeZero dequote (nlUnescapeString str includeZero mode) u := skipping_start hstart
      obtain ⟨rest, H⟩ := S.1
      obtain ⟨v, hv, -, S'⟩ := whileLoop_spec (Skipping str includeZero dequote _)
        (fun u => str.length - u.read) (fun _ S hc => S.round hc) S (hfuel H)
      obtain ⟨rest', H'⟩ := S'.1
      obtain ⟨w, hw, hdone, restw, Hw⟩ := whileLoop_spec (fun u => ∃ rest, Towards str includeZero dequote _ u rest)
        (fun u => str.length - u.read) (fun _ H hc => Towards.round_more hz hlt H hc) S'.1 (hfuel H')
      obtain rfl := Hw.done hz hdone
      obtain ⟨tail, hstore, htail, hcount⟩ := Hw.result
      refine ⟨w.count, tail, ?_, htail.trans hcount.symm, ?_⟩
      · rw [nlUnescapeStringInPlace, hstart]
        simp only [Option.bind_eq_bind, hv, hw, hstore, Option.bind_some]
      · rw [hcount, length_nlUnescapeString]

end

/-- A string is unescaped as from a copy if and only if the characters that are removed can be counted. -/
theorem unescapesInPlace_iff (str : Bytes) (includeZero : Bool) (mode : UnescapeDequote) (hz : 0 ∉ str) :
    UnescapesInPlace str includeZero mode ↔ removedChars str includeZero mode < 2 ^ 31 := by
  rw [← nlUnescapeString_removed]
  exact ⟨lt_of_unescapesInPlace, unescapesInPlace hz⟩

/-- A truncated escape at the end of a string in quotation marks. -/
theorem unescapesInPlace_iff_truncated : UnescapesInPlace [34, 92, 110, 92, 120] false .dequote ↔
    removedChars [34, 92, 110, 92, 120] false .dequote < 2 ^ 31 :=
  unescapesInPlace_iff [34, 92, 110, 92, 120] false .dequote (by simp)

/-- A string of 2^31 escaped tabs. -/
theorem not_unescapesInPlace_tabs : ¬∀ str includeZero mode, 0 ∉ str → UnescapesInPlace str includeZero mode := by
  intro h
  have hz : 0 ∉ escaped (List.replicate (2 ^ 31) 9) := by
    intro hmem
    obtain ⟨c, hc, hzero⟩ := List.mem_flatMap.mp hmem
    rw [List.eq_of_mem_replicate hc] at hzero
    have htab : escapeByte 9 = [92, 116] := rfl
    simp [htab] at hzero
  have hlt := lt_of_unescapesInPlace (h _ true .noDequote hz)
  rw [unescape_escaped (Or.inl rfl), nlCountEscapes_tabs] at hlt
  omega

end Nlutils
