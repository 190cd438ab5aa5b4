import Nlutils.Str.Hex

/-! # Keeping only hex digits (`nl_keep_only_hex` of `str.c`)

The digits move down over what is between them, in the buffer that they are read from. Digits in either case with
anything between them become what `nl_to_hex` writes. -/

namespace Nlutils

/-- `mem[i] = c` -/
def storeByte (mem : Bytes) (i : Nat) (c : Byte) : Option Bytes := if i < mem.length then some (mem.set i c) else none

/-- The loop of `nl_keep_only_hex` and what follows it, with the memory and the positions of `str` and `dest`. There is
    no result where memory is used that is not there. -/
def keepHexLoop : Nat → Bytes → Nat → Nat → Option Bytes
  | 0, _, _, _ => none
  | n + 1, mem, str, dest =>
    mem[str]?.bind fun c =>
      if c ≠ 0 then
        if isxdigit c then (storeByte mem dest (tolower c)).bind fun mem => keepHexLoop n mem (str + 1) (dest + 1)
        else keepHexLoop n mem (str + 1) dest
      else storeByte mem dest 0

/-- The memory from the start of the string on. -/
def nlKeepOnlyHex (mem : Bytes) : Option Bytes := keepHexLoop mem.length mem 0 0

/-- The hex digits of a string, in lower case. -/
def keptHex (s : Bytes) : Bytes := (s.filter isxdigit).map tolower

section
variable {c : Byte} {s rest tail mem d buf : Bytes} {n str dest : Nat}

/-! ### The loop -/

theorem get_of_drop (h : mem.drop str = c :: rest) :
    mem[str]? = some c ∧ mem.drop (str + 1) = rest ∧ str < mem.length := by
  have hlt : str < mem.length := by
    by_contra hle
    rw [List.drop_eq_nil_of_le (Nat.le_of_not_lt hle)] at h
    cases h
  rw [List.drop_eq_getElem_cons hlt] at h
  obtain ⟨hc, hrest⟩ := List.cons.inj h
  exact ⟨List.getElem?_eq_some_iff.mpr ⟨hlt, hc⟩, hrest, hlt⟩

theorem storeByte_eq (h : dest < mem.length) (c : Byte) :
    storeByte mem dest c = some (mem.take dest ++ c :: mem.drop (dest + 1)) := by
  rw [storeByte, if_pos h, List.set_eq_take_append_cons_drop, if_pos h]

/-- What is behind a byte that is stored. -/
theorem drop_stored {k : Nat} (h : dest < mem.length) (hk : dest < k) :
    (mem.take dest ++ c :: mem.drop (dest + 1)).drop k = mem.drop k := by
  have hset : mem.take dest ++ c :: mem.drop (dest + 1) = mem.set dest c := by
    rw [List.set_eq_take_append_cons_drop, if_pos h]
  rw [hset, List.drop_set_of_lt hk]

theorem keptHex_digit (h : isxdigit c = true) : keptHex (c :: s) = tolower c :: keptHex s := by
  rw [keptHex, List.filter_cons_of_pos h]
  rfl

theorem keptHex_other (h : ¬isxdigit c = true) : keptHex (c :: s) = keptHex s := by
  rw [keptHex, List.filter_cons_of_neg h]
  rfl

/-- The string from `str` on is kept from `dest` on, and what is behind its end there stays. -/
theorem keepHexLoop_eq (hle : dest ≤ str) (hmem : mem.drop str = rest ++ 0 :: tail) (h0 : 0 ∉ rest)
    (hn : rest.length < n) : keepHexLoop n mem str dest =
      some (mem.take dest ++ (keptHex rest ++ 0 :: mem.drop (dest + (keptHex rest).length + 1))) := by
  induction n generalizing rest mem str dest with
  | zero => cases hn
  | succ n ih =>
    cases rest with
    | nil =>
      obtain ⟨hget, -, hlt⟩ := get_of_drop hmem
      have hzero : ¬(0 : Byte) ≠ 0 := fun h => h rfl
      rw [keepHexLoop, hget, Option.bind_some, if_neg hzero, storeByte_eq (Nat.lt_of_le_of_lt hle hlt)]
      rfl
    | cons c rest =>
      have hmem' : mem.drop str = c :: (rest ++ 0 :: tail) := hmem
      obtain ⟨hget, hdrop, hlt⟩ := get_of_drop hmem'
      have hc : c ≠ 0 := fun hc => h0 (hc ▸ List.mem_cons_self)
      have h0 : 0 ∉ rest := fun h => h0 (List.mem_cons_of_mem _ h)
      have hdest : dest < mem.length := Nat.lt_of_le_of_lt hle hlt
      have hfuel : rest.length < n := Nat.lt_of_succ_lt_succ hn
      rw [keepHexLoop, hget, Option.bind_some, if_pos hc]
      by_cases hx : isxdigit c = true
      · have hdrop' : (mem.take dest ++ tolower c :: mem.drop (dest + 1)).drop (str + 1) = rest ++ 0 :: tail := by
          rw [drop_stored hdest (Nat.lt_succ_of_le hle), hdrop]
        have htake : (mem.take dest ++ tolower c :: mem.drop (dest + 1)).take (dest + 1) =
            mem.take dest ++ [tolower c] := by
          have hlen : (mem.take dest ++ [tolower c]).length = dest + 1 := by
            rw [List.length_append, List.length_take, List.length_singleton]
            omega
          rw [List.append_cons, List.take_left' hlen]
        have hend : dest + 1 + (keptHex rest).length + 1 = dest + (keptHex (c :: rest)).length + 1 := by
          rw [keptHex_digit hx, List.length_cons]
          omega
        rw [if_pos hx, storeByte_eq hdest, Option.bind_some, ih (Nat.succ_le_succ hle) hdrop' h0 hfuel, htake, hend,
          drop_stored hdest (by omega), keptHex_digit hx, List.append_assoc]
        rfl
      · rw [if_neg hx, ih (Nat.le_succ_of_le hle) hdrop h0 hfuel, keptHex_other hx]

theorem nlKeepOnlyHex_eq (h0 : 0 ∉ s) : nlKeepOnlyHex (s ++ 0 :: tail) =
    some (keptHex s ++ 0 :: (s ++ 0 :: tail).drop ((keptHex s).length + 1)) := by
  have hfuel : s.length < (s ++ 0 :: tail).length := by
    rw [List.length_append, List.length_cons]
    omega
  rw [nlKeepOnlyHex, keepHexLoop_eq (Nat.le_refl 0) rfl h0 hfuel, List.take_zero, List.nil_append, Nat.zero_add]

/-! ### What is kept -/

theorem tolower_digit (hc : isxdigit c = true) : isxdigit (tolower c) = true ∧ tolower (tolower c) = tolower c := by
  obtain ⟨hlt, hlower⟩ := hexDigits_digitVal hc
  rw [← hlower]
  have hall : ∀ n, n < 16 → isxdigit (hexDigits.getD n 0) = true ∧
      tolower (hexDigits.getD n 0) = hexDigits.getD n 0 := by decide
  exact hall _ hlt

/-- Digits in lower case. -/
theorem mem_keptHex (hc : c ∈ keptHex s) : isxdigit c = true ∧ tolower c = c := by
  obtain ⟨d, hd, rfl⟩ := List.mem_map.mp hc
  exact tolower_digit (List.mem_filter.mp hd).2

theorem zero_notMem_keptHex : 0 ∉ keptHex s := by
  intro h0
  cases (mem_keptHex h0).1

theorem keptHex_keptHex (s : Bytes) : keptHex (keptHex s) = keptHex s := by
  have hfilter : (keptHex s).filter isxdigit = keptHex s := List.filter_eq_self.mpr fun c hc => (mem_keptHex hc).1
  have hlower : (keptHex s).map tolower = (keptHex s).map id := List.map_congr_left fun c hc => (mem_keptHex hc).2
  rw [keptHex, hfilter, hlower, List.map_id]

/-- Digits are decoded in pairs, but for a last one alone. -/
theorem fromHex_keptHex (s buf : Bytes) (hbuf : (keptHex s).length / 2 ≤ buf.length) : ∃ stored,
    nlFromHex (some (keptHex s)) (some buf) = some ((stored.length : Int), some (stored ++ buf.drop stored.length)) ∧
      nlToHex stored = (keptHex s).take (2 * ((keptHex s).length / 2)) := by
  obtain ⟨stored, p, rest, hsplit, hlen, -, hrest, hhex, hloop⟩ := fromHexLoop_spec (keptHex s)
  have hone : rest.length ≤ 1 := by
    by_contra hlong
    obtain ⟨x, y, more, rfl⟩ : ∃ x y more, rest = x :: y :: more := by
      match rest with
      | [] => simp at hlong
      | [x] => simp at hlong
      | x :: y :: more => exact ⟨x, y, more, rfl⟩
    have hdigit : ∀ c ∈ x :: y :: more, isxdigit c = true := fun c hc =>
      (mem_keptHex (hsplit ▸ List.mem_append_right p hc)).1
    exact hrest ⟨x, y, more, rfl, hdigit x (by simp), hdigit y (by simp)⟩
  have htotal : (keptHex s).length = 2 * stored.length + rest.length := by
    rw [hsplit, List.length_append, hlen]
  have hhalf : (keptHex s).length / 2 = stored.length := by omega
  have hlower : p.map tolower = p.map id := List.map_congr_left fun c hc =>
    (mem_keptHex (hsplit ▸ List.mem_append_left rest hc)).2
  refine ⟨stored, ?_, ?_⟩
  · rw [nlFromHex, hloop buf (hhalf ▸ hbuf)]
    rfl
  · rw [hhex, hlower, List.map_id, hhalf, ← hlen, hsplit, List.take_left]

theorem fromHex_toHex (hd : d.length ≤ buf.length) :
    nlFromHex (some (nlToHex d)) (some buf) = some ((d.length : Int), some (d ++ buf.drop d.length)) := by
  have hnil : ¬StartsHex [] := by
    rintro ⟨x, y, rest, h, -⟩
    cases h
  have hloop := fromHexLoop_toHex hnil hd
  rw [List.append_nil] at hloop
  rw [nlFromHex, hloop]
  rfl

end

/-- The string becomes its hex digits in lower case, what is in memory behind them stays, and doing it again changes
    nothing. From the digits of some data, in any case and with anything between them, the data is decoded; and any
    digits are those of what is decoded from them, but for an odd one. -/
theorem keepOnlyHex_roundTrip (s tail : Bytes) (h0 : 0 ∉ s) : ∃ mem,
    nlKeepOnlyHex (s ++ 0 :: tail) = some (keptHex s ++ 0 :: mem) ∧
      mem = (s ++ 0 :: tail).drop ((keptHex s).length + 1) ∧
      nlKeepOnlyHex (keptHex s ++ 0 :: mem) = some (keptHex s ++ 0 :: mem) ∧
      (∀ d buf, keptHex s = nlToHex d → d.length ≤ buf.length →
        nlFromHex (some (keptHex s)) (some buf) = some ((d.length : Int), some (d ++ buf.drop d.length))) ∧
      ∀ buf, (keptHex s).length / 2 ≤ buf.length → ∃ stored,
        nlFromHex (some (keptHex s)) (some buf) =
            some ((stored.length : Int), some (stored ++ buf.drop stored.length)) ∧
          nlToHex stored = (keptHex s).take (2 * ((keptHex s).length / 2)) := by
  refine ⟨_, nlKeepOnlyHex_eq h0, rfl, ?_, ?_, fun buf hbuf => fromHex_keptHex s buf hbuf⟩
  · have hagain : (keptHex s ++ 0 :: (s ++ 0 :: tail).drop ((keptHex s).length + 1)).drop ((keptHex s).length + 1) =
        (s ++ 0 :: tail).drop ((keptHex s).length + 1) := by
      rw [List.append_cons, List.drop_left' (by simp)]
    rw [nlKeepOnlyHex_eq zero_notMem_keptHex, keptHex_keptHex, hagain]
  · intro d buf hd hbuf
    rw [hd]
    exact fromHex_toHex hbuf

/-- An address with colons and letters in both cases. -/
theorem keepOnlyHex_roundTrip_colons : ∃ mem,
    nlKeepOnlyHex (bytes "0A:fF:7" ++ 0 :: [9]) = some (keptHex (bytes "0A:fF:7") ++ 0 :: mem) ∧
      mem = (bytes "0A:fF:7" ++ 0 :: [9]).drop ((keptHex (bytes "0A:fF:7")).length + 1) ∧
      nlKeepOnlyHex (keptHex (bytes "0A:fF:7") ++ 0 :: mem) = some (keptHex (bytes "0A:fF:7") ++ 0 :: mem) ∧
      (∀ d buf, keptHex (bytes "0A:fF:7") = nlToHex d → d.length ≤ buf.length →
        nlFromHex (some (keptHex (bytes "0A:fF:7"))) (some buf) =
          some ((d.length : Int), some (d ++ buf.drop d.length))) ∧
      ∀ buf, (keptHex (bytes "0A:fF:7")).length / 2 ≤ buf.length → ∃ stored,
        nlFromHex (some (keptHex (bytes "0A:fF:7"))) (some buf) =
            some ((stored.length : Int), some (stored ++ buf.drop stored.length)) ∧
          nlToHex stored = (keptHex (bytes "0A:fF:7")).take (2 * ((keptHex (bytes "0A:fF:7")).length / 2)) :=
  keepOnlyHex_roundTrip (bytes "0A:fF:7") [9] (by decide)

end Nlutils
