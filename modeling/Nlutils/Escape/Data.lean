import Nlutils.Escape.RoundTrip
import Nlutils.Lib.While

/-! # Escaping data

`nl_escape_data` writes from the end of the buffer to its start, over the data that it reads. The text that it leaves
comes back from `nl_unescape_string`, as long as the characters that it adds can be counted in an `int`. -/

namespace Nlutils
open Lib

/-- The value of a `char`, which is signed or not. -/
def charVal (signed : Bool) (c : Byte) : Int := if signed && c ≥ 128 then c.toNat - 256 else c.toNat

/-- What `nl_count_data_escapes` adds for one character. -/
def countDataEscape (signed : Bool) (c : Byte) : Nat :=
  if c ≠ 58 ∧ getEscape c ≠ 0 then 1
  else if charVal signed c < 0x20 ∨ charVal signed c > 0x7e ∨ c = escapeChar then 3
  else 0

/-- The characters that escaping adds to the data. -/
def dataEscapes (signed : Bool) (data : Bytes) : Nat := (data.map (countDataEscape signed)).sum

/-- The count in a `size_t`. -/
def nlCountDataEscapes (signed : Bool) (data : Bytes) : Nat := dataEscapes signed data % 2 ^ 64

def hexChar (d : Nat) : Byte := if d < 10 then (48 + d).toUInt8 else (87 + d).toUInt8

/-- What a round of the loop of `nl_escape_data` writes for one character. -/
def dataEscape (signed : Bool) (c : Byte) : Bytes :=
  if c ≠ 58 ∧ getEscape c ≠ 0 then [escapeChar, getEscape c]
  else if charVal signed c < 0x20 ∨ charVal signed c > 0x7e ∨ c = escapeChar then
    [92, 120, hexChar (c.toNat / 16), hexChar (c.toNat % 16)]
  else [c]

/-- Writes bytes to a buffer, if there is room for them from a place on. -/
def writeAt (buf : Bytes) (i : Int) (bs : Bytes) : Option Bytes :=
  if 0 ≤ i ∧ i + bs.length ≤ buf.length then
    some (buf.take i.toNat ++ bs ++ buf.drop (i.toNat + bs.length))
  else none

/-- The buffer, and the indices of the character to read and of the last one to write. -/
structure Fill where
  buf : Bytes
  src : Int
  dst : Int
  deriving DecidableEq, Repr

def Fill.more (f : Fill) : Bool := f.dst ≥ 0 && f.src ≥ 0

/-- What a round writes, and the index from which on it does. -/
def Fill.writes (signed : Bool) (f : Fill) : Option (Int × Bytes) :=
  f.buf[f.src.toNat]?.map fun c => (f.dst - (dataEscape signed c).length + 1, dataEscape signed c)

def Fill.round (signed : Bool) (f : Fill) : Option Fill := do
  let (i, bs) ← f.writes signed
  let buf ← writeAt f.buf i bs
  some ⟨buf, f.src - 1, f.dst - bs.length⟩

/-- A buffer, no larger than an object can be, and the size of the data at its start. -/
structure DataBuffer where
  buf : Bytes
  size : Nat
  size_le : size ≤ buf.length
  length_lt : buf.length < 2 ^ 63

def DataBuffer.data (b : DataBuffer) : Bytes := b.buf.take b.size

/-- The buffer after `realloc`, when it has to grow. -/
def grown (junk : Nat → Byte) (buf : Bytes) (size : Nat) : Bytes :=
  buf ++ (List.range (size - buf.length)).map junk

/-- The new size, in a `size_t`. -/
def DataBuffer.newSize (signed : Bool) (b : DataBuffer) (addNull : Bool) : Nat :=
  (b.size + (if addNull then 1 else 0) + nlCountDataEscapes signed b.data) % 2 ^ 64

/-- Where the loop of `nl_escape_data` starts. -/
def DataBuffer.fill (signed : Bool) (junk : Nat → Byte) (b : DataBuffer) (addNull : Bool) : Fill :=
  let newSize := b.newSize signed addNull
  let buf := grown junk b.buf newSize
  if addNull then ⟨buf.set (newSize - 1) 0, b.size - 1, newSize - 2⟩ else ⟨buf, b.size - 1, newSize - 1⟩

/-- The result, the buffer, `*data_size` and `*buf_size`, for parameters that are not NULL and sizes that are stored in
    different places. The further parameters are whether `char` is signed, whether `realloc` succeeds, and what is in
    the memory that it adds. There is no result where a write goes outside of the buffer. -/
def nlEscapeData (signed reallocOk : Bool) (junk : Nat → Byte) (b : DataBuffer) (addNull : Bool) :
    Option (Int × Bytes × Nat × Nat) :=
  let newSize := b.newSize signed addNull
  if newSize = b.size then some (0, b.buf, b.size, b.buf.length)
  else if newSize > b.buf.length ∧ !reallocOk then some (-1, b.buf, b.size, b.buf.length)
  else
    (whileLoop Fill.more (Fill.round signed) b.size (b.fill signed junk addNull)).map fun f =>
      (0, f.buf, newSize, max newSize b.buf.length)

/-- The states of the loop. -/
def filling (signed : Bool) (junk : Nat → Byte) (b : DataBuffer) : Machine Fill Unit :=
  rounds Fill.more (Fill.round signed) (b.fill signed junk true)

/-- Escaping data with a zero byte at its end works, and unescaping gives the data back. -/
structure EscapesDataBack (signed : Bool) (junk : Nat → Byte) (b : DataBuffer) : Prop where
  fill : ∀ f, (filling signed junk b).Reach Machine.anyStep f → f.more = true →
    ∃ i bs, f.writes signed = some (i, bs) ∧ f.src ≤ i ∧ i + bs.length ≤ f.buf.length
  result : ∃ buf bufSize text, nlEscapeData signed true junk b true =
      some (0, buf, b.size + nlCountDataEscapes signed b.data + 1, bufSize) ∧
    buf.take (b.size + nlCountDataEscapes signed b.data + 1) = text ++ [0] ∧
    (∀ c ∈ text, 0x20 ≤ c ∧ c ≤ 0x7e) ∧
    nlUnescapeStringInt text true .noDequote = some ((nlCountDataEscapes signed b.data : Int), b.data)

/-! ### Unescaping the text -/

section
variable {signed : Bool} {c : Byte} {rest d : Bytes}

theorem hexChar_spec {n : Nat} (hn : n < 16) : isxdigit (hexChar n) = true ∧ (hexDigit (hexChar n)).toNat = n ∧
    0x20 ≤ hexChar n ∧ hexChar n ≤ 0x7e := by
  have hall : ∀ n, n < 16 → isxdigit (hexChar n) = true ∧ (hexDigit (hexChar n)).toNat = n ∧
      0x20 ≤ hexChar n ∧ hexChar n ≤ 0x7e := by decide
  exact hall n hn

theorem hexDigits_toNat : hexDigit (hexChar (c.toNat / 16)) * 16 + hexDigit (hexChar (c.toNat % 16)) = c := by
  have hc := c.toNat_lt
  obtain ⟨-, hhi, -⟩ := hexChar_spec (n := c.toNat / 16) (by omega)
  obtain ⟨-, hlo, -⟩ := hexChar_spec (n := c.toNat % 16) (by omega)
  refine UInt8.toNat_inj.mp ?_
  rw [UInt8.toNat_add, UInt8.toNat_mul, hhi, hlo]
  simp only [UInt8.toNat_ofNat]
  omega

theorem unescapeLoop_hex {h l : Byte} {dequote : Bool} (hh : isxdigit h = true) (hl : isxdigit l = true) :
    unescapeLoop true dequote (92 :: 120 :: h :: l :: rest) =
      addBytes [hexDigit h * 16 + hexDigit l] 3 (unescapeLoop true dequote rest) := by
  have hhex := @unescapeLoop_hexEscape true dequote (h :: l :: rest)
  have hat : Bytes.at (h :: l :: rest) 0 = h ∧ Bytes.at (h :: l :: rest) 1 = l := ⟨rfl, rfl⟩
  rw [hat.1, hat.2, if_pos hh, if_pos hl, addHex, if_pos (Or.inr rfl)] at hhex
  exact hhex

/-- The characters that are left as they are. -/
theorem charVal_printable (h : ¬(charVal signed c < 0x20 ∨ charVal signed c > 0x7e ∨ c = escapeChar)) :
    0x20 ≤ c ∧ c ≤ 0x7e ∧ c ≠ escapeChar := by
  obtain ⟨hlo, hhi, hne⟩ : ¬charVal signed c < 0x20 ∧ ¬charVal signed c > 0x7e ∧ c ≠ escapeChar := by
    simpa only [not_or] using h
  have hc := c.toNat_lt
  have hval : charVal signed c = c.toNat ∨ charVal signed c = c.toNat - 256 := by
    unfold charVal
    split
    · exact Or.inr rfl
    · exact Or.inl rfl
  rw [UInt8.le_iff_toNat_le, UInt8.le_iff_toNat_le]
  simp only [UInt8.toNat_ofNat]
  exact ⟨by omega, by omega, hne⟩

/-- Counting and writing agree. -/
theorem length_dataEscape : (dataEscape signed c).length = countDataEscape signed c + 1 := by
  unfold dataEscape countDataEscape
  split
  · rfl
  · split <;> rfl

theorem dataEscape_printable : ∀ b ∈ dataEscape signed c, 0x20 ≤ b ∧ b ≤ 0x7e := by
  have hc := c.toNat_lt
  intro b hb
  unfold dataEscape at hb
  split at hb
  · next h =>
    have htable : ∀ p ∈ escChars, 0x20 ≤ p.2 ∧ p.2 ≤ 0x7e := by simp [escChars]
    rw [List.mem_cons, List.mem_singleton] at hb
    rcases hb with rfl | rfl
    · decide
    · exact htable _ (mem_escChars h.2)
  · split at hb
    · simp only [List.mem_cons, List.not_mem_nil, or_false] at hb
      rcases hb with rfl | rfl | rfl | rfl
      · decide
      · decide
      · exact (hexChar_spec (by omega)).2.2
      · exact (hexChar_spec (by omega)).2.2
    · next h =>
      obtain ⟨hlo, hhi, -⟩ := charVal_printable h
      rw [List.mem_singleton.mp hb]
      exact ⟨hlo, hhi⟩

theorem unescapeLoop_dataEscape : unescapeLoop true false (dataEscape signed c ++ rest) =
    addBytes [c] (countDataEscape signed c) (unescapeLoop true false rest) := by
  have hc := c.toNat_lt
  unfold dataEscape countDataEscape
  split
  · next h =>
    obtain ⟨ho, hz, hx, -⟩ := escChars_spec _ (mem_escChars h.2)
    have hread : unescapeLoop true false (escapeChar :: getEscape c :: rest) = _ :=
      unescapeLoop_escape hx (ho.symm ▸ hz)
    rw [ho] at hread
    exact hread
  · split
    · have hread : unescapeLoop true false
          (92 :: 120 :: hexChar (c.toNat / 16) :: hexChar (c.toNat % 16) :: rest) = _ :=
        unescapeLoop_hex (hexChar_spec (by omega)).1 (hexChar_spec (by omega)).1
      rw [hexDigits_toNat] at hread
      exact hread
    · next h => exact unescapeLoop_plain (charVal_printable h).2.2 (Or.inr (Or.inl rfl))

theorem unescape_data :
    nlUnescapeString (d.flatMap (dataEscape signed)) true .noDequote = (d, dataEscapes signed d) := by
  rw [nlUnescapeString, if_pos rfl, unescapeFrom_eq]
  induction d with
  | nil => rfl
  | cons c d ih =>
    rw [List.flatMap_cons, unescapeLoop_dataEscape, ih]
    rfl

theorem length_text : (d.flatMap (dataEscape signed)).length = d.length + dataEscapes signed d := by
  induction d with
  | nil => rfl
  | cons c d ih =>
    have hcons : dataEscapes signed (c :: d) = countDataEscape signed c + dataEscapes signed d := rfl
    rw [List.flatMap_cons, List.length_append, length_dataEscape, ih, List.length_cons, hcons]
    omega

end

/-! ### Filling the buffer -/

/-- What the data is before the place to read, room, and the text of the rest of the data, with more after it. -/
def Filling (signed : Bool) (d tail : Bytes) (w : Nat) (f : Fill) : Prop :=
  ∃ pre mid suf : Bytes, d = pre ++ suf ∧ f.buf = pre ++ mid ++ (suf.flatMap (dataEscape signed) ++ tail) ∧
    f.src = pre.length - 1 ∧ f.dst = pre.length + mid.length - 1 ∧ mid.length + dataEscapes signed suf = w

section
variable {signed : Bool} {junk : Nat → Byte} {d tail : Bytes} {w : Nat} {f : Fill} {b : DataBuffer}

theorem writeAt_append {x y z bs : Bytes} {i : Int} (hi : i = x.length) (hlen : bs.length = y.length) :
    writeAt (x ++ y ++ z) i bs = some (x ++ bs ++ z) := by
  subst hi
  have hfits : (0 : Int) ≤ x.length ∧ (x.length : Int) + bs.length ≤ (x ++ y ++ z).length := by
    simp only [List.length_append]
    omega
  have hdrop : (x ++ y ++ z).drop (x.length + bs.length) = z := by
    rw [hlen, ← List.length_append, List.drop_left]
  have htake : (x ++ y ++ z).take x.length = x := by
    rw [List.append_assoc, List.take_left]
  rw [writeAt, if_pos hfits, Int.toNat_natCast, hdrop, htake]

/-- The next character, and where its text goes. -/
theorem Filling.writes (F : Filling signed d tail w f) (hmore : f.more = true) : ∃ pre c mid suf,
    d = pre ++ c :: suf ∧ f.buf = pre ++ (c :: mid) ++ (suf.flatMap (dataEscape signed) ++ tail) ∧
      f.src = pre.length ∧ f.dst = pre.length + mid.length ∧ mid.length + dataEscapes signed suf = w ∧
      f.writes signed =
        some ((pre.length + mid.length : Int) - (dataEscape signed c).length + 1, dataEscape signed c) := by
  obtain ⟨buf, src, dst⟩ := f
  obtain ⟨pre, mid, suf, rfl, rfl, rfl, rfl, hw⟩ := F
  simp only [Fill.more, Bool.and_eq_true, decide_eq_true_eq] at hmore
  rcases List.eq_nil_or_concat pre with rfl | ⟨pre, c, hpre⟩
  · simp at hmore
  · rw [List.concat_eq_append] at hpre
    subst hpre
    have hsrc : (((pre ++ [c]).length : Int) - 1) = pre.length := by simp
    have hdst : ((pre ++ [c]).length : Int) + mid.length - 1 = pre.length + mid.length := by
      simp only [List.length_append, List.length_singleton]
      omega
    have hget (rest : Bytes) : (pre ++ [c] ++ mid ++ rest)[((pre.length : Int)).toNat]? = some c := by simp
    refine ⟨pre, c, mid, suf, by simp, by simp, hsrc, hdst, hw, ?_⟩
    simp only [Fill.writes, hsrc, hdst, hget]
    rfl

/-- A round writes the text of the next character. It keeps the data before that character when there is room for the
    text after the place to read. -/
theorem Filling.round (F : Filling signed d tail w f) (hmore : f.more = true) :
    ∃ i bs, f.writes signed = some (i, bs) ∧ (f.src ≤ i → i + bs.length ≤ f.buf.length ∧
      ∃ g, f.round signed = some g ∧ Filling signed d tail w g ∧ (g.src + 1).toNat < (f.src + 1).toNat) := by
  obtain ⟨pre, c, mid, suf, rfl, hbuf, hsrc, hdst, hw, hwrites⟩ := F.writes hmore
  have hlen : (dataEscape signed c).length = countDataEscape signed c + 1 := length_dataEscape
  generalize hbs : dataEscape signed c = bs at hwrites hlen
  refine ⟨_, _, hwrites, ?_⟩
  rw [hsrc]
  intro hle
  -- the room and the character itself are as long as the text to write, and some more
  obtain ⟨mid', past, hsplit, hpast⟩ : ∃ mid' past : Bytes, c :: mid = mid' ++ past ∧ bs.length = past.length := by
    have hk : bs.length ≤ (c :: mid).length := by
      rw [List.length_cons]
      omega
    refine ⟨(c :: mid).take ((c :: mid).length - bs.length), (c :: mid).drop ((c :: mid).length - bs.length),
      (List.take_append_drop _ _).symm, ?_⟩
    rw [List.length_drop]
    omega
  have hlength : 1 + mid.length = mid'.length + bs.length := by
    have h := congrArg List.length hsplit
    rw [List.length_cons, List.length_append, ← hpast] at h
    omega
  have hwrite : writeAt f.buf ((pre.length + mid.length : Int) - bs.length + 1) bs =
      some (pre ++ mid' ++ bs ++ (suf.flatMap (dataEscape signed) ++ tail)) := by
    rw [hbuf, hsplit, ← List.append_assoc pre]
    refine writeAt_append ?_ hpast
    rw [List.length_append]
    omega
  refine ⟨?_, ⟨pre ++ mid' ++ bs ++ (suf.flatMap (dataEscape signed) ++ tail), f.src - 1, f.dst - bs.length⟩,
    ?_, ?_, ?_⟩
  · have h := congrArg List.length hbuf
    simp only [List.length_append, List.length_cons] at h ⊢
    omega
  · rw [Fill.round, hwrites]
    exact congrArg (Option.bind · _) hwrite
  · refine ⟨pre, mid', c :: suf, rfl, by simp [hbs], ?_, ?_, ?_⟩
    · simp only [hsrc]
    · simp only [hdst]
      omega
    · have hcons : dataEscapes signed (c :: suf) = countDataEscape signed c + dataEscapes signed suf := rfl
      rw [hcons]
      omega
  · simp only [hsrc]
    omega

/-- When the loop ends, the data has been read. -/
theorem Filling.done (F : Filling signed d tail w f) (hdone : f.more = false) :
    ∃ mid : Bytes, f.buf = mid ++ (d.flatMap (dataEscape signed) ++ tail) ∧ mid.length + dataEscapes signed d = w := by
  obtain ⟨pre, mid, suf, rfl, hbuf, hsrc, hdst, hw⟩ := F
  have hpre : pre = [] := by
    rw [← List.length_eq_zero_iff]
    simp only [Fill.more, hsrc, hdst, Bool.and_eq_false_iff, decide_eq_false_iff_not] at hdone
    omega
  subst hpre
  exact ⟨mid, hbuf, hw⟩

theorem dataEscapes_append {d d' : Bytes} :
    dataEscapes signed (d ++ d') = dataEscapes signed d + dataEscapes signed d' := by
  simp [dataEscapes]

/-- With as much room as the text needs, the place to write does not pass the place to read. -/
theorem Filling.src_le (F : Filling signed d tail w f) (hw : w = dataEscapes signed d) {i : Int} {bs : Bytes}
    (hwrites : f.writes signed = some (i, bs)) (hmore : f.more = true) : f.src ≤ i := by
  obtain ⟨pre, c, mid, suf, rfl, -, hsrc, -, hroom, hnext⟩ := F.writes hmore
  rw [hwrites, Option.some.injEq, Prod.mk.injEq] at hnext
  have hcons : dataEscapes signed (c :: suf) = countDataEscape signed c + dataEscapes signed suf := rfl
  have hlen : (dataEscape signed c).length = countDataEscape signed c + 1 := length_dataEscape
  rw [dataEscapes_append, hcons] at hw
  rw [hsrc, hnext.1]
  omega

/-- The buffer at the start of the loop: the data, as much room as has been counted, and the zero byte. -/
theorem filling_fill (junk : Nat → Byte) (hcount : nlCountDataEscapes signed b.data < 2 ^ 31) :
    ∃ tail, Filling signed b.data (0 :: tail) (nlCountDataEscapes signed b.data) (b.fill signed junk true) ∧
      b.newSize signed true = b.size + nlCountDataEscapes signed b.data + 1 := by
  have hle := b.size_le
  have hlt := b.length_lt
  have hnew : b.newSize signed true = b.size + nlCountDataEscapes signed b.data + 1 := by
    simp only [DataBuffer.newSize, if_true]
    omega
  generalize hw : nlCountDataEscapes signed b.data = w at hcount hnew
  let buf := grown junk b.buf (b.size + w + 1)
  have hlen : b.size + w + 1 ≤ buf.length := by
    simp only [buf, grown, List.length_append, List.length_map, List.length_range]
    omega
  have hdata : buf.take b.size = b.data := List.take_append_of_le_length hle
  have hsize : b.data.length = b.size := List.length_take_of_le hle
  have hset : buf.set (b.size + w) 0 = b.data ++ (buf.drop b.size).take w ++ 0 :: buf.drop (b.size + w + 1) := by
    have hlt' : b.size + w < buf.length := hlen
    rw [List.set_eq_take_append_cons_drop, if_pos hlt', List.take_add, hdata]
  have hmid : ((buf.drop b.size).take w).length = w := by
    rw [List.length_take, List.length_drop]
    omega
  refine ⟨buf.drop (b.size + w + 1), ⟨b.data, (buf.drop b.size).take w, [], (List.append_nil _).symm, ?_, ?_, ?_, ?_⟩,
    hnew⟩
  · simp only [DataBuffer.fill, if_true, hnew, Nat.add_sub_cancel]
    exact hset
  · simp only [DataBuffer.fill, if_true, hsize]
  · simp only [DataBuffer.fill, if_true, hnew, hsize, hmid]
    omega
  · rw [hmid]
    rfl

/-- The loop ends, as long as its rounds write where it has read. -/
theorem fill_ends (hcount : nlCountDataEscapes signed b.data < 2 ^ 31)
    (hle : ∀ f i bs, (filling signed junk b).Reach Machine.anyStep f → f.more = true →
      f.writes signed = some (i, bs) → f.src ≤ i) :
    ∃ f mid tail, whileLoop Fill.more (Fill.round signed) b.size (b.fill signed junk true) = some f ∧
      f.buf = mid ++ (b.data.flatMap (dataEscape signed) ++ 0 :: tail) ∧
      mid.length + dataEscapes signed b.data = nlCountDataEscapes signed b.data := by
  obtain ⟨tail, hinit, -⟩ := filling_fill junk hcount
  let I f := Filling signed b.data (0 :: tail) (nlCountDataEscapes signed b.data) f ∧
    (filling signed junk b).Reach Machine.anyStep f
  have hround : ∀ f, I f → f.more = true →
      ∃ g, f.round signed = some g ∧ I g ∧ (g.src + 1).toNat < (f.src + 1).toNat := by
    rintro f ⟨F, hf⟩ hmore
    obtain ⟨i, bs, hwrites, hstep⟩ := F.round hmore
    obtain ⟨-, g, hg, G, hlt⟩ := hstep (hle f i bs hf hmore hwrites)
    exact ⟨g, hg, ⟨G, rounds_step hf hmore hg⟩, hlt⟩
  have hsize : ((b.fill signed junk true).src + 1).toNat ≤ b.size := by
    simp only [DataBuffer.fill, if_true]
    omega
  obtain ⟨f, hrun, hdone, F, -⟩ := whileLoop_spec I (fun f => (f.src + 1).toNat) hround ⟨hinit, .init⟩ hsize
  obtain ⟨mid, hbuf, hw⟩ := F.done hdone
  exact ⟨f, mid, tail, hrun, hbuf, hw⟩

theorem escapesDataBack (h : dataEscapes signed b.data < 2 ^ 31) : EscapesDataBack signed junk b := by
  have hcount : nlCountDataEscapes signed b.data = dataEscapes signed b.data := Nat.mod_eq_of_lt (by omega)
  have hlt : nlCountDataEscapes signed b.data < 2 ^ 31 := hcount ▸ h
  obtain ⟨tail, hinit, hnew⟩ := filling_fill junk hlt
  have hfilling : ∀ f, (filling signed junk b).Reach Machine.anyStep f →
      Filling signed b.data (0 :: tail) (nlCountDataEscapes signed b.data) f := by
    intro f hf
    refine rounds_invariant (Filling signed b.data (0 :: tail) _) ?_ hinit hf
    intro f F hmore
    obtain ⟨i, bs, hwrites, hstep⟩ := F.round hmore
    obtain ⟨-, g, hg, G, -⟩ := hstep (F.src_le hcount hwrites hmore)
    exact ⟨g, hg, G⟩
  have hle : ∀ f i bs, (filling signed junk b).Reach Machine.anyStep f → f.more = true →
      f.writes signed = some (i, bs) → f.src ≤ i :=
    fun f i bs hf hmore hwrites => (hfilling f hf).src_le hcount hwrites hmore
  constructor
  · intro f hf hmore
    obtain ⟨i, bs, hwrites, hstep⟩ := (hfilling f hf).round hmore
    have hi := hle f i bs hf hmore hwrites
    exact ⟨i, bs, hwrites, hi, (hstep hi).1⟩
  · obtain ⟨f, mid, tail, hrun, hbuf, hmid⟩ := fill_ends hlt hle
    have hnil : mid = [] := by
      rw [← List.length_eq_zero_iff]
      omega
    have hsize : b.data.length = b.size := List.length_take_of_le b.size_le
    have hne : b.size + nlCountDataEscapes signed b.data + 1 ≠ b.size := by omega
    refine ⟨f.buf, max (b.size + nlCountDataEscapes signed b.data + 1) b.buf.length,
      b.data.flatMap (dataEscape signed), ?_, ?_, ?_, ?_⟩
    · rw [nlEscapeData, hnew, if_neg hne, if_neg (by simp), hrun]
      rfl
    · have hlen : (b.data.flatMap (dataEscape signed) ++ [0]).length =
          b.size + nlCountDataEscapes signed b.data + 1 := by
        rw [List.length_append, length_text, hsize, hcount]
        rfl
      have hsplit : f.buf = b.data.flatMap (dataEscape signed) ++ [0] ++ tail := by
        rw [hbuf, hnil, List.append_assoc]
        rfl
      rw [hsplit, ← hlen, List.take_left]
    · intro c hc
      obtain ⟨d, -, hd⟩ := List.mem_flatMap.mp hc
      exact dataEscape_printable c hd
    · simp only [nlUnescapeStringInt, unescape_data, if_pos h, hcount]

theorem lt_of_escapesDataBack (E : EscapesDataBack signed junk b) : dataEscapes signed b.data < 2 ^ 31 := by
  obtain ⟨-, -, text, -, -, -, htext⟩ := E.result
  have hlt : nlCountDataEscapes signed b.data < 2 ^ 31 := by
    unfold nlUnescapeStringInt at htext
    simp only at htext
    split at htext
    · simp only [Option.some.injEq, Prod.mk.injEq] at htext
      omega
    · cases htext
  have hle : ∀ f i bs, (filling signed junk b).Reach Machine.anyStep f → f.more = true →
      f.writes signed = some (i, bs) → f.src ≤ i := by
    intro f i bs hf hmore hwrites
    obtain ⟨i', bs', hwrites', hi, -⟩ := E.fill f hf hmore
    rw [hwrites, Option.some.injEq, Prod.mk.injEq] at hwrites'
    exact hwrites'.1 ▸ hi
  obtain ⟨f, mid, tail, -, -, hmid⟩ := fill_ends hlt hle
  omega

end

/-- Data comes back if and only if the characters that escaping adds can be counted in an `int`. -/
theorem escapesDataBack_iff (signed : Bool) (junk : Nat → Byte) (b : DataBuffer) :
    EscapesDataBack signed junk b ↔ dataEscapes signed b.data < 2 ^ 31 :=
  ⟨lt_of_escapesDataBack, escapesDataBack⟩

/-- Unescaping removes 2^31 characters from the text of 2^31 line feeds. -/
theorem not_escapesDataBack_newlines : ¬∀ signed junk b, EscapesDataBack signed junk b := by
  intro hall
  let d : Bytes := List.replicate (2 ^ 31) 10
  let b : DataBuffer := ⟨d, d.length, Nat.le_refl _, by simp only [d, List.length_replicate]; omega⟩
  have hlt := lt_of_escapesDataBack (hall true (fun _ => 0) b)
  have hdata : b.data = d := List.take_length
  have hcount : dataEscapes true d = 2 ^ 31 := by
    have hnewline : countDataEscape true 10 = 1 := by decide
    simp only [dataEscapes, d, List.map_replicate, List.sum_replicate_nat, hnewline, Nat.mul_one]
  rw [hdata, hcount] at hlt
  exact Nat.lt_irrefl _ hlt

end Nlutils
