import Mathlib.Tactic.IntervalCases
import Mathlib.Tactic.NormNum.Basic
import Nlutils.Sha1.Streaming

/-! # The digest

`nl_sha1_final` pads the message one byte at a time until the length field fits, and wipes the context. -/

namespace Nlutils
open Sha1

/-- A context with nothing in it. -/
def wipedCtx : NlSha1Ctx := ⟨⟨0, 0, 0, 0, 0⟩, (0, 0), Vector.replicate 64 0⟩

section
variable {context : NlSha1Ctx} {message : Bytes} {field : Nat}

/-! ### Bytes of words -/

theorem byte_of_word (x : UInt32) {k : Nat} (hk : k < 4) :
    (x >>> (k * 8).toUInt32 &&& 255).toUInt8 = (x.toNat / 256 ^ k).toUInt8 := by
  have hx := x.toNat_lt
  have h255 : (255 : UInt32).toNat = 2 ^ 8 - 1 := rfl
  have hshift : (k * 8).toUInt32.toNat % 32 = 8 * k := by
    show k * 8 % 2 ^ 32 % 32 = 8 * k
    omega
  apply UInt8.toNat_inj.mp
  rw [UInt32.toNat_toUInt8, UInt32.toNat_and, h255, Nat.and_two_pow_sub_one_eq_mod, UInt32.toNat_shiftRight, hshift,
    Nat.shiftRight_eq_div_pow, Nat.pow_mul]
  exact Nat.mod_mod _ _

theorem bigEndianBytes_eq_map (n x : Nat) :
    bigEndianBytes n x = (List.range n).map fun i => (x / 256 ^ (n - 1 - i)).toUInt8 := by
  induction n generalizing x with
  | zero => rfl
  | succ n ih =>
    have hmap : ((List.range n).map fun i => (x / 256 ^ (n + 1 - 1 - i)).toUInt8) = bigEndianBytes n (x / 256) := by
      rw [ih]
      apply List.map_congr_left
      intro i hi
      have hpow : n + 1 - 1 - i = 1 + (n - 1 - i) := by
        rw [List.mem_range] at hi
        omega
      rw [hpow, Nat.pow_add, Nat.pow_one, Nat.div_div_eq_div_mul]
    rw [bigEndianBytes, List.range_succ, List.map_append, hmap, List.map_singleton, Nat.add_sub_cancel, Nat.sub_self,
      Nat.pow_zero, Nat.div_one]

/-- The bytes of the length field. -/
theorem finalcount_eq {count : UInt32 × UInt32} (h : count.1.toNat + 2 ^ 32 * count.2.toNat = field % 2 ^ 64) :
    finalcount count = bigEndianBytes 8 field := by
  have hc0 := count.1.toNat_lt
  have hc1 := count.2.toNat_lt
  rw [bigEndianBytes_eq_map, finalcount]
  apply List.map_congr_left
  intro i hi
  rw [List.mem_range] at hi
  have hand : i &&& 3 = i % 4 := Nat.and_two_pow_sub_one_eq_mod i 2
  rw [hand, byte_of_word _ (by omega)]
  apply UInt8.toNat_inj.mp
  show _ % 256 = _ % 256
  interval_cases i <;> norm_num <;> omega

/-- The bytes of the digest. -/
theorem digest_eq (state : HashValue) :
    ((List.range 20).map fun i => (state.toList.getD (i >>> 2) 0 >>> ((3 - (i &&& 3)) * 8).toUInt32 &&& 255).toUInt8) =
      state.toList.flatMap fun x => bigEndianBytes 4 x.toNat := by
  have hword (x : UInt32) : bigEndianBytes 4 x.toNat =
      (List.range 4).map fun i => (x >>> ((3 - i) * 8).toUInt32 &&& 255).toUInt8 := by
    rw [bigEndianBytes_eq_map]
    apply List.map_congr_left
    intro i hi
    exact (byte_of_word x (by rw [List.mem_range] at hi; omega)).symm
  simp only [hword]
  rfl

/-! ### Padding -/

theorem padCond_eq {c : UInt32} {n : Nat} (h : (c >>> 3 &&& 63).toNat = n) : (c &&& 504 != 448) = decide (n ≠ 56) := by
  have hbits : c &&& (504 : UInt32) = (c >>> 3 &&& 63) <<< (3 : UInt32) := by
    apply UInt32.toBitVec_inj.mp
    ext i hi
    interval_cases i <;> simp
  have hlt : n < 64 := by
    have h63 : (63 : UInt32).toNat = 2 ^ 6 - 1 := rfl
    rw [UInt32.toNat_and, h63, Nat.and_two_pow_sub_one_eq_mod] at h
    omega
  have hval : (c &&& 504).toNat = 8 * n := by
    rw [hbits, UInt32.toNat_shiftLeft, h]
    show n <<< 3 % 2 ^ 32 = _
    rw [Nat.shiftLeft_eq]
    omega
  have h448 : (448 : UInt32).toNat = 448 := rfl
  have hiff : c &&& 504 ≠ 448 ↔ n ≠ 56 := by
    rw [Ne, ← UInt32.toNat_inj, hval, h448]
    omega
  rw [Bool.eq_iff_iff, bne_iff_ne, decide_eq_true_iff]
  exact hiff

/-- The loop adds zero bytes until the length field fits. -/
theorem padLoop_eq {z n : Nat} (h : Absorbed context message field) (hz : z < 64)
    (hlen : (message.length + z) % 64 = 56) (hn : z ≤ n) : ∃ context' field',
      Lib.whileLoop (fun context : NlSha1Ctx => context.count.1 &&& 504 != 448)
        (fun context => (nlSha1Update context [0]).map (·.1)) n context = some context' ∧
      Absorbed context' (message ++ List.replicate z 0) field' := by
  induction z generalizing context message field n with
  | zero =>
    refine ⟨context, field, Lib.whileLoop_done ?_, ?_⟩
    · rw [padCond_eq (buffered_eq h.count h.low)]
      exact decide_eq_false (by simpa using hlen)
    · rw [List.replicate_zero, List.append_nil]
      exact h
  | succ z ih =>
    obtain ⟨n, rfl⟩ : ∃ m, n = m + 1 := ⟨n - 1, by omega⟩
    obtain ⟨context₁, hupdate, h₁⟩ := nlSha1Update_absorbed h [0]
    obtain ⟨context', field', hloop, h'⟩ := ih (n := n) h₁ (by omega)
      (by rw [List.length_append, List.length_singleton]; omega) (by omega)
    have hcond : (context.count.1 &&& 504 != 448) = true := by
      rw [padCond_eq (buffered_eq h.count h.low)]
      exact decide_eq_true (by omega)
    refine ⟨context', field', ?_, ?_⟩
    · rw [Lib.whileLoop, if_pos hcond, hupdate]
      exact hloop
    · rw [List.append_assoc] at h'
      exact h'

/-- The state after whole blocks. -/
theorem absorbed_blocks {padded : Bytes} (h : padded.length % 64 = 0) :
    (absorbed padded).state = (Lib.blocks 64 (padded.length / 64) padded).foldl compress initial := by
  have hle : 64 * (padded.length / 64) = padded.length := by omega
  have hflatten : (Lib.blocks 64 (padded.length / 64) padded).flatten = padded := by
    rw [Lib.blocks_flatten, List.take_of_length_le hle.ge]
  have hblocks : Lib.Absorber.feed (sha1Blocks.start initial) (Lib.blocks 64 (padded.length / 64) padded).flatten =
      sha1Blocks.start ((Lib.blocks 64 (padded.length / 64) padded).foldl compress initial) :=
    Lib.Absorber.feed_blocks fun b hb => Lib.length_of_mem_blocks hle.le hb
  rw [hflatten] at hblocks
  exact congrArg Lib.Absorber.Stream.state hblocks

/-- The digest is that of the message with its padding, and the context is wiped. -/
theorem nlSha1Final_eq (h : Absorbed context message field) :
    nlSha1Final context = some (wipedCtx, digestOf (message ++ padding message.length field)) := by
  obtain ⟨context₁, hmark, h₁⟩ := nlSha1Update_absorbed h [0x80]
  obtain ⟨context₂, field₂, hloop, h₂⟩ := padLoop_eq (z := (119 - message.length % 64) % 64) (n := 64) h₁ (by omega)
    (by rw [List.length_append, List.length_singleton]; omega) (by omega)
  obtain ⟨context₃, hfield, h₃⟩ := nlSha1Update_absorbed h₂ (finalcount context.count)
  have hpadded : message ++ [0x80] ++ List.replicate ((119 - message.length % 64) % 64) 0 ++ finalcount context.count =
      message ++ padding message.length field := by
    rw [finalcount_eq h.count, padding]
    simp only [List.append_assoc, List.cons_append, List.nil_append]
  rw [hpadded] at h₃
  have hstate : context₃.state.toList.flatMap (fun x => bigEndianBytes 4 x.toNat) =
      digestOf (message ++ padding message.length field) := by
    rw [h₃.state, absorbed_blocks (by rw [List.length_append]; exact length_padding ..)]
    rfl
  simp only [nlSha1Final, hmark, hloop, hfield, Option.bind_eq_bind, Option.bind_some, digest_eq, hstate]
  rfl

theorem length_digestOf (padded : Bytes) : (digestOf padded).length = 20 := by
  rw [digestOf, List.length_flatMap]
  rfl

theorem bigEndianBytes_inj {n x y : Nat} (h : bigEndianBytes n x = bigEndianBytes n y) :
    x % 256 ^ n = y % 256 ^ n := by
  induction n generalizing x y with
  | zero => rw [Nat.pow_zero, Nat.mod_one, Nat.mod_one]
  | succ n ih =>
    obtain ⟨hhigh, hlow⟩ := List.append_inj' h rfl
    have hbyte : x % 256 = y % 256 := congrArg UInt8.toNat (List.singleton_inj.mp hlow)
    rw [Nat.pow_succ, Nat.mul_comm, Nat.mod_mul, Nat.mod_mul, ih hhigh, hbyte]

theorem bigEndianBytes_congr {n x y : Nat} (h : x % 256 ^ n = y % 256 ^ n) :
    bigEndianBytes n x = bigEndianBytes n y := by
  induction n generalizing x y with
  | zero => rfl
  | succ n ih =>
    rw [Nat.pow_succ, Nat.mul_comm, Nat.mod_mul, Nat.mod_mul] at h
    have hx := Nat.mod_lt x (by decide : 256 > 0)
    have hy := Nat.mod_lt y (by decide : 256 > 0)
    have hlow : x % 256 = y % 256 := by omega
    have hhigh : x / 256 % 256 ^ n = y / 256 % 256 ^ n := by omega
    have hbyte : x.toUInt8 = y.toUInt8 := UInt8.toNat_inj.mp hlow
    rw [bigEndianBytes, bigEndianBytes, ih hhigh, hbyte]

theorem padding_eq_iff {n x y : Nat} : padding n x = padding n y ↔ x % 2 ^ 64 = y % 2 ^ 64 := by
  constructor
  · intro h
    exact bigEndianBytes_inj (n := 8) (List.append_cancel_left h)
  · intro h
    rw [padding, padding, bigEndianBytes_congr (n := 8) h]

/-- No piece that is shorter than 2^29 bytes makes the count wrong. -/
theorem overcounts_eq_zero {before : Nat} {pieces : List Bytes} (h : ∀ data ∈ pieces, data.length < 2 ^ 29) :
    overcounts before pieces = 0 := by
  induction pieces generalizing before with
  | nil => rfl
  | cons data pieces ih =>
    have hdata := h data (List.mem_cons_self ..)
    have hright : ¬Overcounts before data.length := by
      rintro ⟨hlarge, -⟩
      omega
    rw [overcounts, if_neg hright, ih fun d hd => h d (List.mem_cons_of_mem _ hd)]

theorem nlSha1Pieces_eq (context : NlSha1Ctx) (pieces : List Bytes) : ∃ context',
    nlSha1Updates (nlSha1Init context) pieces = some (context', piecesLeft 0 pieces) ∧
      nlSha1Final context' = some (wipedCtx, digestOf (pieces.flatten ++
        padding pieces.flatten.length (8 * pieces.flatten.length + 2 ^ 32 * overcounts 0 pieces))) := by
  obtain ⟨context', hupdates, h⟩ := nlSha1Updates_absorbed (init_absorbed context) pieces
  rw [List.nil_append, Nat.zero_add] at h
  exact ⟨context', hupdates, nlSha1Final_eq h⟩

theorem nlSha1_eq (ctx : NlSha1Ctx) (data : Bytes) (mallocOk : Bool) :
    nlSha1 ctx (some data) mallocOk = some (if mallocOk then
      some (nlToHex (digestOf (data ++ padding data.length
        (8 * data.length + if 2 ^ 32 ≤ 8 * data.length % 2 ^ 64 then 2 ^ 32 else 0)))) else none,
      some (dataLeft 0 data)) := by
  obtain ⟨context, hupdate, h⟩ := nlSha1Update_absorbed (init_absorbed ctx) data
  have hover : Overcounts 0 data.length ↔ 2 ^ 32 ≤ 8 * data.length % 2 ^ 64 := by
    constructor
    · intro h
      exact h.1
    · intro h
      refine ⟨h, ?_⟩
      omega
  have hfinal := nlSha1Final_eq h
  simp only [List.nil_append, List.length_nil, counted, hover, Nat.zero_add] at hfinal
  simp only [nlSha1, hupdate, hfinal, Option.bind_eq_bind, Option.bind_some]
  rfl

end

/-- The digest of a message that comes in pieces: the length field is too large by 2^32 for each piece that makes the
    count wrong, which the padding shows exactly when their number is no multiple of 2^32. -/
theorem nlSha1_pieces (context : NlSha1Ctx) (pieces : List Bytes) : ∃ context' field,
    nlSha1Updates (nlSha1Init context) pieces = some (context', piecesLeft 0 pieces) ∧
      nlSha1Final context' = some (wipedCtx, digestOf (pieces.flatten ++ padding pieces.flatten.length field)) ∧
      field = 8 * pieces.flatten.length + 2 ^ 32 * overcounts 0 pieces ∧
      (padding pieces.flatten.length field = padding pieces.flatten.length (8 * pieces.flatten.length) ↔
        2 ^ 32 ∣ overcounts 0 pieces) := by
  obtain ⟨context', hupdates, hfinal⟩ := nlSha1Pieces_eq context pieces
  refine ⟨context', _, hupdates, hfinal, rfl, padding_eq_iff.trans ?_⟩
  omega

/-- Pieces that are shorter than 2^29 bytes, however many, give the SHA-1 digest of the whole message. -/
theorem nlSha1_standard (context : NlSha1Ctx) (pieces : List Bytes) (h : ∀ data ∈ pieces, data.length < 2 ^ 29) :
    ∃ context', nlSha1Updates (nlSha1Init context) pieces = some (context', piecesLeft 0 pieces) ∧
      nlSha1Final context' = some (wipedCtx, sha1 pieces.flatten) := by
  obtain ⟨context', hupdates, hfinal⟩ := nlSha1Pieces_eq context pieces
  rw [overcounts_eq_zero h, Nat.mul_zero, Nat.add_zero] at hfinal
  exact ⟨context', hupdates, hfinal⟩

theorem nlSha1_standard_two : ∃ context',
    nlSha1Updates (nlSha1Init wipedCtx) [bytes "a", bytes "bc"] =
        some (context', piecesLeft 0 [bytes "a", bytes "bc"]) ∧
      nlSha1Final context' = some (wipedCtx, sha1 (bytes "abc")) :=
  nlSha1_standard wipedCtx [bytes "a", bytes "bc"] (by decide)

/-- The text is the digest in hex digits, from which `nl_from_hex` gets it back; for data of 2^29 bytes or more the
    length field is too large by 2^32. The blocks of the data but the first are overwritten, also where there is no
    memory for the text. -/
theorem nlSha1_text (ctx : NlSha1Ctx) (data : Bytes) : ∃ digest,
    nlSha1 ctx (some data) true = some (some (nlToHex digest), some (dataLeft 0 data)) ∧
      nlSha1 ctx (some data) false = some (none, some (dataLeft 0 data)) ∧
      nlFromHex (some (nlToHex digest)) (some (List.replicate 20 0)) = some (20, some digest) ∧
      (data.length < 2 ^ 29 → digest = sha1 data) ∧
      (2 ^ 29 ≤ data.length → data.length < 2 ^ 61 →
        digest = digestOf (data ++ padding data.length (8 * data.length + 2 ^ 32))) := by
  refine ⟨_, nlSha1_eq ctx data true, nlSha1_eq ctx data false, ?_, ?_, ?_⟩
  · have hlen := length_digestOf (data ++ padding data.length
      (8 * data.length + if 2 ^ 32 ≤ 8 * data.length % 2 ^ 64 then 2 ^ 32 else 0))
    generalize digestOf (data ++ padding data.length
      (8 * data.length + if 2 ^ 32 ≤ 8 * data.length % 2 ^ 64 then 2 ^ 32 else 0)) = digest at hlen
    have hroom : digest.length ≤ (List.replicate 20 (0 : Byte)).length := by
      rw [hlen, List.length_replicate]
    have hhex := fromHexLoop_toHex (t := []) (by simp [StartsHex]) hroom
    rw [List.append_nil, hlen] at hhex
    simp only [nlFromHex, hhex]
    simp
  · intro hshort
    rw [if_neg (by omega)]
    rfl
  · intro hlong hfits
    rw [if_pos (by omega)]

example : nlSha1 wipedCtx (some (bytes "abc")) true =
    some (some (bytes "a9993e364706816aba3e25717850c26c9cd0d89d"), some (bytes "abc")) := by decide +kernel

/-- What a call leaves of the caller's data, whatever has been hashed before: the bytes that complete the waiting block
    and those behind the last whole block are as they were, and each block between them has become the last 16 words
    of its schedule. -/
theorem nlSha1Update_memory (context : NlSha1Ctx) (pieces : List Bytes) (data : Bytes) : ∃ context₁ context₂ lefts left,
    nlSha1Updates (nlSha1Init context) pieces = some (context₁, lefts) ∧
      nlSha1Update context₁ data = some (context₂, left) ∧ left.length = data.length ∧
      ∀ first k, first = 64 - pieces.flatten.length % 64 → k = (data.length - first) / 64 →
        left.take first = data.take first ∧ left.drop (first + 64 * k) = data.drop (first + 64 * k) ∧
          ∀ i, i < k → (left.drop (first + 64 * i)).take 64 =
            (blockBytes (lastWords ((data.drop (first + 64 * i)).take 64))).toList := by
  obtain ⟨context₁, hupdates, h⟩ := nlSha1Updates_absorbed (init_absorbed context) pieces
  obtain ⟨context₂, hupdate, -⟩ := nlSha1Update_absorbed h data
  rw [List.nil_append] at hupdate
  refine ⟨context₁, context₂, _, _, hupdates, hupdate, (dataLeft_spec pieces.flatten.length data rfl rfl).1, ?_⟩
  intro first k hfirst hk
  exact (dataLeft_spec pieces.flatten.length data hfirst hk).2

end Nlutils
