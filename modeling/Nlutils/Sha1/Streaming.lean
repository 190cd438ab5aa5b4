import Nlutils.Sha1.Transform

/-! # Hashing in pieces

Any number of calls of `nl_sha1_update` take in what they are given as one message. What comes wrong, and exactly when,
is the count of bits: a piece of 2^29 bytes or more always carries into the high word, because the low word is compared
with a product of 64 bits. Blocks that lie whole in a piece are transformed in the caller's memory. -/

namespace Nlutils
open Sha1

/-- The compression as a way of taking in a stream. -/
def sha1Blocks : Lib.Absorber HashValue Byte := ⟨64, by decide, compress⟩

/-- The stream after a message. -/
def absorbed (message : Bytes) : sha1Blocks.Stream := Lib.Absorber.feed (sha1Blocks.start initial) message

/-- The piece makes the high word of the count one too large. -/
def Overcounts (before len : Nat) : Prop :=
  2 ^ 32 ≤ 8 * len % 2 ^ 64 ∧ 8 * before % 2 ^ 32 + 8 * len % 2 ^ 32 < 2 ^ 32

instance (before len : Nat) : Decidable (Overcounts before len) := inferInstanceAs (Decidable (_ ∧ _))

/-- What the count becomes with a piece. -/
def counted (before len field : Nat) : Nat := field + 8 * len + if Overcounts before len then 2 ^ 32 else 0

/-- What is left of a block in the caller's memory. -/
def blockLeft (block : Bytes) : Bytes := (blockBytes (lastWords block)).toList

/-- What is left of the blocks at the beginning. -/
def blocksLeft (data : Bytes) : Bytes :=
  (Lib.blocks 64 (data.length / 64) data).flatMap blockLeft ++ data.drop (64 * (data.length / 64))

/-- What is left of a piece. Its beginning fills the buffer, and its end is copied to the buffer. -/
def dataLeft (before : Nat) (data : Bytes) : Bytes :=
  data.take (64 - before % 64) ++ blocksLeft (data.drop (64 - before % 64))

/-- Any number of calls: the context, and what is left of the pieces. -/
def nlSha1Updates (context : NlSha1Ctx) : List Bytes → Option (NlSha1Ctx × List Bytes)
  | [] => some (context, [])
  | data :: pieces => do
    let (context, left) ← nlSha1Update context data
    let (context, lefts) ← nlSha1Updates context pieces
    return (context, left :: lefts)

def piecesLeft : Nat → List Bytes → List Bytes
  | _, [] => []
  | before, data :: pieces => dataLeft before data :: piecesLeft (before + data.length) pieces

/-- How many of the pieces make the high word of the count one too large. -/
def overcounts : Nat → List Bytes → Nat
  | _, [] => 0
  | before, data :: pieces =>
    (if Overcounts before data.length then 1 else 0) + overcounts (before + data.length) pieces

/-- The context after a message. -/
structure Absorbed (context : NlSha1Ctx) (message : Bytes) (field : Nat) : Prop where
  state : context.state = (absorbed message).state
  buffer : context.buffer.toList.take (message.length % 64) = (absorbed message).pending
  count : context.count.1.toNat + 2 ^ 32 * context.count.2.toNat = field % 2 ^ 64
  low : field % 2 ^ 32 = 8 * message.length % 2 ^ 32

section
variable {context : NlSha1Ctx} {message data : Bytes} {field : Nat} {state : HashValue} {buffer : Vector Byte 64}

theorem length_absorbed (message : Bytes) : (absorbed message).pending.length = message.length % 64 := by
  rw [absorbed, Lib.Absorber.length_pending]
  exact congrArg (· % 64) (Nat.zero_add _)

theorem init_absorbed (context : NlSha1Ctx) : Absorbed (nlSha1Init context) [] 0 := ⟨rfl, rfl, rfl, rfl⟩

/-! ### The count -/

theorem count_next {c0 c1 : UInt32} {n before : Nat} (hcount : c0.toNat + 2 ^ 32 * c1.toNat = field % 2 ^ 64)
    (hlow : field % 2 ^ 32 = 8 * before % 2 ^ 32) :
    (c0 + (n.toUInt64 <<< 3).toUInt32).toNat + 2 ^ 32 *
      ((if (c0 + (n.toUInt64 <<< 3).toUInt32).toUInt64 < n.toUInt64 <<< 3 then c1 + 1 else c1) +
        (n.toUInt64 >>> 29).toUInt32).toNat = counted before n field % 2 ^ 64 := by
  have hc0 := c0.toNat_lt
  have hc1 := c1.toNat_lt
  have hbits : (n.toUInt64 <<< 3).toNat = 8 * n % 2 ^ 64 := by
    rw [UInt64.toNat_shiftLeft]
    show (n % 2 ^ 64) <<< 3 % 2 ^ 64 = _
    rw [Nat.shiftLeft_eq]
    omega
  have hhigh : (n.toUInt64 >>> 29).toUInt32.toNat = n % 2 ^ 64 / 2 ^ 29 % 2 ^ 32 := by
    rw [UInt64.toNat_toUInt32, UInt64.toNat_shiftRight]
    show (n % 2 ^ 64) >>> 29 % 2 ^ 32 = _
    rw [Nat.shiftRight_eq_div_pow]
  have hsum : (c0 + (n.toUInt64 <<< 3).toUInt32).toNat = (c0.toNat + 8 * n) % 2 ^ 32 := by
    rw [UInt32.toNat_add, UInt64.toNat_toUInt32, hbits]
    omega
  have hless : (c0 + (n.toUInt64 <<< 3).toUInt32).toUInt64 < n.toUInt64 <<< 3 ↔
      (c0.toNat + 8 * n) % 2 ^ 32 < 8 * n % 2 ^ 64 := by
    rw [UInt64.lt_iff_toNat_lt, UInt32.toNat_toUInt64, hsum, hbits]
  have hextra : (if Overcounts before n then 2 ^ 32 else 0) =
      if 2 ^ 32 ≤ 8 * n % 2 ^ 64 ∧ 8 * before % 2 ^ 32 + 8 * n % 2 ^ 32 < 2 ^ 32 then 2 ^ 32 else 0 := rfl
  rw [counted, hextra, hsum, UInt32.toNat_add, hhigh]
  by_cases hcarry : (c0.toNat + 8 * n) % 2 ^ 32 < 8 * n % 2 ^ 64
  · rw [if_pos (hless.mpr hcarry), UInt32.toNat_add, UInt32.toNat_one]
    split <;> omega
  · rw [if_neg (mt hless.mp hcarry)]
    split <;> omega

theorem buffered_eq {c0 c1 : UInt32} {before : Nat} (hcount : c0.toNat + 2 ^ 32 * c1.toNat = field % 2 ^ 64)
    (hlow : field % 2 ^ 32 = 8 * before % 2 ^ 32) : (c0 >>> 3 &&& 63).toNat = before % 64 := by
  have hc0 := c0.toNat_lt
  have h63 : (63 : UInt32).toNat = 2 ^ 6 - 1 := rfl
  have h3 : (3 : UInt32).toNat % 32 = 3 := rfl
  rw [UInt32.toNat_and, h63, Nat.and_two_pow_sub_one_eq_mod, UInt32.toNat_shiftRight, h3, Nat.shiftRight_eq_div_pow]
  omega

/-! ### Blocks in place -/

theorem memcpyBuffer_eq (buffer : Vector Byte 64) {j : Nat} (src : Bytes) (h : j + src.length ≤ 64) :
    ∃ dst, memcpyBuffer buffer j src = some dst ∧ dst.toList.take (j + src.length) = buffer.toList.take j ++ src := by
  have hsize : (buffer.toList.take j ++ src ++ buffer.toList.drop (j + src.length)).toArray.size = 64 := by
    simp only [List.size_toArray, List.length_append, List.length_take, List.length_drop, Vector.length_toList]
    omega
  refine ⟨_, dif_pos hsize, List.take_left' ?_⟩
  rw [List.length_append, List.length_take, Vector.length_toList]
  omega

theorem transformAt_eq (state : HashValue) (pre post : Bytes) {block : Bytes} (hblock : block.length = 64) :
    transformAt state (pre ++ (block ++ post)) pre.length =
      some (compress state block, pre ++ blockLeft block ++ post) := by
  have htake : ((pre ++ (block ++ post)).drop pre.length).take 64 = block := by
    rw [List.drop_left, List.take_left' hblock]
  have hdrop : (pre ++ (block ++ post)).drop (pre.length + 64) = post := by
    rw [← List.drop_drop, List.drop_left, List.drop_left' hblock]
  have hsize : block.toArray.size = 64 := hblock
  simp only [transformAt, sha1Transform_eq, List.take_left, hdrop, htake, dif_pos hsize]
  rfl

/-- The loop takes in all whole blocks that are left. -/
theorem transformLoop_eq (state : HashValue) (pre : Bytes) {rest : Bytes} {k n : Nat} (hk : rest.length / 64 = k)
    (hn : k ≤ n) :
    Lib.whileLoop (fun s : BlockLoop => s.i + 63 < s.data.length) BlockLoop.round n ⟨state, pre ++ rest, pre.length⟩ =
      some ⟨(Lib.blocks 64 k rest).foldl compress state,
        pre ++ ((Lib.blocks 64 k rest).flatMap blockLeft ++ rest.drop (64 * k)), pre.length + 64 * k⟩ := by
  induction k generalizing state pre rest n with
  | zero =>
    apply Lib.whileLoop_done
    show decide (pre.length + 63 < (pre ++ rest).length) = false
    rw [List.length_append]
    exact decide_eq_false (by omega)
  | succ k ih =>
    obtain ⟨n, rfl⟩ : ∃ m, n = m + 1 := ⟨n - 1, by omega⟩
    have hblock : (rest.take 64).length = 64 := by
      rw [List.length_take]
      omega
    have hround := transformAt_eq state pre (rest.drop 64) hblock
    rw [List.take_append_drop] at hround
    have hbody : BlockLoop.round ⟨state, pre ++ rest, pre.length⟩ = some ⟨compress state (rest.take 64),
        pre ++ blockLeft (rest.take 64) ++ rest.drop 64, (pre ++ blockLeft (rest.take 64)).length⟩ := by
      rw [BlockLoop.round, hround, List.length_append, blockLeft, Vector.length_toList]
      rfl
    have hcond : pre.length + 63 < (pre ++ rest).length := by
      rw [List.length_append]
      omega
    have hrest : (rest.drop 64).length / 64 = k := by
      rw [List.length_drop]
      omega
    rw [Lib.whileLoop, if_pos (decide_eq_true hcond), hbody, Option.bind_some, ih _ _ hrest (Nat.le_of_succ_le_succ hn),
      Lib.blocks, List.drop_drop, List.foldl_cons, List.flatMap_cons,
      List.length_append, blockLeft, Vector.length_toList, List.append_assoc, List.append_assoc, Nat.mul_succ,
      Nat.add_assoc, Nat.add_comm 64 (64 * k)]

theorem length_blockLeft (block : Bytes) : (blockLeft block).length = 64 := Vector.length_toList

/-- What the loop leaves of the data, and that the rest behind the blocks is as it was. -/
theorem transformLoop_spec (state : HashValue) {i : Nat} (hi : i ≤ data.length) : ∃ s,
    transformLoop ⟨state, data, i⟩ = some s ∧
      s.state = (Lib.blocks 64 ((data.drop i).length / 64) (data.drop i)).foldl compress state ∧
      s.data = data.take i ++ blocksLeft (data.drop i) ∧
      s.data.drop s.i = (data.drop i).drop (64 * ((data.drop i).length / 64)) := by
  have hrounds : (data.drop i).length / 64 ≤ data.length := by
    rw [List.length_drop]
    omega
  have hloop := transformLoop_eq state (data.take i) rfl hrounds
  rw [List.take_append_drop, List.length_take_of_le hi] at hloop
  refine ⟨_, hloop, rfl, rfl, ?_⟩
  have hlen : (data.take i).length = i := List.length_take_of_le hi
  show (data.take i ++ _).drop (i + _) = _
  conv =>
    lhs
    rw [← List.drop_drop, List.drop_left' hlen]
  exact List.drop_left' (Lib.length_flatMap_blocks length_blockLeft)

/-! ### One piece -/

/-- A piece that fills the buffer: its beginning completes a block, blocks follow, and its end waits. -/
theorem feed_piece (s : sha1Blocks.Stream) (data : Bytes) (hfull : 63 < s.pending.length + data.length) :
    let first := data.take (64 - s.pending.length)
    let rest := data.drop (64 - s.pending.length)
    (Lib.Absorber.feed s data).state =
        (Lib.blocks 64 (rest.length / 64) rest).foldl compress (compress s.state (s.pending ++ first)) ∧
      (Lib.Absorber.feed s data).pending = rest.drop (64 * (rest.length / 64)) := by
  intro first rest
  have hs : s.pending.length < 64 := s.short
  have hfirst : s.pending.length + first.length = 64 := by
    rw [List.length_take]
    omega
  have hle : 64 * (rest.length / 64) ≤ rest.length := Nat.mul_div_le ..
  have hsplit : data = first ++ ((Lib.blocks 64 (rest.length / 64) rest).flatten ++
      rest.drop (64 * (rest.length / 64))) := by
    rw [Lib.blocks_flatten, List.take_append_drop, List.take_append_drop]
  have hblocks : Lib.Absorber.feed (sha1Blocks.start (compress s.state (s.pending ++ first)))
      (Lib.blocks 64 (rest.length / 64) rest).flatten = sha1Blocks.start
        ((Lib.blocks 64 (rest.length / 64) rest).foldl compress (compress s.state (s.pending ++ first))) :=
    Lib.Absorber.feed_blocks fun b hb => Lib.length_of_mem_blocks hle hb
  have hfill : Lib.Absorber.feed s first = sha1Blocks.start (compress s.state (s.pending ++ first)) :=
    Lib.Absorber.feed_full hfirst
  have hfeed : Lib.Absorber.feed s data = Lib.Absorber.feed (sha1Blocks.start
      ((Lib.blocks 64 (rest.length / 64) rest).foldl compress (compress s.state (s.pending ++ first))))
        (rest.drop (64 * (rest.length / 64))) := by
    conv => lhs; rw [hsplit]
    rw [Lib.Absorber.feed_append, hfill, Lib.Absorber.feed_append, hblocks]
  rw [hfeed]
  refine Lib.Absorber.feed_short ?_
  show 0 + _ < 64
  rw [List.length_drop]
  omega

/-- What a call takes in, counts, and leaves of the piece. -/
theorem nlSha1Update_absorbed (h : Absorbed context message field) (data : Bytes) :
    ∃ context', nlSha1Update context data = some (context', dataLeft message.length data) ∧
      Absorbed context' (message ++ data) (counted message.length data.length field) := by
  have hlow : counted message.length data.length field % 2 ^ 32 = 8 * (message ++ data).length % 2 ^ 32 := by
    have hlow := h.low
    rw [counted, List.length_append]
    split <;> omega
  have hcount := count_next (n := data.length) h.count h.low
  have hj := buffered_eq h.count h.low
  have hpending := length_absorbed message
  have hj64 : message.length % 64 < 64 := Nat.mod_lt _ (by decide)
  have happend : absorbed (message ++ data) = Lib.Absorber.feed (absorbed message) data := Lib.Absorber.feed_append
  simp only [nlSha1Update, hj]
  split
  · next hfull =>
    have hfirst : message.length % 64 + (data.take (64 - message.length % 64)).length = 64 := by
      rw [List.length_take]
      omega
    obtain ⟨hstate, hwait⟩ := feed_piece (absorbed message) data (by rw [hpending]; exact hfull)
    rw [hpending] at hstate hwait
    obtain ⟨filled, hcopy, hfilled⟩ := memcpyBuffer_eq context.buffer (data.take (64 - message.length % 64)) hfirst.le
    rw [hfirst, h.buffer, List.take_of_length_le (Vector.length_toList.le)] at hfilled
    have hin : 64 - message.length % 64 ≤ data.length := by omega
    obtain ⟨s, hloop, hblocks, hleft, hrest⟩ := transformLoop_spec (compress context.state filled.toList) hin
    have hend : 0 + (s.data.drop s.i).length ≤ 64 := by
      rw [hrest, List.length_drop]
      omega
    obtain ⟨buffer, hcopy', hbuffer⟩ := memcpyBuffer_eq (blockBytes (lastWords filled.toList)) _ hend
    rw [hcopy]
    simp only [Option.bind_eq_bind, Option.bind_some, sha1Transform_eq, hloop, hcopy']
    refine ⟨_, congrArg (fun data => some (_, data)) hleft, ?_, ?_, hcount, hlow⟩
    · rw [happend, hstate, ← hfilled, ← h.state]
      exact hblocks
    · have hwaiting : (message ++ data).length % 64 = 0 + (s.data.drop s.i).length := by
        rw [hrest, List.length_drop, List.length_drop, List.length_append]
        omega
      rw [happend, hwait, hwaiting]
      exact hbuffer.trans hrest
  · next hshort =>
    have hroom : message.length % 64 + data.length < 64 := by omega
    obtain ⟨buffer, hcopy, hbuffer⟩ := memcpyBuffer_eq context.buffer data hroom.le
    have hpart : (absorbed message).pending.length + data.length < sha1Blocks.size := by
      rw [hpending]
      exact hroom
    obtain ⟨hstate, hwait⟩ := Lib.Absorber.feed_short hpart
    have hleft : dataLeft message.length data = data := by
      rw [dataLeft, List.take_of_length_le (by omega), List.drop_of_length_le (by omega)]
      exact List.append_nil _
    have hwaiting : (message ++ data).length % 64 = message.length % 64 + data.length := by
      rw [List.length_append]
      omega
    rw [hcopy, hleft]
    refine ⟨_, rfl, ?_, ?_, hcount, hlow⟩
    · rw [happend, hstate]
      exact h.state
    · rw [happend, hwait, ← h.buffer, hwaiting]
      exact hbuffer

/-- What is left of a piece: its beginning and its end as they were, and the last words of the schedule of each block
    between them. -/
theorem dataLeft_spec (before : Nat) (data : Bytes) {first k : Nat} (hfirst : first = 64 - before % 64)
    (hk : k = (data.length - first) / 64) :
    (dataLeft before data).length = data.length ∧ (dataLeft before data).take first = data.take first ∧
      (dataLeft before data).drop (first + 64 * k) = data.drop (first + 64 * k) ∧
      ∀ i, i < k → ((dataLeft before data).drop (first + 64 * i)).take 64 =
        blockLeft ((data.drop (first + 64 * i)).take 64) := by
  have hleft : dataLeft before data = data.take first ++
      ((Lib.blocks 64 k (data.drop first)).flatMap blockLeft ++ data.drop (first + 64 * k)) := by
    rw [dataLeft, blocksLeft, ← hfirst, List.length_drop, ← hk, List.drop_drop]
  have hblocks : ((Lib.blocks 64 k (data.drop first)).flatMap blockLeft).length = 64 * k :=
    Lib.length_flatMap_blocks length_blockLeft
  rw [hleft]
  by_cases hdata : first ≤ data.length
  · have hlen : (data.take first).length = first := List.length_take_of_le hdata
    refine ⟨?_, List.take_left' hlen, ?_, ?_⟩
    · rw [List.length_append, List.length_append, hlen, hblocks, List.length_drop]
      omega
    · rw [← List.drop_drop, List.drop_left' hlen, List.drop_left' hblocks]
    · intro i hi
      rw [← List.drop_drop, List.drop_left' hlen, List.drop_append_of_le_length (by omega),
        List.take_append_of_le_length (by rw [List.length_drop, hblocks]; omega),
        Lib.flatMap_blocks_at length_blockLeft hi, List.drop_drop]
  · have hzero : k = 0 := by omega
    subst hzero
    have hnone : data.drop (first + 64 * 0) = [] := List.drop_of_length_le (by omega)
    have hall : data.take first = data := List.take_of_length_le (by omega)
    rw [hnone, hall]
    refine ⟨by simp [Lib.blocks], ?_, ?_, nofun⟩
    · simpa [Lib.blocks] using hall
    · simpa [Lib.blocks] using hnone

/-! ### All pieces -/

theorem nlSha1Updates_absorbed (h : Absorbed context message field) (pieces : List Bytes) :
    ∃ context', nlSha1Updates context pieces = some (context', piecesLeft message.length pieces) ∧
      Absorbed context' (message ++ pieces.flatten)
        (field + 8 * pieces.flatten.length + 2 ^ 32 * overcounts message.length pieces) := by
  induction pieces generalizing context message field with
  | nil =>
    refine ⟨context, rfl, ?_⟩
    rw [List.flatten_nil, List.append_nil]
    exact h
  | cons data pieces ih =>
    obtain ⟨context₁, hupdate, h₁⟩ := nlSha1Update_absorbed h data
    obtain ⟨context₂, hupdates, h₂⟩ := ih h₁
    rw [List.length_append] at hupdates h₂
    have hfield : counted message.length data.length field + 8 * pieces.flatten.length +
        2 ^ 32 * overcounts (message.length + data.length) pieces =
          field + 8 * (data :: pieces).flatten.length + 2 ^ 32 * overcounts message.length (data :: pieces) := by
      rw [counted, overcounts, List.flatten_cons, List.length_append]
      split <;> omega
    rw [hfield] at h₂
    refine ⟨context₂, ?_, ?_⟩
    · simp only [nlSha1Updates, hupdate, hupdates, Option.bind_eq_bind, Option.bind_some]
      rfl
    · rw [List.flatten_cons, ← List.append_assoc]
      exact h₂

end

end Nlutils
