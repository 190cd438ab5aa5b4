import Nlutils.Lib.While
import Nlutils.Mem
import Nlutils.RawData

/-! # Streams (`nl_write_stream` and `nl_read_stream` of `stream.c`)

What the kernel answers to `write` and `read` is given. -/

namespace Nlutils
open Lib

/-! ### Writing -/

/-- The variables of the loop of `nl_write_stream`, with the number of calls of `write` and the chunks that these have
    taken. -/
structure WriteStream where
  ret : Int := 0
  off : Nat := 0
  calls : Nat := 0
  chunks : List Bytes := []

/-- The body of the loop. To the given call, `write` answers for a number of bytes that are left. -/
def writeRound (write : Nat → Nat → Int) (mem : Bytes) (size : Nat) (s : WriteStream) : WriteStream :=
  let ret := write s.calls (size - s.off)
  { ret := ret
    off := if ret > 0 then s.off + ret.toNat else s.off
    calls := s.calls + 1
    chunks := s.chunks ++ [(mem.drop s.off).take ret.toNat] }

/-- The condition of the loop, which does not hold either where the body returns. -/
def writeMore (size : Nat) (s : WriteStream) : Bool := s.ret > 0 ∧ s.off < size

/-- The result, and the chunks that have been written. -/
def nlWriteStream (write : Nat → Nat → Int) (fd : Int) (data : Option RawData) : Option (Int × List Bytes) :=
  match data with
  | none => some (-1, [])
  | some data =>
    match data.data with
    | none => some (-1, [])
    | some mem =>
      if fd < 0 then some (-1, [])
      else if mem.length < data.size then none
      else
        (whileLoop (writeMore data.size) (fun s => some (writeRound write mem data.size s)) data.size
          (writeRound write mem data.size {})).map fun s =>
            (if s.ret < 0 then -1 else if s.off < data.size then -1 else 0, s.chunks)

/-! ### Reading -/

/-- What `read` answers: some bytes, or an error. No bytes are the end of the file. -/
inductive ReadResult
  | bytes (chunk : Bytes)
  | error (errno : Int)

def eagain : Int := 11
def ewouldblock : Int := 11

/-- Writes bytes into a block. -/
def storeBytes (b : Bytes) (start : Nat) (src : Bytes) : Option Bytes :=
  if start + src.length ≤ b.length then some (b.take start ++ src ++ b.drop (start + src.length)) else none

/-- The loop of `nl_read_stream` and what follows it. The parameters are whether there is memory, and the bytes that
    come with it. The result is NULL or the data, with all of its memory. There is none where `read` is not answered. -/
def readStreamLoop (alloc : Nat → Bool) (fill : Nat → Nat → Byte) :
    List ReadResult → Nat → RawData → Option (Option RawData)
  | [], _, _ => none
  | .error errno :: _, _, data =>
    if errno ≠ 0 ∧ errno ≠ eagain ∧ errno ≠ ewouldblock then some none else some (some data)
  | .bytes chunk :: reads, n, data =>
    if chunk.length > 16384 then none
    else if chunk.length > 0 then
      if alloc n then
        let tmpbuf := resized (data.data.getD []) (data.size + chunk.length + 1) (fill n)
        (storeBytes tmpbuf data.size chunk).bind fun tmpbuf =>
          (storeBytes tmpbuf (data.size + chunk.length) [0]).bind fun tmpbuf =>
            readStreamLoop alloc fill reads (n + 1) ⟨data.size + chunk.length, some tmpbuf⟩
      else some none
    else some (some data)

def nlReadStream (alloc : Nat → Bool) (fill : Nat → Nat → Byte) (fd : Int) (reads : List ReadResult) :
    Option (Option RawData) :=
  if fd < 0 then some none
  else if alloc 0 then readStreamLoop alloc fill reads 1 ⟨0, none⟩
  else some none

section
variable {write : Nat → Nat → Int} {block : Bytes} {s : WriteStream} {alloc : Nat → Bool} {fill : Nat → Nat → Byte}

/-! ### What a round of writing keeps -/

/-- The offset that the given call of `write` is made at. -/
def writeOff (write : Nat → Nat → Int) (size : Nat) : Nat → Nat
  | 0 => 0
  | k + 1 => writeOff write size k + (write k (size - writeOff write size k)).toNat

/-- What the given call answers for the bytes that are left. -/
def writeRet (write : Nat → Nat → Int) (size k : Nat) : Int := write k (size - writeOff write size k)

/-- What the given call takes. -/
def writeChunk (write : Nat → Nat → Int) (block : Bytes) (k : Nat) : Bytes :=
  (block.drop (writeOff write block.length k)).take (writeRet write block.length k).toNat

/-- The given number of calls have been made before the last one, and each of these has taken something and left
    something. -/
structure WriteCalls (write : Nat → Nat → Int) (block : Bytes) (n : Nat) (s : WriteStream) : Prop where
  calls : s.calls = n + 1
  ret : s.ret = writeRet write block.length n
  off : s.off = writeOff write block.length (n + 1)
  chunks : s.chunks = (List.range (n + 1)).map (writeChunk write block)
  more : ∀ k < n, 0 < writeRet write block.length k ∧ writeOff write block.length (k + 1) < block.length

theorem writeRound_calls (hoff : s.off = writeOff write block.length s.calls)
    (hchunks : s.chunks = (List.range s.calls).map (writeChunk write block))
    (hmore : ∀ k < s.calls, 0 < writeRet write block.length k ∧ writeOff write block.length (k + 1) < block.length) :
    WriteCalls write block s.calls (writeRound write block block.length s) := by
  constructor
  · rfl
  · rw [writeRound, hoff]
    rfl
  · rw [writeOff, ← hoff]
    simp only [writeRound]
    split
    · rfl
    · omega
  · rw [List.range_succ, List.map_append, ← hchunks, List.map_singleton, writeChunk, writeRet, ← hoff]
    rfl
  · exact hmore

/-- The loop makes another call only where the last one has taken something and left something. -/
theorem WriteCalls.round {n : Nat} (h : WriteCalls write block n s) (hmore : writeMore block.length s = true) :
    WriteCalls write block (n + 1) (writeRound write block block.length s) := by
  have hround : WriteCalls write block s.calls (writeRound write block block.length s) := by
    refine writeRound_calls ?_ ?_ ?_
    · rw [h.calls, h.off]
    · rw [h.calls, h.chunks]
    · intro k hk
      rw [h.calls] at hk
      rcases Nat.lt_succ_iff_lt_or_eq.mp hk with hlt | rfl
      · exact h.more k hlt
      · rw [← h.ret, ← h.off]
        exact of_decide_eq_true hmore
  rwa [h.calls] at hround

/-- The chunks are the beginning of the block, and the last call of `write` had something left to write, if there ever
    was anything. -/
structure WriteInv (block : Bytes) (s : WriteStream) : Prop where
  written : s.chunks.flatten = block.take s.off
  le : s.off ≤ block.length
  stopped : s.ret ≤ 0 → s.off < block.length ∨ block = []

theorem writeRound_inv (hwrite : ∀ k n, write k n ≤ n) (hwritten : s.chunks.flatten = block.take s.off)
    (hleft : s.off < block.length ∨ block = [] ∧ s.off = 0) :
    WriteInv block (writeRound write block block.length s) := by
  have hret := hwrite s.calls (block.length - s.off)
  have hchunk : ((block.drop s.off).take (write s.calls (block.length - s.off)).toNat) =
      (block.take (s.off + (write s.calls (block.length - s.off)).toNat)).drop s.off := by
    rw [List.drop_take, Nat.add_sub_cancel_left]
  by_cases hpos : write s.calls (block.length - s.off) > 0
  · constructor
    · simp only [writeRound, if_pos hpos, List.flatten_append, List.flatten_singleton, hwritten]
      rw [List.take_add]
    · simp only [writeRound, if_pos hpos]
      omega
    · intro hle
      exact absurd hpos (Int.not_lt.mpr hle)
  · have hzero : (write s.calls (block.length - s.off)).toNat = 0 := by omega
    constructor
    · simp only [writeRound, if_neg hpos, List.flatten_append, List.flatten_singleton, hwritten, hzero, List.take_zero,
        List.append_nil]
    · simp only [writeRound, if_neg hpos]
      rcases hleft with hlt | ⟨rfl, hoff⟩
      · exact Nat.le_of_lt hlt
      · exact Nat.le_of_eq hoff
    · intro _
      simp only [writeRound, if_neg hpos]
      rcases hleft with hlt | ⟨hnil, -⟩
      · exact Or.inl hlt
      · exact Or.inr hnil

/-- How much is left while the loop goes on. -/
def writeLeft (size : Nat) (s : WriteStream) : Nat := if s.ret > 0 then size - s.off else 0

theorem writeRound_left (hmore : writeMore block.length s = true) :
    writeLeft block.length (writeRound write block block.length s) < writeLeft block.length s := by
  obtain ⟨hret, hlt⟩ := of_decide_eq_true hmore
  rw [writeLeft, writeLeft, if_pos hret]
  by_cases hpos : write s.calls (block.length - s.off) > 0
  · simp only [writeRound, if_pos hpos]
    omega
  · simp only [writeRound, if_neg hpos]
    omega

/-- The result tells whether the whole block has been written. -/
theorem result_iff (h : WriteInv block s) (hne : block ≠ []) :
    (¬s.ret < 0 ∧ ¬s.off < block.length) ↔ s.chunks.flatten = block := by
  have hwhole : s.chunks.flatten = block ↔ s.off = block.length := by
    rw [h.written]
    constructor
    · intro htake
      have hlen := congrArg List.length htake
      rw [List.length_take, Nat.min_eq_left h.le] at hlen
      exact hlen
    · rintro hoff
      rw [hoff, List.take_length]
  have hle := h.le
  rw [hwhole]
  constructor
  · rintro ⟨-, hoff⟩
    omega
  · intro hoff
    refine ⟨fun hneg => ?_, Nat.not_lt.mpr (Nat.le_of_eq hoff.symm)⟩
    rcases h.stopped (Int.le_of_lt hneg) with hlt | hnil
    · omega
    · exact hne hnil

/-- The loop comes to its end. -/
theorem writeLoop_spec (hwrite : ∀ k n, write k n ≤ n) (block : Bytes) :
    ∃ s n, whileLoop (writeMore block.length) (fun s => some (writeRound write block block.length s)) block.length
      (writeRound write block block.length {}) = some s ∧ writeMore block.length s = false ∧ WriteInv block s ∧
      WriteCalls write block n s := by
  have hfirst : WriteInv block (writeRound write block block.length {}) := by
    refine writeRound_inv hwrite (List.take_zero).symm ?_
    cases block with
    | nil => exact Or.inr ⟨rfl, rfl⟩
    | cons b block => exact Or.inl (Nat.succ_pos _)
  have hcalls : WriteCalls write block 0 (writeRound write block block.length {}) :=
    writeRound_calls (s := {}) rfl rfl fun k hk => absurd hk (Nat.not_lt_zero k)
  have hround : ∀ s, (WriteInv block s ∧ ∃ n, WriteCalls write block n s) → writeMore block.length s = true →
      ∃ t, some (writeRound write block block.length s) = some t ∧
        (WriteInv block t ∧ ∃ n, WriteCalls write block n t) ∧
        writeLeft block.length t < writeLeft block.length s := by
    rintro s ⟨hs, n, hn⟩ hmore
    have ht := writeRound_inv hwrite hs.written (Or.inl (of_decide_eq_true hmore).2)
    exact ⟨_, rfl, ⟨ht, n + 1, hn.round hmore⟩, writeRound_left hmore⟩
  have hfuel : writeLeft block.length (writeRound write block block.length {}) ≤ block.length := by
    rw [writeLeft]
    split
    · exact Nat.sub_le _ _
    · exact Nat.zero_le _
  obtain ⟨s, hloop, hstop, hs, n, hn⟩ := whileLoop_spec (fun s => WriteInv block s ∧ ∃ n, WriteCalls write block n s)
    (writeLeft block.length) hround ⟨hfirst, 0, hcalls⟩ hfuel
  exact ⟨s, n, hloop, hstop, hs, hn⟩

/-- The calls of `write`. Each of them takes of the bytes that are left as many as it answers, and is the last one
    when it takes none or leaves none. The result is told by the last one. -/
def WriteDone (write : Nat → Nat → Int) (block : Bytes) (r : Int) (written : List Bytes) : Prop :=
  ∃ n, written = (List.range (n + 1)).map (writeChunk write block) ∧
    (∀ k < n, 0 < writeRet write block.length k ∧ writeOff write block.length (k + 1) < block.length) ∧
    (writeRet write block.length n ≤ 0 ∨ writeOff write block.length (n + 1) = block.length) ∧
    (r = 0 ↔ 0 ≤ writeRet write block.length n ∧ writeOff write block.length (n + 1) = block.length)

/-- Zero is returned exactly when the whole block has been written, and no call for an empty block has failed. -/
theorem nlWriteStream_spec (hwrite : ∀ k n, write k n ≤ n) {fd : Int} (hfd : 0 ≤ fd) (block : Bytes) :
    ∃ r chunks, nlWriteStream write fd (some ⟨block.length, some block⟩) = some (r, chunks) ∧ (r = 0 ∨ r = -1) ∧
      WriteDone write block r chunks ∧ chunks.flatten <+: block ∧
      (r = 0 ↔ chunks.flatten = block ∧ (block = [] → 0 ≤ write 0 0)) := by
  obtain ⟨s, n, hloop, hstop, hs, hn⟩ := writeLoop_spec hwrite block
  have hresult : nlWriteStream write fd (some ⟨block.length, some block⟩) =
      some (if s.ret < 0 then -1 else if s.off < block.length then -1 else 0, s.chunks) := by
    simp only [nlWriteStream, if_neg (Int.not_lt.mpr hfd), Nat.lt_irrefl, if_false, hloop, Option.map_some]
  have hzero : (if s.ret < 0 then (-1 : Int) else if s.off < block.length then -1 else 0) = 0 ↔
      ¬s.ret < 0 ∧ ¬s.off < block.length := by
    split
    · next hneg => simp [hneg]
    · next hneg =>
      split
      · next hlt => simp [hlt]
      · next hlt => simp [hneg, hlt]
  have hwhole : ¬s.off < block.length ↔ s.off = block.length := by
    rw [Nat.not_lt, Nat.le_antisymm_iff, and_iff_right hs.le]
  refine ⟨_, _, hresult, ?_, ⟨n, hn.chunks, hn.more, ?_, ?_⟩, ?_, ?_⟩
  · split
    · exact Or.inr rfl
    · split
      · exact Or.inr rfl
      · exact Or.inl rfl
  · rw [← hn.ret, ← hn.off, ← hwhole]
    rcases not_and_or.mp (of_decide_eq_false hstop) with hret | hoff
    · exact Or.inl (Int.not_lt.mp hret)
    · exact Or.inr hoff
  · rw [hzero, hwhole, Int.not_lt, hn.ret, hn.off]
  · rw [hs.written]
    exact List.take_prefix _ _
  · rw [hzero]
    by_cases hnil : block = []
    · subst hnil
      have hs₀ : writeRound write [] 0 {} = s := by
        have hdone : writeMore 0 (writeRound write [] 0 {}) = false := by simp [writeMore]
        rw [List.length_nil, whileLoop_done hdone] at hloop
        exact Option.some.inj hloop
      have hret : s.ret = write 0 0 := by rw [← hs₀]; rfl
      have hflat : s.chunks.flatten = [] := by rw [hs.written, List.take_nil]
      simp [hret, hflat]
    · rw [result_iff hs hnil]
      exact ⟨fun h => ⟨h, fun hno => absurd hno hnil⟩, fun h => h.1⟩

/-! ### What has been read -/

/-- The data when these bytes have been read. -/
def heldData (got : Bytes) : RawData := ⟨got.length, if got = [] then none else some (got ++ [0])⟩

/-- An answer after which `read` is not called again. -/
def ReadResult.IsLast : ReadResult → Prop
  | .bytes chunk => chunk = []
  | .error errno => errno ≠ 0

/-- The end of the file, or no more data. -/
def ReadResult.IsEnd : ReadResult → Prop
  | .bytes chunk => chunk = []
  | .error errno => errno = eagain ∨ errno = ewouldblock

instance : DecidablePred ReadResult.IsEnd
  | .bytes chunk => inferInstanceAs (Decidable (chunk = []))
  | .error errno => inferInstanceAs (Decidable (errno = eagain ∨ errno = ewouldblock))

/-- What a chunk and the zero byte behind it leave of a block that is longer by them. -/
theorem store_chunk {b got chunk : Bytes} (hlen : b.length = got.length + chunk.length + 1)
    (hgot : b.take got.length = got) : ((storeBytes b got.length chunk).bind fun b =>
      storeBytes b (got.length + chunk.length) [0]) = some (got ++ chunk ++ [0]) := by
  have hroom : got.length + chunk.length ≤ b.length := by omega
  obtain ⟨c, hrest⟩ : ∃ c, b.drop (got.length + chunk.length) = [c] := by
    refine List.length_eq_one_iff.mp ?_
    rw [List.length_drop]
    omega
  have hlen' : (got ++ chunk).length = got.length + chunk.length := List.length_append
  rw [storeBytes, if_pos hroom, hgot, hrest, Option.bind_some, storeBytes, if_pos (by simp [Nat.add_assoc]), ← hlen',
    List.take_left, List.drop_eq_nil_of_le (by simp [Nat.add_assoc]), List.append_nil]

/-- A chunk is read behind the others. -/
theorem readStreamLoop_bytes {got chunk : Bytes} {n : Nat} {reads : List ReadResult} (hne : chunk ≠ [])
    (hlen : chunk.length ≤ 16384) : readStreamLoop alloc fill (.bytes chunk :: reads) n (heldData got) =
      if alloc n then readStreamLoop alloc fill reads (n + 1) (heldData (got ++ chunk)) else some none := by
  have hlong : ¬chunk.length > 16384 := Nat.not_lt.mpr hlen
  have hpos : chunk.length > 0 := List.length_pos_iff.mpr hne
  have hgot : ∀ f, (resized ((heldData got).data.getD []) (got.length + chunk.length + 1) f).take got.length = got := by
    intro f
    cases got with
    | nil => rfl
    | cons c got =>
      have hdata : (heldData (c :: got)).data.getD [] = c :: got ++ [0] := rfl
      rw [hdata, resized_take (by omega) (by simp), List.take_left]
  have hstore := store_chunk (resized_length (fill n)) (hgot (fill n))
  have hheld : heldData (got ++ chunk) = ⟨got.length + chunk.length, some (got ++ chunk ++ [0])⟩ := by
    have hnil : got ++ chunk ≠ [] := fun h => hne (List.append_eq_nil_iff.mp h).2
    rw [heldData, if_neg hnil, List.length_append]
  rw [readStreamLoop, if_neg hlong, if_pos hpos, hheld]
  split
  · obtain ⟨b, hb, hb'⟩ := Option.bind_eq_some_iff.mp hstore
    have hsize : (heldData got).size = got.length := rfl
    simp only [hsize, hb, hb', Option.bind_some]
  · rfl

theorem readStreamLoop_last {got : Bytes} {n : Nat} {last : ReadResult} {more : List ReadResult}
    (hlast : last.IsLast) : readStreamLoop alloc fill (last :: more) n (heldData got) =
      some (if last.IsEnd then some (heldData got) else none) := by
  cases last with
  | bytes chunk =>
    obtain rfl : chunk = [] := hlast
    rfl
  | error errno =>
    by_cases hend : errno = eagain ∨ errno = ewouldblock
    · have hno : ¬(errno ≠ 0 ∧ errno ≠ eagain ∧ errno ≠ ewouldblock) :=
        fun h => hend.elim h.2.1 h.2.2
      have hisEnd : (ReadResult.error errno).IsEnd := hend
      rw [readStreamLoop, if_neg hno, if_pos hisEnd]
    · have herr : errno ≠ 0 ∧ errno ≠ eagain ∧ errno ≠ ewouldblock := ⟨hlast, not_or.mp hend⟩
      have hisEnd : ¬(ReadResult.error errno).IsEnd := hend
      rw [readStreamLoop, if_pos herr, if_neg hisEnd]

/-- The chunks are read up to the end, unless there is no memory for one of them. -/
theorem readStreamLoop_spec {got : Bytes} {n : Nat} {chunks : List Bytes} {last : ReadResult} {more : List ReadResult}
    (hchunks : ∀ c ∈ chunks, c ≠ [] ∧ c.length ≤ 16384) (hlast : last.IsLast) :
    readStreamLoop alloc fill (chunks.map .bytes ++ last :: more) n (heldData got) =
      some (if (∀ i < chunks.length, alloc (n + i) = true) ∧ last.IsEnd then some (heldData (got ++ chunks.flatten))
        else none) := by
  induction chunks generalizing got n with
  | nil => simp [readStreamLoop_last hlast]
  | cons chunk chunks ih =>
    obtain ⟨⟨hne, hlen⟩, hchunks⟩ := List.forall_mem_cons.mp hchunks
    have halloc : (∀ i < (chunk :: chunks).length, alloc (n + i) = true) ↔
        alloc n = true ∧ ∀ i < chunks.length, alloc (n + 1 + i) = true := by
      constructor
      · intro hall
        refine ⟨hall 0 (Nat.succ_pos _), fun i hi => ?_⟩
        have hnext := hall (i + 1) (Nat.succ_lt_succ hi)
        rwa [Nat.add_comm i, ← Nat.add_assoc] at hnext
      · rintro ⟨hn, hall⟩ i hi
        cases i with
        | zero => exact hn
        | succ i =>
          rw [Nat.add_comm i, ← Nat.add_assoc]
          exact hall i (Nat.lt_of_succ_lt_succ hi)
    rw [List.map_cons, List.cons_append, readStreamLoop_bytes hne hlen, List.flatten_cons, ← List.append_assoc]
    simp only [halloc, and_assoc]
    by_cases hn : alloc n = true
    · rw [if_pos hn, ih hchunks]
      simp only [hn, true_and]
    · rw [if_neg hn]
      simp [hn]

/-- The data that is returned, or NULL. -/
theorem nlReadStream_spec {fd : Int} (hfd : 0 ≤ fd) {chunks : List Bytes} {last : ReadResult} {more : List ReadResult}
    (hchunks : ∀ c ∈ chunks, c ≠ [] ∧ c.length ≤ 16384) (hlast : last.IsLast) :
    nlReadStream alloc fill fd (chunks.map .bytes ++ last :: more) =
      some (if (∀ i ≤ chunks.length, alloc i = true) ∧ last.IsEnd then some (heldData chunks.flatten) else none) := by
  have halloc : (∀ i ≤ chunks.length, alloc i = true) ↔
      alloc 0 = true ∧ ∀ i < chunks.length, alloc (1 + i) = true := by
    constructor
    · intro hall
      refine ⟨hall 0 (Nat.zero_le _), fun i hi => hall (1 + i) ?_⟩
      rw [Nat.add_comm]
      exact hi
    · rintro ⟨h0, hall⟩ i hi
      cases i with
      | zero => exact h0
      | succ i =>
        rw [Nat.add_comm]
        exact hall i hi
  rw [nlReadStream, if_neg (Int.not_lt.mpr hfd)]
  simp only [halloc, and_assoc]
  by_cases h0 : alloc 0 = true
  · have hstart : (⟨0, none⟩ : RawData) = heldData [] := rfl
    rw [if_pos h0, hstart, readStreamLoop_spec hchunks hlast]
    simp only [h0, true_and, List.nil_append]
  · rw [if_neg h0]
    simp [h0]

end

/-- A block is written as a whole or reported, whatever counts `write` returns: what has been written is what these
    tell. What is read is the chunks, with a zero byte behind them, and a block that has been written as a whole is read
    back however a pipe splits it. -/
theorem streams_transfer (write : Nat → Nat → Int) (alloc : Nat → Bool) (fill : Nat → Nat → Byte) (fd fd' : Int)
    (block : Bytes) (chunks : List Bytes) (last : ReadResult) (more : List ReadResult)
    (hwrite : ∀ k n, write k n ≤ n) (hfd : 0 ≤ fd) (hfd' : 0 ≤ fd')
    (hchunks : ∀ c ∈ chunks, c ≠ [] ∧ c.length ≤ 16384) (hlast : last.IsLast) :
    ∃ r written, nlWriteStream write fd (some ⟨block.length, some block⟩) = some (r, written) ∧ (r = 0 ∨ r = -1) ∧
      WriteDone write block r written ∧ written.flatten <+: block ∧
      (r = 0 ↔ written.flatten = block ∧ (block = [] → 0 ≤ write 0 0)) ∧
      nlReadStream alloc fill fd' (chunks.map .bytes ++ last :: more) =
        some (if (∀ i ≤ chunks.length, alloc i = true) ∧ last.IsEnd then
          some ⟨chunks.flatten.length, if chunks.flatten = [] then none else some (chunks.flatten ++ [0])⟩ else none) ∧
      (r = 0 → chunks.flatten = written.flatten → last = .bytes [] → (∀ i ≤ chunks.length, alloc i = true) →
        nlReadStream alloc fill fd' (chunks.map .bytes ++ last :: more) =
          some (some ⟨block.length, if block = [] then none else some (block ++ [0])⟩)) := by
  obtain ⟨r, written, hresult, hr, hdone, hstart, hzero⟩ := nlWriteStream_spec hwrite hfd block
  have hread : nlReadStream alloc fill fd' (chunks.map .bytes ++ last :: more) =
      some (if (∀ i ≤ chunks.length, alloc i = true) ∧ last.IsEnd then some (heldData chunks.flatten) else none) :=
    nlReadStream_spec hfd' hchunks hlast
  refine ⟨r, written, hresult, hr, hdone, hstart, hzero, hread, ?_⟩
  intro h0 hpipe hend halloc
  have hisEnd : last.IsEnd := by
    rw [hend]
    rfl
  rw [hread, if_pos ⟨halloc, hisEnd⟩, hpipe, (hzero.mp h0).1]
  rfl

/-- Three bytes are written in two chunks and read in two others. -/
theorem streams_transfer_three : ∃ r written,
    nlWriteStream (fun _ n => min n 2) 4 (some ⟨3, some [1, 2, 3]⟩) = some (r, written) ∧ (r = 0 ∨ r = -1) ∧
      WriteDone (fun _ n => min n 2) [1, 2, 3] r written ∧ written.flatten <+: [1, 2, 3] ∧
      (r = 0 ↔ written.flatten = [1, 2, 3] ∧ (([1, 2, 3] : Bytes) = [] → (0 : Int) ≤ 0)) ∧
      nlReadStream (fun _ => true) (fun _ _ => 9) 5 [.bytes [1], .bytes [2, 3], .bytes []] =
        some (some ⟨3, some [1, 2, 3, 0]⟩) ∧
      (r = 0 → [1, 2, 3] = written.flatten → ReadResult.bytes [] = .bytes [] → (∀ i ≤ 2, true = true) →
        nlReadStream (fun _ => true) (fun _ _ => 9) 5 [.bytes [1], .bytes [2, 3], .bytes []] =
          some (some ⟨3, some [1, 2, 3, 0]⟩)) :=
  streams_transfer (fun _ n => min n 2) (fun _ => true) (fun _ _ => 9) 4 5 [1, 2, 3] [[1], [2, 3]] (.bytes []) []
    (fun _ n => Int.min_le_left n 2) (by decide) (by decide) (by decide) rfl

end Nlutils
