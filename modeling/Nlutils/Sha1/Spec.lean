import Nlutils.Bytes
import Nlutils.Lib.Blocks

/-! # SHA-1

What the hash of a message is: the message is padded to whole blocks, and each block changes five words in 80 steps,
each of which uses a word of the block's schedule. -/

namespace Nlutils
namespace Sha1

/-- The five words of a hash value, or the working variables. -/
@[ext] structure HashValue where
  a : UInt32
  b : UInt32
  c : UInt32
  d : UInt32
  e : UInt32
  deriving DecidableEq, Repr

def HashValue.toList (h : HashValue) : List UInt32 := [h.a, h.b, h.c, h.d, h.e]

def rotl (x : UInt32) (n : Nat) : UInt32 := ⟨x.toBitVec.rotateLeft n⟩

def ch (x y z : UInt32) : UInt32 := (x &&& y) ^^^ (~~~x &&& z)

def parity (x y z : UInt32) : UInt32 := x ^^^ y ^^^ z

def maj (x y z : UInt32) : UInt32 := (x &&& y) ^^^ (x &&& z) ^^^ (y &&& z)

/-- The function of step `t`. -/
def mix (t : Nat) : UInt32 → UInt32 → UInt32 → UInt32 :=
  if t < 20 then ch else if t < 40 then parity else if t < 60 then maj else parity

/-- The constant of step `t`. -/
def constant (t : Nat) : UInt32 :=
  if t < 20 then 0x5a827999 else if t < 40 then 0x6ed9eba1 else if t < 60 then 0x8f1bbcdc else 0xca62c1d6

/-- The word of four bytes, the most significant one first. -/
def bigEndian (b0 b1 b2 b3 : Byte) : UInt32 :=
  b0.toUInt32 <<< 24 ||| b1.toUInt32 <<< 16 ||| b2.toUInt32 <<< 8 ||| b3.toUInt32

def word (block : Bytes) (t : Nat) : UInt32 :=
  bigEndian (block.at (4 * t)) (block.at (4 * t + 1)) (block.at (4 * t + 2)) (block.at (4 * t + 3))

/-- The schedule `W` of a block. -/
def schedule (block : Bytes) (t : Nat) : UInt32 :=
  if t < 16 then word block t
  else
    rotl (schedule block (t - 3) ^^^ schedule block (t - 8) ^^^ schedule block (t - 14) ^^^ schedule block (t - 16)) 1

def step (block : Bytes) (h : HashValue) (t : Nat) : HashValue :=
  ⟨rotl h.a 5 + mix t h.b h.c h.d + h.e + constant t + schedule block t, h.a, rotl h.b 30, h.c, h.d⟩

/-- The working variables before step `t`. -/
def working (block : Bytes) (h : HashValue) (t : Nat) : HashValue := (List.range t).foldl (step block) h

def compress (h : HashValue) (block : Bytes) : HashValue :=
  let w := working block h 80
  ⟨h.a + w.a, h.b + w.b, h.c + w.c, h.d + w.d, h.e + w.e⟩

def initial : HashValue := ⟨0x67452301, 0xefcdab89, 0x98badcfe, 0x10325476, 0xc3d2e1f0⟩

/-- The bytes of a number, `n` of them, the most significant one first. -/
def bigEndianBytes : Nat → Nat → Bytes
  | 0, _ => []
  | n + 1, x => bigEndianBytes n (x / 256) ++ [x.toUInt8]

/-- What is put behind a message of `len` bytes so that the blocks are full: one bit, zero bits, and 64 bits for the
    length field. -/
def padding (len field : Nat) : Bytes :=
  0x80 :: List.replicate ((119 - len % 64) % 64) 0 ++ bigEndianBytes 8 field

/-- The bytes of the hash value after blocks that are given as one list. -/
def digestOf (padded : Bytes) : Bytes :=
  ((Lib.blocks 64 (padded.length / 64) padded).foldl compress initial).toList.flatMap fun x => bigEndianBytes 4 x.toNat

/-- The SHA-1 digest. The length field is the number of bits of the message, for which the standard demands fewer
    than 2^64 of them. -/
def sha1 (message : Bytes) : Bytes := digestOf (message ++ padding message.length (8 * message.length))

theorem schedule_lt {block : Bytes} {t : Nat} (ht : t < 16) : schedule block t = word block t := by
  rw [schedule, if_pos ht]

theorem schedule_ge {block : Bytes} {t : Nat} (ht : 16 ≤ t) : schedule block t = rotl (schedule block (t - 3) ^^^
    schedule block (t - 8) ^^^ schedule block (t - 14) ^^^ schedule block (t - 16)) 1 := by
  rw [schedule, if_neg (by omega)]

theorem working_succ (block : Bytes) (h : HashValue) (t : Nat) :
    working block h (t + 1) = step block (working block h t) t := by
  rw [working, List.range_succ, List.foldl_append]
  rfl

theorem length_bigEndianBytes (n x : Nat) : (bigEndianBytes n x).length = n := by
  induction n generalizing x with
  | zero => rfl
  | succ n ih => rw [bigEndianBytes, List.length_append, ih, List.length_singleton]

/-- Padded messages consist of whole blocks. -/
theorem length_padding (len field : Nat) : (len + (padding len field).length) % 64 = 0 := by
  simp only [padding, List.length_append, List.length_cons, List.length_replicate, length_bigEndianBytes]
  omega

end Sha1
end Nlutils
