import Nlutils.Lib.While
import Nlutils.Sha1.Spec
import Nlutils.Str.Hex

/-! # The hash functions of `sha1.c`

On a little-endian host and without `SHA1HANDSOFF`, as the file is compiled: `SHA1_Transform` uses the block that it is
given as its workspace, so the block's bytes are gone afterwards. There is no result where a copy does not fit in the
context's buffer or a block lies outside the data, or when a loop has not ended after the given number of rounds. -/

namespace Nlutils
open Sha1

/-- The macro `rol`. -/
def rol (value bits : UInt32) : UInt32 := (value <<< bits) ||| (value >>> (32 - bits))

/-- Four bytes as the host reads them. -/
def hostWord (c0 c1 c2 c3 : Byte) : UInt32 :=
  c0.toUInt32 ||| c1.toUInt32 <<< 8 ||| c2.toUInt32 <<< 16 ||| c3.toUInt32 <<< 24

/-- The words `block->l` of a block of bytes. -/
def blockWords (b : Vector Byte 64) : Vector UInt32 16 :=
  Vector.ofFn fun i : Fin 16 => hostWord (Bytes.at b.toList (4 * i.val)) (Bytes.at b.toList (4 * i.val + 1))
    (Bytes.at b.toList (4 * i.val + 2)) (Bytes.at b.toList (4 * i.val + 3))

/-- The bytes `block->c` of the words. -/
def blockBytes (l : Vector UInt32 16) : Vector Byte 64 :=
  Vector.ofFn fun i : Fin 64 => (l[i.val / 4] >>> (8 * (i.val % 4)).toUInt32).toUInt8

/-- `i & 15` -/
def blockIndex (i : Nat) : Fin 16 := Fin.ofNat 16 i

/-- `block->l[i] = x` -/
def setWord (l : Vector UInt32 16) (i : Fin 16) (x : UInt32) : Vector UInt32 16 := l.set i x

def blk0 (l : Vector UInt32 16) (i : Fin 16) : UInt32 × Vector UInt32 16 :=
  let x := (rol (l.get i) 24 &&& 0xFF00FF00) ||| (rol (l.get i) 8 &&& 0x00FF00FF)
  (x, setWord l i x)

def blk (l : Vector UInt32 16) (i : Nat) : UInt32 × Vector UInt32 16 :=
  let x := rol (l.get (blockIndex (i + 13)) ^^^ l.get (blockIndex (i + 8)) ^^^ l.get (blockIndex (i + 2)) ^^^
    l.get (blockIndex i)) 1
  (x, setWord l (blockIndex i) x)

/-- The working variables of `SHA1_Transform`. -/
inductive Reg
  | a | b | c | d | e
  deriving DecidableEq

structure Work where
  regs : Reg → UInt32
  l : Vector UInt32 16

def Work.set (s : Work) (r : Reg) (x : UInt32) : Work := { s with regs := fun q => if q = r then x else s.regs q }

/-- What the five macros of a round have in common. -/
def roundSha1 (f : UInt32 → UInt32 → UInt32 → UInt32) (expand : Vector UInt32 16 → UInt32 × Vector UInt32 16)
    (k : UInt32) (v w x y z : Reg) (s : Work) : Work :=
  let (m, l) := expand s.l
  let s := { s with l }.set z (s.regs z + (f (s.regs w) (s.regs x) (s.regs y) + m + k + rol (s.regs v) 5))
  s.set w (rol (s.regs w) 30)

def r0Sha1 (v w x y z : Reg) (i : Fin 16) : Work → Work :=
  roundSha1 (fun w x y => (w &&& (x ^^^ y)) ^^^ y) (blk0 · i) 0x5A827999 v w x y z

def r1Sha1 (v w x y z : Reg) (i : Nat) : Work → Work :=
  roundSha1 (fun w x y => (w &&& (x ^^^ y)) ^^^ y) (blk · i) 0x5A827999 v w x y z

def r2Sha1 (v w x y z : Reg) (i : Nat) : Work → Work :=
  roundSha1 (fun w x y => w ^^^ x ^^^ y) (blk · i) 0x6ED9EBA1 v w x y z

def r3Sha1 (v w x y z : Reg) (i : Nat) : Work → Work :=
  roundSha1 (fun w x y => ((w ||| x) &&& y) ||| (w &&& x)) (blk · i) 0x8F1BBCDC v w x y z

def r4Sha1 (v w x y z : Reg) (i : Nat) : Work → Work :=
  roundSha1 (fun w x y => w ^^^ x ^^^ y) (blk · i) 0xCA62C1D6 v w x y z

open Reg in
/-- The unrolled loop, 4 rounds of 20 operations each. -/
def roundsSha1 : List (Work → Work) := [
  r0Sha1 a b c d e 0, r0Sha1 e a b c d 1, r0Sha1 d e a b c 2, r0Sha1 c d e a b 3,
  r0Sha1 b c d e a 4, r0Sha1 a b c d e 5, r0Sha1 e a b c d 6, r0Sha1 d e a b c 7,
  r0Sha1 c d e a b 8, r0Sha1 b c d e a 9, r0Sha1 a b c d e 10, r0Sha1 e a b c d 11,
  r0Sha1 d e a b c 12, r0Sha1 c d e a b 13, r0Sha1 b c d e a 14, r0Sha1 a b c d e 15,
  r1Sha1 e a b c d 16, r1Sha1 d e a b c 17, r1Sha1 c d e a b 18, r1Sha1 b c d e a 19] ++ [
  r2Sha1 a b c d e 20, r2Sha1 e a b c d 21, r2Sha1 d e a b c 22, r2Sha1 c d e a b 23,
  r2Sha1 b c d e a 24, r2Sha1 a b c d e 25, r2Sha1 e a b c d 26, r2Sha1 d e a b c 27,
  r2Sha1 c d e a b 28, r2Sha1 b c d e a 29, r2Sha1 a b c d e 30, r2Sha1 e a b c d 31,
  r2Sha1 d e a b c 32, r2Sha1 c d e a b 33, r2Sha1 b c d e a 34, r2Sha1 a b c d e 35,
  r2Sha1 e a b c d 36, r2Sha1 d e a b c 37, r2Sha1 c d e a b 38, r2Sha1 b c d e a 39] ++ [
  r3Sha1 a b c d e 40, r3Sha1 e a b c d 41, r3Sha1 d e a b c 42, r3Sha1 c d e a b 43,
  r3Sha1 b c d e a 44, r3Sha1 a b c d e 45, r3Sha1 e a b c d 46, r3Sha1 d e a b c 47,
  r3Sha1 c d e a b 48, r3Sha1 b c d e a 49, r3Sha1 a b c d e 50, r3Sha1 e a b c d 51,
  r3Sha1 d e a b c 52, r3Sha1 c d e a b 53, r3Sha1 b c d e a 54, r3Sha1 a b c d e 55,
  r3Sha1 e a b c d 56, r3Sha1 d e a b c 57, r3Sha1 c d e a b 58, r3Sha1 b c d e a 59] ++ [
  r4Sha1 a b c d e 60, r4Sha1 e a b c d 61, r4Sha1 d e a b c 62, r4Sha1 c d e a b 63,
  r4Sha1 b c d e a 64, r4Sha1 a b c d e 65, r4Sha1 e a b c d 66, r4Sha1 d e a b c 67,
  r4Sha1 c d e a b 68, r4Sha1 b c d e a 69, r4Sha1 a b c d e 70, r4Sha1 e a b c d 71,
  r4Sha1 d e a b c 72, r4Sha1 c d e a b 73, r4Sha1 b c d e a 74, r4Sha1 a b c d e 75,
  r4Sha1 e a b c d 76, r4Sha1 d e a b c 77, r4Sha1 c d e a b 78, r4Sha1 b c d e a 79]

def runRounds (rounds : List (Work → Work)) (s : Work) : Work := rounds.foldl (fun s round => round s) s

/-- Copies `context->state[]` to the working variables. -/
def workingVars (state : HashValue) : Reg → UInt32
  | .a => state.a
  | .b => state.b
  | .c => state.c
  | .d => state.d
  | .e => state.e

/-- The state, and the block, which holds what the rounds have made of it. -/
def sha1Transform (state : HashValue) (buffer : Vector Byte 64) : HashValue × Vector Byte 64 :=
  let s := runRounds roundsSha1 ⟨workingVars state, blockWords buffer⟩
  (⟨state.a + s.regs .a, state.b + s.regs .b, state.c + s.regs .c, state.d + s.regs .d, state.e + s.regs .e⟩,
    blockBytes s.l)

/-- The words of `state` are its members, and those of `count` the two of a pair. -/
structure NlSha1Ctx where
  state : HashValue
  count : UInt32 × UInt32
  buffer : Vector Byte 64

def nlSha1Init (context : NlSha1Ctx) : NlSha1Ctx :=
  { context with
    state := ⟨0x67452301, 0xEFCDAB89, 0x98BADCFE, 0x10325476, 0xC3D2E1F0⟩
    count := (0, 0) }

/-- `memcpy(&buffer[j], src, ..)` -/
def memcpyBuffer (buffer : Vector Byte 64) (j : Nat) (src : Bytes) : Option (Vector Byte 64) :=
  let dst := buffer.toList.take j ++ src ++ buffer.toList.drop (j + src.length)
  if h : dst.toArray.size = 64 then some ⟨dst.toArray, h⟩ else none

/-- `SHA1_Transform(state, data + i)` -/
def transformAt (state : HashValue) (data : Bytes) (i : Nat) : Option (HashValue × Bytes) :=
  let block := ((data.drop i).take 64).toArray
  if h : block.size = 64 then
    let (state, block) := sha1Transform state ⟨block, h⟩
    some (state, data.take i ++ block.toList ++ data.drop (i + 64))
  else none

/-- The state, the data and `i` in the loop over the blocks. -/
structure BlockLoop where
  state : HashValue
  data : Bytes
  i : Nat

/-- The body of `for ( ; i + 63 < len; i += 64)` -/
def BlockLoop.round (s : BlockLoop) : Option BlockLoop :=
  (transformAt s.state s.data s.i).map fun (state, data) => ⟨state, data, s.i + 64⟩

def transformLoop (s : BlockLoop) : Option BlockLoop :=
  Lib.whileLoop (fun s : BlockLoop => s.i + 63 < s.data.length) BlockLoop.round s.data.length s

/-- The context, and the data, in which blocks are transformed where they are. The length of the data is the argument
    `len`, a `size_t`. -/
def nlSha1Update (context : NlSha1Ctx) (data : Bytes) : Option (NlSha1Ctx × Bytes) := do
  let len := data.length.toUInt64
  let j := (context.count.1 >>> 3 &&& 63).toNat
  let count0 := context.count.1 + (len <<< 3).toUInt32
  -- The sum has 32 bits, what it is compared with has 64.
  let count1 := if count0.toUInt64 < len <<< 3 then context.count.2 + 1 else context.count.2
  let count := (count0, count1 + (len >>> 29).toUInt32)
  if j + data.length > 63 then
    let buffer ← memcpyBuffer context.buffer j (data.take (64 - j))
    let (state, buffer) := sha1Transform context.state buffer
    let s ← transformLoop ⟨state, data, 64 - j⟩
    let buffer ← memcpyBuffer buffer 0 (s.data.drop s.i)
    return ({ state := s.state, count, buffer }, s.data)
  else
    let buffer ← memcpyBuffer context.buffer j data
    return ({ context with count, buffer }, data)

/-- The array `finalcount`. -/
def finalcount (count : UInt32 × UInt32) : Bytes :=
  (List.range 8).map fun i =>
    ((if i ≥ 4 then count.1 else count.2) >>> ((3 - (i &&& 3)) * 8).toUInt32 &&& 255).toUInt8

/-- The context, whose contents are wiped, and the digest. -/
def nlSha1Final (context : NlSha1Ctx) : Option (NlSha1Ctx × Bytes) := do
  let count := finalcount context.count
  let (context, _) ← nlSha1Update context [0x80]
  let context ← Lib.whileLoop (fun context : NlSha1Ctx => context.count.1 &&& 504 != 448)
    (fun context => (nlSha1Update context [0]).map (·.1)) 64 context
  let (context, _) ← nlSha1Update context count
  let digest := (List.range 20).map fun i =>
    (context.state.toList.getD (i >>> 2) 0 >>> ((3 - (i &&& 3)) * 8).toUInt32 &&& 255).toUInt8
  return ({ state := ⟨0, 0, 0, 0, 0⟩, count := (0, 0), buffer := Vector.replicate 64 0 }, digest)

/-- The text, and the data afterwards. The context is on the stack, with any contents at first; the last parameter is
    whether the allocation of the text succeeds. -/
def nlSha1 (ctx : NlSha1Ctx) (data : Option Bytes) (mallocOk : Bool) : Option (Option Bytes × Option Bytes) :=
  match data with
  | none => some (none, none)
  | some data => do
    let (ctx, data) ← nlSha1Update (nlSha1Init ctx) data
    let (_, digest) ← nlSha1Final ctx
    return (if mallocOk then some (nlToHex digest) else none, some data)

end Nlutils
