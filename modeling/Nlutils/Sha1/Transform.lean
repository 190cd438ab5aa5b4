import Nlutils.Sha1.Code

/-! # One block

The unrolled rounds of `SHA1_Transform` are the steps of the compression. They keep the working variables where they
are and change their roles instead, and they keep the last 16 words of the schedule only, in the place of the block. -/

namespace Nlutils
open Sha1

/-! ### Words -/

section
variable {x : UInt32} {n i : Nat} {b0 b1 b2 b3 : Byte}

theorem rol_eq {bits : UInt32} (hpos : 0 < bits.toNat) (hlt : bits.toNat < 32) : rol x bits = rotl x bits.toNat := by
  apply UInt32.toBitVec_inj.mp
  have hright : (4294967296 - bits.toNat) % 32 = 32 - bits.toNat := by omega
  simp [rol, rotl, BitVec.rotateLeft_def, Nat.mod_eq_of_lt hlt, UInt32.toBitVec_shiftLeft, hright]

theorem rotl_bit (hi : i < 32) (hn : n < 32) : (rotl x n).toBitVec.getLsbD i =
    if i < n then x.toBitVec.getLsbD (32 - n + i) else x.toBitVec.getLsbD (i - n) := by
  rw [rotl, BitVec.getLsbD_rotateLeft, Nat.mod_eq_of_lt hn]
  simp [hi]

theorem bigEndian_eq (b0 b1 b2 b3 : Byte) : bigEndian b0 b1 b2 b3 = hostWord b3 b2 b1 b0 := by
  simp only [bigEndian, hostWord, UInt32.or_comm, UInt32.or_assoc]

theorem hostWord_bit (hi : i < 32) : (hostWord b0 b1 b2 b3).toBitVec.getLsbD i =
    if i < 8 then b0.toBitVec.getLsbD i else if i < 16 then b1.toBitVec.getLsbD (i - 8)
    else if i < 24 then b2.toBitVec.getLsbD (i - 16) else b3.toBitVec.getLsbD (i - 24) := by
  have hover (b : Byte) {k : Nat} (hk : 8 ≤ k) : b.toBitVec.getLsbD k = false := BitVec.getLsbD_of_ge _ _ hk
  have hbits : (hostWord b0 b1 b2 b3).toBitVec.getLsbD i = (b0.toBitVec.getLsbD i ||
      (!decide (i < 8) && b1.toBitVec.getLsbD (i - 8)) || (!decide (i < 16) && b2.toBitVec.getLsbD (i - 16)) ||
      (!decide (i < 24) && b3.toBitVec.getLsbD (i - 24))) := by
    simp [hostWord, hi]
  rw [hbits]
  grind

/-- What `blk0` makes of four bytes. -/
theorem swap_hostWord (b0 b1 b2 b3 : Byte) : (rol (hostWord b0 b1 b2 b3) 24 &&& 0xFF00FF00) |||
    (rol (hostWord b0 b1 b2 b3) 8 &&& 0x00FF00FF) = bigEndian b0 b1 b2 b3 := by
  have hmask : ∀ i, i < 32 → (0xFF00FF00 : UInt32).toBitVec.getLsbD i = decide (i / 8 % 2 = 1) ∧
      (0x00FF00FF : UInt32).toBitVec.getLsbD i = decide (i / 8 % 2 = 0) := by
    decide
  have h24 : (24 : UInt32).toNat = 24 := rfl
  have h8 : (8 : UInt32).toNat = 8 := rfl
  rw [rol_eq (by decide) (by decide), rol_eq (by decide) (by decide), bigEndian_eq, h24, h8]
  apply UInt32.toBitVec_inj.mp
  apply BitVec.eq_of_getLsbD_eq
  intro i hi
  obtain ⟨hodd, heven⟩ := hmask i hi
  rw [hostWord_bit hi, UInt32.toBitVec_or, BitVec.getLsbD_or, UInt32.toBitVec_and, UInt32.toBitVec_and,
    BitVec.getLsbD_and, BitVec.getLsbD_and, hodd, heven, rotl_bit hi (by decide), rotl_bit hi (by decide)]
  -- The byte of the word that the bit is in says which half of the expression it comes from.
  have hbyte : i / 8 = 0 ∨ i / 8 = 1 ∨ i / 8 = 2 ∨ i / 8 = 3 := by omega
  rcases hbyte with h | h | h | h
  · rw [if_pos (show i < 8 by omega), if_pos (show i < 24 by omega), if_pos (show i < 8 by omega),
      hostWord_bit (show 32 - 8 + i < 32 by omega)]
    grind
  · rw [if_pos (show i < 24 by omega), if_neg (show ¬i < 8 by omega), hostWord_bit (show 32 - 24 + i < 32 by omega)]
    grind
  · rw [if_pos (show i < 24 by omega), if_neg (show ¬i < 8 by omega), hostWord_bit (show i - 8 < 32 by omega)]
    grind
  · rw [if_neg (show ¬i < 24 by omega), if_neg (show ¬i < 8 by omega), hostWord_bit (show i - 24 < 32 by omega)]
    grind

theorem choose_eq (w x y : UInt32) : (w &&& (x ^^^ y)) ^^^ y = ch w x y := by
  apply UInt32.toBitVec_inj.mp
  ext i hi
  simp only [ch, UInt32.toBitVec_xor, UInt32.toBitVec_and, UInt32.toBitVec_not, BitVec.getElem_xor, BitVec.getElem_and,
    BitVec.getElem_not]
  cases w.toBitVec[i] <;> simp

theorem majority_eq (w x y : UInt32) : ((w ||| x) &&& y) ||| (w &&& x) = maj w x y := by
  apply UInt32.toBitVec_inj.mp
  ext i hi
  simp only [maj, UInt32.toBitVec_xor, UInt32.toBitVec_and, UInt32.toBitVec_or, BitVec.getElem_xor, BitVec.getElem_and,
    BitVec.getElem_or]
  cases w.toBitVec[i] <;> cases x.toBitVec[i] <;> cases y.toBitVec[i] <;> rfl

end

/-! ### The rounds -/

/-- Which variables a round has as its arguments. -/
structure Roles where
  v : Reg
  w : Reg
  x : Reg
  y : Reg
  z : Reg

def rolesAt : Nat → Roles
  | 0 => ⟨.a, .b, .c, .d, .e⟩
  | t + 1 => ⟨(rolesAt t).z, (rolesAt t).v, (rolesAt t).w, (rolesAt t).x, (rolesAt t).y⟩

/-- The variables that a round changes are not those that it reads. -/
structure Roles.Apart (r : Roles) : Prop where
  vw : r.v ≠ r.w
  vx : r.v ≠ r.x
  vy : r.v ≠ r.y
  vz : r.v ≠ r.z
  wx : r.w ≠ r.x
  wy : r.w ≠ r.y
  wz : r.w ≠ r.z
  xy : r.x ≠ r.y
  xz : r.x ≠ r.z
  yz : r.y ≠ r.z

theorem rolesAt_apart (t : Nat) : (rolesAt t).Apart := by
  induction t with
  | zero => constructor <;> nofun
  | succ t ih =>
    exact ⟨ih.vz.symm, ih.wz.symm, ih.xz.symm, ih.yz.symm, ih.vw, ih.vx, ih.vy, ih.wx, ih.wy, ih.xy⟩

/-- The function of round `t`, as it is written in the macros. -/
def mixAt (t : Nat) : UInt32 → UInt32 → UInt32 → UInt32 :=
  if t < 20 then fun w x y => (w &&& (x ^^^ y)) ^^^ y
  else if t < 40 then fun w x y => w ^^^ x ^^^ y
  else if t < 60 then fun w x y => ((w ||| x) &&& y) ||| (w &&& x)
  else fun w x y => w ^^^ x ^^^ y

def expandAt (t : Nat) (l : Vector UInt32 16) : UInt32 × Vector UInt32 16 :=
  if t < 16 then blk0 l (blockIndex t) else blk l t

def roundAt (t : Nat) : Work → Work :=
  roundSha1 (mixAt t) (expandAt t) (constant t) (rolesAt t).v (rolesAt t).w (rolesAt t).x (rolesAt t).y (rolesAt t).z

/-- Every call of the unrolled loop has its own macro, and its arguments in its order. -/
theorem roundsSha1_eq : roundsSha1 = (List.range 80).map roundAt := rfl

theorem mixAt_eq (t : Nat) (w x y : UInt32) : mixAt t w x y = mix t w x y := by
  rw [mixAt, mix]
  split
  · exact choose_eq w x y
  · split
    · rfl
    · split
      · exact majority_eq w x y
      · rfl

section
variable {b : Vector Byte 64} {h : HashValue} {s : Work} {t : Nat}

/-- What the words of the block hold before round `t`: the last words of the schedule, and behind them the words of the
    block that no round has read yet. -/
structure Expanded (b : Vector Byte 64) (t : Nat) (l : Vector UInt32 16) : Prop where
  words : ∀ u, u < t → t ≤ u + 16 → l.get (blockIndex u) = schedule b.toList u
  raw : ∀ i : Fin 16, t ≤ i.val → l.get i = (blockWords b).get i

theorem blockIndex_val (t : Nat) : (blockIndex t).val = t % 16 := rfl

theorem blockIndex_inj {u : Nat} : blockIndex u = blockIndex t ↔ u % 16 = t % 16 := Fin.ext_iff

theorem blockWords_get (i : Fin 16) : (rol ((blockWords b).get i) 24 &&& 0xFF00FF00) |||
    (rol ((blockWords b).get i) 8 &&& 0x00FF00FF) = schedule b.toList i.val := by
  have hget : (blockWords b).get i = hostWord (Bytes.at b.toList (4 * i.val)) (Bytes.at b.toList (4 * i.val + 1))
      (Bytes.at b.toList (4 * i.val + 2)) (Bytes.at b.toList (4 * i.val + 3)) := Vector.getElem_ofFn _
  rw [hget, swap_hostWord, schedule_lt i.isLt, word]

/-- The word that a round adds, and where it is kept. -/
theorem expandAt_spec {l : Vector UInt32 16} (hl : Expanded b t l) :
    (expandAt t l).1 = schedule b.toList t ∧
      (expandAt t l).2 = setWord l (blockIndex t) (schedule b.toList t) := by
  have hword : (expandAt t l).1 = schedule b.toList t := by
    rw [expandAt]
    split
    · next ht =>
      have hval : (blockIndex t).val = t := Nat.mod_eq_of_lt ht
      simp only [blk0]
      rw [hl.raw _ hval.ge, blockWords_get, hval]
    · next ht =>
      have hback (k u : Nat) (hu : t + k = u + 16) (hk : k < 16) :
          l.get (blockIndex (t + k)) = schedule b.toList u := by
        have hindex : blockIndex (t + k) = blockIndex u := blockIndex_inj.mpr (by omega)
        rw [hindex, hl.words u (by omega) (by omega)]
      have hzero : l.get (blockIndex t) = schedule b.toList (t - 16) := hback 0 (t - 16) (by omega) (by decide)
      simp only [blk]
      rw [hback 13 (t - 3) (by omega) (by decide), hback 8 (t - 8) (by omega) (by decide),
        hback 2 (t - 14) (by omega) (by decide), hzero, schedule_ge (t := t) (by omega)]
      exact rol_eq (by decide) (by decide)
  refine ⟨hword, ?_⟩
  rw [← hword, expandAt]
  split
  · rfl
  · rfl

theorem Expanded.next {l : Vector UInt32 16} (hl : Expanded b t l) : Expanded b (t + 1) (expandAt t l).2 := by
  have hset (i : Fin 16) : (expandAt t l).2.get i = if blockIndex t = i then schedule b.toList t else l.get i := by
    rw [(expandAt_spec hl).2]
    show (l.set (blockIndex t).val (schedule b.toList t))[i.val] = _
    simp only [Vector.getElem_set, Fin.val_inj]
    rfl
  constructor
  · intro u hu hlast
    rw [hset]
    by_cases hut : u = t
    · rw [hut, if_pos rfl]
    · have hne : blockIndex t ≠ blockIndex u := by
        rw [Ne, blockIndex_inj]
        omega
      rw [if_neg hne]
      exact hl.words u (by omega) (by omega)
  · intro i hi
    have hne : blockIndex t ≠ i := by
      rintro rfl
      rw [blockIndex_val] at hi
      omega
    rw [hset, if_neg hne]
    exact hl.raw i (by omega)

/-- The working variables as the roles of the next round name them. -/
def Work.named (s : Work) (r : Roles) : HashValue := ⟨s.regs r.v, s.regs r.w, s.regs r.x, s.regs r.y, s.regs r.z⟩

theorem roundSha1_named {f : UInt32 → UInt32 → UInt32 → UInt32}
    {expand : Vector UInt32 16 → UInt32 × Vector UInt32 16} {k : UInt32} {r : Roles} (hr : r.Apart) :
    (roundSha1 f expand k r.v r.w r.x r.y r.z s).named ⟨r.z, r.v, r.w, r.x, r.y⟩ =
      ⟨s.regs r.z + (f (s.regs r.w) (s.regs r.x) (s.regs r.y) + (expand s.l).1 + k + rol (s.regs r.v) 5),
        s.regs r.v, rol (s.regs r.w) 30, s.regs r.x, s.regs r.y⟩ := by
  simp [Work.named, roundSha1, Work.set, hr.vw, hr.vz, hr.wz, hr.wz.symm, hr.wx.symm, hr.xz, hr.wy.symm, hr.yz]

/-- A round is a step of the compression. -/
theorem roundAt_named (hl : Expanded b t s.l) (hs : s.named (rolesAt t) = working b.toList h t) :
    (roundAt t s).named (rolesAt (t + 1)) = working b.toList h (t + 1) := by
  have hround : (roundAt t s).named (rolesAt (t + 1)) = _ := roundSha1_named (rolesAt_apart t)
  have hsum (z m w k v : UInt32) : z + (m + w + k + v) = v + m + z + k + w := by
    ac_rfl
  rw [hround, working_succ, ← hs, (expandAt_spec hl).1, mixAt_eq, rol_eq (by decide) (by decide),
    rol_eq (by decide) (by decide), hsum]
  rfl

theorem rounds_spec {s : Work} (hl : Expanded b 0 s.l) (hs : s.named (rolesAt 0) = h) (t : Nat) :
    Expanded b t (runRounds ((List.range t).map roundAt) s).l ∧
      (runRounds ((List.range t).map roundAt) s).named (rolesAt t) = working b.toList h t := by
  induction t with
  | zero => exact ⟨hl, hs⟩
  | succ t ih =>
    obtain ⟨hl, hs⟩ := ih
    have hsucc : runRounds ((List.range (t + 1)).map roundAt) s =
        roundAt t (runRounds ((List.range t).map roundAt) s) := by
      rw [List.range_succ, List.map_append, runRounds, List.foldl_append]
      rfl
    rw [hsucc]
    exact ⟨hl.next, roundAt_named hl hs⟩

/-- The words that are left in a block. -/
def lastWords (block : Bytes) : Vector UInt32 16 := Vector.ofFn fun i : Fin 16 => schedule block (64 + i.val)

theorem Expanded.last {l : Vector UInt32 16} (hl : Expanded b 80 l) : l = lastWords b.toList := by
  apply Vector.ext
  intro i hi
  have hword := hl.words (64 + i) (by omega) (by omega)
  have hindex : blockIndex (64 + i) = ⟨i, hi⟩ := by
    apply Fin.ext
    rw [blockIndex_val]
    show (64 + i) % 16 = i
    omega
  rw [hindex] at hword
  rw [lastWords, Vector.getElem_ofFn]
  exact hword

/-- After all rounds the variables have their first roles. -/
theorem compress_named (state : HashValue) (hs : s.named (rolesAt 80) = working b.toList state 80) :
    (⟨state.a + s.regs .a, state.b + s.regs .b, state.c + s.regs .c, state.d + s.regs .d, state.e + s.regs .e⟩ :
      HashValue) = compress state b.toList := by
  rw [compress, ← hs]
  rfl

/-- `SHA1_Transform` compresses the block, and leaves the last words of its schedule in it. -/
theorem sha1Transform_eq (state : HashValue) (b : Vector Byte 64) :
    sha1Transform state b = (compress state b.toList, blockBytes (lastWords b.toList)) := by
  have hwords : Expanded b 0 (blockWords b) := ⟨fun u hu _ => absurd hu (Nat.not_lt_zero u), fun _ _ => rfl⟩
  obtain ⟨hl, hs⟩ := rounds_spec (s := ⟨workingVars state, blockWords b⟩) hwords rfl 80
  rw [← roundsSha1_eq] at hl hs
  simp only [sha1Transform, compress_named state hs, hl.last]

end

end Nlutils
