import Nlutils.Lib.Machine
import Nlutils.Variant.Copy
import Mathlib.Data.List.Nodup

/-! # The memory of variants (`nl_duplicate_variant` and `nl_destroy_variant` of `variant.c`)

A variant owns the string, or the structure and the contents, that it points to. In every order of duplicating and
destroying, and whichever allocations fail, each block of memory has one owner. -/

namespace Nlutils

/-! ### Destroying -/

/-- There is no result where something is freed that is not there. -/
def nlDestroyData (h : ContentHeap) : Option Lib.Addr → Option ContentHeap
  | none => some h
  | some p =>
    (h.data.get p).bind fun data =>
      (match data.data with
        | none => some h
        | some q => (h.contents.free q).map fun contents => { h with contents := contents }).bind fun h =>
          (h.data.free p).map fun cells => { h with data := cells }

def nlDestroyVariant (h : ContentHeap) : Variant → Option ContentHeap
  | .string (some p) => (h.strings.free p).map fun strings => { h with strings := strings }
  | .data (some p) => nlDestroyData h (some p)
  | _ => some h

/-! ### Blocks of memory -/

/-- A block of memory: a string, a raw data structure, or the contents of one. -/
inductive MemBlock
  | string (p : Lib.Addr)
  | data (p : Lib.Addr)
  | contents (p : Lib.Addr)
  deriving DecidableEq, Repr

/-- What a block holds. -/
inductive Held
  | string (s : Bytes)
  | data (cell : RawDataCell)
  | contents (bs : Bytes)

def ContentHeap.held (h : ContentHeap) : MemBlock → Option Held
  | .string p => (h.strings.get p).map .string
  | .data p => (h.data.get p).map .data
  | .contents p => (h.contents.get p).map .contents

/-- The blocks that a variant points to. -/
def Variant.blocks (h : ContentHeap) : Variant → List MemBlock
  | .string (some p) => [.string p]
  | .data (some p) =>
    match (h.data.get p).bind (·.data) with
    | none => [.data p]
    | some q => [.data p, .contents q]
  | _ => []

/-- It points to nothing. -/
def Variant.isPlain : Variant → Bool
  | .string (some _) => false
  | .data (some _) => false
  | _ => true

/-- What a variant stands for. -/
inductive VarValue
  | plain (v : Variant)
  | string (s : Bytes)
  | data (r : RawData)

def Variant.value (h : ContentHeap) : Variant → Option VarValue
  | .string (some p) => (h.strings.get p).map .string
  | .data (some p) => ((h.data.get p).bind (·.load h)).map .data
  | v => some (.plain v)

/-- The contents are as long as the size tells, if there are any. -/
def VarValue.Whole : VarValue → Prop
  | .data r => ∀ bs ∈ r.data, r.size ≤ bs.length
  | _ => True

/-- What a duplicate stands for. Raw data has no contents then where its size is zero. -/
def VarValue.copy (mallocOk copyOk : Bool) : VarValue → VarValue
  | .string s => if mallocOk then .string s else .plain .invalid
  | .data r => if mallocOk ∧ nlCopyData copyOk r ≠ .error then .data (nlCopyData copyOk r) else .plain .invalid
  | x => x

/-- `malloc` for raw data and its contents, if it has any. -/
def makeData (h : ContentHeap) (size : UInt64) : Option Bytes → Lib.Addr × ContentHeap
  | none => ((h.data.alloc ⟨size, none⟩).1, { h with data := (h.data.alloc ⟨size, none⟩).2 })
  | some bs =>
    let (q, contents) := h.contents.alloc bs
    ((h.data.alloc ⟨size, some q⟩).1, { h with data := (h.data.alloc ⟨size, some q⟩).2, contents := contents })

/-- A variant has been made: its blocks are new ones, and nothing else has changed. -/
structure Makes (h h' : ContentHeap) (v : Variant) (x : VarValue) : Prop where
  value : v.value h' = some x
  fresh : ∀ b ∈ v.blocks h', h.held b = none ∧ h'.held b ≠ none
  once : (v.blocks h').Nodup
  others : ∀ b, b ∉ v.blocks h' → h'.held b = h.held b

/-- A variant is there no more. -/
structure Unmakes (h h' : ContentHeap) (v : Variant) : Prop where
  freed : ∀ b ∈ v.blocks h, h'.held b = none
  others : ∀ b, b ∉ v.blocks h → h'.held b = h.held b

section
variable {h h' : ContentHeap} {v : Variant} {x : VarValue} {p q : Lib.Addr} {s bs : Bytes} {c : RawDataCell}
  {mallocOk copyOk : Bool}

theorem held_string : h'.held (.string p) = h.held (.string p) ↔ h'.strings.get p = h.strings.get p :=
  Option.map_inj_right fun _ _ heq => Held.string.inj heq

theorem held_data : h'.held (.data p) = h.held (.data p) ↔ h'.data.get p = h.data.get p :=
  Option.map_inj_right fun _ _ heq => Held.data.inj heq

theorem held_contents : h'.held (.contents p) = h.held (.contents p) ↔ h'.contents.get p = h.contents.get p :=
  Option.map_inj_right fun _ _ heq => Held.contents.inj heq

theorem blocks_data (hc : h.data.get p = some c) :
    Variant.blocks h (.data (some p)) = .data p :: (c.data.map MemBlock.contents).toList := by
  simp only [Variant.blocks, hc, Option.bind_some]
  cases c.data <;> rfl

/-- What a variant stands for depends on its blocks. -/
theorem Variant.congr (hheld : ∀ b ∈ v.blocks h, h'.held b = h.held b) (hx : v.value h = some x) :
    v.blocks h' = v.blocks h ∧ v.value h' = some x := by
  cases v with
  | string p =>
    cases p with
    | none => exact ⟨rfl, hx⟩
    | some p =>
      have hget := held_string.mp (hheld (.string p) (List.mem_singleton_self _))
      rw [Variant.value, hget]
      exact ⟨rfl, hx⟩
  | data p =>
    cases p with
    | none => exact ⟨rfl, hx⟩
    | some p =>
      obtain ⟨r, hr, rfl⟩ := Option.map_eq_some_iff.mp hx
      obtain ⟨c, hc, hload⟩ := Option.bind_eq_some_iff.mp hr
      rw [blocks_data hc] at hheld ⊢
      obtain ⟨hdata, hcontents⟩ := List.forall_mem_cons.mp hheld
      have hc' : h'.data.get p = some c := (held_data.mp hdata).trans hc
      refine ⟨blocks_data hc', ?_⟩
      have hload' : c.load h' = some r := by
        obtain ⟨size, data⟩ := c
        cases data with
        | none => exact hload
        | some q =>
          have hq := held_contents.mp (hcontents (.contents q) (by simp))
          rw [RawDataCell.load] at hload ⊢
          simp only [hq]
          exact hload
      rw [Variant.value, hc', Option.bind_some, hload']
      rfl
  | invalid => exact ⟨rfl, hx⟩
  | any n => exact ⟨rfl, hx⟩
  | integer n => exact ⟨rfl, hx⟩
  | floating f => exact ⟨rfl, hx⟩

theorem isPlain_spec (hv : v.isPlain = true) : v.blocks h = [] ∧ v.value h = some (.plain v) := by
  cases v with
  | string p =>
    cases p with
    | none => exact ⟨rfl, rfl⟩
    | some p => cases hv
  | data p =>
    cases p with
    | none => exact ⟨rfl, rfl⟩
    | some p => cases hv
  | invalid => exact ⟨rfl, rfl⟩
  | any n => exact ⟨rfl, rfl⟩
  | integer n => exact ⟨rfl, rfl⟩
  | floating f => exact ⟨rfl, rfl⟩

/-! ### Making -/

/-- A change to one block. -/
theorem held_update {b : MemBlock} {o : Option Held} (hb : h'.held b = o)
    (hstrings : ∀ p, MemBlock.string p ≠ b → h'.strings.get p = h.strings.get p)
    (hdata : ∀ p, MemBlock.data p ≠ b → h'.data.get p = h.data.get p)
    (hcontents : ∀ p, MemBlock.contents p ≠ b → h'.contents.get p = h.contents.get p) (b' : MemBlock) :
    h'.held b' = if b' = b then o else h.held b' := by
  by_cases hne : b' = b
  · rw [hne, if_pos rfl, hb]
  · rw [if_neg hne]
    cases b' with
    | string p => exact held_string.mpr (hstrings p hne)
    | data p => exact held_data.mpr (hdata p hne)
    | contents p => exact held_contents.mpr (hcontents p hne)

theorem held_allocString : ∀ b, ContentHeap.held { h with strings := (h.strings.alloc s).2 } b =
    if b = .string h.strings.cells.length then some (.string s) else h.held b :=
  held_update (congrArg (Option.map Held.string) Lib.Heap.get_alloc_self)
    (fun _ hp => Lib.Heap.get_alloc_ne fun heq => hp (congrArg MemBlock.string heq)) (fun _ _ => rfl) fun _ _ => rfl

theorem held_allocData : ∀ b, ContentHeap.held { h with data := (h.data.alloc c).2 } b =
    if b = .data h.data.cells.length then some (.data c) else h.held b :=
  held_update (congrArg (Option.map Held.data) Lib.Heap.get_alloc_self) (fun _ _ => rfl)
    (fun _ hp => Lib.Heap.get_alloc_ne fun heq => hp (congrArg MemBlock.data heq)) fun _ _ => rfl

theorem held_allocContents : ∀ b, ContentHeap.held { h with contents := (h.contents.alloc bs).2 } b =
    if b = .contents h.contents.cells.length then some (.contents bs) else h.held b :=
  held_update (congrArg (Option.map Held.contents) Lib.Heap.get_alloc_self) (fun _ _ => rfl) (fun _ _ => rfl)
    fun _ hp => Lib.Heap.get_alloc_ne fun heq => hp (congrArg MemBlock.contents heq)

theorem held_new : h.held (.string h.strings.cells.length) = none ∧ h.held (.data h.data.cells.length) = none ∧
    h.held (.contents h.contents.cells.length) = none := by
  simp [ContentHeap.held, Lib.Heap.get]

theorem makes_string (s : Bytes) : Makes h { h with strings := (h.strings.alloc s).2 }
    (.string (some (h.strings.alloc s).1)) (.string s) := by
  refine ⟨congrArg (Option.map VarValue.string) Lib.Heap.get_alloc_self, ?_, List.nodup_singleton _, ?_⟩
  · intro b hb
    rw [List.mem_singleton.mp hb, held_allocString]
    exact ⟨held_new.1, by simp [Lib.Heap.alloc]⟩
  · intro b hb
    have hne : b ≠ .string h.strings.cells.length := fun heq => hb (List.mem_singleton.mpr heq)
    rw [held_allocString, if_neg hne]

/-- Raw data is made with its contents first. -/
theorem makes_data (size : UInt64) (contents : Option Bytes) : Makes h (makeData h size contents).2
    (.data (some (makeData h size contents).1)) (.data ⟨size.toNat, contents⟩) := by
  cases contents with
  | none =>
    have hget : (h.data.alloc ⟨size, none⟩).2.get h.data.cells.length = some ⟨size, none⟩ := Lib.Heap.get_alloc_self
    have hblocks : Variant.blocks (makeData h size none).2 (.data (some (makeData h size none).1)) =
        [.data h.data.cells.length] := blocks_data (h := { h with data := (h.data.alloc ⟨size, none⟩).2 }) hget
    refine ⟨?_, ?_, ?_, ?_⟩
    · exact congrArg (Option.map VarValue.data) (congrArg (Option.bind · _) hget)
    · intro b hb
      rw [hblocks] at hb
      rw [List.mem_singleton.mp hb, makeData, held_allocData]
      exact ⟨held_new.2.1, by simp⟩
    · rw [hblocks]
      exact List.nodup_singleton _
    · intro b hb
      rw [hblocks] at hb
      rw [makeData, held_allocData, if_neg fun heq => hb (List.mem_singleton.mpr heq)]
  | some bs =>
    have hget : (h.data.alloc ⟨size, some h.contents.cells.length⟩).2.get h.data.cells.length =
        some ⟨size, some h.contents.cells.length⟩ := Lib.Heap.get_alloc_self
    have hblocks : Variant.blocks (makeData h size (some bs)).2 (.data (some (makeData h size (some bs)).1)) =
        [.data h.data.cells.length, .contents h.contents.cells.length] :=
      blocks_data (h := (makeData h size (some bs)).2) hget
    have hheld : ∀ b, (makeData h size (some bs)).2.held b =
        if b = .data h.data.cells.length then some (.data ⟨size, some h.contents.cells.length⟩)
        else if b = .contents h.contents.cells.length then some (.contents bs) else h.held b := by
      intro b
      rw [← held_allocContents]
      exact held_allocData (h := { h with contents := (h.contents.alloc bs).2 }) b
    refine ⟨?_, ?_, ?_, ?_⟩
    · have hload : RawDataCell.load (makeData h size (some bs)).2 ⟨size, some h.contents.cells.length⟩ =
          some ⟨size.toNat, some bs⟩ := congrArg (Option.map _) Lib.Heap.get_alloc_self
      rw [Variant.value, show (makeData h size (some bs)).2.data.get (makeData h size (some bs)).1 = _ from hget,
        Option.bind_some, hload]
      rfl
    · intro b hb
      rw [hblocks] at hb
      rw [hheld]
      simp only [List.mem_cons, List.not_mem_nil, or_false] at hb
      rcases hb with rfl | rfl
      · exact ⟨held_new.2.1, by simp⟩
      · exact ⟨held_new.2.2, by simp⟩
    · rw [hblocks]
      simp
    · intro b hb
      rw [hblocks] at hb
      obtain ⟨hdata, hcontents⟩ := not_or.mp (mt List.mem_cons.mpr hb)
      rw [hheld, if_neg hdata, if_neg fun heq => hcontents (List.mem_singleton.mpr heq)]

/-- What points to nothing is made without memory. -/
theorem makes_plain (hblocks : v.blocks h = []) (hx : v.value h = some x) : Makes h h v x := by
  refine ⟨hx, ?_, ?_, fun _ _ => rfl⟩
  · rw [hblocks]
    exact fun b hb => (List.not_mem_nil hb).elim
  · rw [hblocks]
    exact List.nodup_nil

/-- What is duplicated on the heap is what copying makes of it. -/
theorem nlDuplicateData_eq {r : RawData} (hc : h.data.get p = some c) (hr : c.load h = some r)
    (hwhole : VarValue.Whole (.data r)) : nlDuplicateData mallocOk copyOk h (some p) =
      some (if mallocOk ∧ nlCopyData copyOk r ≠ .error then
        (some (makeData h c.size (nlCopyData copyOk r).data).1, (makeData h c.size (nlCopyData copyOk r).data).2)
      else (none, h)) := by
  have hsize : ∀ {n : UInt64}, n.toNat = 0 ↔ n = 0 := UInt64.toNat_inj (b := 0)
  obtain ⟨size, data⟩ := c
  simp only [nlDuplicateData, hc, Option.bind_eq_bind, Option.bind_some]
  by_cases hzero : size = 0
  · subst hzero
    have hcopy : nlCopyData copyOk r = ⟨0, none⟩ := by
      cases data with
      | none =>
        obtain rfl := Option.some.inj hr
        rfl
      | some q =>
        obtain ⟨bs, -, rfl⟩ := Option.map_eq_some_iff.mp hr
        rfl
    have hne : (⟨0, none⟩ : RawData) ≠ .error := by decide
    rw [hcopy]
    cases mallocOk with
    | false => simp
    | true => simp [copyDataCell, hne, makeData]
  · have hpos : size > 0 := UInt64.pos_iff_ne_zero.mpr hzero
    have hpos' : size.toNat > 0 := Nat.pos_of_ne_zero fun h0 => hzero (hsize.mp h0)
    cases data with
    | none =>
      obtain rfl := Option.some.inj hr
      have hcopy : nlCopyData copyOk ⟨size.toNat, none⟩ = .error := if_pos ⟨Nat.ne_of_gt hpos', rfl⟩
      rw [hcopy, if_pos ⟨hzero, rfl⟩, if_neg fun h => h.2 rfl]
    | some q =>
      obtain ⟨bs, hbs, rfl⟩ := Option.map_eq_some_iff.mp hr
      have hlen : ¬bs.length < size.toNat := Nat.not_lt.mpr (hwhole bs rfl)
      have hcopy : nlCopyData copyOk ⟨size.toNat, some bs⟩ =
          if copyOk then ⟨size.toNat, some (bs.take size.toNat)⟩ else .error := by
        rw [nlCopyData, if_neg (by simp), if_pos hpos']
        rfl
      rw [hcopy]
      cases mallocOk with
      | false => simp
      | true =>
        cases copyOk with
        | false => simp [copyDataCell, hpos, RawDataCell.error]
        | true => simp [copyDataCell, hpos, hbs, hlen, makeData, RawData.error]

theorem load_size {r : RawData} (hr : c.load h = some r) : r.size = c.size.toNat := by
  obtain ⟨size, data⟩ := c
  cases data with
  | none =>
    obtain rfl := Option.some.inj hr
    rfl
  | some q =>
    obtain ⟨bs, -, rfl⟩ := Option.map_eq_some_iff.mp hr
    rfl

theorem nlCopyData_size {r : RawData} (hcopy : nlCopyData copyOk r ≠ .error) : (nlCopyData copyOk r).size = r.size := by
  revert hcopy
  unfold nlCopyData
  split
  · exact fun hcopy => absurd rfl hcopy
  · split
    · split
      · exact fun _ => rfl
      · exact fun hcopy => absurd rfl hcopy
    · next hzero => exact fun _ => (Nat.eq_zero_of_not_pos hzero).symm

/-- A duplicate is made, or an invalid variant where there is no memory for it. -/
theorem nlDuplicateVariant_makes (mallocOk copyOk : Bool) (hx : v.value h = some x) (hwhole : x.Whole) :
    ∃ copy h', nlDuplicateVariant mallocOk copyOk h v = some (copy, h') ∧ Makes h h' copy (x.copy mallocOk copyOk) := by
  cases v with
  | string p =>
    cases p with
    | none =>
      cases hx
      exact ⟨_, _, rfl, makes_plain rfl rfl⟩
    | some p =>
      obtain ⟨s, hs, rfl⟩ := Option.map_eq_some_iff.mp hx
      simp only [nlDuplicateVariant, hs, Option.bind_eq_bind, Option.bind_some, VarValue.copy]
      cases mallocOk with
      | true => exact ⟨_, _, rfl, makes_string s⟩
      | false => exact ⟨_, _, rfl, makes_plain rfl rfl⟩
  | data p =>
    cases p with
    | none =>
      cases hx
      exact ⟨_, _, rfl, makes_plain rfl rfl⟩
    | some p =>
      obtain ⟨r, hr, rfl⟩ := Option.map_eq_some_iff.mp hx
      obtain ⟨c, hc, hload⟩ := Option.bind_eq_some_iff.mp hr
      simp only [nlDuplicateVariant, nlDuplicateData_eq hc hload hwhole, Option.bind_eq_bind, Option.bind_some,
        VarValue.copy]
      by_cases hcopy : mallocOk ∧ nlCopyData copyOk r ≠ .error
      · have hsize : nlCopyData copyOk r = ⟨c.size.toNat, (nlCopyData copyOk r).data⟩ := by
          rw [← load_size hload, ← nlCopyData_size hcopy.2]
        have hmakes := makes_data (h := h) c.size (nlCopyData copyOk r).data
        rw [← hsize] at hmakes
        rw [if_pos hcopy, if_pos hcopy]
        exact ⟨_, _, rfl, hmakes⟩
      · rw [if_neg hcopy, if_neg hcopy]
        exact ⟨_, _, rfl, makes_plain rfl rfl⟩
  | invalid =>
    cases hx
    exact ⟨_, _, rfl, makes_plain rfl rfl⟩
  | any n =>
    cases hx
    exact ⟨_, _, rfl, makes_plain rfl rfl⟩
  | integer n =>
    cases hx
    exact ⟨_, _, rfl, makes_plain rfl rfl⟩
  | floating f =>
    cases hx
    exact ⟨_, _, rfl, makes_plain rfl rfl⟩

/-! ### What is freed -/

theorem held_freeString (hs : h.strings.get p = some s) : ∃ strings, h.strings.free p = some strings ∧ ∀ b,
    ContentHeap.held { h with strings := strings } b = if b = .string p then none else h.held b := by
  obtain ⟨strings, hfree, hself, hother, -⟩ := Lib.Heap.free_eq_some hs
  exact ⟨strings, hfree, held_update (congrArg (Option.map Held.string) hself)
    (fun q hq => hother q fun heq => hq (congrArg MemBlock.string heq)) (fun _ _ => rfl) fun _ _ => rfl⟩

theorem held_freeData (hc : h.data.get p = some c) : ∃ cells, h.data.free p = some cells ∧ ∀ b,
    ContentHeap.held { h with data := cells } b = if b = .data p then none else h.held b := by
  obtain ⟨cells, hfree, hself, hother, -⟩ := Lib.Heap.free_eq_some hc
  exact ⟨cells, hfree, held_update (congrArg (Option.map Held.data) hself) (fun _ _ => rfl)
    (fun q hq => hother q fun heq => hq (congrArg MemBlock.data heq)) fun _ _ => rfl⟩

theorem held_freeContents (hs : h.contents.get p = some bs) : ∃ contents, h.contents.free p = some contents ∧ ∀ b,
    ContentHeap.held { h with contents := contents } b = if b = .contents p then none else h.held b := by
  obtain ⟨contents, hfree, hself, hother, -⟩ := Lib.Heap.free_eq_some hs
  exact ⟨contents, hfree, held_update (congrArg (Option.map Held.contents) hself) (fun _ _ => rfl) (fun _ _ => rfl)
    fun q hq => hother q fun heq => hq (congrArg MemBlock.contents heq)⟩

/-- A variant is unmade when its blocks are the ones that hold nothing any more. -/
theorem unmakes_of_held (bs : List MemBlock) (hblocks : v.blocks h = bs)
    (hheld : ∀ b, h'.held b = if b ∈ bs then none else h.held b) : Unmakes h h' v := by
  subst hblocks
  exact ⟨fun b hb => by rw [hheld, if_pos hb], fun b hb => by rw [hheld, if_neg hb]⟩

/-- All the blocks of a variant are freed, each of them once. -/
theorem nlDestroyVariant_unmakes (hx : v.value h = some x) : ∃ h', nlDestroyVariant h v = some h' ∧ Unmakes h h' v := by
  cases v with
  | string p =>
    cases p with
    | none => exact ⟨h, rfl, unmakes_of_held [] rfl fun b => by simp⟩
    | some p =>
      obtain ⟨s, hs, -⟩ := Option.map_eq_some_iff.mp hx
      obtain ⟨strings, hfree, hheld⟩ := held_freeString hs
      refine ⟨_, congrArg (Option.map _) hfree, unmakes_of_held [.string p] rfl fun b => ?_⟩
      simp only [hheld, List.mem_singleton]
  | data p =>
    cases p with
    | none => exact ⟨h, rfl, unmakes_of_held [] rfl fun b => by simp⟩
    | some p =>
      obtain ⟨r, hr, -⟩ := Option.map_eq_some_iff.mp hx
      obtain ⟨⟨size, data⟩, hc, hload⟩ := Option.bind_eq_some_iff.mp hr
      cases data with
      | none =>
        obtain ⟨cells, hfree, hheld⟩ := held_freeData hc
        refine ⟨{ h with data := cells }, ?_, unmakes_of_held _ (blocks_data hc) fun b => ?_⟩
        · simp only [nlDestroyVariant, nlDestroyData, hc, Option.bind_some, hfree, Option.map_some]
        · rw [hheld]
          simp
      | some q =>
        obtain ⟨bs, hbs, -⟩ := Option.map_eq_some_iff.mp hload
        obtain ⟨contents, hfree, hheld⟩ := held_freeContents hbs
        obtain ⟨cells, hfree', hheld'⟩ := held_freeData (h := { h with contents := contents }) hc
        refine ⟨{ h with contents := contents, data := cells }, ?_, unmakes_of_held _ (blocks_data hc) fun b => ?_⟩
        · simp only [nlDestroyVariant, nlDestroyData, hc, Option.bind_some, hfree, Option.map_some, hfree']
        · rw [hheld', hheld]
          by_cases hb : b = .data p <;> simp [hb]
  | invalid => exact ⟨h, rfl, unmakes_of_held [] rfl fun b => by simp⟩
  | any n => exact ⟨h, rfl, unmakes_of_held [] rfl fun b => by simp⟩
  | integer n => exact ⟨h, rfl, unmakes_of_held [] rfl fun b => by simp⟩
  | floating f => exact ⟨h, rfl, unmakes_of_held [] rfl fun b => by simp⟩

end

/-! ### In any order -/

/-- The memory, and the variants that have not been destroyed, each with what it stands for. -/
structure Pool where
  heap : ContentHeap := {}
  owned : List (Variant × VarValue) := []

inductive PoolAction
  /-- A variant with its own string, or with its own raw data, or without memory. -/
  | string (s : Bytes)
  | data (size : UInt64) (contents : Option Bytes)
  | plain (v : Variant)
  | duplicate (i : Nat) (mallocOk copyOk : Bool)
  | destroy (i : Nat)

def poolStep (s : Pool) : PoolAction → Option Pool
  | .string bs =>
    some ⟨{ s.heap with strings := (s.heap.strings.alloc bs).2 },
      s.owned ++ [(.string (some (s.heap.strings.alloc bs).1), .string bs)]⟩
  | .data size contents =>
    some ⟨(makeData s.heap size contents).2,
      s.owned ++ [(.data (some (makeData s.heap size contents).1), .data ⟨size.toNat, contents⟩)]⟩
  | .plain v => some ⟨s.heap, s.owned ++ [(v, .plain v)]⟩
  | .duplicate i mallocOk copyOk =>
    s.owned[i]?.bind fun o => (nlDuplicateVariant mallocOk copyOk s.heap o.1).map fun (copy, heap) =>
      ⟨heap, s.owned ++ [(copy, o.2.copy mallocOk copyOk)]⟩
  | .destroy i => s.owned[i]?.bind fun o => (nlDestroyVariant s.heap o.1).map fun heap => ⟨heap, s.owned.eraseIdx i⟩

/-- Raw data has as much contents as its size tells, and only variants are used that have not been destroyed. -/
def poolOk (s : Pool) : PoolAction → Prop
  | .string _ => True
  | .data size contents => VarValue.Whole (.data ⟨size.toNat, contents⟩)
  | .plain v => v.isPlain = true
  | .duplicate i _ _ => i < s.owned.length
  | .destroy i => i < s.owned.length

instance (s : Pool) : DecidablePred (poolOk s)
  | .string _ => inferInstanceAs (Decidable True)
  | .data size contents => inferInstanceAs (Decidable (∀ bs ∈ contents, size.toNat ≤ bs.length))
  | .plain v => inferInstanceAs (Decidable (v.isPlain = true))
  | .duplicate i _ _ => inferInstanceAs (Decidable (i < s.owned.length))
  | .destroy i => inferInstanceAs (Decidable (i < s.owned.length))

def pool : Lib.Machine Pool PoolAction := ⟨{}, poolStep⟩

/-- The blocks of all the variants. -/
def Pool.blocks (s : Pool) : List MemBlock := s.owned.flatMap fun o => o.1.blocks s.heap

/-- Each block of memory belongs to one variant, once, and each variant stands for what it has been made for. -/
structure Owned (s : Pool) : Prop where
  once : s.blocks.Nodup
  live : ∀ b, s.heap.held b ≠ none ↔ b ∈ s.blocks
  values : ∀ o ∈ s.owned, o.1.value s.heap = some o.2 ∧ o.2.Whole

section
variable {s t : Pool} {h : ContentHeap} {v : Variant} {x : VarValue} {as bs : List (Variant × VarValue)}
  {o : Variant × VarValue}

theorem VarValue.Whole.copy (hx : x.Whole) (mallocOk copyOk : Bool) : (x.copy mallocOk copyOk).Whole := by
  cases x with
  | plain v => trivial
  | string bs =>
    rw [VarValue.copy]
    split <;> trivial
  | data r =>
    rw [VarValue.copy]
    split
    · intro bs hbs
      rw [nlCopyData] at hbs ⊢
      split at hbs
      · cases hbs
      · split at hbs
        · split at hbs
          · obtain ⟨contents, hcontents, rfl⟩ := Option.map_eq_some_iff.mp hbs
            have hle := hx contents hcontents
            simp [*]
          · cases hbs
        · cases hbs
    · trivial

/-- Blocks that hold the same belong to the same variants. -/
theorem blocks_congr {l : List (Variant × VarValue)} {h' : ContentHeap}
    (hheld : ∀ b ∈ l.flatMap fun o => o.1.blocks h, h'.held b = h.held b)
    (hvalues : ∀ o ∈ l, o.1.value h = some o.2 ∧ o.2.Whole) :
    (l.flatMap fun o => o.1.blocks h') = (l.flatMap fun o => o.1.blocks h) ∧
      ∀ o ∈ l, o.1.value h' = some o.2 ∧ o.2.Whole := by
  have hone : ∀ o ∈ l, o.1.blocks h' = o.1.blocks h ∧ o.1.value h' = some o.2 := fun o ho =>
    Variant.congr (fun b hb => hheld b (List.mem_flatMap.mpr ⟨o, ho, hb⟩)) (hvalues o ho).1
  refine ⟨?_, fun o ho => ⟨(hone o ho).2, (hvalues o ho).2⟩⟩
  rw [List.flatMap_def, List.flatMap_def, List.map_congr_left fun o ho => (hone o ho).1]

/-- A variant is made beside the others. -/
theorem Owned.makes (O : Owned s) (hmakes : Makes s.heap h v x) (hx : x.Whole) : Owned ⟨h, s.owned ++ [(v, x)]⟩ := by
  have hapart : ∀ b ∈ s.blocks, b ∉ v.blocks h := fun b hb hv => (O.live b).mpr hb (hmakes.fresh b hv).1
  obtain ⟨hblocks, hvalues⟩ := blocks_congr (fun b hb => hmakes.others b (hapart b hb)) O.values
  have hall : Pool.blocks ⟨h, s.owned ++ [(v, x)]⟩ = s.blocks ++ v.blocks h := by
    simp only [Pool.blocks, List.flatMap_append, hblocks, List.flatMap_singleton]
  refine ⟨?_, fun b => ?_, ?_⟩
  · rw [hall]
    exact List.nodup_append.mpr ⟨O.once, hmakes.once, fun b hb b' hb' heq => hapart b hb (heq ▸ hb')⟩
  · rw [hall, List.mem_append]
    by_cases hb : b ∈ v.blocks h
    · exact iff_of_true (hmakes.fresh b hb).2 (Or.inr hb)
    · rw [hmakes.others b hb, O.live b, or_iff_left hb]
  · intro o ho
    rcases List.mem_append.mp ho with ho | ho
    · exact hvalues o ho
    · rw [List.mem_singleton.mp ho]
      exact ⟨hmakes.value, hx⟩

/-- A variant is destroyed, and the others stay. -/
theorem Owned.unmakes (O : Owned s) (hsplit : s.owned = as ++ o :: bs) (hunmakes : Unmakes s.heap h o.1) :
    Owned ⟨h, as ++ bs⟩ := by
  have hperm : s.blocks.Perm (o.1.blocks s.heap ++ (as ++ bs).flatMap fun o => o.1.blocks s.heap) := by
    simp only [Pool.blocks, hsplit, List.flatMap_append, List.flatMap_cons, ← List.append_assoc]
    exact (List.perm_append_comm).append_right _
  obtain ⟨-, honce, hapart⟩ := List.nodup_append.mp (hperm.nodup_iff.mp O.once)
  have hrest : ∀ b ∈ (as ++ bs).flatMap fun o => o.1.blocks s.heap, b ∉ o.1.blocks s.heap :=
    fun b hb ho => hapart b ho b hb rfl
  have hvalues : ∀ o ∈ as ++ bs, o.1.value s.heap = some o.2 ∧ o.2.Whole := by
    intro o' ho'
    refine O.values o' ?_
    rw [hsplit]
    simp only [List.mem_append, List.mem_cons] at ho' ⊢
    exact ho'.imp id Or.inr
  obtain ⟨hblocks, hvalues'⟩ := blocks_congr (fun b hb => hunmakes.others b (hrest b hb)) hvalues
  refine ⟨?_, fun b => ?_, hvalues'⟩
  · rw [Pool.blocks, hblocks]
    exact honce
  · rw [Pool.blocks, hblocks]
    by_cases hb : b ∈ o.1.blocks s.heap
    · exact iff_of_false (fun hne => hne (hunmakes.freed b hb)) fun hmem => hrest b hmem hb
    · rw [hunmakes.others b hb, O.live b, hperm.mem_iff, List.mem_append, or_iff_right hb]

/-- Every call on a variant that has not been destroyed has a result, and keeps the others. -/
theorem poolStep_owned (O : Owned s) (act : PoolAction) (hok : poolOk s act) :
    ∃ t, poolStep s act = some t ∧ Owned t := by
  cases act with
  | string bs => exact ⟨_, rfl, O.makes (makes_string bs) trivial⟩
  | data size contents => exact ⟨_, rfl, O.makes (makes_data size contents) hok⟩
  | plain v => exact ⟨_, rfl, O.makes (makes_plain (isPlain_spec hok).1 (isPlain_spec hok).2) trivial⟩
  | duplicate i mallocOk copyOk =>
    have hlt : i < s.owned.length := hok
    obtain ⟨hx, hwhole⟩ := O.values s.owned[i] (List.getElem_mem hlt)
    obtain ⟨copy, h', hcode, hmakes⟩ := nlDuplicateVariant_makes mallocOk copyOk hx hwhole
    refine ⟨_, ?_, O.makes hmakes (hwhole.copy mallocOk copyOk)⟩
    simp only [poolStep, List.getElem?_eq_getElem hlt, Option.bind_some, hcode, Option.map_some]
  | destroy i =>
    have hlt : i < s.owned.length := hok
    obtain ⟨hx, -⟩ := O.values s.owned[i] (List.getElem_mem hlt)
    obtain ⟨h', hcode, hunmakes⟩ := nlDestroyVariant_unmakes hx
    have hsplit : s.owned = s.owned.take i ++ s.owned[i] :: s.owned.drop (i + 1) := by
      rw [← List.drop_eq_getElem_cons hlt, List.take_append_drop]
    refine ⟨_, ?_, O.unmakes hsplit hunmakes⟩
    simp only [poolStep, List.getElem?_eq_getElem hlt, Option.bind_some, hcode, Option.map_some,
      List.eraseIdx_eq_take_drop_succ]

end

/-- In every order of making, duplicating and destroying variants, and whichever allocations fail: nothing is read or
    freed that has been freed, each block of memory belongs to one variant, so that none is left when all of them have
    been destroyed, and a variant stands for the same as long as it has not been destroyed itself. -/
theorem pool_owned (s : Pool) (h : pool.Reach poolOk s) :
    Owned s ∧ ∀ act, poolOk s act → ∃ t, poolStep s act = some t ∧ Owned t := by
  have hinv : Owned s := by
    refine h.invariant ?_ ?_
    · exact ⟨List.nodup_nil, fun b => by cases b <;> simp [pool, ContentHeap.held, Lib.Heap.get, Pool.blocks], nofun⟩
    · intro s act t O hok hstep
      obtain ⟨t', hstep', O'⟩ := poolStep_owned O act hok
      obtain rfl : t' = t := Option.some.inj (hstep'.symm.trans hstep)
      exact O'
  exact ⟨hinv, fun act hok => poolStep_owned hinv act hok⟩

/-- Of two variants one is duplicated, for the other there is no memory, and both are destroyed. -/
theorem pool_owned_duplicate : ∃ s, pool.Reach poolOk s ∧ s.blocks = [.data 1, .contents 1] ∧
    Owned s ∧ ∀ act, poolOk s act → ∃ t, poolStep s act = some t ∧ Owned t := by
  obtain ⟨s, hreach, hs⟩ := Lib.Machine.exists_reach_of_run (M := pool) (fun s a => decide (poolOk s a))
    [.data 3 (some [1, 2, 3]), .string [97], .duplicate 0 true true, .duplicate 1 false true, .destroy 0, .destroy 0]
    (fun s => decide (s.blocks = [.data 1, .contents 1])) (fun _ _ => of_decide_eq_true) (by decide)
  exact ⟨s, hreach, of_decide_eq_true hs, pool_owned s hreach⟩

end Nlutils
