import Nlutils.Lib.Descriptors
import Nlutils.Stream

/-! # Copying files (`nl_stream_to_fd` and `nl_read_file` of `stream.c`)

What is written is always the beginning of what has been read. The number of bytes is returned exactly when everything
up to the end of the file has been written, and reading the copy gives the same bytes. -/

namespace Nlutils
open Lib

/-- A call of `fread`: the bytes, and whether it has met the end of the file or an error. -/
structure Fread where
  bytes : Bytes
  eof : Bool
  error : Bool

/-- The loop of `nl_stream_to_fd`, with what `feof` and `ferror` tell, the number of calls of `write`, and what these
    have taken. There is no result where `fread` is not answered. -/
def streamToFdLoop (write : Nat → Nat → Int) :
    List Fread → Bool → Bool → Nat → Int → List Bytes → Option (Int × List Bytes)
  | _, true, _, _, size, chunks => some (size, chunks)
  | [], false, _, _, _, _ => none
  | a :: reads, false, ferror, k, size, chunks =>
    if a.bytes.length > 32768 then none
    else if a.bytes.length = 0 ∧ (ferror || a.error) then some (-1, chunks)
    else
      let ret := write k a.bytes.length
      let chunks := chunks ++ [a.bytes.take ret.toNat]
      if ret ≠ a.bytes.length then some (-1, chunks)
      else streamToFdLoop write reads a.eof (ferror || a.error) (k + 1) (size + a.bytes.length) chunks

/-- The result, and the chunks that have been written. -/
def nlStreamToFd (write : Nat → Nat → Int) (feof ferror : Bool) (reads : List Fread) : Option (Int × List Bytes) :=
  streamToFdLoop write reads feof ferror 0 0 []

/-- `nl_read_file`, with the descriptors. The parameters are whether the file can be opened, and those of
    `nl_read_stream`. -/
def nlReadFile {φ : Type} (openOk : Bool) (file : φ) (alloc : Nat → Bool) (fill : Nat → Nat → Byte)
    (reads : List ReadResult) (t : FdTable φ) : Option (Option RawData × FdTable φ) :=
  if !openOk then some (none, t)
  else
    let (fd, t) := t.install ⟨file, true⟩
    -- It is closed in the branch for NULL, too.
    (nlReadStream alloc fill fd reads).bind fun data => (t.close fd).map fun t => (data, t)

/-! ### Copying -/

/-- Less than the buffer takes is read only at the end of the file, or where there is an error. -/
structure Fread.Answers (a : Fread) : Prop where
  fits : a.bytes.length ≤ 32768
  short : a.bytes.length < 32768 → a.eof = true ∨ a.error = true

/-- The calls of `fread` up to the end of the file. -/
def untilEof : List Fread → List Fread
  | [] => []
  | a :: reads => if a.eof then [a] else a :: untilEof reads

/-- Nothing is read after an error, or not everything is written that has been read. -/
def CopyFails (write : Nat → Nat → Int) (ferror : Bool) (k : Nat) (reads : List Fread) : Prop :=
  ∃ n a, reads[n]? = some a ∧
    (a.bytes = [] ∧ (ferror || (reads.take (n + 1)).any (·.error)) = true ∨
      write (k + n) a.bytes.length ≠ a.bytes.length)

/-- The copy of what has been read from a file. -/
structure Copies (write : Nat → Nat → Int) (ferror : Bool) (k : Nat) (size : Int) (reads : List Fread) (r : Int)
    (written : List Bytes) : Prop where
  begins : written.flatten <+: reads.flatMap (·.bytes)
  fails : r = -1 ↔ CopyFails write ferror k reads
  whole : r ≠ -1 → r = size + written.flatten.length ∧ written.flatten = reads.flatMap (·.bytes)

section
variable {write : Nat → Nat → Int} {ferror : Bool} {k : Nat} {size : Int} {reads : List Fread} {a : Fread}
  {chunks : List Bytes}

theorem copyFails_cons : CopyFails write ferror k (a :: reads) ↔ (a.bytes = [] ∧ (ferror || a.error) = true) ∨
    write k a.bytes.length ≠ a.bytes.length ∨ CopyFails write (ferror || a.error) (k + 1) reads := by
  constructor
  · rintro ⟨n, b, hb, hfail⟩
    cases n with
    | zero =>
      obtain rfl : a = b := Option.some.inj hb
      rcases hfail with hread | hwrite
      · exact Or.inl (by simpa using hread)
      · exact Or.inr (Or.inl hwrite)
    | succ n =>
      refine Or.inr (Or.inr ⟨n, b, hb, ?_⟩)
      rw [List.take_succ_cons, List.any_cons, ← Bool.or_assoc, ← Nat.add_assoc] at hfail
      rwa [Nat.add_right_comm]
  · rintro (⟨hnil, herror⟩ | hwrite | ⟨n, b, hb, hfail⟩)
    · exact ⟨0, a, rfl, Or.inl ⟨hnil, by simpa using herror⟩⟩
    · exact ⟨0, a, rfl, Or.inr hwrite⟩
    · refine ⟨n + 1, b, hb, ?_⟩
      rw [List.take_succ_cons, List.any_cons, ← Bool.or_assoc, ← Nat.add_assoc]
      rwa [Nat.add_right_comm] at hfail

theorem not_copyFails_nil : ¬CopyFails write ferror k [] := by
  rintro ⟨n, a, ha, -⟩
  cases ha

/-- Each round either ends the copy or writes what it has read. -/
theorem streamToFdLoop_spec (hreads : ∀ a ∈ reads, a.Answers) (hlast : ∃ a ∈ reads, a.eof = true ∨ a.bytes = [])
    (hsize : 0 ≤ size) : ∃ r written,
      streamToFdLoop write reads false ferror k size chunks = some (r, chunks ++ written) ∧
      Copies write ferror k size (untilEof reads) r written := by
  induction reads generalizing ferror k size chunks with
  | nil =>
    obtain ⟨a, ha, -⟩ := hlast
    cases ha
  | cons a reads ih =>
    obtain ⟨hanswers, hreads⟩ := List.forall_mem_cons.mp hreads
    have huntil : untilEof (a :: reads) = a :: if a.eof then [] else untilEof reads := by
      rw [untilEof]
      split <;> rfl
    rw [streamToFdLoop, if_neg (Nat.not_lt.mpr hanswers.fits), huntil]
    by_cases hread : a.bytes.length = 0 ∧ (ferror || a.error) = true
    · have hnil : a.bytes = [] := List.length_eq_zero_iff.mp hread.1
      rw [if_pos hread]
      refine ⟨-1, [], by rw [List.append_nil], List.nil_prefix, ?_, fun h => absurd rfl h⟩
      exact iff_of_true rfl (copyFails_cons.mpr (Or.inl ⟨hnil, hread.2⟩))
    · have hread' : ¬(a.bytes = [] ∧ (ferror || a.error) = true) :=
        fun h => hread ⟨List.length_eq_zero_iff.mpr h.1, h.2⟩
      rw [if_neg hread]
      by_cases hwrite : write k a.bytes.length = a.bytes.length
      · have hchunk : a.bytes.take (write k a.bytes.length).toNat = a.bytes := by
          rw [hwrite, Int.toNat_natCast, List.take_length]
        have hok : ¬write k a.bytes.length ≠ a.bytes.length := not_not.mpr hwrite
        simp only [hchunk, if_neg hok]
        cases heof : a.eof with
        | true =>
          rw [streamToFdLoop]
          refine ⟨_, [a.bytes], rfl, ?_, ?_, fun _ => ?_⟩
          · simp
          · rw [copyFails_cons]
            simp only [hread', hok, not_copyFails_nil, if_true, or_self, iff_false]
            omega
          · simp
        | false =>
          have hlast' : ∃ a ∈ reads, a.eof = true ∨ a.bytes = [] := by
            obtain ⟨b, hb, hend⟩ := hlast
            rcases List.mem_cons.mp hb with rfl | hb
            · rcases hend with heof' | hnil
              · cases heof.symm.trans heof'
              · rcases hanswers.short (by simp [hnil]) with heof' | herror
                · cases heof.symm.trans heof'
                · exact absurd ⟨hnil, by simp [herror]⟩ hread'
            · exact ⟨b, hb, hend⟩
          obtain ⟨r, written, hloop, C⟩ : ∃ r written, streamToFdLoop write reads false (ferror || a.error) (k + 1)
              (size + a.bytes.length) (chunks ++ [a.bytes]) = some (r, chunks ++ [a.bytes] ++ written) ∧
              Copies write (ferror || a.error) (k + 1) (size + a.bytes.length) (untilEof reads) r written :=
            ih hreads hlast' (by omega)
          rw [hloop]
          refine ⟨r, a.bytes :: written, by simp, ?_, ?_, fun hr => ?_⟩
          · simpa using C.begins
          · rw [copyFails_cons, C.fails]
            simp only [hread', hok, Bool.false_eq_true, if_false, false_or]
          · obtain ⟨hresult, hwhole⟩ := C.whole hr
            simp only [List.flatten_cons, List.length_append, hwhole]
            refine ⟨?_, by simp⟩
            rw [hresult, hwhole]
            omega
      · simp only [if_pos hwrite]
        refine ⟨-1, [_], rfl, ?_, ?_, fun h => absurd rfl h⟩
        · simp only [List.flatten_singleton, List.flatMap_cons]
          exact (List.take_prefix _ _).trans (List.prefix_append _ _)
        · exact iff_of_true rfl (copyFails_cons.mpr (Or.inr (Or.inl hwrite)))

/-- The file is closed again, whether it could be read or not. -/
theorem nlReadFile_spec {φ : Type} {alloc : Nat → Bool} {fill : Nat → Nat → Byte} {last : ReadResult}
    {more : List ReadResult} (file : φ) (t : FdTable φ) (hchunks : ∀ c ∈ chunks, c ≠ [] ∧ c.length ≤ 16384)
    (hlast : last.IsLast) : ∃ t', nlReadFile true file alloc fill (chunks.map .bytes ++ last :: more) t =
      some (if (∀ i ≤ chunks.length, alloc i = true) ∧ last.IsEnd then some (heldData chunks.flatten) else none, t') ∧
      t.Since t' [] := by
  have S := (FdTable.Since.refl t).install ⟨file, true⟩
  obtain ⟨t', hclose, S', -⟩ := S.close
  refine ⟨t', ?_, S'⟩
  have hread : nlReadStream alloc fill (t.install ⟨file, true⟩).1 (chunks.map .bytes ++ last :: more) =
      some (if (∀ i ≤ chunks.length, alloc i = true) ∧ last.IsEnd then some (heldData chunks.flatten) else none) :=
    nlReadStream_spec (Int.natCast_nonneg _) hchunks hlast
  have hclose' : (t.install ⟨file, true⟩).2.close (t.install ⟨file, true⟩).1 = some t' := hclose
  simp only [nlReadFile, Bool.not_true, Bool.false_eq_true, if_false, hread, Option.bind_some, hclose', Option.map_some]

end

/-- A file is copied, and the copy is read: what has been written is the beginning of what has been read, and the number
    of bytes is returned exactly when it is the whole, with no error before the end of the file and nothing left out by
    `write`. However the copy is read, it gives the bytes that have been written, with a zero byte behind them, or NULL
    after an error or when there is no memory; and no descriptor stays open. -/
theorem nlStreamToFd_readFile {φ : Type} (write : Nat → Nat → Int) (ferror : Bool) (reads : List Fread)
    (hreads : ∀ a ∈ reads, a.Answers) (hlast : ∃ a ∈ reads, a.eof = true ∨ a.bytes = []) (alloc : Nat → Bool)
    (fill : Nat → Nat → Byte) (file : φ) (t : FdTable φ) : ∃ r written,
      nlStreamToFd write false ferror reads = some (r, written) ∧
      Copies write ferror 0 0 (untilEof reads) r written ∧
      ∀ (chunks : List Bytes) (last : ReadResult), (∀ c ∈ chunks, c ≠ [] ∧ c.length ≤ 16384) → last.IsLast →
        chunks.flatten = written.flatten →
        ∃ t', nlReadFile true file alloc fill (chunks.map .bytes ++ [last]) t =
          some (if (∀ i ≤ chunks.length, alloc i = true) ∧ last.IsEnd then some (heldData written.flatten) else none,
            t') ∧ t.Since t' [] := by
  obtain ⟨r, written, hcopy, C⟩ : ∃ r written,
      streamToFdLoop write reads false ferror 0 0 [] = some (r, [] ++ written) ∧
      Copies write ferror 0 0 (untilEof reads) r written := streamToFdLoop_spec hreads hlast (Int.le_refl 0)
  refine ⟨r, written, hcopy, C, fun chunks last hchunks hlast hflat => ?_⟩
  rw [← hflat]
  exact nlReadFile_spec file t hchunks hlast

/-- Three bytes, and the end of the file behind them. -/
def threeBytes : List Fread := [⟨[1, 2, 3], true, false⟩]

theorem nlStreamToFd_readFile_three : ∃ r written,
    nlStreamToFd (fun _ n => n) false false threeBytes = some (r, written) ∧
      Copies (fun _ n => n) false 0 0 (untilEof threeBytes) r written ∧
      ∀ (chunks : List Bytes) (last : ReadResult), (∀ c ∈ chunks, c ≠ [] ∧ c.length ≤ 16384) → last.IsLast →
        chunks.flatten = written.flatten →
        ∃ t', nlReadFile true () (fun _ => true) (fun _ _ => 9) (chunks.map .bytes ++ [last]) {} =
          some (if (∀ i ≤ chunks.length, true = true) ∧ last.IsEnd then some (heldData written.flatten) else none,
            t') ∧ FdTable.Since {} t' [] := by
  refine nlStreamToFd_readFile (fun _ n => n) false threeBytes ?_ ⟨_, List.mem_singleton_self _, Or.inl rfl⟩
    (fun _ => true) (fun _ _ => 9) () {}
  simp only [threeBytes, List.mem_singleton, forall_eq]
  exact ⟨by decide, fun _ => Or.inl rfl⟩

end Nlutils
