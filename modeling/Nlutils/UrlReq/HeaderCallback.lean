import Nlutils.Hash.Code
import Nlutils.Str.Lines
import Nlutils.Strtol

/-! # The log of curl (`header_line_callback` of `url_req.c`)

The callback gets a pointer and a size. The pointer is given by the memory from there on to the end of the buffer,
and what reads past the end of the buffer has no result. -/

namespace Nlutils.UrlReq
open Lib

/-- The parts of `struct nl_url_result` that the log goes to, and the memory of its hashes. -/
structure UrlResult where
  requestHeaders : Option Addr := none
  responseHeaders : Option Addr := none
  code : Int32 := 0
  mem : HashMem := {}
  deriving DecidableEq, Repr

/-- The difference of two `size_t`. -/
def sizeSub (a b : Nat) : Nat := if b ≤ a then a - b else a + 2 ^ 64 - b

/-- `memchr` reads up to the character that it finds. -/
def memchr (c : Byte) : Bytes → Nat → Option (Option Nat)
  | _, 0 => some none
  | [], _ + 1 => none
  | b :: mem, n + 1 => if b = c then some (some 0) else (memchr c mem n).map (·.map (· + 1))

/-- `nl_strstart` without a zero byte in `start`: whether it returns zero. -/
def memStarts : Bytes → Bytes → Option Bool
  | _, [] => some true
  | [], _ :: _ => none
  | b :: mem, c :: start => if b = c then memStarts mem start else some false

/-- `atoi` reads the first character after the digits. -/
def memAtoi (mem : Bytes) : Option Int32 := if (numeral mem 10).rest = [] then none else some (atoi mem)

/-- The loop over the spaces in front of a value; `value` is its distance from the start of the line. -/
def skipSpaces (size : Nat) : Bytes → Nat → Option Nat
  | [], _ => none
  | c :: mem, value => if c = 32 ∧ value < size then skipSpaces size mem (value + 1) else some value

/-- What gets no memory: objects of 2^63 bytes and more, and whatever else `alloc` says. -/
def refused (alloc : Nat → Bool) (n : Nat) (m : HashMem) : Bool := !alloc m.allocs || (n + 1) % 2 ^ 64 ≥ 2 ^ 63

/-- The new buffer before its zero byte. -/
def nlStrndupTerm (alloc : Nat → Bool) (src : Bytes) (n : Nat) (m : HashMem) : Option (Option Bytes × HashMem) :=
  let m' := { m with allocs := m.allocs + 1 }
  if refused alloc n m then some (none, m')
  else if n ≤ src.length then some (some (src.take n), m')
  else none

/-- The string in a buffer. -/
def cString (s : Bytes) : Bytes := s.takeWhile (· ≠ 0)

/-- What a line asks for. -/
inductive HeaderLine
  | nothing
  /-- Out of memory. -/
  | failed
  | header (headers : Addr) (key value : Bytes)
  | code (n : Int32)
  deriving DecidableEq, Repr

/-- The list that a line goes to, by its first byte. -/
def UrlResult.headersFor (r : UrlResult) (c : Byte) : Option Addr :=
  if c = 62 then r.requestHeaders else if c = 60 then r.responseHeaders else none

/-- `header_line_callback` up to its changes to the result. -/
def readHeaderLine (alloc : Nat → Bool) (data : Bytes) (size : Nat) (r : UrlResult) :
    Option (HeaderLine × HashMem) := do
  let headers ← if size > 0 then data.head?.map r.headersFor else some none
  match headers with
  | none => return (.nothing, r.mem)
  | some headers =>
    match ← memchr 58 (data.drop 2) (sizeSub size 2) with
    | some colon =>
      match ← nlStrndupTerm alloc (data.drop 2) colon r.mem with
      | (none, m) => return (.failed, m)
      | (some key, m) =>
        let value ← skipSpaces size (data.drop (colon + 3)) (colon + 3)
        match ← nlStrndupTerm alloc (data.drop value) (sizeSub size value) m with
        | (none, m) => return (.failed, m)
        | (some value, m) => return (.header headers (cString key) (cString value), m)
    | none =>
      if (← memStarts data (bytes "< HTTP/")) ∧ r.code = 0 then
        match ← memchr 32 (data.drop 2) (sizeSub size 2) with
        | some space => return (.code (← memAtoi (data.drop (space + 2))), r.mem)
        | none => return (.nothing, r.mem)
      else return (.nothing, r.mem)

def headerLineCallback (alloc : Nat → Bool) (data : Bytes) (size : Nat) (r : UrlResult) : Option (Int × UrlResult) := do
  match ← readHeaderLine alloc data size r with
  | (.nothing, m) => return (0, { r with mem := m })
  | (.failed, m) => return (-1, { r with mem := m })
  | (.header headers key value, m) =>
    let (n, m) ← nlHashSet alloc (some headers) (some key) (some value) m
    return (if n ≠ 0 then -1 else 0, { r with mem := m })
  | (.code n, m) => return (0, { r with code := n, mem := m })

/-- The buffer from `start` on: the log and the byte that `check_process` adds. -/
def memoryAt (log : Bytes) (start : Nat) : Bytes := (log ++ [0]).drop start

/-- The callback on a log. A call without a result is the last one. -/
def logCallback (alloc : Nat → Bool) (log : Bytes) : LineCallback (Option UrlResult) := fun r start size =>
  match r.bind (headerLineCallback alloc (memoryAt log start) size) with
  | none => (1, none)
  | some (n, r) => (n, some r)

/-- The calls that `check_process` has `nl_split_lines` make. -/
def headerCalls (alloc : Nat → Bool) (log : Bytes) (r : UrlResult) : List (Option UrlResult × Nat × Nat) :=
  (nlSplitLines (some (logging (logCallback alloc log))) (some log) (some r, [])).2.2

end Nlutils.UrlReq
