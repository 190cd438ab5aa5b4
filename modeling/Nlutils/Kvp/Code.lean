import Nlutils.Escape

/-! # The key-value parser (`kvp.c`)

The calls of the callback are given as a list. The inner loops of `nl_parse_kvp` go on in one state of its outer
loop, so that its run is given by what it does with a character in each state. -/

namespace Nlutils

/-- The `state` of `nl_parse_kvp`. -/
inductive KvpState
  /-- Skipping whitespace, looking for key. -/
  | expectKey
  /-- Invalid character found in key name, looking for whitespace. -/
  | skipKey
  | readKey
  | readQuotedKey
  | expectEquals
  | expectValue
  | readValue
  | readQuotedValue
  deriving DecidableEq, Repr

/-- A call of the callback: the key, the value, and whether `quoted_value` is nonzero. -/
abbrev KvpCall := Bytes × Bytes × Bool

/-- The variables of `nl_parse_kvp`, the calls made, and how often `nl_strndup_term` has been called. -/
structure KvpParse where
  state : KvpState := .expectKey
  keyStart : Nat := 0
  keyLength : Nat := 0
  valueStart : Nat := 0
  valueLength : Nat := 0
  off : Nat := 0
  calls : List KvpCall := []
  dups : Nat := 0
  deriving DecidableEq, Repr

/-- What `nl_strndup_term` copies from `str + start`. -/
def slice (str : Bytes) (start n : Nat) : Bytes := (str.drop start).take n

/-- What `send_pair` does with the copies. -/
def kvpCall (key value : Bytes) : KvpCall :=
  (if key.at 0 = 34 then (nlUnescapeString key false .ifQuoted).1 else key,
   if value.at 0 = 34 then (nlUnescapeString value false .ifQuoted).1 else value,
   value.at 0 == 34)

/-- `dup` gives the calls of `nl_strndup_term` that get memory. -/
def sendPair (dup : Nat → Bool) (kvpLine : Bytes) (s : KvpParse) : KvpParse :=
  if !dup s.dups then { s with dups := s.dups + 1 }
  else if !dup (s.dups + 1) then { s with dups := s.dups + 2 }
  else
    { s with
      calls := s.calls ++ [kvpCall (slice kvpLine s.keyStart s.keyLength) (slice kvpLine s.valueStart s.valueLength)]
      dups := s.dups + 2 }

/-- One character of the line, at `off`. -/
def kvpChar (dup : Nat → Bool) (kvpLine : Bytes) (c : Byte) (s : KvpParse) : KvpParse :=
  let s := match s.state with
    | .expectKey =>
      if c = 61 then { s with state := .skipKey }
      else if isspace c then s
      else { s with keyStart := s.off, state := if c = 34 then .readQuotedKey else .readKey }
    -- The whitespace is skipped in the next state.
    | .skipKey => if isspace c then { s with state := .expectKey } else s
    | .readKey =>
      if isspace c then { s with state := .expectKey }
      else if c = 61 then { s with state := .expectValue, keyLength := s.off - s.keyStart }
      else s
    | .readQuotedKey => if c = 34 then { s with state := .expectEquals } else s
    | .expectEquals =>
      if c = 61 then { s with state := .expectValue, keyLength := s.off - s.keyStart }
      else { s with state := .expectKey }
    | .expectValue =>
      if isspace c then { s with state := .expectKey }
      else { s with valueStart := s.off, state := if c = 34 then .readQuotedValue else .readValue }
    | .readValue =>
      if isspace c then
        { sendPair dup kvpLine { s with valueLength := s.off - s.valueStart } with state := .expectKey }
      else s
    | .readQuotedValue =>
      if c = 34 then
        { sendPair dup kvpLine { s with valueLength := s.off - s.valueStart + 1 } with state := .expectKey }
      else s
  { s with off := s.off + 1 }

def KvpParse.inQuotes (s : KvpParse) : Bool := s.state == .readQuotedKey || s.state == .readQuotedValue

/-- The loop, from `ptr` on. -/
def kvpLoop (dup : Nat → Bool) (kvpLine : Bytes) : Bytes → KvpParse → KvpParse
  | [], s => s
  | [c], s => kvpChar dup kvpLine c s
  | c :: next :: ptr, s =>
    if s.inQuotes ∧ c = 92 ∧ next = 34 then kvpLoop dup kvpLine ptr { s with off := s.off + 2 }
    else kvpLoop dup kvpLine (next :: ptr) (kvpChar dup kvpLine c s)

/-- The end of `nl_parse_kvp`. -/
def finalPair (dup : Nat → Bool) (kvpLine : Bytes) (s : KvpParse) : KvpParse :=
  if s.state = .readValue ∨ s.state = .readQuotedValue then
    sendPair dup kvpLine { s with valueLength := s.off - s.valueStart }
  else s

def nlParseKvp (dup : Nat → Bool) (kvpLine : Option Bytes) : List KvpCall :=
  match kvpLine with
  | none => []
  | some line => (finalPair dup line (kvpLoop dup line line {})).calls

end Nlutils
