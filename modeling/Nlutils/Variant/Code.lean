import Nlutils.Bytes
import Nlutils.Lib.Heap

/-! # Variants (`variant.h`) -/

namespace Nlutils

/-- `struct nl_raw_data`, with the address of the data. -/
structure RawDataCell where
  size : UInt64
  data : Option Lib.Addr
  deriving DecidableEq, Repr

/-- What the pointers in variants point to: C strings and raw data structures. -/
structure VariantHeap where
  strings : Lib.Heap Bytes := {}
  data : Lib.Heap RawDataCell := {}

/-- `struct nl_variant`; the type selects the member of the union that the value is. -/
inductive Variant
  | invalid
  | any (value : Int64)
  | integer (value : Int32)
  | floating (value : Float32)
  | string (value : Option Lib.Addr)
  | data (value : Option Lib.Addr)

/-- `enum nl_vartype` -/
def Variant.type : Variant → Int
  | .invalid => -1
  | .any _ => 0
  | .integer _ => 1
  | .floating _ => 2
  | .string _ => 3
  | .data _ => 4

/-- An integer, a string or raw data, with pointers that point to something. -/
inductive Variant.IsValid (h : VariantHeap) : Variant → Prop
  | integer (n : Int32) : IsValid h (.integer n)
  | nullString : IsValid h (.string none)
  | string {p : Lib.Addr} {s : Bytes} : h.strings.get p = some s → 0 ∉ s → IsValid h (.string (some p))
  | nullData : IsValid h (.data none)
  | data {p : Lib.Addr} {c : RawDataCell} : h.data.get p = some c → IsValid h (.data (some p))

abbrev ValidVariant (h : VariantHeap) := {v : Variant // v.IsValid h}

end Nlutils
