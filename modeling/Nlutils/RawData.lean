import Nlutils.Bytes

/-! # Raw data (`variant.c`) -/

namespace Nlutils

/-- `struct nl_raw_data`; `none` is a NULL data pointer. -/
structure RawData where
  size : Nat
  data : Option Bytes
  deriving DecidableEq, Repr

/-- What `nl_copy_data` returns on error: size `SIZE_MAX` and no data. -/
def RawData.error : RawData := ⟨2 ^ 64 - 1, none⟩

def nlCopyData (mallocOk : Bool) (data : RawData) : RawData :=
  if data.size ≠ 0 ∧ data.data = none then .error
  else if data.size > 0 then
    if mallocOk then ⟨data.size, data.data.map (·.take data.size)⟩ else .error
  else ⟨0, none⟩

end Nlutils
