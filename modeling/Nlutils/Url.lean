import Nlutils.Bytes

/-! # URL encoding (`url.c`) -/

namespace Nlutils

/-- The hex digit of the low four bits. -/
def nlUrlToHex (code : Byte) : Byte := (bytes "0123456789abcdef").getD (code &&& 15).toNat 0

def nlUrlIsReserved (c : Byte) : Bool := (bytes "!#$&'()*+,/:;=?@[]").contains c

def nlUrlIsAllowed (c : Byte) (allowReserved : Bool) : Bool :=
  c < 128 && (isalnum c || c == 45 || c == 95 || c == 46 || c == 126 || (allowReserved && nlUrlIsReserved c))

/-- `nl_url_encode` once its buffer is allocated. -/
def nlUrlEncode (str : Bytes) (encodeSpace allowReserved : Bool) : Bytes :=
  str.flatMap fun c =>
    if nlUrlIsAllowed c allowReserved then [c]
    else if c == 32 && !encodeSpace then [43]
    else [37, nlUrlToHex (c >>> 4), nlUrlToHex c]

def nlUrlFromHex (ch : Byte) : Byte := if isdigit ch then ch - 48 else tolower ch - 97 + 10

/-- `nl_url_decode` once its buffer is allocated. -/
def nlUrlDecode (ignorePlus : Bool) : Bytes → Bytes
  | [] => []
  | c :: str =>
    if c = 37 then
      match str with
      | x :: y :: rest =>
        if isxdigit x ∧ isxdigit y ∧ (x ≠ 48 ∨ y ≠ 48) then
          (nlUrlFromHex x <<< 4 ||| nlUrlFromHex y) :: nlUrlDecode ignorePlus rest
        else c :: nlUrlDecode ignorePlus (x :: y :: rest)
      | str => c :: nlUrlDecode ignorePlus str
    else if c = 43 ∧ !ignorePlus then 32 :: nlUrlDecode ignorePlus str
    else c :: nlUrlDecode ignorePlus str

example : nlUrlEncode (bytes "a b/c") true true = bytes "a%20b/c" := by decide

end Nlutils
