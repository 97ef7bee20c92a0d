import CallReach.Text.Digit

/-!
# UTF-8

Strict decoding of bytes, and the fault that stops it.  Overlong forms,
surrogates and values above U+10FFFF are refused at their first byte, and a
fault covers the lead byte together with the continuation bytes that fit it.
-/

namespace CallReach.Text

/-- Why a byte sequence is not UTF-8. -/
inductive Utf8Reason where
  | invalidStart
  | invalidContinuation
  | unexpectedEnd
deriving DecidableEq, Repr

namespace Utf8Reason

/-- The wording of a reason. -/
def message : Utf8Reason → String
  | invalidStart => "invalid start byte"
  | invalidContinuation => "invalid continuation byte"
  | unexpectedEnd => "unexpected end of data"

end Utf8Reason

/-- The first place where bytes are not UTF-8. -/
structure Utf8Fault where
  /-- The byte at which the bad character starts. -/
  byte : UInt8
  /-- The position of that byte. -/
  start : Nat
  /-- How many bytes belong to the fault. -/
  length : Nat
  reason : Utf8Reason
deriving DecidableEq, Repr

namespace Utf8Fault

/-- The wording of a fault. -/
def message (fault : Utf8Fault) : String :=
  let place :=
    if fault.length = 1 then
      "byte 0x" ++ String.ofList (padDigits 16 2 fault.byte.toNat) ++
        " in position " ++ toString fault.start
    else
      "bytes in position " ++ toString fault.start ++ "-" ++
        toString (fault.start + fault.length - 1)
  "'utf-8' codec can't decode " ++ place ++ ": " ++ fault.reason.message

end Utf8Fault

namespace Utf8

/-- A lead byte: how many continuation bytes follow, the bits it contributes,
and the range of the first continuation byte. -/
structure Lead where
  count : Nat
  bits : Nat
  lowest : Nat
  highest : Nat

/-- The lead bytes of characters of two, three and four bytes. -/
def lead? (byte : Nat) : Option Lead :=
  if 0xC2 ≤ byte && byte ≤ 0xDF then some ⟨1, byte - 0xC0, 0x80, 0xBF⟩
  else if byte = 0xE0 then some ⟨2, 0, 0xA0, 0xBF⟩
  else if byte = 0xED then some ⟨2, 0xD, 0x80, 0x9F⟩
  else if 0xE1 ≤ byte && byte ≤ 0xEF then some ⟨2, byte - 0xE0, 0x80, 0xBF⟩
  else if byte = 0xF0 then some ⟨3, 0, 0x90, 0xBF⟩
  else if 0xF1 ≤ byte && byte ≤ 0xF3 then some ⟨3, byte - 0xF0, 0x80, 0xBF⟩
  else if byte = 0xF4 then some ⟨3, 4, 0x80, 0x8F⟩
  else none

/-- Reads `count` continuation bytes, the first within the given range.  On
failure it says how many bytes fitted and why the next one did not. -/
def continuation (count value lowest highest fitted : Nat) :
    List UInt8 → Except (Nat × Utf8Reason) (Nat × List UInt8)
  | [] => if count = 0 then .ok (value, []) else .error (fitted, .unexpectedEnd)
  | byte :: rest =>
      if count = 0 then .ok (value, byte :: rest)
      else if lowest ≤ byte.toNat && byte.toNat ≤ highest then
        continuation (count - 1) (64 * value + (byte.toNat - 0x80)) 0x80 0xBF (fitted + 1) rest
      else .error (fitted, .invalidContinuation)

/-- Continuation bytes leave no more bytes than there were. -/
theorem continuation_length {count value lowest highest fitted result : Nat}
    {bytes rest : List UInt8}
    (h : continuation count value lowest highest fitted bytes = .ok (result, rest)) :
    rest.length ≤ bytes.length := by
  induction bytes generalizing count value lowest highest fitted with
  | nil =>
      unfold continuation at h
      split at h <;> simp_all
  | cons byte bytes ih =>
      unfold continuation at h
      split at h
      · simp_all
      · split at h
        · exact Nat.le_succ_of_le (ih h)
        · simp at h

/-- Decodes bytes, the first of which has the given position. -/
def decodeFrom (position : Nat) : List UInt8 → Except Utf8Fault (List Char)
  | [] => .ok []
  | byte :: rest =>
      if byte.toNat < 0x80 then
        return Char.ofNat byte.toNat :: (← decodeFrom (position + 1) rest)
      else
        match lead? byte.toNat with
        | none => .error ⟨byte, position, 1, .invalidStart⟩
        | some lead =>
            match h : continuation lead.count lead.bits lead.lowest lead.highest 0 rest with
            | .error (fitted, reason) => .error ⟨byte, position, fitted + 1, reason⟩
            | .ok (value, after) =>
                return Char.ofNat value :: (← decodeFrom (position + 1 + lead.count) after)
termination_by bytes => bytes.length
decreasing_by
  · simp
  · have := continuation_length h
    simp only [List.length_cons]
    omega

/-- The characters that bytes encode, or the first fault. -/
def decode (bytes : List UInt8) : Except Utf8Fault (List Char) :=
  decodeFrom 0 bytes

end Utf8

/-- Line ends as one newline each: a return, alone or before a newline, is a
newline. -/
def unifyLineEnds : List Char → List Char
  | [] => []
  | '\r' :: '\n' :: rest => '\n' :: unifyLineEnds rest
  | '\r' :: rest => '\n' :: unifyLineEnds rest
  | c :: rest => c :: unifyLineEnds rest

end CallReach.Text
