import Crosswalk.Bytes
import Crosswalk.Text.Hex
import Crosswalk.Text.Utf16

/-!
# Modified UTF-8

Class files spell text unit by unit: a sixteen-bit unit takes one byte from U+0001 to U+007F, two
bytes up to U+07FF and for U+0000, and three bytes otherwise, so a character beyond U+FFFF takes
two times three. `encode` writes a text, `decodeUnits` reads units without asking whether they
pair up, and `decode` reads a text.
-/

namespace Crosswalk.Modified

/-! ## Writing -/

/-- The bytes of one unit. -/
def encodeUnit (u : UInt16) : Bytes :=
  if 0 < u ∧ u < 0x80 then
    [u.toUInt8]
  else if u < 0x800 then
    [0xC0 + (u / 64).toUInt8, 0x80 + (u % 64).toUInt8]
  else
    [0xE0 + (u / 4096).toUInt8, 0x80 + (u / 64 % 64).toUInt8, 0x80 + (u % 64).toUInt8]

/-- The bytes of a text. -/
def encode (text : String) : Bytes :=
  (Utf16.units text).flatMap encodeUnit

/-! ## Reading -/

/-- Why bytes are no modified UTF-8. -/
inductive Fault
  /-- A sequence is cut short, or goes on with a byte that continues nothing. -/
  | brokenSequence
  /-- A sequence starts with a byte that starts none. -/
  | invalidLead (byte : UInt8)
  /-- The units have a surrogate without a partner. -/
  | loneSurrogate
  deriving DecidableEq, Repr

namespace Fault

/-- What is said about a fault. -/
def message : Fault → String
  | brokenSequence => "Truncated or invalid modified UTF-8 sequence"
  | invalidLead b => "Invalid modified UTF-8 lead byte 0x" ++ Hex.lower b.toNat
  | loneSurrogate => "invalid utf-16: lone surrogate found"

end Fault

/-- Whether a byte continues a sequence. -/
def isContinuation (b : UInt8) : Bool :=
  0x80 ≤ b && b < 0xC0

/-- The unit of a two-byte sequence. -/
def unit2 (lead next : UInt8) : UInt16 :=
  (lead % 32).toUInt16 * 64 + (next % 64).toUInt16

/-- The unit of a three-byte sequence. -/
def unit3 (lead next last : UInt8) : UInt16 :=
  (lead % 16).toUInt16 * 4096 + (next % 64).toUInt16 * 64 + (last % 64).toUInt16

/-- Reads sequences to the end, behind the units in `done`, which are kept last first. -/
def decodeUnitsAfter : List UInt16 → Bytes → Except Fault (List UInt16)
  | done, [] => .ok done.reverse
  | done, lead :: rest =>
    if lead < 0x80 then
      decodeUnitsAfter (lead.toUInt16 :: done) rest
    else if lead < 0xC0 then
      .error (.invalidLead lead)
    else if lead < 0xE0 then
      match rest with
      | next :: rest =>
        if isContinuation next then
          decodeUnitsAfter (unit2 lead next :: done) rest
        else
          .error .brokenSequence
      | [] => .error .brokenSequence
    else if lead < 0xF0 then
      match rest with
      | next :: last :: rest =>
        if isContinuation next && isContinuation last then
          decodeUnitsAfter (unit3 lead next last :: done) rest
        else
          .error .brokenSequence
      | _ => .error .brokenSequence
    else
      .error (.invalidLead lead)

/-- The units that the bytes spell. -/
def decodeUnits (body : Bytes) : Except Fault (List UInt16) :=
  decodeUnitsAfter [] body

/-- The text that the bytes spell. -/
def decode (body : Bytes) : Except Fault String := do
  match Utf16.ofUnits? (← decodeUnits body) with
  | some text => pure text
  | none => throw .loneSurrogate

/-! ## Small facts -/

@[simp] theorem encode_empty : encode "" = [] := rfl

/-- The null character takes two bytes. -/
example : encodeUnit 0 = [0xC0, 0x80] := by decide

end Crosswalk.Modified
