import CardSort.Decimal
import CardSort.Encoding
import CardSort.Fault.Cause

/-!
# Numbers as bytes

The four numeric formats of fields. Each reads a byte string as a decimal, and writes the integer
part of a decimal over the bytes that a field has.

* `Accumulator.toDecimal` is the decimal of a number added up in 128 bits
  (`Accumulator.wrap_of_small`).
* `Writer` is a program that writes into the bytes of a field; `Writer.fresh` is what it makes of
  zeros.
* `Zoned`: one digit per byte, in the low nibble. The high nibble of the last byte carries the
  sign; the zones of the other bytes are not looked at.
* `Packed`: two digits per byte; the low nibble of the last byte is the sign, so `n` bytes hold
  `2 * n - 1` digits. For instance `+12345` in three bytes is `12 34 5C`.
* `Binary`: big-endian integers of at most eight bytes, signed in two's complement or unsigned.
  `Binary.unsigned` and `Binary.signed` are the mathematical readings of a byte string.
-/

set_option autoImplicit false

namespace CardSort

/-! ## What the codecs share -/

namespace Accumulator

/-- The signed value of the lowest 128 bits. -/
def wrap (n : Int) : Int := n.bmod (2 ^ (128 : Nat))

theorem wrap_of_small {n : Int} (h : n.natAbs < 2 ^ (127 : Nat)) : wrap n = n := by
  unfold wrap
  apply Int.bmod_eq_of_le <;> omega

/-- The accumulated number as a decimal, if it has at most 96 bits. -/
def toDecimal (n : Int) : Except CodecFault Decimal :=
  match Decimal.ofInt? (wrap n) with
  | some d => .ok d
  | none => .error (.overflow (toString (wrap n)) 0)

end Accumulator

/-- A program over the bytes of a field, in place. A fault leaves what was written before it. -/
abbrev Writer (ε : Type) := EStateM ε Bytes

/-- The bytes that a writer makes of `width` bytes that are zero. -/
def Writer.fresh {ε : Type} (w : Writer ε Unit) (width : Nat) : Except ε Bytes :=
  match w.run (List.replicate width 0) with
  | .ok _ bytes => .ok bytes
  | .error e _ => .error e

/-! ## Zoned decimals -/

namespace Zoned

/-- The number spelt by the low nibbles of a byte string, after a number already read. -/
def digitsFrom (acc : Nat) : Bytes → Except CodecFault Nat
  | [] => .ok acc
  | b :: rest =>
    let digit := Bytes.lowNibble b
    if digit > 9 then .error (.badDigit digit b.toNat) else digitsFrom (acc * 10 + digit) rest

/-- Whether the zone of the last byte is a minus sign. -/
def isNegative (enc : Encoding) (bytes : Bytes) : Bool :=
  match bytes.getLast? with
  | some last => enc.isNegativeZone (Bytes.highNibble last)
  | none => false

/-- Decodes a zoned decimal. -/
def decode (enc : Encoding) (bytes : Bytes) : Except CodecFault Decimal := do
  let magnitude ← digitsFrom 0 bytes
  Accumulator.toDecimal (if isNegative enc bytes then -(magnitude : Int) else magnitude)

/-- Puts the zone of a sign over the digit of the last byte. -/
def signLast (zone : Nat) : Bytes → Bytes
  | [] => []
  | [b] => [Bytes.ofNibbles zone (Bytes.lowNibble b)]
  | b :: rest => b :: signLast zone rest

/-- Writes the integer part of a decimal, zero-filled on the left. The digits are made before a
byte is written; what is left over of the number then does not fit. -/
def write (enc : Encoding) (value : Decimal) : Writer CodecFault Unit := do
  let width := (← get).length
  let n := value.truncate
  let (digits, rest) := Positional.fill 10 width n.natAbs
  if rest ≠ 0 then throw (.overflow value.toText width)
  set (digits.map (Bytes.ofNibbles enc.digitZone))
  modify (signLast (if n < 0 then enc.negativeZone else enc.positiveZone))

/-- Encodes the integer part of a decimal into `width` bytes. -/
def encode (enc : Encoding) (value : Decimal) (width : Nat) : Except CodecFault Bytes :=
  (write enc value).fresh width

end Zoned

/-! ## Packed decimals -/

namespace Packed

/-- Appends one digit to a number already read; `byte` is where the nibble stands. -/
def push (acc nibble : Nat) (byte : UInt8) : Except CodecFault Nat :=
  if nibble > 9 then .error (.badDigit nibble byte.toNat) else .ok (acc * 10 + nibble)

/-- Whether a sign nibble means negative. -/
def isNegativeSign (nibble : Nat) : Except CodecFault Bool :=
  if nibble = 0xB ∨ nibble = 0xD then .ok true
  else if nibble = 0xA ∨ nibble = 0xC ∨ nibble = 0xE ∨ nibble = 0xF then .ok false
  else .error (.badSign nibble)

/-- The signed number of a byte string, after the digits already read. The digits are looked at
before the sign. -/
def valueFrom (acc : Nat) : Bytes → Except CodecFault Int
  | [] => .ok 0
  | [last] => do
    let magnitude ← push acc (Bytes.highNibble last) last
    let negative ← isNegativeSign (Bytes.lowNibble last)
    pure (if negative then -(magnitude : Int) else magnitude)
  | b :: rest => do
    let acc ← push acc (Bytes.highNibble b) b
    let acc ← push acc (Bytes.lowNibble b) b
    valueFrom acc rest

/-- Decodes a packed decimal. -/
def decode (bytes : Bytes) : Except CodecFault Decimal := do
  Accumulator.toDecimal (← valueFrom 0 bytes)

/-- Packs nibbles two by two into bytes. -/
def packNibbles : List Nat → Bytes
  | high :: low :: rest => Bytes.ofNibbles high low :: packNibbles rest
  | _ => []

/-- Writes the integer part of a decimal with the sign `C` or `D`. The digits are made before a
byte is written; what is left over of the number then does not fit. -/
def write (value : Decimal) : Writer CodecFault Unit := do
  let width := (← get).length
  let n := value.truncate
  if width = 0 then throw (.overflow value.toText width)
  let (digits, rest) := Positional.fill 10 (2 * width - 1) n.natAbs
  if rest ≠ 0 then throw (.overflow value.toText width)
  set (packNibbles (digits ++ [if n < 0 then 0xD else 0xC]))

/-- Encodes the integer part of a decimal into `width` bytes. -/
def encode (value : Decimal) (width : Nat) : Except CodecFault Bytes :=
  (write value).fresh width

end Packed

/-! ## Binary integers -/

namespace Binary

/-- The widest binary field that can be written, in bytes. -/
def maxWidth : Nat := 8

/-- The unsigned big-endian reading of a byte string. -/
def unsigned (bytes : Bytes) : Nat := Positional.value 256 (bytes.map UInt8.toNat)

/-- The two's complement reading of a byte string: the first bit counts negatively. -/
def signed (bytes : Bytes) : Int :=
  match bytes with
  | [] => 0
  | first :: _ =>
    if first.toNat < 128 then unsigned bytes else unsigned bytes - (256 : Int) ^ bytes.length

/-- Decodes a signed integer. -/
def decodeSigned (bytes : Bytes) : Except CodecFault Decimal :=
  Accumulator.toDecimal (signed bytes)

/-- Decodes an unsigned integer. -/
def decodeUnsigned (bytes : Bytes) : Except CodecFault Decimal :=
  Accumulator.toDecimal (unsigned bytes)

/-- The lowest `width` bytes of the two's complement of an integer. -/
def bytesOf (width : Nat) (n : Int) : Bytes :=
  (Positional.digits 256 width (n % (256 : Int) ^ width).toNat).map UInt8.ofNat

/-- Writes an integer that is in range of the field. -/
def writeIn (value : Decimal) (fits : Nat → Int → Bool) : Writer CodecFault Unit := do
  let width := (← get).length
  let n := value.truncate
  if ¬ (width ≤ maxWidth ∧ fits width n) then throw (.overflow value.toText width)
  set (bytesOf width n)

/-- Whether a field of two's complement has enough bits for an integer. -/
def fitsSigned (width : Nat) (n : Int) : Bool :=
  0 < width ∧ -(2 : Int) ^ (8 * width - 1) ≤ n ∧ n < 2 ^ (8 * width - 1)

/-- Whether an unsigned field has enough bits for an integer. -/
def fitsUnsigned (width : Nat) (n : Int) : Bool := 0 ≤ n ∧ n < 2 ^ (8 * width)

/-- Writes the integer part of a decimal in two's complement. -/
def writeSigned (value : Decimal) : Writer CodecFault Unit := writeIn value fitsSigned

/-- Writes the integer part of a decimal without a sign. -/
def writeUnsigned (value : Decimal) : Writer CodecFault Unit := writeIn value fitsUnsigned

/-- Encodes the integer part of a decimal into `width` bytes of two's complement. -/
def encodeSigned (value : Decimal) (width : Nat) : Except CodecFault Bytes :=
  (writeSigned value).fresh width

/-- Encodes the integer part of a decimal into `width` unsigned bytes. -/
def encodeUnsigned (value : Decimal) (width : Nat) : Except CodecFault Bytes :=
  (writeUnsigned value).fresh width

end Binary

end CardSort
