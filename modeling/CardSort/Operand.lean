import CardSort.Field

/-!
# Operands of conditions

A side of a condition is a field or one of three constants: a decimal, a quoted text in the
display encoding, or bytes given in hexadecimal.

* `Operand.bytes` is what the operand contributes to a comparison of text.
* `Operand.decimal` is what it contributes to a comparison of numbers.
* `Operand.hexValue?` is the number of a hexadecimal constant, read byte by byte and given up
  when it is too large for a decimal.
-/

set_option autoImplicit false

namespace CardSort

/-- A field or a constant. -/
inductive Operand where
  | field (field : Field)
  | number (value : Decimal)
  /-- A quoted constant, already in the display encoding. -/
  | text (bytes : Bytes)
  /-- A hexadecimal constant. -/
  | hex (bytes : Bytes)
deriving DecidableEq, Repr

namespace Operand

/-- Appends bytes to a number of at most 128 bits; `none` as soon as it leaves them. -/
def appendBytes? (n : Nat) : Bytes → Option Nat
  | [] => some n
  | b :: rest =>
    let next := 256 * n + b.toNat
    if next < 2 ^ (128 : Nat) then appendBytes? next rest else none

/-- The number of a hexadecimal constant, if it is a decimal. -/
def hexValue? (bytes : Bytes) : Option Decimal :=
  (appendBytes? 0 bytes).bind fun n => Decimal.ofInt? n

/-- The field, if the operand is one. -/
def field? : Operand → Option Field
  | field f => some f
  | _ => none

/-- Whether the operand is a field of a text format. -/
def isTextField : Operand → Bool
  | field f => f.format.isText
  | _ => false

/-- Whether the operand is a field that is searched for a substring. -/
def isSearchField : Operand → Bool
  | field f => f.format = .ss
  | _ => false

/-- Whether the operand is a quoted or hexadecimal constant. -/
def isLiteral : Operand → Bool
  | text _ | hex _ => true
  | _ => false

/-- Whether the operand is a constant. -/
def isConstant : Operand → Bool
  | field _ => false
  | _ => true

/-- The bytes that the operand contributes to a comparison of text. -/
def bytes (enc : Encoding) (record : Bytes) : Operand → Except Fault Bytes
  | field f => f.bytes record
  | text b | hex b => .ok b
  | number d => .ok (enc.encode d.render)

/-- The number that the operand contributes to a comparison of numbers. -/
def decimal (enc : Encoding) (record : Bytes) : Operand → Except Fault Decimal
  | field f => f.decimal record
  | number d => .ok d
  | hex b =>
    match hexValue? b with
    | some d => .ok d
    | none => .error (.invalidNumber 0 0 .hexTooLong)
  | text b => Field.decimalOfText (enc.decode b) 0

end Operand

end CardSort
