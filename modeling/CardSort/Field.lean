import CardSort.Decimal.Numeral
import CardSort.Fault
import CardSort.Field.Codec

/-!
# Fields of records

A field is a range of bytes with a format and an encoding. Text formats yield the bytes as they
stand, numeric formats a decimal.

* `Field.of` declares a field by its position from 1 on, and refuses ranges and lengths that no
  record or decimal can have.
* `Field.bytes`, `Field.decimal` and `Field.validate` read a record.
* `Field.store` writes a number into the bytes of the field, in place; `Field.encode` is what it
  writes.
-/

set_option autoImplicit false

namespace CardSort

/-- A typed range of bytes of a record. -/
structure Field where
  /-- The offset of the first byte, from zero on. -/
  offset : Nat
  length : Nat
  format : FieldFormat
  encoding : Encoding
deriving DecidableEq, Repr

namespace Field

/-- A field by its position from 1 on. -/
def of (position length : Nat) (format : FieldFormat) (encoding : Encoding) :
    Except FieldRefusal Field :=
  if position = 0 then .error .positionZero
  else if length = 0 then .error .lengthZero
  else if position + length ≥ 2 ^ (64 : Nat) then .error (.outOfRange position length)
  else
    match format.maxLength? with
    | some maximum =>
      if length > maximum then .error (.tooLong format length maximum)
      else .ok ⟨position - 1, length, format, encoding⟩
    | none => .ok ⟨position - 1, length, format, encoding⟩

/-- The position of the first byte, from 1 on. -/
def position (f : Field) : Nat := f.offset + 1

/-- The offset after the last byte. -/
def stop (f : Field) : Nat := f.offset + f.length

/-- The fault of a record that does not contain the field. -/
def tooShort (f : Field) (record : Bytes) : Fault :=
  .recordTooShort 0 f.position f.length record.length

/-- Ties the failure of a codec to the field. -/
def codecFault (f : Field) : CodecFault → Fault
  | .overflow value _ => .overflow value f.length f.format
  | other => .invalidNumber 0 f.position (.codec f.format other)

/-- The number that the text of a record at `position` spells. -/
def decimalOfText (text : List Char) (position : Nat) : Except Fault Decimal :=
  match Decimal.ofPaddedText? text with
  | some d => .ok d
  | none => .error (.invalidNumber 0 position (.notNumeral (String.ofList (Text.trim text))))

/-- The bytes of the field. -/
def bytes (f : Field) (record : Bytes) : Except Fault Bytes :=
  match record.slice? f.offset f.length with
  | some b => .ok b
  | none => .error (f.tooShort record)

/-- The number in the bytes of a field. -/
def decode (f : Field) (content : Bytes) : Except Fault Decimal :=
  match f.format with
  | .zd => (Zoned.decode f.encoding content).mapError f.codecFault
  | .pd => (Packed.decode content).mapError f.codecFault
  | .fi => (Binary.decodeSigned content).mapError f.codecFault
  | .bi => (Binary.decodeUnsigned content).mapError f.codecFault
  | .ch | .ss => decimalOfText (f.encoding.decode content) f.position

/-- The number in the field of a record. -/
def decimal (f : Field) (record : Bytes) : Except Fault Decimal := do
  f.decode (← f.bytes record)

/-- Writes a number into the bytes of the field. -/
def write (f : Field) (value : Decimal) : Writer Fault Unit :=
  match f.format with
  | .zd => (Zoned.write f.encoding value).adaptExcept f.codecFault
  | .pd => (Packed.write value).adaptExcept f.codecFault
  | .fi => (Binary.writeSigned value).adaptExcept f.codecFault
  | .bi => (Binary.writeUnsigned value).adaptExcept f.codecFault
  | .ch | .ss => throw (.setting (.numberIntoText f.format))

/-- The bytes that a number makes of the field if they are zero before. -/
def encode (f : Field) (value : Decimal) : Except Fault Bytes := (f.write value).fresh f.length

/-- Runs a writer on the bytes of the field, where they stand in the record. -/
def inPlace (f : Field) (w : Writer Fault Unit) : Writer Fault Unit := fun record =>
  match f.bytes record with
  | .error fault => .error fault record
  | .ok content =>
    match w.run content with
    | .ok _ written => .ok () (record.splice f.offset written)
    | .error fault written => .error fault (record.splice f.offset written)

/-- Stores a number in the field of a record, in place. -/
def store (f : Field) (value : Decimal) : Writer Fault Unit := f.inPlace (f.write value)

/-- Checks that the field exists in the record and decodes if it is numeric. -/
def validate (f : Field) (record : Bytes) : Except Fault Unit :=
  if f.format.isNumeric then do
    let _ ← f.decimal record
    pure ()
  else do
    let _ ← f.bytes record
    pure ()

end Field

end CardSort
