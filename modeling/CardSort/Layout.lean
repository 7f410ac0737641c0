import CardSort.Field
import CardSort.Layout.Mask

/-!
# Layouts of output records

A layout builds an output record from items: copied bytes, constants and edited numbers. An item
may name the output column where it starts; otherwise it follows the item before it. Columns
that no item covers are blank, and later items overlay earlier ones.

* `Layout.format` builds the output record.
* `Layout.validate` checks a record without building one.
-/

set_option autoImplicit false

namespace CardSort

/-- What an item writes. -/
inductive Content where
  /-- Bytes of the input record as they stand. -/
  | copy (field : Field)
  /-- Constant bytes. -/
  | constant (bytes : Bytes)
  /-- A numeric field rendered through a mask. -/
  | edit (field : Field) (edit : Edit)
deriving DecidableEq, Repr

namespace Content

/-- The bytes that an item writes for a record. -/
def bytes (encoding : Encoding) (record : Bytes) : Content → Except Fault Bytes
  | copy f => f.bytes record
  | constant b => .ok b
  | edit f e => do
    let value ← f.decimal record
    pure (encoding.encode (e.apply value))

/-- Checks that the field of an item exists in a record, and decodes if it is edited. -/
def validate (record : Bytes) : Content → Except Fault Unit
  | copy f => do
    let _ ← f.bytes record
    pure ()
  | constant _ => .ok ()
  | edit f _ => f.validate record

end Content

/-- An item: what it writes, and the column where it starts, from 1 on. -/
structure LayoutItem where
  column : Option Nat
  content : Content
deriving DecidableEq, Repr

/-- The offset where an item starts, if the item before it ended at `cursor`. -/
def LayoutItem.start (item : LayoutItem) (cursor : Nat) : Nat :=
  match item.column with
  | some column => column - 1
  | none => cursor

/-- A list of items, and the encoding of blanks and edited numbers. -/
structure Layout where
  items : List LayoutItem
  encoding : Encoding
deriving DecidableEq, Repr

namespace Layout

/-- Writes bytes at an offset over a record, which is filled with the byte `blank` up to there
if it is shorter. Records are as long as need be: columns above `2 ^ 63 - 1`, for which no program
can allocate a record, are not told apart. -/
def writeAt (blank : UInt8) (out : Bytes) (start : Nat) (bytes : Bytes) : Bytes :=
  (out ++ List.replicate (start - out.length) blank).splice start bytes

/-- Writes items over the output built so far, which ends its last item at `cursor`. -/
def formatFrom (encoding : Encoding) (record out : Bytes) (cursor : Nat) :
    List LayoutItem → Except Fault Bytes
  | [] => .ok out
  | item :: items => do
    let start := item.start cursor
    let bytes ← item.content.bytes encoding record
    formatFrom encoding record (writeAt encoding.space out start bytes) (start + bytes.length)
      items

/-- The output record of an input record. -/
def format (layout : Layout) (record : Bytes) : Except Fault Bytes :=
  formatFrom layout.encoding record [] 0 layout.items

/-- Checks that every field of the layout exists in the record, and decodes if it is edited. -/
def validate (layout : Layout) (record : Bytes) : Except Fault Unit :=
  layout.items.forM fun item => item.content.validate record

/-- The record as an optional layout leaves it. -/
def formatWith (layout : Option Layout) (record : Bytes) : Except Fault Bytes :=
  match layout with
  | some l => l.format record
  | none => .ok record

end Layout

end CardSort
