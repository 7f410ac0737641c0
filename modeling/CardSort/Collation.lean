import CardSort.Encoding

/-!
# Collation of character keys

Character keys are ordered byte by byte. When another encoding sets the order, each byte is
first recoded into it, so that EBCDIC data can be ordered the ASCII way and the other way
round.

* `Collation.of` picks the collation for a display encoding and an optional sort encoding.
* `Collation.weight` is the sort weight of a byte: 16 bits, so distinct bytes never tie.
* `Collation.compare` orders byte strings.
-/

set_option autoImplicit false

namespace CardSort

/-- The order of character keys: that of the bytes, or that of the recoded bytes. -/
inductive Collation where
  | native
  | recoded (display target : Encoding)
deriving DecidableEq, Repr

namespace Collation

/-- The collation of data in `display`, ordered as `target` would order it. -/
def of (display : Encoding) (target : Option Encoding) : Collation :=
  match target with
  | some target => if target = display then native else recoded display target
  | none => native

/-- Whether bytes are compared as they stand. -/
def isNative : Collation → Bool
  | native => true
  | recoded _ _ => false

/-- The sort weight of a byte: the recoded byte in the upper half of 16 bits and, after a
recoding, the byte itself in the lower half. -/
def weight : Collation → UInt8 → Nat
  | native, b => b.toNat * 256
  | recoded display target, b =>
    (target.encodeChar (display.decodeByte b)).toNat * 256 + b.toNat

/-- Orders byte strings by the collation; a proper prefix comes first. -/
def compare (collation : Collation) (a b : Bytes) : Ordering :=
  match collation with
  | native => Bytes.compareBy UInt8.toNat a b
  | recoded _ _ => Bytes.compareBy collation.weight a b

end Collation

end CardSort
