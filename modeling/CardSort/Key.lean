import CardSort.Collation
import CardSort.Field

/-!
# Sort keys

Records are ordered by a list of keys, each a field with a direction.

* `SortKey.compare` orders two records by one key. A missing or undecodable field comes first.
* `Comparer.compare` goes through the keys and stops at the first difference.
* `Comparer.validate` checks that every key exists in a record and decodes.
-/

set_option autoImplicit false

namespace CardSort

/-- The direction of a key. -/
inductive Direction where
  | ascending
  | descending
deriving DecidableEq, Repr

namespace Direction

/-- The direction with the given code. -/
def ofCode? : String → Option Direction
  | "A" => some ascending
  | "D" => some descending
  | _ => none

/-- The code of a direction on cards. -/
def code : Direction → String
  | ascending => "A"
  | descending => "D"

/-- An ascending order turned into the direction. -/
def apply : Direction → Ordering → Ordering
  | ascending, o => o
  | descending, o => o.swap

end Direction

/-- A field with a direction. -/
structure SortKey where
  field : Field
  direction : Direction
deriving DecidableEq, Repr

/-- Orders what two fields hold; nothing comes before anything. -/
def compareHeld {α : Type} (compare : α → α → Ordering) : Option α → Option α → Ordering
  | none, none => .eq
  | none, some _ => .lt
  | some _, none => .gt
  | some a, some b => compare a b

namespace SortKey

/-- Orders two records by the field, in ascending order. -/
def compareAscending (k : SortKey) (collation : Collation) (a b : Bytes) : Ordering :=
  if k.field.format.isText then
    compareHeld collation.compare (k.field.bytes a).toOption (k.field.bytes b).toOption
  else
    compareHeld Decimal.compare (k.field.decimal a).toOption (k.field.decimal b).toOption

/-- Orders two records by the key. -/
def compare (k : SortKey) (collation : Collation) (a b : Bytes) : Ordering :=
  k.direction.apply (k.compareAscending collation a b)

end SortKey

/-- A list of keys, compared from left to right, with the collation of character keys. -/
structure Comparer where
  keys : List SortKey
  collation : Collation
deriving DecidableEq, Repr

namespace Comparer

/-- Orders two records by a list of keys. -/
def compareKeys (collation : Collation) : List SortKey → Bytes → Bytes → Ordering
  | [], _, _ => .eq
  | k :: ks, a, b => (k.compare collation a b).then (compareKeys collation ks a b)

/-- Orders two records. -/
def compare (c : Comparer) (a b : Bytes) : Ordering := compareKeys c.collation c.keys a b

/-- Whether the first record may stand before the second one. -/
def le (c : Comparer) (a b : Bytes) : Bool := c.compare a b != .gt

/-- Checks that every key exists in the record and decodes. -/
def validate (c : Comparer) (record : Bytes) : Except Fault Unit :=
  c.keys.forM fun k => k.field.validate record

end Comparer

end CardSort
