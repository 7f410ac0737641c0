import CardSort.Operand

/-!
# Conditions and filters

A condition compares two operands, as text or as numbers, and a filter combines conditions.

* `Condition.isText` decides how the operands are compared.
* `Condition.evaluate` tests a record. Text is padded with blanks to equal length; a field of
  format `SS` is searched for the other side by `EQ` and `NE`.
* `Filter.evaluate` tests a record against a whole filter, from left to right.
-/

set_option autoImplicit false

namespace CardSort

/-- The comparison of a condition. -/
inductive CompareOp where
  | eq
  | ne
  | gt
  | ge
  | lt
  | le
deriving DecidableEq, Repr

namespace CompareOp

/-- The comparison with the given code. -/
def ofCode? : String → Option CompareOp
  | "EQ" => some eq
  | "NE" => some ne
  | "GT" => some gt
  | "GE" => some ge
  | "LT" => some lt
  | "LE" => some le
  | _ => none

/-- The code of a comparison on cards. -/
def code : CompareOp → String
  | eq => "EQ"
  | ne => "NE"
  | gt => "GT"
  | ge => "GE"
  | lt => "LT"
  | le => "LE"

/-- Whether the comparison holds of two operands in the given order. -/
def test : CompareOp → Ordering → Bool
  | eq, o => o = .eq
  | ne, o => o ≠ .eq
  | gt, o => o = .gt
  | ge, o => o ≠ .lt
  | lt, o => o = .lt
  | le, o => o ≠ .gt

end CompareOp

/-! ## Comparing text -/

/-- Orders two byte strings, the shorter one padded on the right with the byte `pad`. -/
def paddedCompare (pad : UInt8) : Bytes → Bytes → Ordering
  | [], [] => .eq
  | x :: xs, [] => (compare x.toNat pad.toNat).then (paddedCompare pad xs [])
  | [], y :: ys => (compare pad.toNat y.toNat).then (paddedCompare pad [] ys)
  | x :: xs, y :: ys => (compare x.toNat y.toNat).then (paddedCompare pad xs ys)

/-! ## Conditions -/

/-- A comparison of two operands. -/
structure Condition where
  left : Operand
  op : CompareOp
  right : Operand
  encoding : Encoding
deriving DecidableEq, Repr

namespace Condition

/-- Whether the operands are compared as text: one of them is a text field, or both are
constants and one of them is quoted or hexadecimal. -/
def isText (c : Condition) : Bool :=
  c.left.isTextField || c.right.isTextField ||
    (c.left.isConstant && c.right.isConstant && (c.left.isLiteral || c.right.isLiteral))

/-- Whether the one search field among the operands holds the other operand; `none` unless
exactly one operand is a search field and the comparison is `EQ` or `NE`. -/
def search? (c : Condition) (a b : Bytes) : Option Bool :=
  if c.op = .eq ∨ c.op = .ne then
    match c.left.isSearchField, c.right.isSearchField with
    | true, false => some (Bytes.occursIn b a)
    | false, true => some (Bytes.occursIn a b)
    | _, _ => none
  else none

/-- The outcome of the comparison on the bytes of the operands. -/
def testText (c : Condition) (a b : Bytes) : Bool :=
  match c.search? a b with
  | some found => found == (c.op = .eq)
  | none => c.op.test (paddedCompare c.encoding.space a b)

/-- Tests a record. -/
def evaluate (c : Condition) (record : Bytes) : Except Fault Bool :=
  if c.isText then do
    let a ← c.left.bytes c.encoding record
    let b ← c.right.bytes c.encoding record
    pure (c.testText a b)
  else do
    let a ← c.left.decimal c.encoding record
    let b ← c.right.decimal c.encoding record
    pure (c.op.test (a.compare b))

end Condition

/-! ## Filters -/

/-- A boolean combination of conditions. -/
inductive Filter where
  | compare (condition : Condition)
  | and (left right : Filter)
  | or (left right : Filter)
  | not (filter : Filter)
deriving DecidableEq, Repr

namespace Filter

/-- Whether a record passes. The right side of `and` and `or` is evaluated only if the left side
does not decide. -/
def evaluate (record : Bytes) : Filter → Except Fault Bool
  | compare c => c.evaluate record
  | and l r => do if ← l.evaluate record then r.evaluate record else pure false
  | or l r => do if ← l.evaluate record then pure true else r.evaluate record
  | not f => do pure (! (← f.evaluate record))

/-- The filter of records to include and records to omit, each of them optional. -/
def combine (included omitted : Option Filter) : Option Filter :=
  match included, omitted with
  | some i, some o => some (.and i (.not o))
  | some i, none => some i
  | none, some o => some (.not o)
  | none, none => none

/-- Whether a record passes an optional filter; no filter passes every record. -/
def passes (filter : Option Filter) (record : Bytes) : Except Fault Bool :=
  match filter with
  | some f => f.evaluate record
  | none => .ok true

end Filter

end CardSort
