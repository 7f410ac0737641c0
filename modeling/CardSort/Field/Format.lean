/-!
# Field formats

The six formats of fields in records.

* `FieldFormat.ofCode?` and `FieldFormat.code` are inverse (`FieldFormat.ofCode?_code`).
* `FieldFormat.maxLength?` is the widest field whose values still are decimals.
-/

set_option autoImplicit false

namespace CardSort

/-- The format of a field. -/
inductive FieldFormat where
  /-- Characters. -/
  | ch
  /-- Characters that `EQ` and `NE` search for a substring. -/
  | ss
  /-- Zoned decimal. -/
  | zd
  /-- Packed decimal. -/
  | pd
  /-- Signed big-endian binary. -/
  | fi
  /-- Unsigned big-endian binary. -/
  | bi
deriving DecidableEq, Repr

namespace FieldFormat

/-- The format with the given code. -/
def ofCode? : String → Option FieldFormat
  | "CH" => some ch
  | "SS" => some ss
  | "ZD" => some zd
  | "PD" => some pd
  | "FI" => some fi
  | "BI" => some bi
  | _ => none

/-- The code of a format on cards and in messages. -/
def code : FieldFormat → String
  | ch => "CH"
  | ss => "SS"
  | zd => "ZD"
  | pd => "PD"
  | fi => "FI"
  | bi => "BI"

/-- Whether fields of the format hold text. -/
def isText : FieldFormat → Bool
  | ch | ss => true
  | zd | pd | fi | bi => false

/-- Whether fields of the format hold numbers. -/
def isNumeric (f : FieldFormat) : Bool := ! f.isText

/-- The widest field whose values are decimals; text has no limit. -/
def maxLength? : FieldFormat → Option Nat
  | ch | ss => none
  | zd => some 28
  | pd => some 14
  | fi | bi => some 8

theorem ofCode?_code (f : FieldFormat) : ofCode? f.code = some f := by
  cases f <;> rfl

end FieldFormat

end CardSort
