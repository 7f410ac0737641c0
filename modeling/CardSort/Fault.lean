import CardSort.Fault.Cause

/-!
# Faults

Everything that stops the reading of cards or a job. A fault names its cause and where it lies:
an index into the text of a card, or the number of a record.

* `Fault.message` is the wording; `Fault.span?` is the marked range of a card.
* `Fault.atRecord` stamps a record number onto a fault of the data and leaves other faults
  alone.
* `Fault.within` carries a fault in an operand over to the statement that holds it.
-/

set_option autoImplicit false

namespace CardSort

/-- What stops the reading of cards or a job. -/
inductive Fault where
  /-- Malformed text of a card, at a byte index into `source`. -/
  | card (issue : CardIssue) (index : Nat) (source : String)
  /-- A code that is no field format, at a byte index into `source`. -/
  | unknownFormat (code : String) (index : Nat) (source : String)
  /-- A record that does not contain a declared field. -/
  | recordTooShort (record position length actual : Nat)
  /-- Data or a constant that cannot be read as a number. -/
  | invalidNumber (record position : Nat) (issue : NumberIssue)
  /-- Fixed-length input that ends within a record. -/
  | truncated (record expected actual : Nat)
  /-- A value that does not fit its field. -/
  | overflow (value : String) (length : Nat) (format : FieldFormat)
  /-- A number of sinks that differs from the number of destinations. -/
  | sinkCount (expected actual : Nat)
  /-- A refused setting. -/
  | setting (issue : SettingIssue)
  /-- A file or directory that cannot be read or written. -/
  | io
deriving DecidableEq, Repr

namespace Fault

/-- The wording of a fault. -/
def message : Fault → String
  | card issue index _ => s!"parse error at index {index}: {issue.message}"
  | unknownFormat code index _ => "unrecognized field format '" ++ code ++ s!"' at index {index}"
  | recordTooShort record position length actual =>
    s!"record {record}: field at position {position} length {length} exceeds record length {actual}"
  | invalidNumber record position issue =>
    s!"record {record}: invalid numeric data at position {position}: {issue.message}"
  | truncated record expected actual =>
    s!"record {record}: truncated fixed-length record, expected {expected} bytes but got {actual}"
  | overflow value length format =>
    s!"value {value} does not fit a {length}-byte {format.code} field"
  | sinkCount expected actual => s!"expected {expected} output destination(s), got {actual}"
  | setting issue => s!"configuration error: {issue.message}"
  | io => "I/O error"

/-- The diagnostic code of a fault. -/
def code : Fault → String
  | card .. => "sort::parse"
  | unknownFormat .. => "sort::unrecognized_format"
  | recordTooShort .. => "sort::record_too_short"
  | invalidNumber .. => "sort::invalid_numeric"
  | truncated .. => "sort::truncated"
  | overflow .. => "sort::overflow"
  | sinkCount .. => "sort::destination_mismatch"
  | setting _ => "sort::config"
  | io => "sort::io"

/-- Advice that goes with a fault. -/
def help? : Fault → Option String
  | unknownFormat .. => some "supported formats are CH, SS, ZD, PD, FI and BI"
  | _ => none

/-- Whether the contents of a record are at fault. -/
def isDataFault : Fault → Bool
  | recordTooShort .. | invalidNumber .. | truncated .. => true
  | _ => false

/-- The marked range of a card, as a byte offset and a length. A malformed card is marked by
one byte, or none at the end of the text; an unknown format by its code, or one byte. -/
def span? : Fault → Option (Nat × Nat)
  | card _ index source =>
    let total := source.utf8ByteSize
    some (min index total, if index < total then 1 else 0)
  | unknownFormat code index source =>
    some (min index source.utf8ByteSize, max code.utf8ByteSize 1)
  | _ => none

/-- The text of the card at fault. -/
def source? : Fault → Option String
  | card _ _ source | unknownFormat _ _ source => some source
  | _ => none

/-- Stamps the number of a record onto a fault of the data. -/
def atRecord (number : Nat) : Fault → Fault
  | recordTooShort _ position length actual => recordTooShort number position length actual
  | invalidNumber _ position issue => invalidNumber number position issue
  | truncated _ expected actual => truncated number expected actual
  | other => other

/-- Carries a fault in an operand over to its statement, in which the operand starts at byte
`offset`. -/
def within (offset : Nat) (statement : String) : Fault → Fault
  | card issue index _ => card issue (index + offset) statement
  | unknownFormat code index _ => unknownFormat code (index + offset) statement
  | other => other

end Fault

end CardSort
