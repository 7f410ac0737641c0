import CardSort.Card.Token
import CardSort.Field.Format

/-!
# Causes of faults

What can be wrong with a field, with bytes that should be a number, with a setting, or with the
text of a card. Each cause is a constructor, and `message` gives its wording.
-/

set_option autoImplicit false

namespace CardSort

/-! ## Fields and numbers -/

/-- Why a field cannot be declared. -/
inductive FieldRefusal where
  | positionZero
  | lengthZero
  /-- The end of the field does not fit into 64 bits. -/
  | outOfRange (position length : Nat)
  | tooLong (format : FieldFormat) (length maximum : Nat)
deriving DecidableEq, Repr

/-- The wording of a refused field. -/
def FieldRefusal.message : FieldRefusal → String
  | positionZero => "field positions start at 1"
  | lengthZero => "field length must be at least 1"
  | outOfRange position length =>
    s!"field at position {position} length {length} is out of range"
  | tooLong format length maximum =>
    s!"{format.code} field length {length} exceeds maximum of {maximum}"

/-- Why a numeric codec fails, before the failure is tied to a field. -/
inductive CodecFault where
  | badDigit (nibble byte : Nat)
  | badSign (nibble : Nat)
  | overflow (value : String) (length : Nat)
deriving DecidableEq, Repr

/-- A number in upper-case hexadecimal digits, at least `width` of them. -/
def hexText (width n : Nat) : String :=
  let digits := (Nat.toDigits 16 n).map Char.toUpper
  String.ofList (List.replicate (width - digits.length) '0' ++ digits)

/-- The wording of a codec failure. -/
def CodecFault.message : CodecFault → String
  | badDigit nibble byte =>
    "invalid digit nibble 0x" ++ hexText 1 nibble ++ " in byte 0x" ++ hexText 2 byte
  | badSign nibble => "invalid sign nibble 0x" ++ hexText 1 nibble
  | overflow value length => s!"value {value} does not fit {length} bytes"

/-- Why data cannot be read as a number. -/
inductive NumberIssue where
  /-- The bytes are invalid for the numeric format. -/
  | codec (format : FieldFormat) (fault : CodecFault)
  /-- The text is no decimal numeral. -/
  | notNumeral (text : String)
  /-- A hexadecimal constant has more than 96 bits. -/
  | hexTooLong
  /-- Any other cause, in words. -/
  | other (detail : String)
deriving DecidableEq, Repr

/-- The wording of an issue with a number. -/
def NumberIssue.message : NumberIssue → String
  | codec format fault => format.code ++ " field: " ++ fault.message
  | notNumeral text => "'" ++ text ++ "' is not a number"
  | hexTooLong => "hex constant is too long to compare numerically"
  | other detail => detail

/-! ## Settings -/

/-- Why a job or one of its settings is refused. -/
inductive SettingIssue where
  | memoryLimitZero
  | recordLengthZero
  | separatorEmpty
  | mergeWithoutKeys
  | fieldRefused (refusal : FieldRefusal)
  | numberIntoText (format : FieldFormat)
  | recordTooLong (length : Nat)
  /-- The text of the configuration is not well-formed, or a member has the wrong type. -/
  | unreadable
  /-- Any other cause, in words. -/
  | other (detail : String)
deriving DecidableEq, Repr

/-- The wording of an issue with a setting. -/
def SettingIssue.message : SettingIssue → String
  | memoryLimitZero => "memory_limit must be greater than zero"
  | recordLengthZero => "fixed record length must be greater than zero"
  | separatorEmpty => "record separator must not be empty"
  | mergeWithoutKeys => "MERGE needs key fields"
  | fieldRefused refusal => refusal.message
  | numberIntoText format => s!"cannot store a number into a {format.code} field"
  | recordTooLong length => s!"record of {length} bytes is too long to spill"
  | unreadable => "unreadable configuration text"
  | other detail => detail

/-! ## Cards -/

/-- Why the text of a card is refused. -/
inductive CardIssue where
  | unterminatedLiteral
  | expectedToken (token : Card.Token)
  | expectedWord
  | expectedNumber
  | expectedLiteral
  | trailingInput
  | fieldRefused (refusal : FieldRefusal)
  | missingFormat
  | noSortField
  | noSumField
  | sumOfText (format : FieldFormat)
  | noOperator
  | noOperand
  | notDecimal (word : String)
  | badHex
  | noFieldReference
  | noFieldFormat
  | tooManyTokens
  | noOutputItem
  | badColumn
  | zeroRepeat
  | unknownItem (word : String)
  | badEditLength
  | editWithoutFormat
  | editOfText (format : FieldFormat)
  | missingMask
  | signCount (count : Nat)
  | noDestinationOperand
  | duplicateOperand (word : String)
  | unknownDestinationOperand (word : String)
  | duplicateStatement (keyword : String)
  | unknownStatement (keyword : String)
  /-- Any other cause, in words. -/
  | other (detail : String)
deriving DecidableEq, Repr

/-- The wording of an issue with a card. -/
def CardIssue.message : CardIssue → String
  | unterminatedLiteral => "unterminated literal"
  | expectedToken token => "expected " ++ token.describe
  | expectedWord => "expected a word"
  | expectedNumber => "expected a number"
  | expectedLiteral => "expected a quoted literal"
  | trailingInput => "unexpected trailing input"
  | fieldRefused refusal => refusal.message
  | missingFormat => "field has no format and no FORMAT= default"
  | noSortField => "expected at least one sort field"
  | noSumField => "expected NONE or at least one field"
  | sumOfText format => s!"SUM fields must be numeric, got {format.code}"
  | noOperator => "expected a comparison operator (EQ, NE, GT, GE, LT, LE)"
  | noOperand => "expected a field or constant"
  | notDecimal word => "'" ++ word ++ "' is not a decimal constant"
  | badHex => "hex constant needs an even number of hex digits"
  | noFieldReference => "expected start,length[,format]"
  | noFieldFormat => "expected a field format"
  | tooManyTokens => "too many tokens in field reference"
  | noOutputItem => "expected at least one output item"
  | badColumn => "output column must be a number from 1"
  | zeroRepeat => "repeat count must be at least 1"
  | unknownItem word => "unrecognized output item '" ++ word ++ "'"
  | badEditLength => "LENGTH= needs a positive number"
  | editWithoutFormat => "edit needs a numeric field format"
  | editOfText format => s!"edit needs a numeric field format, got {format.code}"
  | missingMask => "numeric field needs EDIT=(mask) or Mn"
  | signCount count => s!"SIGNS takes 1, 2 or 4 values, got {count}"
  | noDestinationOperand => "expected an OUTFIL operand"
  | duplicateOperand word => "duplicate " ++ word
  | unknownDestinationOperand word =>
    "unexpected '" ++ word ++
      "' in OUTFIL; expected INCLUDE=, OMIT=, OUTREC=, BUILD= or FNAMES="
  | duplicateStatement keyword => "duplicate " ++ keyword ++ " statement"
  | unknownStatement keyword => "unknown statement '" ++ keyword ++ "'"
  | other detail => detail

end CardSort
