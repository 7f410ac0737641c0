import CardSort.Key.Card
import CardSort.Sum

/-!
# Sums on cards

The operand of a sum statement:

    [FORMAT=f,] FIELDS=("(" field ("," field)* ")" | NONE) [,FORMAT=f]
    field = start length [format]

* `SumRule.ofCard` reads it.
-/

set_option autoImplicit false

namespace CardSort.SumRule

open Card

/-- Whether a word in a sum field stands for a format: it is no number. -/
def isFormatWord (w : String) : Bool := (Numeral.word64? w).isNone

/-- One numeric field. -/
def fieldOnCard (encoding : Encoding) (default : Option FieldFormat) : Parser Field := do
  let index := (← get).index
  let position ← number
  let length ← number
  match ← fieldFormat isFormatWord default with
  | none => failAt .missingFormat index
  | some format =>
    if format.isText then failAt (.sumOfText format) index
    else declareField position length format encoding index

/-- A list of fields, or `NONE` in its place. -/
def fieldsOnCard (encoding : Encoding) (default : Option FieldFormat) : Parser SumRule := do
  if ← eatWord "NONE" then pure .skipDuplicates
  else do
    let fields ← collect (! ·.endsFields) (fieldOnCard encoding default)
    if fields.isEmpty then fail .noSumField else pure (.addFields fields)

/-- The rule of a sum statement. -/
def ruleOnCard (encoding : Encoding) (default : Option FieldFormat) : Parser SumRule := do
  if ← eatWord "FIELDS=NONE" <||> eatWord "NONE" then pure .skipDuplicates
  else do
    let _ ← eatHead "FIELDS="
    let parenthesized ← eat .openParen
    let rule ← fieldsOnCard encoding default
    if parenthesized then expect .closeParen else pure ()
    pure rule

/-- The operand of a sum statement. -/
def onCard (encoding : Encoding) (default : Option FieldFormat) : Parser SumRule := do
  let _ ← skipFormat
  let rule ← ruleOnCard encoding default
  let _ ← skipFormat
  expectEnd
  pure rule

/-- Reads the operand of a sum statement. -/
def ofCard (text : String) (encoding : Encoding) : Except Fault SumRule :=
  readWithFormat (onCard encoding) text

end CardSort.SumRule
