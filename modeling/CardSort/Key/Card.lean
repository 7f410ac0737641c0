import CardSort.Card.Cursor
import CardSort.Config
import CardSort.Key

/-!
# Keys on cards

The operand of a sort or merge statement:

    [FORMAT=f,] [FIELDS=] ["("] field ("," field)* [")"] [,FORMAT=f]
    field = start length [format] [A|D]

* `Comparer.ofCard` reads it. `COPY` in place of the fields gives no comparer.
-/

set_option autoImplicit false

namespace CardSort

open Card

/-- The format of a field on a card: a word at the cursor that `isCode` allows, or the default.
The word must be a known code. -/
def Card.fieldFormat (isCode : String → Bool) (default : Option FieldFormat) :
    Parser (Option FieldFormat) := do
  let c ← get
  match c.word? with
  | some w =>
    if isCode w then
      match FieldFormat.ofCode? w with
      | some f => do advance; pure (some f)
      | none => throw (.unknownFormat w c.index c.source)
    else pure default
  | none => pure default

/-- A field declared by a card; a refusal is reported at the given index. -/
def Card.declareField (position length : Nat) (format : FieldFormat) (encoding : Encoding)
    (index : Nat) : Parser Field :=
  match Field.of position length format encoding with
  | .ok f => pure f
  | .error r => failAt (.fieldRefused r) index

/-- Whether the cursor stands where a list of fields ends. -/
def Card.Cursor.endsFields (c : Cursor) : Bool := c.atEnd || c.isOn .closeParen || c.onFormat

namespace SortKey

/-- A word in a key that stands for a format: neither a direction nor a number. -/
def isFormatWord (w : String) : Bool :=
  (Direction.ofCode? w).isNone && (Numeral.word64? w).isNone

/-- An optional direction, ascending if it is left out. -/
def directionOnCard : Parser Direction := do
  match (← get).word?.bind Direction.ofCode? with
  | some d => do advance; pure d
  | none => pure .ascending

/-- One key: start, length, and an optional format and direction. -/
def onCard (encoding : Encoding) (default : Option FieldFormat) : Parser SortKey := do
  let index := (← get).index
  let position ← number
  let length ← number
  match ← fieldFormat isFormatWord default with
  | none => failAt .missingFormat index
  | some format => do
    let direction ← directionOnCard
    let field ← declareField position length format encoding index
    pure ⟨field, direction⟩

end SortKey

namespace Comparer

/-- The list of keys of a statement, in parentheses or bare. -/
def keysOnCard (encoding : Encoding) (default : Option FieldFormat) : Parser (List SortKey) := do
  let parenthesized ← eat .openParen
  let keys ← collect (! ·.endsFields) (SortKey.onCard encoding default)
  if keys.isEmpty then fail .noSortField
  else do
    if parenthesized then expect .closeParen else pure ()
    let _ ← skipFormat
    expectEnd
    pure keys

/-- The operand of a sort or merge statement; `none` for `COPY`. -/
def onCard (config : Config) (default : Option FieldFormat) : Parser (Option Comparer) := do
  let _ ← skipFormat
  if ← eatWord "FIELDS=COPY" <||> eatWord "COPY" then do
    let _ ← skipFormat
    expectEnd
    pure none
  else do
    let _ ← eatHead "FIELDS="
    if ← eatWord "COPY" then do
      expectEnd
      pure none
    else do
      let keys ← keysOnCard config.encoding default
      pure (some ⟨keys, config.collation⟩)

/-- Reads the operand of a sort or merge statement; `none` for `COPY`. -/
def ofCard (text : String) (config : Config) : Except Fault (Option Comparer) :=
  readWithFormat (onCard config) text

end Comparer

end CardSort
