import CardSort.Key.Card
import CardSort.Layout

/-!
# Layouts on cards

The operand of a layout statement is `[FIELDS=|BUILD=|OUTREC=|INREC=] ["("] item* [")"]` with
an optional column `col:` in front of each item:

* `[n]C'text'` is a text, `n` times; `[n]X'hex'` are bytes, `n` times; `nX` are `n` blanks and
  `nZ` are `n` zero bytes;
* `start,length` copies bytes;
* `start,length,format` with `EDIT=(mask)` or `Mn`, and optional `SIGNS=(…)` and `LENGTH=n`, edits
  a number.

* `LayoutItem.onCard` reads one item, `Layout.onCard` a list of them.
* `Layout.ofCard` reads the operand of a statement.
-/

set_option autoImplicit false

namespace CardSort

open Card

/-! ## Parts of items -/

/-- The repeat count of a word `[n]kind`: `none` if the word is not of that form, and an absent
count as `some none`. -/
def repeatCount? (kind : Char) (w : List Char) : Option (Option Nat) :=
  match Text.before? kind w with
  | none => none
  | some [] => some none
  | some digits =>
    if digits.all Char.isDigit then (Numeral.unsigned? Numeral.wordLimit digits).map some else none

/-- The number of repetitions, one if it is left out; zero is refused at `index`. -/
def repeatsOnCard (count : Option Nat) (index : Nat) : Parser Nat :=
  match count with
  | some 0 => failAt .zeroRepeat index
  | some n => pure n
  | none => pure 1

/-- Bytes repeated a number of times. -/
def repeatBytes (count : Nat) (bytes : Bytes) : Bytes := (List.replicate count bytes).flatten

/-- A value of a group. -/
def groupValue : Parser (List Char) := do
  match (← get).current with
  | some (.word w) => do advance; pure w.toList
  | some (.literal s) => do advance; pure s.toList
  | _ => fail (.expectedToken .closeParen)

/-- A group of words and literals in parentheses. -/
def groupOnCard : Parser (List (List Char)) := do
  expect .openParen
  let values ← collect (! ·.isOn .closeParen) groupValue
  expect .closeParen
  pure values

/-- What the words after a field say about its editing. -/
structure EditWords where
  mask : Option Mask := none
  signs : Option (List (List Char)) := none
  length : Option Nat := none

/-- Whether anything has been said about editing. -/
def EditWords.any (e : EditWords) : Bool := e.mask.isSome || e.signs.isSome || e.length.isSome

/-- Reads the words about editing after a field, up to any other token. The fuel bounds their
number. -/
def EditWords.onCard : Nat → EditWords → Parser EditWords
  | 0, e => pure e
  | fuel + 1, e => do
    let c ← get
    match c.word? with
    | none => pure e
    | some w =>
      if w = "EDIT=" then do
        advance
        let values ← groupOnCard
        onCard fuel { e with mask := some (Mask.custom (List.intercalate [','] values)) }
      else if w = "SIGNS=" then do
        advance
        let values ← groupOnCard
        onCard fuel { e with signs := some values }
      else
        match Text.after? "LENGTH=" w with
        | some n =>
          match (Numeral.word64? n).filter (· ≠ 0) with
          | some length => do
            advance
            onCard fuel { e with length := some length }
          | none => fail .badEditLength
        | none =>
          match Mask.predefined? w with
          | some mask => do
            advance
            onCard fuel { e with mask := some mask }
          | none => pure e

/-- The mask with the sign texts that were given, if any; a wrong number is refused at
`index`. -/
def signsOnCard (mask : Mask) (signs : Option (List (List Char))) (index : Nat) : Parser Mask :=
  match signs with
  | none => pure mask
  | some texts =>
    match mask.withSigns texts with
    | .ok m => pure m
    | .error issue => failAt issue index

/-! ## Items -/

/-- An optional format after the start and length of an item. -/
def formatOnCard : Parser (Option FieldFormat) := do
  match (← get).word?.bind FieldFormat.ofCode? with
  | some f => do advance; pure (some f)
  | none => pure none

/-- The item of a field whose start and length have been read: a copy, or an edited number. -/
def Content.fieldOnCard (encoding : Encoding) (position length index : Nat) : Parser Content := do
  let format ← formatOnCard
  let edit ← fun c => EditWords.onCard c.size {} c
  match format with
  | none =>
    if edit.any then failAt .editWithoutFormat index
    else do
      let field ← declareField position length .ch encoding index
      pure (.copy field)
  | some f =>
    if f.isText then failAt (.editOfText f) index
    else
      match edit.mask with
      | none => failAt .missingMask index
      | some mask => do
        let mask ← signsOnCard mask edit.signs index
        let field ← declareField position length f encoding index
        pure (.edit field ⟨mask, edit.length⟩)

/-- The column in front of an item and the word after it. -/
def columnOnCard (w : String) (index : Nat) : Parser (Option Nat × String) :=
  match Text.cutAt ':' w.toList with
  | none => pure (none, w)
  | some (column, rest) =>
    match (Numeral.unsigned? Numeral.wordLimit column).filter (· ≠ 0) with
    | none => failAt .badColumn index
    | some column =>
      if rest.isEmpty then do
        let next ← word
        pure (some column, next)
      else pure (some column, String.ofList rest)

/-- A text constant whose repeat count has been read. -/
def Content.textOnCard (encoding : Encoding) (count : Option Nat) (index : Nat) :
    Parser Content := do
  let n ← repeatsOnCard count index
  let text ← literal
  pure (.constant (repeatBytes n (encoding.encode text.toList)))

/-- A hexadecimal constant or blanks, whose repeat count has been read. -/
def Content.hexOnCard (encoding : Encoding) (count : Option Nat) (index : Nat) :
    Parser Content := do
  let n ← repeatsOnCard count index
  let c ← get
  if c.onLiteral then do
    let text ← literal
    match Numeral.hexBytes? text.toList with
    | some bytes => pure (.constant (repeatBytes n bytes))
    | none => failAt .badHex c.index
  else pure (.constant (List.replicate n encoding.space))

/-- The content of an item whose first word has been read. -/
def Content.onCard (encoding : Encoding) (w : String) (index : Nat) : Parser Content := do
  let onLiteral := (← get).onLiteral
  match (repeatCount? 'C' w.toList).filter (fun _ => onLiteral) with
  | some count => textOnCard encoding count index
  | none =>
    match repeatCount? 'X' w.toList with
    | some count => hexOnCard encoding count index
    | none =>
      match repeatCount? 'Z' w.toList with
      | some count => do
        let n ← repeatsOnCard count index
        pure (.constant (List.replicate n 0))
      | none =>
        match Numeral.word64? w with
        | some position => do
          let length ← number
          fieldOnCard encoding position length index
        | none => failAt (.unknownItem w) index

/-- One item with its optional column. -/
def LayoutItem.onCard (encoding : Encoding) : Parser LayoutItem := do
  let index := (← get).index
  let w ← word
  let (column, w) ← columnOnCard w index
  let content ← Content.onCard encoding w index
  pure ⟨column, content⟩

namespace Layout

/-- Whether another item may follow in a list. -/
def continuesAt (parenthesized : Bool) (c : Cursor) : Bool :=
  ! (c.atEnd || c.isOn .closeParen || c.isOn .semicolon) &&
    (parenthesized || ! (c.word?.any opensDestinationOperand))

/-- A list of items in parentheses or bare. A bare list ends in front of a closing parenthesis,
a semicolon, or an operand of a destination. -/
def onCard (encoding : Encoding) : Parser Layout := do
  let parenthesized ← eat .openParen
  let items ← collect (continuesAt parenthesized) (LayoutItem.onCard encoding)
  if items.isEmpty then fail .noOutputItem
  else do
    if parenthesized then expect .closeParen else pure ()
    pure ⟨items, encoding⟩

/-- The operand of a layout statement. -/
def wholeOnCard (encoding : Encoding) : Parser Layout := do
  let _ ← eatHead "FIELDS=" <||> eatHead "BUILD=" <||> eatHead "OUTREC=" <||> eatHead "INREC="
  let layout ← onCard encoding
  expectEnd
  pure layout

/-- Reads the operand of a layout statement. -/
def ofCard (text : String) (encoding : Encoding) : Except Fault Layout :=
  read (wholeOnCard encoding) text

end Layout

end CardSort
