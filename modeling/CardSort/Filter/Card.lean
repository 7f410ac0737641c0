import CardSort.Card.Cursor
import CardSort.Filter

/-!
# Conditions on cards

The operand of an include or omit statement is `[FORMAT=f,] [COND=] cond [,FORMAT=f]` with

    cond = "(" cond ")" [AND|OR cond]
         | operand op operand [AND|OR cond]

Chains nest to the right, so `A OR B AND C` is `A OR (B AND C)`.

* `Operand.ofTokens` gives the operand that a run of tokens denotes.
* `Filter.onCard` reads a condition and stops in front of the first token after it.
* `Filter.ofCard` reads the operand of a statement.
* `Filter.ofCards` combines the operands of an include and an omit statement.
-/

set_option autoImplicit false

namespace CardSort

open Card

/-! ## Operands of a condition -/

/-- A token with its byte index. -/
abbrev Card.Located := Nat × Token

namespace Operand

/-- Whether a token cannot belong to an operand. -/
def isEndedBy : Token → Bool
  | .openParen | .closeParen | .semicolon => true
  | .literal _ => false
  | .word w =>
    w = "AND" || w = "OR" || w = "&" || w = "|" || (CompareOp.ofCode? w).isSome ||
      Text.beginsWith formatKeyword w || opensDestinationOperand w

/-- Whether the cursor stands on a token of an operand. -/
def continuesAt (c : Cursor) : Bool :=
  match c.current with
  | some t => ! isEndedBy t
  | none => false

/-- Takes the current token with its byte index. -/
def takeToken : Parser (Option Located) := do
  let c ← get
  advance
  pure (c.current.map fun t => (c.index, t))

/-- The number of a word token. -/
def numberOf? : Located → Option Nat
  | (_, .word w) => Numeral.word64? w
  | _ => none

/-- A field from the tokens of its start and length; a refusal is reported at `index`. -/
def fieldOf (encoding : Encoding) (c : Cursor) (index : Nat) (start length : Located)
    (format : Unit → Except Fault FieldFormat) : Except Fault Operand :=
  match numberOf? start, numberOf? length with
  | some position, some length => do
    match Field.of position length (← format ()) encoding with
    | .ok f => pure (.field f)
    | .error r => throw (c.faultAt (.fieldRefused r) index)
  | _, _ => .error (c.faultAt .noFieldReference index)

/-- The operand that tokens denote: a decimal, a quoted or hexadecimal constant, or a field as
`start,length[,format]`. Faults lie at the token at fault or at the first token, `index`. -/
def ofTokens (encoding : Encoding) (default : Option FieldFormat) (c : Cursor) (index : Nat) :
    List Located → Except Fault Operand
  | [] => .error (c.faultAt .noOperand index)
  | [(at_, .word w)] =>
    match Decimal.ofConstant? w.toList with
    | some d => .ok (.number d)
    | none => .error (c.faultAt (.notDecimal w) at_)
  | [(_, .word "C"), (_, .literal s)] => .ok (.text (encoding.encode s.toList))
  | [(_, .word "X"), (at_, .literal s)] =>
    match Numeral.hexBytes? s.toList with
    | some b => .ok (.hex b)
    | none => .error (c.faultAt .badHex at_)
  | [start, length] =>
    fieldOf encoding c index start length fun _ =>
      match default with
      | some f => .ok f
      | none => .error (c.faultAt .missingFormat index)
  | [start, length, (at_, third)] =>
    fieldOf encoding c index start length fun _ =>
      match third with
      | .word code =>
        match FieldFormat.ofCode? code with
        | some f => .ok f
        | none => .error (.unknownFormat code at_ c.source)
      | _ => .error (c.faultAt .noFieldFormat at_)
  | tokens =>
    .error (c.faultAt .tooManyTokens ((tokens.getLast?.map Prod.fst).getD index))

/-- One operand of a condition: all tokens up to one that cannot belong to it. -/
def onCard (encoding : Encoding) (default : Option FieldFormat) : Parser Operand := do
  let index := (← get).index
  let tokens ← collect continuesAt takeToken
  match ofTokens encoding default (← get) index (tokens.filterMap id) with
  | .ok operand => pure operand
  | .error f => throw f

end Operand

/-! ## Conditions -/

namespace Filter

/-- One comparison of two operands. -/
def comparisonOnCard (encoding : Encoding) (default : Option FieldFormat) : Parser Filter := do
  let left ← Operand.onCard encoding default
  match (← get).word?.bind CompareOp.ofCode? with
  | none => fail .noOperator
  | some op => do
    advance
    let right ← Operand.onCard encoding default
    pure (.compare ⟨left, op, right, encoding⟩)

/-- A condition, with fuel that bounds the nesting of conditions in it. -/
def nestedOnCard (encoding : Encoding) (default : Option FieldFormat) : Nat → Parser Filter
  | 0 => fail .noOperand
  | fuel + 1 => do
    let left ←
      if ← eat .openParen then do
        let inner ← nestedOnCard encoding default fuel
        expect .closeParen
        pure inner
      else comparisonOnCard encoding default
    if ← eatWord "AND" <||> eatWord "&" then do
      let right ← nestedOnCard encoding default fuel
      pure (.and left right)
    else if ← eatWord "OR" <||> eatWord "|" then do
      let right ← nestedOnCard encoding default fuel
      pure (.or left right)
    else pure left

/-- A condition. Every nested condition starts at a later token, so the size of the cursor is
enough fuel. -/
def onCard (encoding : Encoding) (default : Option FieldFormat) : Parser Filter := fun c =>
  nestedOnCard encoding default (c.size + 1) c

/-- The operand of an include or omit statement. -/
def wholeOnCard (encoding : Encoding) (default : Option FieldFormat) : Parser Filter := do
  let _ ← skipFormat
  let _ ← eatHead "COND="
  let filter ← onCard encoding default
  let _ ← skipFormat
  expectEnd
  pure filter

/-- Reads the operand of an include or omit statement. -/
def ofCard (text : String) (encoding : Encoding) : Except Fault Filter :=
  readWithFormat (wholeOnCard encoding) text

/-- The filter of optional operands of an include and an omit statement. -/
def ofCards (included omitted : Option String) (encoding : Encoding) :
    Except Fault (Option Filter) := do
  let i ← included.mapM fun text => ofCard text encoding
  let o ← omitted.mapM fun text => ofCard text encoding
  pure (combine i o)

end Filter

end CardSort
