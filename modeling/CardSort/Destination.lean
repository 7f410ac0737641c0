import CardSort.Filter.Card
import CardSort.Layout.Card

/-!
# Destinations

An `OUTFIL` statement lists destinations, separated by semicolons. Each has an optional name,
an optional filter and an optional layout of its own:

    OUTFIL FNAMES=HIGH,INCLUDE=(1,1,CH,EQ,C'H'),BUILD=(1,10);
           FNAMES=REST,OMIT=(1,1,CH,EQ,C'H')

* `Destination.accepts` tests a record.
* `Destination.listOfCard` reads the operand of a statement.
-/

set_option autoImplicit false

namespace CardSort

open Card

/-- One output with its own selection and layout. -/
structure Destination where
  name : Option String := none
  filter : Option Filter := none
  layout : Option Layout := none
deriving DecidableEq, Repr

namespace Destination

/-- Whether a record belongs to the destination. -/
def accepts (d : Destination) (record : Bytes) : Except Fault Bool := Filter.passes d.filter record

/-- The name of the destination, or one by its place in the list. -/
def label (d : Destination) (index : Nat) : String := d.name.getD s!"OUT{index + 1}"

/-! ## Destinations on cards -/

/-- The operands of a destination that have been read. -/
structure Draft where
  name : Option String := none
  included : Option Filter := none
  omitted : Option Filter := none
  layout : Option Layout := none

/-- The destination of a complete draft. -/
def Draft.destination (d : Draft) : Destination :=
  { name := d.name, filter := Filter.combine d.included d.omitted, layout := d.layout }

/-- Refuses an operand that has been given before; `word` opened it at `index`. -/
def once {α : Type} (slot : Option α) (word : String) (index : Nat) : Parser Unit :=
  if slot.isSome then failAt (.duplicateOperand word) index else pure ()

/-- Reads one operand, opened by `word` at `index`, into the draft. -/
def operandOnCard (encoding : Encoding) (default : Option FieldFormat) (d : Draft)
    (word : String) (index : Nat) : Parser Draft := do
  if ← eatHead "INCLUDE=" then do
    once d.included word index
    let filter ← Filter.onCard encoding default
    pure { d with included := some filter }
  else if ← eatHead "OMIT=" then do
    once d.omitted word index
    let filter ← Filter.onCard encoding default
    pure { d with omitted := some filter }
  else if ← eatHead "OUTREC=" <||> eatHead "BUILD=" then do
    once d.layout word index
    let layout ← Layout.onCard encoding
    pure { d with layout := some layout }
  else
    match Text.after? "FNAMES=" word with
    | some name => do
      advance
      let name ← if name.isEmpty then Card.word else pure name
      pure { d with name := some name }
    | none =>
      if Text.beginsWith formatKeyword word then do
        advance
        pure d
      else failAt (.unknownDestinationOperand word) index

/-- Reads operands into the draft up to a semicolon or the end. The fuel bounds their number. -/
def operandsOnCard (encoding : Encoding) (default : Option FieldFormat) :
    Nat → Draft → Parser Draft
  | 0, d => pure d
  | fuel + 1, d => do
    let c ← get
    if c.atEnd || c.isOn .semicolon then pure d
    else
      match c.word? with
      | none => fail .noDestinationOperand
      | some w => do
        let d ← operandOnCard encoding default d w c.index
        operandsOnCard encoding default fuel d

/-- One destination. -/
def onCard (encoding : Encoding) (default : Option FieldFormat) : Parser Destination := do
  let draft ← fun c => operandsOnCard encoding default c.size {} c
  pure draft.destination

/-- Skips semicolons. The fuel bounds their number. -/
def skipSemicolons : Nat → Parser Unit
  | 0 => pure ()
  | fuel + 1 => do if ← eat .semicolon then skipSemicolons fuel else pure ()

/-- Destinations separated by semicolons, none between two of which nothing stands. The fuel
bounds their number. -/
def listOnCard (encoding : Encoding) (default : Option FieldFormat) :
    Nat → Parser (List Destination)
  | 0 => pure []
  | fuel + 1 => do
    let _ ← fun c => skipSemicolons c.size c
    if (← get).atEnd then pure []
    else do
      let d ← onCard encoding default
      let ds ← listOnCard encoding default fuel
      pure (d :: ds)

/-- Reads the operand of an `OUTFIL` statement, one destination for each block that is not
empty. -/
def listOfCard (text : String) (encoding : Encoding) : Except Fault (List Destination) :=
  readWithFormat (fun default c => listOnCard encoding default (c.size + 1) c) text

end Destination

end CardSort
