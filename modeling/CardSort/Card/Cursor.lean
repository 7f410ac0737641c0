import CardSort.Fault
import CardSort.Text

/-!
# Reading a card token by token

A `Cursor` stands on a token of a card, and a `Card.Parser` moves it. A parser that fails leaves
the cursor where the fault arose, so a caller may look at it or go on.

* `Card.advance` moves to the next token; an unterminated literal is the only way for it to fail.
* `Card.eat`, `Card.eatWord` and `Card.eatHead` consume a token, a word or the head of a word if
  it is there.
* `Card.expect`, `Card.word`, `Card.number` and `Card.literal` demand one.
* `Card.read` runs a parser on the whole text of an operand.
* `Card.scan` lists the tokens of a card.
* `Card.defaultFormat` finds the `FORMAT=` default of an operand.
* `Card.opensDestinationOperand` recognises the words at which conditions and item lists of an
  `OUTFIL` statement end if they are not in parentheses.
-/

set_option autoImplicit false

namespace CardSort.Card

/-- A position on a card: the current token with its byte index, and the text after it. -/
structure Cursor where
  source : String
  /-- The current token; `none` at the end of the card. -/
  current : Option Token
  /-- The byte index of the current token, or the length of the card at its end. -/
  index : Nat
  /-- The text that has not been read. -/
  rest : List Char
  /-- The byte index of `rest`. -/
  offset : Nat
deriving DecidableEq, Repr

/-- A reader of cards. -/
abbrev Parser := EStateM Fault Cursor

namespace Cursor

/-- The cursor in front of a card, before its first token. -/
def before (source : String) : Cursor :=
  { source, current := none, index := 0, rest := source.toList, offset := 0 }

/-- A fault at the byte index of the current token. -/
def fault (c : Cursor) (issue : CardIssue) : Fault := .card issue c.index c.source

/-- A fault at an earlier byte index. -/
def faultAt (c : Cursor) (issue : CardIssue) (index : Nat) : Fault := .card issue index c.source

/-- Whether the card has been read to its end. -/
def atEnd (c : Cursor) : Bool := c.current.isNone

/-- Whether the current token is the given one. -/
def isOn (c : Cursor) (t : Token) : Bool := c.current = some t

/-- The current word, if the current token is a word. -/
def word? (c : Cursor) : Option String :=
  match c.current with
  | some (.word w) => some w
  | _ => none

/-- Whether the current token is a literal. -/
def onLiteral (c : Cursor) : Bool :=
  match c.current with
  | some (.literal _) => true
  | _ => false

/-- Whether the current token is a word that begins with `head`. -/
def onWordWith (c : Cursor) (head : String) : Bool :=
  match c.word? with
  | some w => Text.beginsWith head w
  | none => false

/-- A bound on the tokens from the cursor on: the characters that have not been read, and one
for the current token. It is the fuel of every loop over tokens. -/
def size (c : Cursor) : Nat := c.rest.length + 1

end Cursor

/-! ## Moving the cursor -/

/-- Moves to the next token. On an unterminated literal the cursor keeps its token, takes the
index of the quote and has read everything. -/
def advance : Parser Unit := fun c =>
  let rest := c.rest.dropWhile isSeparator
  let start := c.offset + Text.byteLength (c.rest.takeWhile isSeparator)
  match Lexeme.read rest with
  | .finished => .ok () { c with current := none, index := start, rest := [], offset := start }
  | .token t more =>
    .ok () { c with current := some t, index := start, rest := more, offset := start + t.width }
  | .unclosed =>
    .error (c.faultAt .unterminatedLiteral start)
      { c with index := start, rest := [], offset := c.source.utf8ByteSize }

/-- Fails at the current token. -/
def fail {α : Type} (issue : CardIssue) : Parser α := fun c => .error (c.fault issue) c

/-- Fails at an earlier byte index. -/
def failAt {α : Type} (issue : CardIssue) (index : Nat) : Parser α := fun c =>
  .error (c.faultAt issue index) c

/-- Consumes the given token if it is the current one. -/
def eat (t : Token) : Parser Bool := fun c =>
  if c.isOn t then (advance *> pure true) c else .ok false c

/-- Consumes the given word if it is the current one. -/
def eatWord (w : String) : Parser Bool := eat (.word w)

/-- Consumes the head of the current word, if the word begins with it. Operands are glued to
their keywords, as in `BUILD=1,3`: what follows the head becomes the current word, and a word
that is the head alone is consumed. -/
def eatHead (head : String) : Parser Bool := fun c =>
  match c.word?.bind (Text.after? head) with
  | none => .ok false c
  | some "" => (advance *> pure true) c
  | some rest =>
    .ok true { c with current := some (.word rest), index := c.index + head.utf8ByteSize }

/-- Demands the given token. -/
def expect (t : Token) : Parser Unit := do
  if ← eat t then pure () else fail (.expectedToken t)

/-- Demands a word. It is taken off the cursor before the next token is read. -/
def word : Parser String := fun c =>
  match c.current with
  | some (.word w) => (advance *> pure w) { c with current := none }
  | _ => fail .expectedWord c

/-- Demands an unsigned number. -/
def number : Parser Nat := fun c =>
  match c.word?.bind Numeral.word64? with
  | some n => (advance *> pure n) c
  | none => fail .expectedNumber c

/-- Demands a literal. It is taken off the cursor before the next token is read. -/
def literal : Parser String := fun c =>
  match c.current with
  | some (.literal s) => (advance *> pure s) { c with current := none }
  | _ => fail .expectedLiteral c

/-- Demands the end of the card. -/
def expectEnd : Parser Unit := fun c =>
  if c.atEnd then .ok () c else fail .trailingInput c

/-! ## Loops -/

/-- Collects items as long as the cursor allows another one. The fuel bounds their number; every
item consumes a token, so `Cursor.size` is enough of it. -/
def collectWhile {α : Type} (more : Cursor → Bool) (item : Parser α) : Nat → Parser (List α)
  | 0 => pure []
  | fuel + 1 => do
    if more (← get) then
      let x ← item
      let xs ← collectWhile more item fuel
      pure (x :: xs)
    else pure []

/-- Collects items as long as the cursor allows another one. -/
def collect {α : Type} (more : Cursor → Bool) (item : Parser α) : Parser (List α) := fun c =>
  collectWhile more item c.size c

/-! ## Whole operands -/

/-- The cursor on the first token of a card. -/
def start (source : String) : Except Fault Cursor :=
  match advance (.before source) with
  | .ok _ c => .ok c
  | .error f _ => .error f

/-- Runs a parser on the text of an operand, from its first token. -/
def read {α : Type} (p : Parser α) (source : String) : Except Fault α :=
  match start source with
  | .error f => .error f
  | .ok c =>
    match p c with
    | .ok a _ => .ok a
    | .error f _ => .error f

/-! ## All tokens -/

/-- What is found when a card is read to its end. -/
structure Scan where
  /-- The tokens with their byte indexes. -/
  tokens : List (Nat × Token)
  /-- The cursor where the reading ends. -/
  last : Cursor
  /-- The fault that ends it early. -/
  fault : Option Fault
deriving DecidableEq, Repr

/-- The tokens from the cursor on. The fuel bounds their number. -/
def scanFrom : Nat → Cursor → Scan
  | 0, c => ⟨[], c, none⟩
  | fuel + 1, c =>
    match c.current with
    | none => ⟨[], c, none⟩
    | some t =>
      match advance c with
      | .ok _ next =>
        let scan := scanFrom fuel next
        { scan with tokens := (c.index, t) :: scan.tokens }
      | .error f next => ⟨[(c.index, t)], next, some f⟩

/-- Reads a card to its end; it fails only if its first token is an unterminated literal. -/
def scan (source : String) : Except Fault Scan :=
  (start source).map fun c => scanFrom c.size c

/-! ## The default format -/

/-- The keyword of the default format. -/
def formatKeyword : String := "FORMAT="

/-- Whether the cursor is on a `FORMAT=` word. -/
def Cursor.onFormat (c : Cursor) : Bool := c.onWordWith formatKeyword

/-- Consumes a `FORMAT=` word if it is the current token. -/
def skipFormat : Parser Bool := fun c =>
  if c.onFormat then (advance *> pure true) c else .ok false c

/-- Searches the tokens from the cursor on for a `FORMAT=` word and reads its code. -/
def findFormat : Nat → Parser (Option FieldFormat)
  | 0 => pure none
  | fuel + 1 => do
    let c ← get
    match c.current with
    | none => pure none
    | some (.word w) =>
      match Text.after? formatKeyword w with
      | some code =>
        match FieldFormat.ofCode? code with
        | some f => pure (some f)
        | none => throw (.unknownFormat code (c.index + formatKeyword.utf8ByteSize) c.source)
      | none => do advance; findFormat fuel
    | some _ => do advance; findFormat fuel

/-- The default format of an operand: that of its first `FORMAT=` word, wherever it stands. -/
def defaultFormat (source : String) : Except Fault (Option FieldFormat) :=
  read (fun c => findFormat c.size c) source

/-- Runs a parser that knows the default format of its operand. -/
def readWithFormat {α : Type} (p : Option FieldFormat → Parser α) (source : String) :
    Except Fault α := do
  let format ← defaultFormat source
  read (p format) source

/-! ## Operands of destinations -/

/-- The keywords of the operands of a destination. -/
def destinationKeywords : List String := ["INCLUDE=", "OMIT=", "OUTREC=", "BUILD=", "FNAMES="]

/-- Whether a word opens an operand of a destination. -/
def opensDestinationOperand (w : String) : Bool :=
  destinationKeywords.any fun k => Text.beginsWith k w

end CardSort.Card
