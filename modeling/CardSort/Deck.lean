import CardSort.Destination
import CardSort.Key.Card
import CardSort.Sum.Card
import CardSort.Text

/-!
# Decks of control statements

    * Daily totals
     SORT FIELDS=(1,8,CH,A)
     INCLUDE COND=(10,1,CH,EQ,C'Y')
     SUM FIELDS=(12,7,ZD)

A statement is a keyword followed by its operand. A line that begins with an asterisk is a
comment. An indented line whose first word is no keyword continues the statement before it.

* `Deck.statements` joins the lines of a text into statements.
* `Deck.ofText` compiles them. Faults point into the joined statement.
-/

set_option autoImplicit false

namespace CardSort

open Card

/-- What a job does with the records. -/
inductive Mode where
  /-- Order all records by the keys. -/
  | sort
  /-- Interleave inputs that are in key order already. -/
  | merge
  /-- Keep the order of arrival. -/
  | copy
deriving DecidableEq, Repr

/-- The name of a mode. -/
def Mode.name : Mode → String
  | sort => "sort"
  | merge => "merge"
  | copy => "copy"

/-- The compiled statements of a deck. -/
structure Deck where
  mode : Mode := .sort
  /-- The keys of the sort or merge statement; `none` in copy mode. -/
  comparer : Option Comparer := none
  filter : Option Filter := none
  inrec : Option Layout := none
  outrec : Option Layout := none
  sum : Option SumRule := none
  destinations : List Destination := []
  /-- Whether equal keys keep their order, if an option says so. -/
  stable : Option Bool := none
deriving DecidableEq, Repr

namespace Deck

/-! ## Statements of a text -/

/-- The keywords of statements. -/
def keywords : List String :=
  ["SORT", "MERGE", "INCLUDE", "OMIT", "INREC", "OUTREC", "SUM", "OUTFIL", "OPTION"]

/-- Whether the first word of a line is the keyword of a statement. -/
def opensStatement (line : List Char) : Bool :=
  keywords.contains (String.ofList (Text.firstWord line))

/-- Whether a line is neither blank nor a comment. -/
def isCode (line : List Char) : Bool :=
  match Text.trim line with
  | [] => false
  | '*' :: _ => false
  | _ => true

/-- Whether a line is indented by a space or a tab. -/
def isIndented : List Char → Bool
  | ' ' :: _ => true
  | '\t' :: _ => true
  | _ => false

/-- Joins lines into statements, where `current` is the statement that is open. -/
def joinFrom (current : Option (List Char)) : List (List Char) → List (List Char)
  | [] => current.toList
  | line :: lines =>
    let trimmed := Text.trim line
    match current with
    | some open_ =>
      if isIndented line && ! opensStatement trimmed then
        joinFrom (some (open_ ++ ' ' :: trimmed)) lines
      else open_ :: joinFrom (some trimmed) lines
    | none => joinFrom (some trimmed) lines

/-- The statements of a text: its lines without comments and blank lines, where a continuation
is joined to its statement by one space. -/
def statements (text : String) : List String :=
  (joinFrom none ((Text.lines text.toList).filter isCode)).map String.ofList

/-! ## Single statements -/

/-- A statement taken apart: keyword and operand, and the byte index of the operand. -/
structure Statement where
  text : String
  keyword : String
  operand : String
  offset : Nat
deriving DecidableEq, Repr

/-- Splits a statement at its first blank. -/
def Statement.of (text : String) : Statement :=
  let (keyword, operand) :=
    match Text.cutAtBlank text.toList with
    | some (keyword, rest) => (keyword, Text.trimStart rest)
    | none => (text.toList, [])
  { text
    keyword := String.ofList keyword
    operand := String.ofList operand
    offset := text.utf8ByteSize - Text.byteLength operand }

namespace Statement

/-- A fault at the keyword. -/
def fault (s : Statement) (issue : CardIssue) : Fault := .card issue 0 s.text

/-- Carries a fault of the operand over to the statement. -/
def anchor {α : Type} (s : Statement) (r : Except Fault α) : Except Fault α :=
  r.mapError (Fault.within s.offset s.text)

/-- Refuses a statement that has been given before. -/
def once {α : Type} (s : Statement) (slot : Option α) : Except Fault Unit :=
  if slot.isSome then .error (s.fault (.duplicateStatement s.keyword)) else .ok ()

end Statement

/-! ## Options -/

/-- The words of the operand of an option statement, split at commas and blanks. -/
def optionWords (operand : List Char) : List String :=
  ((operand.splitOnP fun c => c = ',' || Text.isBlank c).filter (! ·.isEmpty)).map String.ofList

/-! ## Compiling -/

/-- The statements that have been read. -/
structure Draft where
  /-- The mode and keys of the sort or merge statement. -/
  keys : Option (Mode × Option Comparer) := none
  included : Option Filter := none
  omitted : Option Filter := none
  inrec : Option Layout := none
  outrec : Option Layout := none
  sum : Option SumRule := none
  destinations : List Destination := []
  stable : Option Bool := none
  copyOption : Bool := false

/-- The mode of keys that stand in a sort or merge statement. -/
def modeOf (keyword : String) (comparer : Option Comparer) : Mode :=
  if comparer.isNone then .copy else if keyword = "MERGE" then .merge else .sort

/-- Takes one word of an option statement. Words without a meaning are ignored. -/
def Draft.option (d : Draft) : String → Draft
  | "COPY" => { d with copyOption := true }
  | "EQUALS" => { d with stable := some true }
  | "NOEQUALS" => { d with stable := some false }
  | _ => d

/-- Takes one statement. -/
def Draft.take (config : Config) (d : Draft) (s : Statement) : Except Fault Draft :=
  match s.keyword with
  | "SORT" | "MERGE" => do
    s.once d.keys
    let comparer ← s.anchor (Comparer.ofCard s.operand config)
    pure { d with keys := some (modeOf s.keyword comparer, comparer) }
  | "INCLUDE" => do
    s.once d.included
    let filter ← s.anchor (Filter.ofCard s.operand config.encoding)
    pure { d with included := some filter }
  | "OMIT" => do
    s.once d.omitted
    let filter ← s.anchor (Filter.ofCard s.operand config.encoding)
    pure { d with omitted := some filter }
  | "INREC" => do
    s.once d.inrec
    let layout ← s.anchor (Layout.ofCard s.operand config.encoding)
    pure { d with inrec := some layout }
  | "OUTREC" => do
    s.once d.outrec
    let layout ← s.anchor (Layout.ofCard s.operand config.encoding)
    pure { d with outrec := some layout }
  | "SUM" => do
    s.once d.sum
    let rule ← s.anchor (SumRule.ofCard s.operand config.encoding)
    pure { d with sum := some rule }
  | "OUTFIL" => do
    let ds ← s.anchor (Destination.listOfCard s.operand config.encoding)
    pure { d with destinations := d.destinations ++ ds }
  | "OPTION" => .ok ((optionWords s.operand.toList).foldl Draft.option d)
  | keyword => .error (s.fault (.unknownStatement keyword))

/-- The mode and keys of all statements: a deck without keys, or with the option to copy, keeps
the order of arrival. -/
def Draft.order (d : Draft) : Mode × Option Comparer :=
  match d.keys with
  | none => (.copy, none)
  | some keys => if d.copyOption then (.copy, none) else keys

/-- The deck of all statements. -/
def Draft.deck (d : Draft) : Deck :=
  { mode := d.order.1
    comparer := d.order.2
    filter := Filter.combine d.included d.omitted
    inrec := d.inrec
    outrec := d.outrec
    sum := d.sum
    destinations := d.destinations
    stable := d.stable }

/-- Compiles the statements of a text. -/
def ofText (text : String) (config : Config) : Except Fault Deck := do
  let draft ← (statements text).foldlM (fun d s => d.take config (Statement.of s)) ({} : Draft)
  pure draft.deck

end Deck

end CardSort
