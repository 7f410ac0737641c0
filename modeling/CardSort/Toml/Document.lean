import CardSort.Toml.Scalar

/-!
# TOML documents

* `Toml.value?` reads a value, with arrays and tables between braces, nested up to
  `Toml.deepest`.
* `Toml.assign?` and `Toml.openHeader?` add keys and headers to the tables of a document, and refuse
  what has been defined before.
* `Toml.document?` reads a whole document.
-/

set_option autoImplicit false

namespace CardSort.Toml

/-! ## Keys and lines -/

/-- The rest behind the end of a line: a line break, a comment with its line break, or the end
of the text. -/
def endOfLine? (cs : List Char) : Option (List Char) :=
  let rest :=
    match skipBlanks cs with
    | '#' :: comment => comment.dropWhile isPrintable
    | other => other
  match rest with
  | [] => some []
  | '\n' :: more => some more
  | '\r' :: '\n' :: more => some more
  | _ => none

/-- Characters of keys outside quotes. -/
def isKeyChar (c : Char) : Bool := c.isAlphanum || c = '_' || c = '-'

/-- One part of a key. -/
def simpleKey? (cs : List Char) : Option (String × List Char) :=
  match cs with
  | '"' :: _ => quotedKey? cs
  | '\x27' :: _ => quotedKey? cs
  | _ =>
    if (cs.takeWhile isKeyChar).isEmpty then none
    else some (String.ofList (cs.takeWhile isKeyChar), cs.dropWhile isKeyChar)

/-- The parts of a key, at most so many, parted by dots; blanks around them count for nothing. -/
def keyFrom : Nat → List Char → Option (List String × List Char)
  | 0, _ => none
  | most + 1, cs => do
    let (part, rest) ← simpleKey? (skipBlanks cs)
    match skipBlanks rest with
    | '.' :: more => do
      let (parts, rest) ← keyFrom most more
      pure (part :: parts, rest)
    | other => pure ([part], other)

/-- How many parts a key may have, and how deep arrays and tables between braces may be nested. -/
def deepest : Nat := 79

/-- A key: one or more parts. -/
def key? (cs : List Char) : Option (List String × List Char) := keyFrom deepest cs

/-! ## Adding keys -/

/-- Adds a value under a key to a table. A key with dots opens tables, or goes on with ones that
dots have opened. It may pass through the parent of a table with a header, and through the last
table of a header in double brackets, but adds nothing directly to either. -/
def assignIn? (value : Value) : List String → Entries → Option Entries
  | [], _ => none
  | [key], entries =>
    match lookup? key entries with
    | none => some (insert key value entries)
    | some _ => none
  | key :: path, entries =>
    match lookup? key entries with
    | none => (assignIn? value path []).map fun sub => insert key (.table .dotted sub) entries
    | some (.table .dotted sub) =>
      (assignIn? value path sub).map fun sub => insert key (.table .dotted sub) entries
    | some (.table .parent sub) =>
      match path with
      | [_] => none
      | _ => (assignIn? value path sub).map fun sub => insert key (.table .parent sub) entries
    | some (.tables (last :: others)) =>
      match path with
      | [_] => none
      | _ =>
        (assignIn? value path last).map fun last => insert key (.tables (last :: others)) entries
    | some _ => none

/-- Changes the table that a path leads to, in a document whose tables may be reached through
headers. Tables on the way that do not exist are opened as parents. -/
def changeAt? (change : Entries → Option Entries) : List String → Entries → Option Entries
  | [], entries => change entries
  | key :: path, entries =>
    match lookup? key entries with
    | none => (changeAt? change path []).map fun sub => insert key (.table .parent sub) entries
    | some (.table .inlined _) => none
    | some (.table kind sub) =>
      (changeAt? change path sub).map fun sub => insert key (.table kind sub) entries
    | some (.tables (last :: others)) =>
      (changeAt? change path last).map fun last => insert key (.tables (last :: others)) entries
    | some _ => none

/-- Adds a value under a key to the table at a path. -/
def assign? (table key : List String) (value : Value) (document : Entries) : Option Entries :=
  changeAt? (assignIn? value key) table document

/-- Opens the table of a header. -/
def openTable? (key : String) (entries : Entries) : Option Entries :=
  match lookup? key entries with
  | none => some (insert key (.table .header []) entries)
  | some (.table .parent sub) => some (insert key (.table .header sub) entries)
  | some _ => none

/-- Opens another table of a header in double brackets. -/
def openAnother? (key : String) (entries : Entries) : Option Entries :=
  match lookup? key entries with
  | none => some (insert key (.tables [[]]) entries)
  | some (.tables others) => some (insert key (.tables ([] :: others)) entries)
  | some _ => none

/-- Opens the table of a header, in single or double brackets. -/
def openHeader? (double : Bool) (path : List String) (document : Entries) : Option Entries :=
  match path.getLast? with
  | none => none
  | some key =>
    changeAt? (if double then openAnother? key else openTable? key) path.dropLast document

/-! ## Values -/

/-- The rest behind white space, line breaks and comments. `comment` tells whether the text starts
within a comment. -/
def skipSpace (comment : Bool) : List Char → List Char
  | [] => []
  | c :: rest =>
    if c = '\n' then skipSpace false rest
    else if c = '\r' && rest.head? = some '\n' then skipSpace false rest
    else if comment && isPrintable c then skipSpace true rest
    else if ! comment && c = '#' then skipSpace true rest
    else if ! comment && isBlank c then skipSpace false rest
    else c :: rest

/-- The rest behind white space, line breaks and comments. -/
def skipLines (cs : List Char) : List Char := skipSpace false cs

mutual

/-- A value in which arrays and tables are nested at most `levels` deep. The fuel bounds its
length. -/
def valueFrom : Nat → Nat → List Char → Option (Value × List Char)
  | 0, _, _ => none
  | fuel + 1, levels, cs =>
    match levels, cs with
    | _, '"' :: _ => (string? cs).map fun (s, r) => (.text s, r)
    | _, '\x27' :: _ => (string? cs).map fun (s, r) => (.text s, r)
    | 0, '[' :: _ => none
    | levels + 1, '[' :: rest =>
      (itemsFrom fuel levels (skipLines rest)).map fun (vs, r) => (.array vs, r)
    | 0, '\x7b' :: _ => none
    | levels + 1, '\x7b' :: rest =>
      match skipBlanks rest with
      | '\x7d' :: more => some (.table .inlined [], more)
      | other => (entriesFrom fuel levels [] other).map fun (es, r) => (.table .inlined es, r)
    | _, _ => bareScalar? cs

/-- The items of an array up to its closing bracket; the last one may have a comma behind it. -/
def itemsFrom : Nat → Nat → List Char → Option (List Value × List Char)
  | 0, _, _ => none
  | fuel + 1, levels, cs =>
    match cs with
    | ']' :: rest => some ([], rest)
    | _ => do
      let (v, rest) ← valueFrom fuel levels cs
      match skipLines rest with
      | ',' :: more => do
        let (vs, rest) ← itemsFrom fuel levels (skipLines more)
        pure (v :: vs, rest)
      | ']' :: more => pure ([v], more)
      | _ => none

/-- The entries of a table between braces, up to the closing one. -/
def entriesFrom : Nat → Nat → Entries → List Char → Option (Entries × List Char)
  | 0, _, _, _ => none
  | fuel + 1, levels, entries, cs => do
    let (key, rest) ← key? cs
    let rest ← mark? '=' rest
    let (v, rest) ← valueFrom fuel levels (skipBlanks rest)
    let entries ← assignIn? v key entries
    match skipBlanks rest with
    | ',' :: more => entriesFrom fuel levels entries more
    | '\x7d' :: more => pure (entries, more)
    | _ => none

end

/-- A value. -/
def value? (cs : List Char) : Option (Value × List Char) :=
  valueFrom (2 * cs.length + 2) deepest cs

/-! ## Documents -/

/-- A header behind its opening brackets, up to the end of its line. -/
def header? (double : Bool) (cs : List Char) : Option (List String × List Char) := do
  let (path, rest) ← key? cs
  let rest ← mark? ']' rest
  let rest ← if double then mark? ']' rest else some rest
  pure (path, ← endOfLine? rest)

/-- The lines of a document from one on, where `table` is the path of the last header. The fuel
bounds the number of lines. -/
def linesFrom : Nat → List String → Entries → List Char → Option Entries
  | 0, _, document, _ => some document
  | fuel + 1, table, document, cs =>
    match skipBlanks cs with
    | [] => some document
    | '[' :: '[' :: rest => do
      let (path, rest) ← header? true rest
      linesFrom fuel path (← openHeader? true path document) rest
    | '[' :: rest => do
      let (path, rest) ← header? false rest
      linesFrom fuel path (← openHeader? false path document) rest
    | c :: rest =>
      if c = '#' || c = '\n' || c = '\r' then do
        linesFrom fuel table document (← endOfLine? (c :: rest))
      else do
        let (key, rest) ← key? (c :: rest)
        let rest ← mark? '=' rest
        let (v, rest) ← value? (skipBlanks rest)
        linesFrom fuel table (← assign? table key v document) (← endOfLine? rest)

/-- A document. A byte order mark in front of it counts for nothing. -/
def document? (text : String) : Option Entries :=
  match text.toList with
  | '\uFEFF' :: cs => linesFrom (cs.length + 1) [] [] cs
  | cs => linesFrom (cs.length + 1) [] [] cs

end CardSort.Toml
