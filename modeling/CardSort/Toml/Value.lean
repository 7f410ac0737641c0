/-!
# TOML values

The values of a TOML document, as far as a configuration looks at them: of floating-point numbers
and of dates and times only the type is kept.

* `Toml.Value` is a value; a table is a list of entries with a `TableKind`, which decides whether
  more keys may be added.
* `Toml.lookup?` finds an entry.
-/

set_option autoImplicit false

namespace CardSort.Toml

/-- How a table has come about. -/
inductive TableKind where
  /-- By a header of its own. -/
  | header
  /-- As the parent of a table with a header. -/
  | parent
  /-- By keys with dots. -/
  | dotted
  /-- Between braces, closed to further keys. -/
  | inlined
deriving DecidableEq, Repr

/-- A value of a document. -/
inductive Value where
  | text (s : String)
  | integer (n : Int)
  | float
  | boolean (b : Bool)
  /-- A date, a time, or both. -/
  | moment
  | array (items : List Value)
  | table (kind : TableKind) (entries : List (String × Value))
  /-- The tables of a header in double brackets, the last one first. -/
  | tables (entries : List (List (String × Value)))

/-- The entries of a table, in order. -/
abbrev Entries := List (String × Value)

/-- The value of a key. -/
def lookup? (key : String) : Entries → Option Value
  | [] => none
  | (k, v) :: rest => if k = key then some v else lookup? key rest

/-- The entries with the value of a key replaced, or added at the end. -/
def insert (key : String) (value : Value) : Entries → Entries
  | [] => [(key, value)]
  | (k, v) :: rest =>
    if k = key then (key, value) :: rest else (k, v) :: insert key value rest

end CardSort.Toml
