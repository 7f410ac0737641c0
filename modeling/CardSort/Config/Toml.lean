import CardSort.Config
import CardSort.Toml.Document

/-!
# Configurations as TOML

    memory_limit = 67108864
    stable = true
    encoding = "ebcdic"
    record_format = (a table with the one key `fixed` or `separator`)
    header_records = 1

Every member is optional, and unknown keys are ignored.

* `Config.ofToml` reads and checks a configuration.
* `Config.toToml` writes one; a number beyond 63 bits has no form in TOML.
-/

set_option autoImplicit false

namespace CardSort

open Toml

namespace Config

/-! ## Reading -/

/-- The default of a member that is absent, or its value, which must have the right type. -/
def member {α : Type} (entries : Entries) (key : String) (default : α)
    (read : Value → Option α) : Option α :=
  match lookup? key entries with
  | none => some default
  | some v => read v

/-- A number from zero on. -/
def natural? : Value → Option Nat
  | .integer n => if 0 ≤ n then some n.toNat else none
  | _ => none

/-- A truth value. -/
def boolean? : Value → Option Bool
  | .boolean b => some b
  | _ => none

/-- A string. -/
def text? : Value → Option String
  | .text s => some s
  | _ => none

/-- The encoding with a name in lower case. -/
def encodingNamed? : String → Option Encoding
  | "ascii" => some .ascii
  | "ebcdic" => some .ebcdic
  | _ => none

/-- Whether a value is an array or a table that holds nothing. -/
def isVoid : Value → Bool
  | .array [] => true
  | .table _ [] => true
  | _ => false

/-- An encoding: its name, or a table whose one key is the name, with a value that holds
nothing. -/
def encoding? : Value → Option Encoding
  | .text name => encodingNamed? name
  | .table _ [(name, v)] => if isVoid v then encodingNamed? name else none
  | _ => none

/-- A record format: a table with a length, else with a separator. -/
def recordFormat? : Value → Option RecordFormat
  | .table _ entries =>
    match (lookup? "fixed" entries).bind natural? with
    | some length => some (.fixed length)
    | none => ((lookup? "separator" entries).bind text?).map .separated
  | _ => none

/-- The configuration of a document whose members have the right types. -/
def ofEntries? (entries : Entries) : Option Config := do
  let d : Config := {}
  let memoryLimit ← member entries "memory_limit" d.memoryLimit natural?
  let stable ← member entries "stable" d.stable boolean?
  let encoding ← member entries "encoding" d.encoding encoding?
  let sortEncoding ← member entries "sort_encoding" none fun v => (encoding? v).map some
  let headerRecords ← member entries "header_records" d.headerRecords natural?
  let workers ← member entries "workers" d.workers natural?
  let tempDir ← member entries "temp_dir" none fun v => (text? v).map some
  let recordFormat ← member entries "record_format" d.recordFormat recordFormat?
  pure { memoryLimit, stable, encoding, sortEncoding, headerRecords, workers, tempDir,
         recordFormat }

/-- Reads and checks a configuration. -/
def ofToml (text : String) : Except Fault Config :=
  match (document? text).bind ofEntries? with
  | none => .error (.setting .unreadable)
  | some config =>
    match config.validate with
    | .ok () => .ok config
    | .error f => .error f

/-! ## Writing -/

/-- A line with a key and its value. -/
def line (key value : String) : String := key ++ " = " ++ value ++ "\n"

/-- A number that TOML can hold. -/
def number? (n : Nat) : Option String := if n < 2 ^ (63 : Nat) then some (toString n) else none

/-- A line for a member that may be absent. -/
def optionalLine (key : String) : Option String → String
  | some value => line key value
  | none => ""

/-- The table of a record format. -/
def recordFormatText? : RecordFormat → Option String
  | .fixed length => (number? length).map fun n => line "fixed" n
  | .separated separator => some (line "separator" (quoteText separator))

/-- A configuration as the text of a document. -/
def render? (c : Config) : Option String := do
  let memoryLimit ← number? c.memoryLimit
  let headerRecords ← number? c.headerRecords
  let workers ← number? c.workers
  let recordFormat ← recordFormatText? c.recordFormat
  pure (line "memory_limit" memoryLimit ++
    line "stable" (if c.stable then "true" else "false") ++
    line "encoding" (quoteText c.encoding.name) ++
    optionalLine "sort_encoding" (c.sortEncoding.map fun e => quoteText e.name) ++
    line "header_records" headerRecords ++
    line "workers" workers ++
    optionalLine "temp_dir" (c.tempDir.map quoteText) ++
    "\n[record_format]\n" ++ recordFormat)

/-- Writes a configuration as TOML. -/
def toToml (c : Config) : Except Fault String :=
  match render? c with
  | some text => .ok text
  | none => .error (.setting .unreadable)

end Config

end CardSort
