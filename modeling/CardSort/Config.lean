import CardSort.Collation
import CardSort.Fault
import CardSort.Text

/-!
# Configuration of a job

* `RecordFormat` says how records are delimited in a byte stream.
* `Config` holds the settings of a job; its default values are those of an empty configuration.
* `Config.validate` refuses settings with which no job can run.
-/

set_option autoImplicit false

namespace CardSort

/-- How records are delimited. -/
inductive RecordFormat where
  /-- Every record has the same length. -/
  | fixed (length : Nat)
  /-- Records end with a separator, which the last one may omit. -/
  | separated (separator : String)
deriving DecidableEq, Repr

/-- Whether all records have the same length. -/
def RecordFormat.isFixed : RecordFormat → Bool
  | fixed _ => true
  | separated _ => false

/-- The settings of a job. -/
structure Config where
  /-- Size of the input in bytes above which sorted runs are spilled; 100 MiB by default. -/
  memoryLimit : Nat := 100 * 1024 * 1024
  /-- Whether records with equal keys keep their order. -/
  stable : Bool := true
  /-- The encoding of record text. -/
  encoding : Encoding := .ascii
  /-- The encoding that orders character keys, if it is another one. -/
  sortEncoding : Option Encoding := none
  /-- The number of leading records that are copied to every output. -/
  headerRecords : Nat := 0
  /-- The number of workers that share the memory limit; zero leaves it to the machine. -/
  workers : Nat := 0
  /-- The directory for spilled runs. -/
  tempDir : Option String := none
  recordFormat : RecordFormat := .separated "\n"
deriving DecidableEq, Repr

namespace Config

/-- Why a configuration is refused, if it is. -/
def issue? (c : Config) : Option SettingIssue :=
  if c.memoryLimit = 0 then some .memoryLimitZero
  else
    match c.recordFormat with
    | .fixed length => if length = 0 then some .recordLengthZero else none
    | .separated separator => if separator.isEmpty then some .separatorEmpty else none

/-- Refuses settings with which no job can run. -/
def validate (c : Config) : Except Fault Unit :=
  match c.issue? with
  | some issue => .error (.setting issue)
  | none => .ok ()

/-- The collation of character keys. -/
def collation (c : Config) : Collation := .of c.encoding c.sortEncoding

end Config

end CardSort
