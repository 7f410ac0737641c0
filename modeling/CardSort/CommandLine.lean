import CardSort.CommandLine.Arguments
import CardSort.Config.Toml
import CardSort.Job.Pass

/-!
# The command line

A command runs a deck of control statements over record files. It sees the file system as a
`Folder` and answers with a `Report`, so that nothing here touches a file.

* `Options.configure` is the configuration of a command: that of a file, changed by options.
* `CommandLine.run` runs a command.
* Exit codes: 0 for success, 1 for a fault, 2 for arguments that are refused.
-/

set_option autoImplicit false

namespace CardSort

/-- The file system as a command sees it. -/
structure Folder where
  /-- The place that a path leads to. Different paths of one place lead to one file. -/
  place : String → String
  /-- The contents of a file that can be read. -/
  read? : String → Option Bytes
  /-- Whether a file can be created under a path. -/
  canCreate : String → Bool
  /-- Whether a path leads to a directory. -/
  isDirectory : String → Bool

/-- The answer of a command: its exit code, its standard output, and the places of the files that
it has created with their contents. -/
structure Report where
  exit : Nat
  output : Bytes
  files : List (String × Bytes)
deriving DecidableEq, Repr

namespace CommandLine

/-- The name and version that the command shows. -/
def versionText : String := "recsort 0.1.0\n"

/-! ## Configuration -/

/-- A separator on the command line: `\n`, `\r` and `\t` are escapes, and a backslash in front of
any other character stands for that character. -/
def unescape : List Char → List Char
  | [] => []
  | ['\\'] => ['\\']
  | '\\' :: 'n' :: cs => '\n' :: unescape cs
  | '\\' :: 'r' :: cs => '\r' :: unescape cs
  | '\\' :: 't' :: cs => '\t' :: unescape cs
  | '\\' :: c :: cs => c :: unescape cs
  | c :: cs => c :: unescape cs

/-- The text of a file; its bytes must be UTF-8. -/
def readText (folder : Folder) (path : String) : Except Fault String :=
  match (folder.read? path).bind fun b => String.fromUTF8? ⟨b.toArray⟩ with
  | some text => .ok text
  | none => .error .io

/-- The configuration before the options are applied. -/
def baseConfig (folder : Folder) (o : Options) : Except Fault Config :=
  match o.config with
  | some path => do Config.ofToml (← readText folder path)
  | none => .ok {}

/-- A configuration changed by the options that were given. -/
def configure (o : Options) (c : Config) : Config :=
  { c with
    recordFormat :=
      match o.recordLength, o.separator with
      | _, some s => .separated (String.ofList (unescape s.toList))
      | some n, none => .fixed n
      | none, none => c.recordFormat
    memoryLimit := o.memoryLimit.getD c.memoryLimit
    stable := if o.stable then true else if o.unstable then false else c.stable
    headerRecords := o.header.getD c.headerRecords
    tempDir := o.tempDir.or c.tempDir
    workers := o.workers.getD c.workers }

/-- The control statements of a command. -/
def deckText (folder : Folder) (o : Options) : Except Fault String :=
  match o.cards, o.control with
  | some path, _ => readText folder path
  | none, some text => .ok text
  | none, none => .error .io

/-- The job of a command. -/
def job (folder : Folder) (o : Options) : Except Fault Job := do
  let base ← baseConfig folder o
  let text ← deckText folder o
  Job.ofText text (configure o base)

/-! ## Running -/

/-- Writes bytes to the front of a file among others, over what stands there. -/
def writeFile (place : String) (bytes : Bytes) : List (String × Bytes) → List (String × Bytes)
  | [] => [(place, bytes)]
  | (p, old) :: rest =>
    if p = place then (p, old.splice 0 bytes) :: rest else (p, old) :: writeFile place bytes rest

/-- The files at places, one for each sink, that hold what the sinks have received. Those of the
sinks that have not been reached are empty. -/
def writeFiles (places : List String) (sinks : List Bytes) : List (String × Bytes) :=
  (places.zip (sinks ++ places.map fun _ => [])).foldl
    (fun files (place, bytes) => writeFile place bytes files) []

/-- The inputs of a command: its files, or standard input. Of files that the command has created
it reads what it has written. -/
def inputs (folder : Folder) (o : Options) (stdin : Bytes) (created : List (String × Bytes)) :
    List Input :=
  if o.inputs.isEmpty then [.present stdin]
  else o.inputs.map fun path =>
    match (created.lookup (folder.place path)).or (folder.read? path) with
    | some data => .present data
    | none => .missing

/-- The exit code of a run. -/
def exitCode {α : Type} : Except Fault α → Nat
  | .ok _ => 0
  | .error _ => 1

/-- Runs a job whose options have been read. -/
def runJob (unstable : UnstableSort) (folder : Folder) (o : Options) (stdin : Bytes) (job : Job) :
    Report :=
  let created := (o.outputs.takeWhile folder.canCreate).map folder.place
  if created.length < o.outputs.length then ⟨1, [], writeFiles created []⟩
  else
    let host : Host := { spillable := job.config.tempDir.all folder.isDirectory, unstable }
    let outcome :=
      job.runReading host (fun sinks => inputs folder o stdin (writeFiles created sinks))
        (max 1 created.length)
    if created.isEmpty then ⟨exitCode outcome.result, outcome.sinks.flatten, []⟩
    else ⟨exitCode outcome.result, [], writeFiles created outcome.sinks⟩

/-- Runs a command, with the given sort for jobs that need not be stable. -/
def run (unstable : UnstableSort) (args : List String) (folder : Folder) (stdin : Bytes) :
    Report :=
  match Arguments.parse args with
  | none => ⟨2, [], []⟩
  | some .showHelp => ⟨0, [], []⟩
  | some .showVersion => ⟨0, Text.utf8 versionText, []⟩
  | some (.run o) =>
    match job folder o with
    | .error _ => ⟨1, [], []⟩
    | .ok job => runJob unstable folder o stdin job

end CommandLine

end CardSort
