import CardSort.CommandLine

/-!
# The program

Reads the files that a command names, runs the command, and writes what it reports.
-/

set_option autoImplicit false

namespace CardSort.Program

/-- The bytes of a file, if it can be read. -/
def readFile? (path : String) : IO (Option Bytes) := do
  try
    pure (some (← IO.FS.readBinFile path).data.toList)
  catch _ => pure none

/-- The files that a request names for reading. -/
def namedFiles : Request → List String
  | .run o => o.cards.toList ++ o.config.toList ++ o.inputs
  | .showHelp | .showVersion => []

/-- The files that a request names for input or output. -/
def recordFiles : Request → List String
  | .run o => o.inputs ++ o.outputs
  | .showHelp | .showVersion => []

/-- The place of a file: where it really stands, or its path without idle steps if there is no such
file yet. -/
def placeOf (path : String) : IO String := do
  try
    pure (← IO.FS.realPath path).toString
  catch _ =>
    let steps := (path.splitOn "/").filter fun step => step ≠ "" && step ≠ "."
    pure ((if path.startsWith "/" then "/" else "") ++ "/".intercalate steps)

/-- The files of a request that can be read, with their contents. -/
def readFiles (paths : List String) : IO (List (String × Bytes)) := do
  let read ← paths.mapM fun path => do pure ((← readFile? path).map fun b => (path, b))
  pure (read.filterMap id)

/-- Whether standard input is to be read. -/
def readsInput : Option Request → Bool
  | some (.run o) => o.inputs.isEmpty
  | _ => false

/-- Writes a file; the result tells whether it could be written. -/
def writeFile (path : String) (bytes : Bytes) : IO Bool := do
  try
    IO.FS.writeBinFile path ⟨bytes.toArray⟩
    pure true
  catch _ => pure false

/-- Writes what a command reports, and gives the exit code. -/
def publish (report : Report) : IO UInt32 := do
  let stdout ← IO.getStdout
  stdout.write ⟨report.output.toArray⟩
  stdout.flush
  let written ← report.files.mapM fun (path, bytes) => writeFile path bytes
  pure (if written.all id then UInt32.ofNat report.exit else 1)

end CardSort.Program

open CardSort in
def main (args : List String) : IO UInt32 := do
  let request := Arguments.parse args
  let files ← Program.readFiles ((request.map Program.namedFiles).getD [])
  let stdin ←
    if Program.readsInput request then (← IO.getStdin).readBinToEnd else pure ByteArray.empty
  let places ← ((request.map Program.recordFiles).getD []).mapM fun path => do
    pure (path, ← Program.placeOf path)
  let folder : Folder :=
    { place := fun path => (places.lookup path).getD path
      read? := fun path => files.lookup path
      canCreate := fun path => ! path.endsWith "/"
      isDirectory := fun _ => true }
  Program.publish (CommandLine.run .stable args folder stdin.data.toList)
