import CardSort.Job.Scan
import CardSort.Job.Sink
import CardSort.Order
import CardSort.Order.Merge

/-!
# Passes and runs of a job

A pass scans all inputs, brings the records into order and writes one sink. A job runs one pass
for each destination, or a single pass without destinations.

* `Job.sort` sorts as the configuration asks for, stable or not.
* `Job.copyPass`, `Job.mergePass`, `Job.memoryPass` and `Job.externalPass` are the passes of the
  four strategies; `Job.spill` writes the runs of the last one.
* `Job.pass` picks one of them.
* `Job.run` checks the job and runs its passes up to the first fault; `Job.runReading` does so
  when inputs may be files that the passes write.
-/

set_option autoImplicit false

namespace CardSort

/-- The end of a pass. A pass that fails before it opens its sink leaves no bytes. -/
structure PassOutcome where
  strategy : Strategy
  read : Nat
  filtered : Nat
  /-- Runs spilled. -/
  spilled : Nat
  drained : Drained
deriving DecidableEq, Repr

/-- The counts with those of one more pass. The first pass sets strategy, input and filtered. -/
def Stats.addPass (stats : Stats) (p : PassOutcome) : Stats :=
  let first := stats.perDestination.isEmpty
  { strategy := if first then p.strategy else stats.strategy
    input := if first then p.read else stats.input
    filtered := if first then p.filtered else stats.filtered
    summed := stats.summed + p.drained.summed
    output := stats.output + p.drained.written
    perDestination := stats.perDestination ++ [p.drained.written]
    spilled := stats.spilled + p.spilled }

namespace Job

/-- A destination of a pass, or the single sink of a job without destinations. -/
abbrev Target := Option Destination

/-- The filter of the pass. -/
def passFilter (target : Target) : Option Filter := target.bind Destination.filter

/-- The layout of the pass. -/
def passLayout (target : Target) : Option Layout := target.bind Destination.layout

/-- The sizes of inputs in bytes, added up; a file that cannot be opened is a fault. -/
def totalSize : List Input → Except Fault Nat
  | [] => .ok 0
  | .missing :: _ => .error .io
  | .present data :: inputs => do
    let rest ← totalSize inputs
    pure (data.length + rest)

/-- Writes records in order of arrival as they are scanned. -/
def copyPass (job : Job) (target : Target) (inputs : List Input) : Except Fault PassOutcome := do
  let (header, scan) ← job.scan (passFilter target) inputs
  pure ⟨.copy, scan.read, scan.filtered, 0, job.drain (passLayout target) header scan.feed⟩

/-- Scans every input by itself. -/
def scanEach (job : Job) (target : Target) (inputs : List Input) :
    Except Fault (List (List Bytes × Scan)) :=
  inputs.mapM fun input => job.scan (passFilter target) [input]

/-- Merges inputs, each of which is in key order. -/
def mergePass (job : Job) (comparer : Comparer) (target : Target) (inputs : List Input) :
    Except Fault PassOutcome := do
  let scans ← job.scanEach target inputs
  let header := (scans.head?.map Prod.fst).getD []
  let merged := Merge.merge comparer (scans.map fun s => s.2.feed)
  pure ⟨.merge, (scans.map fun s => s.2.read).sum, (scans.map fun s => s.2.filtered).sum, 0,
    job.drain (passLayout target) header merged⟩

/-- Records in the order of their keys. Equal keys keep their order if the job is stable; if not,
the host may leave them in any order. -/
def sort (job : Job) (host : Host) (comparer : Comparer) (records : List Bytes) : List Bytes :=
  if job.config.stable then comparer.sort records else host.unstable.sort comparer records

/-- Sorts all records at once. -/
def memoryPass (job : Job) (host : Host) (comparer : Comparer) (target : Target)
    (inputs : List Input) : Except Fault PassOutcome := do
  let (header, scan) ← job.scan (passFilter target) inputs
  let records ← scan.feed.complete
  pure ⟨.inMemory, scan.read, scan.filtered, 0,
    job.drain (passLayout target) header (.ofList (job.sort host comparer records))⟩

/-- Sorts the chunks of a batch and writes each of them as a run. The workers may report any of
several faults; here it is that of the first chunk. -/
def spillBatch (job : Job) (host : Host) (comparer : Comparer) (batch : List (List Bytes)) :
    Except Fault (List Bytes) :=
  batch.mapM fun chunk => Run.write (job.sort host comparer chunk)

/-- The spilled runs of a feed. A batch is spilled as soon as it is full, before the next record is
read; so a record in it that is too long is a fault before one that ends the feed. -/
def spill (job : Job) (host : Host) (comparer : Comparer) (feed : Feed) :
    Except Fault (List Bytes) := do
  let buffers := Chunk.buffers job.config.memoryLimit job.config.workers feed.records
  let early ← buffers.spilled.mapM (job.spillBatch host comparer)
  let _ ← feed.complete
  let late ← job.spillBatch host comparer buffers.rest
  pure (early.flatten ++ late)

/-- Sorts chunks, spills them and merges the spilled runs. -/
def externalPass (job : Job) (host : Host) (comparer : Comparer) (target : Target)
    (inputs : List Input) : Except Fault PassOutcome := do
  let (header, scan) ← job.scan (passFilter target) inputs
  if host.spillable then pure () else throw .io
  let runs ← job.spill host comparer scan.feed
  pure ⟨.external, scan.read, scan.filtered, runs.length,
    job.drain (passLayout target) header (Merge.merge comparer (runs.map Run.read))⟩

/-- One pass. Sorting spills runs if the inputs are larger than the memory limit. -/
def pass (job : Job) (host : Host) (target : Target) (inputs : List Input) :
    Except Fault PassOutcome :=
  match job.activeComparer with
  | none => job.copyPass target inputs
  | some comparer =>
    if job.mode = .merge then job.mergePass comparer target inputs
    else do
      let size ← totalSize inputs
      if size ≤ job.config.memoryLimit then job.memoryPass host comparer target inputs
      else job.externalPass host comparer target inputs

/-- Runs passes up to the first fault. `inputs` tells what a pass reads once the sinks of the
passes before it are written, `done` what those have received. The sinks of the passes after the
fault stay empty. -/
def runPasses (job : Job) (host : Host) (inputs : List Bytes → List Input) (done : List Bytes)
    (stats : Stats) : List Target → Outcome
  | [] => ⟨.ok stats, []⟩
  | target :: targets =>
    match job.pass host target (inputs done) with
    | .error f => ⟨.error f, [] :: targets.map fun _ => []⟩
    | .ok p =>
      match p.drained.fault with
      | some f => ⟨.error f, p.drained.bytes :: targets.map fun _ => []⟩
      | none =>
        let outcome := runPasses job host inputs (done ++ [p.drained.bytes])
          (Stats.addPass stats p) targets
        { outcome with sinks := p.drained.bytes :: outcome.sinks }

/-- The targets of the passes. -/
def targets (job : Job) : List Target :=
  if job.destinations.isEmpty then [none] else job.destinations.map some

/-- Checks that the job can run and that the number of sinks is right. -/
def precheck (job : Job) (sinks : Nat) : Except Fault Unit := do
  job.config.validate
  if sinks = job.sinkCount then pure () else throw (.sinkCount job.sinkCount sinks)
  if job.mode = .merge ∧ job.comparer.isNone then throw (.setting .mergeWithoutKeys) else pure ()

/-- Runs a job into a number of sinks. The inputs of a pass may depend on what the sinks of the
passes before it have received. -/
def runReading (job : Job) (host : Host) (inputs : List Bytes → List Input) (sinks : Nat) :
    Outcome :=
  match job.precheck sinks with
  | .error f => ⟨.error f, List.replicate sinks []⟩
  | .ok () => job.runPasses host inputs [] {} job.targets

/-- Runs a job over inputs into a number of sinks. -/
def run (job : Job) (host : Host) (inputs : List Input) (sinks : Nat) : Outcome :=
  job.runReading host (fun _ => inputs) sinks

end Job

end CardSort
