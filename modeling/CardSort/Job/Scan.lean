import CardSort.Job

/-!
# Scanning inputs

The scan reads the inputs one after the other, leaves out the header records of each, filters
the data records, lays them out and checks that later stages can use them.

* `Job.openInput` separates header and data of an input.
* `Job.arrivals` are the data records of all inputs.
* `Job.judge` decides about one record.
* `Job.scan` is the whole scan.
-/

set_option autoImplicit false

namespace CardSort

/-- What becomes of a scanned record. -/
inductive Verdict where
  /-- It goes on, as the input layout leaves it. -/
  | kept (record : Bytes)
  /-- The filter of the job rejects it. -/
  | filtered
  /-- The filter of the pass rejects it. -/
  | passedOver
deriving DecidableEq, Repr

/-- The result of a scan: the records that go on with the fault that ends them, and counts. -/
structure Scan where
  feed : Feed
  /-- Data records read. -/
  read : Nat
  /-- Records that the filter of the job rejects. -/
  filtered : Nat
deriving DecidableEq, Repr

namespace Scan

/-- Counts one more record, with its verdict. -/
def count (v : Verdict) (s : Scan) : Scan :=
  match v with
  | .kept record => { s with feed := s.feed.cons record, read := s.read + 1 }
  | .filtered => { s with read := s.read + 1, filtered := s.filtered + 1 }
  | .passedOver => { s with read := s.read + 1 }

/-- The scan that ends at a record with a fault, which has been read. -/
def stopped (f : Fault) : Scan := ⟨.failed f, 1, 0⟩

end Scan

namespace Job

/-- The header records and the data records of an input. Input that ends within the header has
no data; a header that cannot be read is a fault. -/
def openInput (job : Job) (input : Input) : Except Fault (List Bytes × Feed) :=
  match input with
  | .missing => .error .io
  | .present data =>
    let feed := job.framing.records data
    let count := job.config.headerRecords
    match feed.fault with
    | some f =>
      if feed.records.length < count then .error f
      else .ok (feed.records.take count, { feed with records := feed.records.drop count })
    | none => .ok (feed.records.take count, { feed with records := feed.records.drop count })

/-- The data records of inputs in order, when `number` data records have been read before. A
data record that cannot be read is a fault with the number that it would have. -/
def arrivalsFrom (job : Job) (number : Nat) : List Input → Feed
  | [] => .ofList []
  | input :: inputs =>
    match job.openInput input with
    | .error f => .failed f
    | .ok (_, feed) =>
      let next := number + feed.records.length
      match feed.fault with
      | some f => ⟨feed.records, some (f.atRecord (next + 1))⟩
      | none => (arrivalsFrom job next inputs).prepend feed.records

/-- The data records of all inputs. -/
def arrivals (job : Job) (inputs : List Input) : Feed := job.arrivalsFrom 0 inputs

/-- Checks that the keys, the summed fields and the output layout find what they need. -/
def check (job : Job) (record : Bytes) : Except Fault Unit := do
  match job.activeComparer with
  | some comparer => do
    comparer.validate record
    match job.sum with
    | some rule => rule.validate record
    | none => pure ()
  | none => pure ()
  match job.outrec with
  | some layout => layout.validate record
  | none => pure ()

/-- Decides about one data record. -/
def judge (job : Job) (passFilter : Option Filter) (record : Bytes) : Except Fault Verdict := do
  if ← Filter.passes job.filter record then
    if ← Filter.passes passFilter record then do
      let laidOut ← Layout.formatWith job.inrec record
      job.check laidOut
      pure (.kept laidOut)
    else pure .passedOver
  else pure .filtered

/-- Scans data records, numbered from `number` on, that end with `fault`. -/
def scanFrom (job : Job) (passFilter : Option Filter) (fault : Option Fault) (number : Nat) :
    List Bytes → Scan
  | [] => ⟨⟨[], fault⟩, 0, 0⟩
  | r :: rs =>
    match job.judge passFilter r with
    | .ok verdict => (scanFrom job passFilter fault (number + 1) rs).count verdict
    | .error f => .stopped (f.atRecord number)

/-- The header records of the first input. -/
def header (job : Job) : List Input → Except Fault (List Bytes)
  | [] => .ok []
  | input :: _ => do
    let (records, _) ← job.openInput input
    pure records

/-- Scans inputs: the header records of the first one, and the scan of all data records. A
first input that cannot be opened is a fault of the scan as a whole. -/
def scan (job : Job) (passFilter : Option Filter) (inputs : List Input) :
    Except Fault (List Bytes × Scan) := do
  let records ← job.header inputs
  let feed := job.arrivals inputs
  pure (records, job.scanFrom passFilter feed.fault 1 feed.records)

end Job

end CardSort
