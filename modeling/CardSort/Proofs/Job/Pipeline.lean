import CardSort.Job.Pass

/-!
# What scan and sink depend on

A job scans inputs and drains records into a sink without looking at its memory limit, its
workers or its mode as such. Two jobs that agree on the rest are interchangeable there.

* `Job.arrivalsFrom_congr`, `Job.header_congr` — what is read depends on how inputs are opened;
  `Job.scan_congr`, what is scanned also on how records are judged.
* `Job.SamePipeline` — framing, header count, active keys, stability, filter, layouts and sum rule
  agree.
* `Job.SamePipeline.scan_eq`, `Job.SamePipeline.sort_eq`, `Job.SamePipeline.drain_eq` — **the
  stages but for spilling and merging give the same**.
* `Job.withResources` — the same job with another memory limit and another number of workers.
-/

set_option autoImplicit false

namespace CardSort

namespace Job

/-! ## Reading -/

section Reading

variable {a b : Job} (hopen : ∀ input, a.openInput input = b.openInput input)

include hopen

theorem arrivalsFrom_congr (number : Nat) (inputs : List Input) :
    a.arrivalsFrom number inputs = b.arrivalsFrom number inputs := by
  induction inputs generalizing number with
  | nil => rfl
  | cons input inputs ih =>
    simp only [arrivalsFrom]
    rw [hopen]
    simp only [ih]

theorem header_congr (inputs : List Input) : a.header inputs = b.header inputs := by
  cases inputs with
  | nil => rfl
  | cons input inputs => simp only [header, hopen]

variable {passFilter : Option Filter} (hjudge : ∀ r, a.judge passFilter r = b.judge passFilter r)

omit hopen in
include hjudge in
theorem scanFrom_congr (fault : Option Fault) (number : Nat) (records : List Bytes) :
    a.scanFrom passFilter fault number records = b.scanFrom passFilter fault number records := by
  induction records generalizing number with
  | nil => rfl
  | cons r rs ih => simp only [scanFrom, hjudge, ih]

include hjudge in
theorem scan_congr (inputs : List Input) :
    a.scan passFilter inputs = b.scan passFilter inputs := by
  unfold scan arrivals
  rw [header_congr hopen, arrivalsFrom_congr hopen]
  simp only [scanFrom_congr hjudge]

end Reading

/-- The jobs agree on all that scan and sink depend on. -/
structure SamePipeline (a b : Job) : Prop where
  framing : a.framing = b.framing
  headerRecords : a.config.headerRecords = b.config.headerRecords
  comparer : a.activeComparer = b.activeComparer
  stable : a.config.stable = b.config.stable
  filter : a.filter = b.filter
  inrec : a.inrec = b.inrec
  outrec : a.outrec = b.outrec
  sum : a.sum = b.sum

namespace SamePipeline

variable {a b : Job}

theorem symm (h : SamePipeline a b) : SamePipeline b a :=
  ⟨h.framing.symm, h.headerRecords.symm, h.comparer.symm, h.stable.symm, h.filter.symm,
    h.inrec.symm, h.outrec.symm, h.sum.symm⟩

/-! ## Scan -/

theorem openInput_eq (h : SamePipeline a b) (input : Input) :
    a.openInput input = b.openInput input := by
  unfold openInput
  rw [h.framing, h.headerRecords]

theorem check_eq (h : SamePipeline a b) (record : Bytes) : a.check record = b.check record := by
  unfold check
  rw [h.comparer, h.sum, h.outrec]

theorem judge_eq (h : SamePipeline a b) (passFilter : Option Filter) (record : Bytes) :
    a.judge passFilter record = b.judge passFilter record := by
  unfold judge
  rw [h.filter, h.inrec]
  simp only [h.check_eq]

theorem header_eq (h : SamePipeline a b) (inputs : List Input) :
    a.header inputs = b.header inputs :=
  header_congr h.openInput_eq inputs

theorem scan_eq (h : SamePipeline a b) (passFilter : Option Filter) (inputs : List Input) :
    a.scan passFilter inputs = b.scan passFilter inputs :=
  scan_congr h.openInput_eq (h.judge_eq passFilter) inputs

/-! ## Sink -/

theorem drain_eq (h : SamePipeline a b) (layout : Option Layout) (header : List Bytes)
    (feed : Feed) : a.drain layout header feed = b.drain layout header feed := by
  unfold drain foldFeed layOut layOutRecord activeSum
  rw [h.framing, h.comparer, h.sum, h.outrec]

/-! ## Passes that do not look at the resources -/

theorem copyPass_eq (h : SamePipeline a b) (target : Target) (inputs : List Input) :
    a.copyPass target inputs = b.copyPass target inputs := by
  unfold copyPass
  rw [h.scan_eq]
  simp only [h.drain_eq]

theorem sort_eq (h : SamePipeline a b) (host : Host) (c : Comparer) (records : List Bytes) :
    a.sort host c records = b.sort host c records := by
  unfold sort
  rw [h.stable]

theorem memoryPass_eq (h : SamePipeline a b) (host : Host) (c : Comparer) (target : Target)
    (inputs : List Input) :
    a.memoryPass host c target inputs = b.memoryPass host c target inputs := by
  unfold memoryPass
  rw [h.scan_eq]
  simp only [h.drain_eq, h.sort_eq]

end SamePipeline

/-- The job with another memory limit and another number of workers. -/
def withResources (job : Job) (memoryLimit workers : Nat) : Job :=
  { job with config := { job.config with memoryLimit := memoryLimit, workers := workers } }

theorem samePipeline_withResources (job : Job) (memoryLimit workers : Nat) :
    SamePipeline (job.withResources memoryLimit workers) job :=
  ⟨rfl, rfl, rfl, rfl, rfl, rfl, rfl, rfl⟩

end Job

end CardSort
