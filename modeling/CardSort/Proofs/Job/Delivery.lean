import CardSort.Proofs.Job.Strategy

/-!
# What passes and runs deliver

A pass comes down to a header and a feed in final order, which its sink folds and lays out. A run
is a sequence of passes, none of which sees what the others have read or written.

* `Job.ordered` — the records of a pass in final order, whatever strategy puts them there.
* `Job.dataRecords` — the data records that a pass writes.
* `Job.drained_of_pass`, `Job.drained_of_dataRecords` — what a pass hands to its sink, and what
  the sink makes of it.
* `Job.run_of_completes`, `Job.exists_completes_of_run` — **a run succeeds if all its passes come
  to their ends**, and then writes what they write.
* `Job.exists_completes_of_target` — the pass, the sink and the count of each target.
* `Job.hasRoom_of_run` — a sort that succeeds has found room.
-/

set_option autoImplicit false

namespace CardSort

/-- Steps over numbered records come to their end if they do so without the numbers. -/
theorem Feed.complete_mapNumbered_iff {step : Bytes → Except Fault Bytes} {fault : Option Fault}
    (number : Nat) {records out : List Bytes} :
    (Feed.mapNumbered (fun n r => (step r).mapError (Fault.atRecord n)) fault number
        records).complete = .ok out ↔
      fault = none ∧ records.mapM step = .ok out := by
  rw [Feed.complete_eq_ok_iff, mapM_eq_ok_iff]
  induction records generalizing number out with
  | nil =>
    rw [Feed.mapNumbered, List.forall₂_nil_left_iff]
    exact and_congr_right fun _ => eq_comm
  | cons r rs ih =>
    rw [Feed.mapNumbered, List.forall₂_cons_left_iff]
    cases hstep : step r with
    | error f => simp [Except.mapError, Feed.failed]
    | ok b =>
      simp only [Except.mapError, Feed.cons]
      constructor
      · rintro ⟨hfault, rfl⟩
        obtain ⟨hnone, hrest⟩ := (ih (number + 1)).1 ⟨hfault, rfl⟩
        exact ⟨hnone, b, _, rfl, hrest, rfl⟩
      · rintro ⟨hnone, b', rest, hb, hrest, rfl⟩
        obtain ⟨hfault, hrecords⟩ := (ih (number + 1)).2 ⟨hnone, hrest⟩
        cases hb
        exact ⟨hfault, congrArg (b :: ·) hrecords⟩

theorem Stats.perDestination_foldl (stats : Stats) (passes : List PassOutcome) :
    (passes.foldl Stats.addPass stats).perDestination =
      stats.perDestination ++ passes.map fun p => p.drained.written := by
  induction passes generalizing stats with
  | nil => simp
  | cons p ps ih =>
    rw [List.foldl_cons, ih, Stats.addPass]
    simp

namespace Job

variable {job : Job} {c : Comparer} {target : Target} {inputs : List Input} {host : Host}

/-! ## One pass -/

/-- The records that a pass hands to its sink, in final order: as they arrive, merged, or sorted. -/
def ordered (job : Job) (host : Host) (target : Target) (inputs : List Input) :
    Except Fault Feed :=
  match job.activeComparer with
  | none => do
    let (_, scan) ← job.scan (passFilter target) inputs
    pure scan.feed
  | some comparer =>
    if job.mode = .merge then do
      let scans ← job.scanEach target inputs
      pure (Merge.merge comparer (scans.map fun s => s.2.feed))
    else do
      let (_, scan) ← job.scan (passFilter target) inputs
      let records ← scan.feed.complete
      pure (.ofList (job.place host comparer inputs records))

/-- The data records that a pass writes to its sink after the header. -/
def dataRecords (job : Job) (host : Host) (target : Target) (inputs : List Input) :
    Except Fault (List Bytes) := do
  let feed ← job.ordered host target inputs
  (job.layOut (passLayout target) (job.foldFeed feed).feed).complete

theorem header_of_scan {passFilter : Option Filter} {header : List Bytes} {scan : Scan}
    (h : job.scan passFilter inputs = .ok (header, scan)) : job.header inputs = .ok header := by
  obtain ⟨records, hheader, h⟩ := bind_eq_ok_iff.1 h
  cases h
  exact hheader

/-- A pass that succeeds drains the header and the records in final order. -/
theorem drained_of_pass {p : PassOutcome} (h : job.pass host target inputs = .ok p) :
    ∃ header feed, job.header inputs = .ok header ∧ job.ordered host target inputs = .ok feed ∧
      p.drained = job.drain (passLayout target) header feed := by
  cases hactive : job.activeComparer with
  | none =>
    simp only [pass, hactive] at h
    obtain ⟨⟨header, scan⟩, hscan, h⟩ := bind_eq_ok_iff.1 h
    cases h
    refine ⟨header, scan.feed, header_of_scan hscan, ?_, rfl⟩
    simp only [ordered, hactive, hscan, ok_bind]
    rfl
  | some c =>
    by_cases hmerge : job.mode = .merge
    · simp only [pass, hactive, if_pos hmerge] at h
      obtain ⟨scans, hscans, h⟩ := bind_eq_ok_iff.1 h
      cases h
      refine ⟨_, _, header_of_each (mapM_eq_ok_iff.1 hscans), ?_, rfl⟩
      simp only [ordered, hactive, if_pos hmerge, hscans, ok_bind]
      rfl
    · have hsort := mode_of_keys hactive hmerge
      obtain ⟨header, scan, hscan, hfault, -, -, hdrained⟩ := sorted_of_pass hsort hactive h
      refine ⟨header, _, header_of_scan hscan, ?_, hdrained⟩
      simp only [ordered, hactive, if_neg hmerge, hscan, ok_bind,
        Feed.complete_eq_ok_iff.2 ⟨hfault, rfl⟩]
      rfl

theorem complete_layOut_iff {layout : Option Layout} {feed : Feed} {out : List Bytes} :
    (job.layOut layout feed).complete = .ok out ↔
      feed.fault = none ∧ feed.records.mapM (job.layOutRecord layout) = .ok out :=
  Feed.complete_mapNumbered_iff 1

/-- The sink of a pass holds the header and the data records of the pass. -/
theorem drained_of_dataRecords {p : PassOutcome} {records : List Bytes}
    (h : job.pass host target inputs = .ok p)
    (hrecords : job.dataRecords host target inputs = .ok records) :
    p.drained.fault = none ∧ p.drained.written = records.length ∧
      ∃ header, job.header inputs = .ok header ∧
        p.drained.bytes = job.framing.write (header ++ records) := by
  obtain ⟨header, feed, hheader, hfeed, hdrained⟩ := drained_of_pass h
  rw [dataRecords, hfeed, ok_bind] at hrecords
  obtain ⟨hfault, rfl⟩ := Feed.complete_eq_ok_iff.1 hrecords
  rw [hdrained]
  exact ⟨hfault, rfl, header, hheader, rfl⟩

/-- A pass that comes to its end has data records. -/
theorem exists_dataRecords {p : PassOutcome} (h : job.pass host target inputs = .ok p)
    (hfault : p.drained.fault = none) :
    ∃ records, job.dataRecords host target inputs = .ok records := by
  obtain ⟨header, feed, _, hfeed, hdrained⟩ := drained_of_pass h
  rw [hdrained] at hfault
  refine ⟨(job.layOut (passLayout target) (job.foldFeed feed).feed).records, ?_⟩
  rw [dataRecords, hfeed, ok_bind]
  exact Feed.complete_eq_ok_iff.2 ⟨hfault, rfl⟩

/-! ## Passes in sequence -/

/-- The pass comes to its end, and so does its sink. -/
structure Completes (job : Job) (host : Host) (inputs : List Input) (target : Target)
    (p : PassOutcome) : Prop where
  pass : job.pass host target inputs = .ok p
  fault : p.drained.fault = none

theorem runPasses_of_completes {targets : List Target} {passes : List PassOutcome}
    (h : List.Forall₂ (job.Completes host inputs) targets passes) (done : List Bytes)
    (stats : Stats) :
    job.runPasses host (fun _ => inputs) done stats targets =
      ⟨.ok (passes.foldl Stats.addPass stats), passes.map fun p => p.drained.bytes⟩ := by
  induction h generalizing done stats with
  | nil => rfl
  | cons hfirst _ ih =>
    simp only [runPasses, hfirst.pass, hfirst.fault, ih]
    rfl

theorem exists_completes_of_runPasses {targets : List Target} {done : List Bytes}
    {stats final : Stats}
    (h : (job.runPasses host (fun _ => inputs) done stats targets).result = .ok final) :
    ∃ passes, List.Forall₂ (job.Completes host inputs) targets passes := by
  induction targets generalizing done stats with
  | nil => exact ⟨[], .nil⟩
  | cons target targets ih =>
    simp only [runPasses] at h
    cases hpass : job.pass host target inputs with
    | error f => simp [hpass] at h
    | ok p =>
      cases hfault : p.drained.fault with
      | some f => simp [hpass, hfault] at h
      | none =>
        simp only [hpass, hfault] at h
        obtain ⟨passes, hpasses⟩ := ih h
        exact ⟨p :: passes, .cons ⟨hpass, hfault⟩ hpasses⟩

/-- **A run whose passes come to their ends** writes the sinks of its passes, and counts them. -/
theorem run_of_completes {sinks : Nat} {passes : List PassOutcome}
    (hcheck : job.precheck sinks = .ok ())
    (h : List.Forall₂ (job.Completes host inputs) job.targets passes) :
    job.run host inputs sinks =
      ⟨.ok (passes.foldl Stats.addPass {}), passes.map fun p => p.drained.bytes⟩ := by
  simp only [run, runReading, hcheck]
  exact runPasses_of_completes h [] {}

/-- **A run that succeeds** has passed its checks, and all its passes come to their ends. -/
theorem exists_completes_of_run {sinks : Nat} {stats : Stats}
    (h : (job.run host inputs sinks).result = .ok stats) :
    job.precheck sinks = .ok () ∧
      ∃ passes, List.Forall₂ (job.Completes host inputs) job.targets passes := by
  simp only [run, runReading] at h
  cases hcheck : job.precheck sinks with
  | error f => simp [hcheck] at h
  | ok _ =>
    simp only [hcheck] at h
    exact ⟨rfl, exists_completes_of_runPasses h⟩

/-- Each target of a run that succeeds has its pass, its sink and its count. -/
theorem exists_completes_of_target {sinks : Nat} {stats : Stats}
    (h : (job.run host inputs sinks).result = .ok stats) {i : Nat}
    (htarget : job.targets[i]? = some target) :
    ∃ p, job.Completes host inputs target p ∧
      (job.run host inputs sinks).sinks[i]? = some p.drained.bytes ∧
      stats.perDestination[i]? = some p.drained.written := by
  obtain ⟨hcheck, passes, hpasses⟩ := exists_completes_of_run h
  rw [run_of_completes hcheck hpasses] at h ⊢
  obtain ⟨p, hp, hcompletes⟩ := exists_getElem?_of_forall₂ hpasses htarget
  cases h
  refine ⟨p, hcompletes, ?_, ?_⟩
  · simp [hp]
  · simp [Stats.perDestination_foldl, hp]

theorem exists_first_target (job : Job) : ∃ target, job.targets[0]? = some target := by
  unfold targets
  cases job.destinations with
  | nil => exact ⟨none, rfl⟩
  | cons d ds => exact ⟨some d, rfl⟩

/-- **A run in sort mode that succeeds has found room.** -/
theorem hasRoom_of_run (hmode : job.mode = .sort) {sinks : Nat} {stats : Stats}
    (h : (job.run host inputs sinks).result = .ok stats) : job.HasRoom host inputs := by
  by_cases hkeys : job.activeComparer = none
  · exact .inl hkeys
  by_cases hfits : job.FitsMemory inputs
  · exact .inr (.inl hfits)
  -- neither copied nor sorted at once, every pass has spilled what its scan delivers
  have hspilled : ∀ target ∈ job.targets, host.spillable = true ∧ ∀ header scan,
      job.scan (passFilter target) inputs = .ok (header, scan) →
        ∀ r ∈ scan.feed.records, r.length < Run.lengthLimit := by
    intro target htarget
    obtain ⟨i, hi⟩ := List.mem_iff_getElem?.1 htarget
    obtain ⟨p, hp, -⟩ := exists_completes_of_target h hi
    rcases pass_cases hmode hp.pass with ⟨hnone, -⟩ | ⟨-, -, hmemory⟩ | ⟨-, hspill⟩
    · exact absurd hnone hkeys
    · exact absurd hmemory hfits
    · exact hspill
  obtain ⟨first, hfirst⟩ := job.exists_first_target
  exact .inr (.inr ⟨(hspilled first (List.mem_of_getElem? hfirst)).1,
    fun target htarget => (hspilled target htarget).2⟩)

end Job

end CardSort
