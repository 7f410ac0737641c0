import CardSort.Proofs.Job.Delivery

/-!
# What a sort writes

A job in sort mode that neither sums nor lays out its output writes the header of its first input
and then, in the order of the keys, the records that the scan delivers.

* `Job.exists_pass_of_run` — a job without destinations is a single pass.
* `Job.drain_of_layout` — a sink that does not sum frames what the output layout makes of records;
  `Job.drain_ofList`, the records themselves if there is none.
* `Job.run_sorts` — **no record is lost or made up, keys ascend, and a stable job keeps ties in the
  order in which they arrived**: input after input, and within an input as they stand.
-/

set_option autoImplicit false

namespace CardSort

/-- Steps that succeed on all records, whatever their numbers, leave the end of a feed as it is. -/
theorem Feed.mapNumbered_of_ok {step : Nat → Bytes → Except Fault Bytes} {f : Bytes → Bytes}
    {records : List Bytes} (h : ∀ number, ∀ r ∈ records, step number r = .ok (f r))
    (fault : Option Fault) (number : Nat) :
    Feed.mapNumbered step fault number records = ⟨records.map f, fault⟩ := by
  induction records generalizing number with
  | nil => rfl
  | cons r rs ih =>
    rw [Feed.mapNumbered, h number r List.mem_cons_self,
      ih (fun number r hr => h number r (List.mem_cons_of_mem _ hr))]
    rfl

namespace Job

variable {job : Job} {host : Host} {c : Comparer} {inputs : List Input}

/-- A job without destinations runs one pass into one sink. -/
theorem exists_pass_of_run {sinks : Nat} {stats : Stats}
    (hdest : job.destinations = []) (h : (job.run host inputs sinks).result = .ok stats) :
    ∃ p, job.pass host none inputs = .ok p ∧ p.drained.fault = none ∧
      (job.run host inputs sinks).sinks = [p.drained.bytes] ∧
      stats = Stats.addPass {} p := by
  obtain ⟨hcheck, passes, hpasses⟩ := exists_completes_of_run h
  have hrun := run_of_completes hcheck hpasses
  have htargets : job.targets = [none] := by simp [targets, hdest]
  rw [htargets] at hpasses
  obtain ⟨p, rest, hp, hrest, rfl⟩ := List.forall₂_cons_left_iff.1 hpasses
  cases hrest
  rw [hrun] at h ⊢
  exact ⟨p, hp.pass, hp.fault, rfl, (Except.ok.inj h).symm⟩

/-- Without sums the sink frames the header and what the output layout makes of the records. -/
theorem drain_of_layout (hsum : job.sum = none) {f : Bytes → Bytes} (feed : Feed)
    (h : ∀ r ∈ feed.records, Layout.formatWith job.outrec r = .ok (f r)) (header : List Bytes) :
    job.drain none header feed =
      ⟨job.framing.write (header ++ feed.records.map f), feed.records.length, 0, feed.fault⟩ := by
  have hfold : job.foldFeed feed = ⟨feed, 0, 0⟩ := by simp [foldFeed, activeSum, hsum]
  have hlayOut : job.layOut none feed = ⟨feed.records.map f, feed.fault⟩ := by
    refine Feed.mapNumbered_of_ok (fun number r hr => ?_) feed.fault 1
    rw [layOutRecord, h r hr]
    rfl
  rw [drain, hfold]
  simp only [hlayOut, List.length_map]

/-- Without sums and layouts the sink frames the header and the records as they come. -/
theorem drain_ofList (hsum : job.sum = none) (houtrec : job.outrec = none)
    (header records : List Bytes) :
    job.drain none header (.ofList records) =
      ⟨job.framing.write (header ++ records), records.length, 0, none⟩ := by
  have hsame : ∀ r ∈ records, Layout.formatWith job.outrec r = .ok (id r) := by
    intro r _
    rw [houtrec]
    rfl
  rw [drain_of_layout hsum (.ofList records) hsame, List.map_id]
  rfl

/-- **Sorting is correct**: if a job with keys in sort mode succeeds and neither sums nor lays out
its output, its sink holds the header and then the delivered records, none lost and none made up,
no record greater than a later one. If the job is stable, each class of ties is written in the
sequence in which it arrived: input after input, in each input as the records stand there. -/
theorem run_sorts (hmode : job.mode = .sort) (hkeys : job.comparer = some c)
    (hsum : job.sum = none) (houtrec : job.outrec = none) (hdest : job.destinations = [])
    {sinks : Nat} {stats : Stats} (h : (job.run host inputs sinks).result = .ok stats) :
    ∃ header scan each written,
      job.scan none inputs = .ok (header, scan) ∧ scan.feed.fault = none ∧
      inputs.mapM (fun input => job.scan none [input]) = .ok each ∧
      scan.feed.records = (each.map fun s => s.2.feed.records).flatten ∧
      (job.run host inputs sinks).sinks = [job.framing.write (header ++ written)] ∧
      written.Perm scan.feed.records ∧
      written.Pairwise (fun a b => c.compare a b ≠ .gt) ∧
      (job.config.stable = true → ∀ r, c.tied r written = c.tied r scan.feed.records) := by
  have hactive : job.activeComparer = some c := by simp [activeComparer, hmode, hkeys]
  obtain ⟨p, hp, -, hsinks, -⟩ := exists_pass_of_run hdest h
  obtain ⟨header, scan, hscan, hfault, -, -, hdrained⟩ := sorted_of_pass hmode hactive hp
  obtain ⟨each, heach, -, hgather⟩ := exists_scanEach_of_scan hscan hfault
  have hplaced := job.place_keyOrder host c inputs scan.feed.records
  refine ⟨header, scan, each, job.place host c inputs scan.feed.records, hscan, hfault, heach, ?_,
    ?_, hplaced.perm, hplaced.sorted.imp Comparer.le_iff_ne_gt.1, fun hstable => ?_⟩
  · rw [hgather]
    simp only [gatherScans, Feed.gather, Feed.ofList, List.flatMap_def, List.map_map]
    rfl
  · rw [hsinks, hdrained]
    show [(job.drain none header _).bytes] = _
    rw [drain_ofList hsum houtrec]
  · rw [place_of_stable hstable]
    exact c.sort_keepsTies scan.feed.records

/-- Through three spilled runs the ties of `a` and of `b` keep their order across the inputs. -/
theorem tally_sorts :
    let job := { tally.withResources 1 1 with sum := none }
    let c : Comparer := ⟨[⟨⟨0, 1, .ch, .ascii⟩, .ascending⟩], .native⟩
    ∃ header scan each written,
      job.scan none tallyInputs = .ok (header, scan) ∧ scan.feed.fault = none ∧
      tallyInputs.mapM (fun input => job.scan none [input]) = .ok each ∧
      scan.feed.records = (each.map fun s => s.2.feed.records).flatten ∧
      (job.run {} tallyInputs 1).sinks = [job.framing.write (header ++ written)] ∧
      written.Perm scan.feed.records ∧
      written.Pairwise (fun a b => c.compare a b ≠ .gt) ∧
      (job.config.stable = true → ∀ r, c.tied r written = c.tied r scan.feed.records) :=
  run_sorts rfl rfl rfl rfl rfl
    (show _ = Except.ok
      { strategy := .external, input := 4, output := 4, perDestination := [4], spilled := 3 }
      by cbv)

end Job

end CardSort
