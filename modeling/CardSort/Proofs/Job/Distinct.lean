import CardSort.Proofs.Job.Arrangement
import CardSort.Proofs.Sum.Duplicates

/-!
# Sorting without duplicates

A sort that drops duplicates writes one record of each class of ties, wherever its records stand
in the inputs, and through whatever runs they are spilled.

* `Job.foldFeed_skipDuplicates` — what the sink of such a job folds.
* `Job.run_keeps_firsts` — **one record per key: the first to arrive.**
-/

set_option autoImplicit false

namespace CardSort.Job

variable {job : Job} {c : Comparer} {inputs : List Input} {host : Host}

/-- The records of a scan arrive input after input. -/
theorem exists_each_of_scan {header : List Bytes} {scan : Scan}
    (h : job.scan none inputs = .ok (header, scan)) (hfault : scan.feed.fault = none) :
    ∃ each, inputs.mapM (fun input => job.scan none [input]) = .ok each ∧
      scan.feed.records = (each.map fun s => s.2.feed.records).flatten := by
  have hscan : job.scan (passFilter none) inputs = .ok (header, scan) := h
  obtain ⟨each, heach, -, hgather⟩ := exists_scanEach_of_scan hscan hfault
  refine ⟨each, heach, ?_⟩
  rw [hgather]
  simp only [gatherScans, Feed.gather, Feed.ofList, List.flatMap_def, List.map_map]
  rfl

theorem foldFeed_skipDuplicates (hkeys : job.activeComparer = some c)
    (hsum : job.sum = some .skipDuplicates) (records : List Bytes) :
    (job.foldFeed (.ofList records)).feed = .ofList (c.distinct records) ∧
      (job.foldFeed (.ofList records)).summed + (c.distinct records).length = records.length := by
  rw [foldFeed_of_sum hsum hkeys]
  exact SumRule.fold_skipDuplicates c records

/-- **Sorting without duplicates keeps the first record of each class of ties.** If a stable job
with keys in sort mode that drops duplicates succeeds, and lays out nothing at its end, then its sink
holds the header and records with strictly ascending keys. These are the records with which the
classes of ties among the delivered records begin, in the order in which they arrived: input after
input. All others are counted as summed. -/
theorem run_keeps_firsts (hmode : job.mode = .sort) (hstable : job.config.stable = true)
    (hkeys : job.comparer = some c) (hsum : job.sum = some .skipDuplicates)
    (houtrec : job.outrec = none) (hdest : job.destinations = []) {sinks : Nat} {stats : Stats}
    (h : (job.run host inputs sinks).result = .ok stats) :
    ∃ header scan each written,
      job.scan none inputs = .ok (header, scan) ∧ scan.feed.fault = none ∧
      inputs.mapM (fun input => job.scan none [input]) = .ok each ∧
      scan.feed.records = (each.map fun s => s.2.feed.records).flatten ∧
      (job.run host inputs sinks).sinks = [job.framing.write (header ++ written)] ∧
      written.Pairwise (fun a b => c.compare a b = .lt) ∧
      (written.map some).Perm ((c.classes scan.feed.records).map List.head?) ∧
      stats.summed + (c.classes scan.feed.records).length = scan.feed.records.length := by
  have hactive : job.activeComparer = some c := by simp [activeComparer, hmode, hkeys]
  obtain ⟨p, hp, -, hsinks, rfl⟩ := exists_pass_of_run hdest h
  obtain ⟨header, scan, hscan, hfault, -, -, hdrained⟩ := sorted_of_pass hmode hactive hp
  rw [place_of_stable hstable] at hdrained
  obtain ⟨each, heach, hgather⟩ := exists_each_of_scan hscan hfault
  obtain ⟨hstrict, hfirsts⟩ := c.distinct_sort_spec scan.feed.records
  obtain ⟨hfeed, hsummed⟩ := foldFeed_skipDuplicates hactive hsum (c.sort scan.feed.records)
  have hout := (complete_layOut_of_no_layout houtrec).2 hfeed
  obtain ⟨-, hwritten⟩ := Feed.complete_eq_ok_iff.1 hout
  rw [hdrained] at hsinks
  refine ⟨header, scan, each, c.distinct (c.sort scan.feed.records), hscan, hfault, heach, hgather,
    ?_, hstrict, hfirsts, ?_⟩
  · rw [hsinks]
    show [job.framing.write (header ++ (job.layOut none _).records)] = _
    rw [hwritten]
  · have hclasses := hfirsts.length_eq
    have hsort := (c.sort_keepsTies scan.feed.records).perm.length_eq
    rw [List.length_map, List.length_map] at hclasses
    have hcounted : (Stats.addPass {} p).summed = p.drained.summed := Nat.zero_add _
    rw [hcounted, hdrained, ← hclasses, ← hsort]
    exact hsummed

/-- The records of `tally`, one per letter. -/
def tallyDistinct : Job := { tally.withResources 1 1 with sum := some .skipDuplicates }

/-- `b1` and `a2` arrive before `b9` and `a4`, which are spilled apart from them. -/
theorem tallyDistinct_keeps_firsts :
    let c : Comparer := ⟨[⟨⟨0, 1, .ch, .ascii⟩, .ascending⟩], .native⟩
    (tallyDistinct.run {} tallyInputs 1).sinks = [[0x48, 0x30, 0x61, 0x32, 0x62, 0x31]] ∧
      ∃ header scan each written,
        tallyDistinct.scan none tallyInputs = .ok (header, scan) ∧ scan.feed.fault = none ∧
        tallyInputs.mapM (fun input => tallyDistinct.scan none [input]) = .ok each ∧
        scan.feed.records = (each.map fun s => s.2.feed.records).flatten ∧
        (tallyDistinct.run {} tallyInputs 1).sinks =
          [tallyDistinct.framing.write (header ++ written)] ∧
        written.Pairwise (fun a b => c.compare a b = .lt) ∧
        (written.map some).Perm ((c.classes scan.feed.records).map List.head?) ∧
        2 + (c.classes scan.feed.records).length = scan.feed.records.length :=
  ⟨by cbv, run_keeps_firsts rfl rfl rfl rfl rfl rfl
    (show _ = Except.ok ⟨.external, 4, 0, 2, 2, [2], 3⟩ by cbv)⟩

end CardSort.Job
