import CardSort.Proofs.Filter.Combination
import CardSort.Proofs.Job.Delivery

/-!
# Destinations are independent

The pass for a destination reads, orders, folds and lays out as the job would without
destinations, if the filter of the destination stood in the filter of the job. Only the layout of
the destination comes on top, and no pass shows in another one.

* `Job.alone` — the job without destinations that selects for one of them.
* `Job.scan_alone`, `Job.ordered_alone`, `Job.dataRecords_alone` — the stages of a pass, one by
  one: **a filter of the pass is a filter of the job**.
* `Job.completes_alone` — the pass of the single job comes to its end.
* `Job.run_splits` — **a run into destinations is a family of runs**, each laid out at its end.
-/

set_option autoImplicit false

namespace CardSort

/-! ## Verdicts -/

/-- The verdict if all filters are those of the job. -/
def Verdict.ofOneFilter : Verdict → Verdict
  | .passedOver => .filtered
  | v => v

namespace Job

variable {job : Job} {d : Destination} {inputs : List Input} {host : Host}

/-- The job without destinations that selects for one of them. -/
def alone (job : Job) (d : Destination) : Job :=
  { job with filter := Filter.both job.filter d.filter, destinations := [] }

/-! ## Scan -/

theorem judge_alone (job : Job) (d : Destination) (record : Bytes) :
    (job.alone d).judge none record = (job.judge d.filter record).map Verdict.ofOneFilter := by
  simp only [judge]
  show (Filter.passes (Filter.both job.filter d.filter) record >>= _) = _
  rw [Filter.passes_both]
  cases Filter.passes job.filter record with
  | error f => rfl
  | ok passed =>
    cases passed with
    | false => rfl
    | true =>
      simp only [ok_bind, if_true]
      cases Filter.passes d.filter record with
      | error f => rfl
      | ok chosen =>
        cases chosen with
        | false => rfl
        | true =>
          -- from here on both jobs do the same to the record
          let rest : Except Fault Verdict := Layout.formatWith job.inrec record >>= fun laidOut =>
            job.check laidOut >>= fun _ => pure (.kept laidOut)
          show rest = rest.map Verdict.ofOneFilter
          cases hrest : rest with
          | error f => rfl
          | ok v =>
            obtain ⟨laidOut, -, h⟩ := bind_eq_ok_iff.1 hrest
            obtain ⟨_, -, h⟩ := bind_eq_ok_iff.1 h
            cases h
            rfl

theorem openInput_alone (job : Job) (d : Destination) (input : Input) :
    (job.alone d).openInput input = job.openInput input := rfl

theorem header_alone (job : Job) (d : Destination) (inputs : List Input) :
    (job.alone d).header inputs = job.header inputs :=
  header_congr (openInput_alone job d) inputs

theorem scanFrom_alone (job : Job) (d : Destination) (fault : Option Fault) (number : Nat)
    (records : List Bytes) :
    ((job.alone d).scanFrom none fault number records).feed =
      (job.scanFrom d.filter fault number records).feed := by
  induction records generalizing number with
  | nil => rfl
  | cons r rs ih =>
    simp only [scanFrom, judge_alone]
    cases job.judge d.filter r with
    | error f => rfl
    | ok v =>
      cases v with
      | kept out => exact congrArg (Feed.cons out) (ih (number + 1))
      | filtered => exact ih (number + 1)
      | passedOver => exact ih (number + 1)

/-- **A filter of the pass is a filter of the job**: the same header and records are scanned, and
the scan ends with the same fault. -/
theorem scan_alone {header : List Bytes} {scan : Scan}
    (h : job.scan d.filter inputs = .ok (header, scan)) :
    ∃ scan', (job.alone d).scan none inputs = .ok (header, scan') ∧ scan'.feed = scan.feed := by
  obtain ⟨front, hheader, h⟩ := bind_eq_ok_iff.1 h
  cases h
  rw [Job.scan, arrivals, header_alone, hheader, ok_bind,
    arrivalsFrom_congr (openInput_alone job d)]
  exact ⟨_, rfl, scanFrom_alone job d _ 1 _⟩

theorem scanEach_alone {scans : List (List Bytes × Scan)}
    (h : job.scanEach (some d) inputs = .ok scans) :
    ∃ scans', (job.alone d).scanEach none inputs = .ok scans' ∧
      scans'.map (fun s => s.2.feed) = scans.map fun s => s.2.feed := by
  unfold scanEach at h ⊢
  simp only [mapM_eq_ok_iff] at h ⊢
  induction h with
  | nil => exact ⟨[], .nil, rfl⟩
  | cons hfirst _ ih =>
    obtain ⟨scan', hscan', hfeed⟩ := scan_alone hfirst
    obtain ⟨scans', hscans', hfeeds⟩ := ih
    refine ⟨_ :: scans', .cons hscan' hscans', ?_⟩
    rw [List.map_cons, List.map_cons, hfeed, hfeeds]

/-! ## Order and sink -/

/-- Merging and sorting see nothing of the scans but their feeds. -/
theorem ordered_alone {feed : Feed} (h : job.ordered host (some d) inputs = .ok feed) :
    (job.alone d).ordered host none inputs = .ok feed := by
  have hactive : (job.alone d).activeComparer = job.activeComparer := rfl
  have hmode : (job.alone d).mode = job.mode := rfl
  cases hkeys : job.activeComparer with
  | none =>
    simp only [ordered, hactive, hkeys] at h ⊢
    obtain ⟨⟨header, scan⟩, hscan, h⟩ := bind_eq_ok_iff.1 h
    cases h
    obtain ⟨scan', hscan', hfeed⟩ := scan_alone hscan
    exact bind_eq_ok_iff.2 ⟨_, hscan', congrArg Except.ok hfeed⟩
  | some c =>
    by_cases hmerge : job.mode = .merge
    · simp only [ordered, hactive, hkeys, hmode, if_pos hmerge] at h ⊢
      obtain ⟨scans, hscans, h⟩ := bind_eq_ok_iff.1 h
      cases h
      obtain ⟨scans', hscans', hfeeds⟩ := scanEach_alone hscans
      refine bind_eq_ok_iff.2 ⟨scans', hscans', ?_⟩
      rw [hfeeds]
      rfl
    · simp only [ordered, hactive, hkeys, hmode, if_neg hmerge] at h ⊢
      obtain ⟨⟨header, scan⟩, hscan, h⟩ := bind_eq_ok_iff.1 h
      obtain ⟨scan', hscan', hfeed⟩ := scan_alone hscan
      refine bind_eq_ok_iff.2 ⟨(header, scan'), hscan', ?_⟩
      rw [hfeed]
      exact h

theorem layOutRecord_none : job.layOutRecord none = Layout.formatWith job.outrec := by
  funext record
  simp only [layOutRecord]
  cases Layout.formatWith job.outrec record <;> rfl

/-- The data records for a destination are those of the single job, laid out for it. -/
theorem dataRecords_alone {laidOut : List Bytes}
    (h : job.dataRecords host (some d) inputs = .ok laidOut) :
    ∃ records, (job.alone d).dataRecords host none inputs = .ok records ∧
      records.mapM (Layout.formatWith d.layout) = .ok laidOut := by
  obtain ⟨feed, hfeed, h⟩ := bind_eq_ok_iff.1 h
  obtain ⟨hfault, h⟩ := complete_layOut_iff.1 h
  obtain ⟨records, hrecords, hlaidOut⟩ := mapM_bind_eq_ok_iff.1 h
  refine ⟨records, bind_eq_ok_iff.2 ⟨feed, ordered_alone hfeed, ?_⟩, hlaidOut⟩
  refine complete_layOut_iff.2 ⟨hfault, ?_⟩
  rw [show passLayout none = none from rfl, layOutRecord_none]
  exact hrecords

/-! ## Passes and runs -/

theorem exists_copyPass_alone {p : PassOutcome} (h : job.copyPass (some d) inputs = .ok p) :
    ∃ q, (job.alone d).copyPass none inputs = .ok q := by
  obtain ⟨⟨header, scan⟩, hscan, -⟩ := bind_eq_ok_iff.1 h
  obtain ⟨scan', hscan', -⟩ := scan_alone hscan
  exact ⟨_, bind_eq_ok_iff.2 ⟨(header, scan'), hscan', rfl⟩⟩

theorem exists_mergePass_alone {c : Comparer} {p : PassOutcome}
    (h : job.mergePass c (some d) inputs = .ok p) :
    ∃ q, (job.alone d).mergePass c none inputs = .ok q := by
  obtain ⟨scans, hscans, -⟩ := bind_eq_ok_iff.1 h
  obtain ⟨scans', hscans', -⟩ := scanEach_alone hscans
  exact ⟨_, bind_eq_ok_iff.2 ⟨scans', hscans', rfl⟩⟩

theorem exists_memoryPass_alone {c : Comparer} {p : PassOutcome}
    (h : job.memoryPass host c (some d) inputs = .ok p) :
    ∃ q, (job.alone d).memoryPass host c none inputs = .ok q := by
  obtain ⟨header, scan, hscan, hfault, -⟩ := memoryPass_eq_ok_iff.1 h
  obtain ⟨scan', hscan', hfeed⟩ := scan_alone hscan
  rw [← hfeed] at hfault
  exact ⟨_, memoryPass_eq_ok_iff.2 ⟨header, scan', hscan', hfault, rfl⟩⟩

theorem exists_externalPass_alone {c : Comparer} {p : PassOutcome}
    (h : job.externalPass host c (some d) inputs = .ok p) :
    ∃ q, (job.alone d).externalPass host c none inputs = .ok q := by
  obtain ⟨header, scan, runs, hscan, hspillable, hruns, -⟩ := externalPass_eq_ok_iff.1 h
  obtain ⟨scan', hscan', hfeed⟩ := scan_alone hscan
  have hruns' : (job.alone d).spill host c scan'.feed = .ok runs := by
    rw [hfeed]
    exact hruns
  exact ⟨_, externalPass_eq_ok_iff.2 ⟨header, scan', runs, hscan', hspillable, hruns', rfl⟩⟩

/-- The single job takes the same strategy, and gets as far. -/
theorem exists_pass_alone {p : PassOutcome} (h : job.pass host (some d) inputs = .ok p) :
    ∃ q, (job.alone d).pass host none inputs = .ok q := by
  have hactive : (job.alone d).activeComparer = job.activeComparer := rfl
  have hmode : (job.alone d).mode = job.mode := rfl
  have hlimit : (job.alone d).config.memoryLimit = job.config.memoryLimit := rfl
  cases hkeys : job.activeComparer with
  | none =>
    simp only [pass, hactive, hkeys] at h ⊢
    exact exists_copyPass_alone h
  | some c =>
    by_cases hmerge : job.mode = .merge
    · simp only [pass, hactive, hkeys, hmode, if_pos hmerge] at h ⊢
      exact exists_mergePass_alone h
    · simp only [pass, hactive, hkeys, hmode, if_neg hmerge] at h ⊢
      obtain ⟨size, hsize, h⟩ := bind_eq_ok_iff.1 h
      rw [hsize, ok_bind, hlimit]
      by_cases hfits : size ≤ job.config.memoryLimit
      · rw [if_pos hfits] at h ⊢
        exact exists_memoryPass_alone h
      · rw [if_neg hfits] at h ⊢
        exact exists_externalPass_alone h

/-- The pass of the single job comes to its end if the pass for the destination does, and then
writes the records that the destination lays out. -/
theorem completes_alone {p : PassOutcome} (h : job.Completes host inputs (some d) p) :
    ∃ q records laidOut, (job.alone d).Completes host inputs none q ∧
      (job.alone d).dataRecords host none inputs = .ok records ∧
      records.mapM (Layout.formatWith d.layout) = .ok laidOut ∧
      job.dataRecords host (some d) inputs = .ok laidOut := by
  obtain ⟨laidOut, hlaidOut⟩ := exists_dataRecords h.pass h.fault
  obtain ⟨records, hrecords, hformat⟩ := dataRecords_alone hlaidOut
  obtain ⟨q, hq⟩ := exists_pass_alone h.pass
  have hfault := (drained_of_dataRecords hq hrecords).1
  exact ⟨q, records, laidOut, ⟨hq, hfault⟩, hrecords, hformat, hlaidOut⟩

theorem precheck_alone {sinks : Nat} (h : job.precheck sinks = .ok ()) :
    (job.alone d).precheck 1 = .ok () := by
  obtain ⟨_, hvalid, h⟩ := bind_eq_ok_iff.1 h
  refine bind_eq_ok_iff.2 ⟨(), hvalid, ?_⟩
  by_cases hsinks : sinks = job.sinkCount
  · simp only [if_pos hsinks] at h
    exact h
  · simp only [if_neg hsinks] at h
    cases h

theorem getElem?_targets {i : Nat} (h : job.destinations[i]? = some d) :
    job.targets[i]? = some (some d) := by
  unfold targets
  cases hds : job.destinations with
  | nil => simp [hds] at h
  | cons first rest =>
    rw [hds] at h
    rw [if_neg (by simp), List.getElem?_map, h]
    rfl

/-- **A run into destinations is a family of runs**, in every mode and with whatever layouts and
sum: if it succeeds, then for each destination the job without destinations that selects for it
succeeds too. The sink of the destination holds the same header and the same data records, each
laid out for the destination, and they are counted. -/
theorem run_splits {sinks : Nat} {stats : Stats}
    (h : (job.run host inputs sinks).result = .ok stats) :
    ∃ header, job.header inputs = .ok header ∧
      ∀ (i : Nat) (d : Destination), job.destinations[i]? = some d → ∃ records laidOut,
        (∃ stats', ((job.alone d).run host inputs 1).result = .ok stats') ∧
        ((job.alone d).run host inputs 1).sinks = [job.framing.write (header ++ records)] ∧
        (job.alone d).dataRecords host none inputs = .ok records ∧
        records.mapM (Layout.formatWith d.layout) = .ok laidOut ∧
        job.dataRecords host (some d) inputs = .ok laidOut ∧
        (job.run host inputs sinks).sinks[i]? =
          some (job.framing.write (header ++ laidOut)) ∧
        stats.perDestination[i]? = some records.length := by
  have hcheck := (exists_completes_of_run h).1
  obtain ⟨first, hfirst⟩ := job.exists_first_target
  obtain ⟨p₀, hp₀, -⟩ := exists_completes_of_target h hfirst
  obtain ⟨header, _, hheader, -⟩ := drained_of_pass hp₀.pass
  refine ⟨header, hheader, fun i d hd => ?_⟩
  obtain ⟨p, hp, hsink, hcount⟩ := exists_completes_of_target h (getElem?_targets hd)
  obtain ⟨q, records, laidOut, hq, hrecords, hformat, hlaidOut⟩ := completes_alone hp
  obtain ⟨-, hwritten, _, hsame, hbytes⟩ := drained_of_dataRecords hp.pass hlaidOut
  cases hheader.symm.trans hsame
  obtain ⟨-, -, _, hsame, hbytes'⟩ := drained_of_dataRecords hq.pass hrecords
  cases hheader.symm.trans ((header_alone job d inputs).symm.trans hsame)
  have hrun := run_of_completes (precheck_alone hcheck) (.cons hq .nil)
  refine ⟨records, laidOut, ⟨_, congrArg Outcome.result hrun⟩, ?_, hrecords, hformat, hlaidOut,
    ?_, ?_⟩
  · rw [hrun, List.map_singleton, hbytes']
    rfl
  · rw [hsink, hbytes]
  · rw [hcount, hwritten, (mapM_eq_ok_iff.1 hformat).length_eq]

/-- The records of `tally` with an `a`, and all of them with letter and digit exchanged. -/
def tallySplit : Job :=
  { tally.withResources 1 1 with
    destinations :=
      [{ filter := some (.compare ⟨.field ⟨0, 1, .ch, .ascii⟩, .eq, .text [0x61], .ascii⟩) },
        { layout := some ⟨[⟨none, .copy ⟨1, 1, .ch, .ascii⟩⟩, ⟨none, .copy ⟨0, 1, .ch, .ascii⟩⟩],
            .ascii⟩ }] }

/-- Each pass sums `a2` and `a4` to `a6` by itself, and only the second one lays it out as `6a`. -/
theorem tallySplit_splits :
    (tallySplit.run {} tallyInputs 2).sinks =
        [[0x48, 0x30, 0x61, 0x36], [0x48, 0x30, 0x36, 0x61, 0x31, 0x62, 0x39, 0x62]] ∧
      ∃ header, tallySplit.header tallyInputs = .ok header ∧
        ∀ (i : Nat) (d : Destination), tallySplit.destinations[i]? = some d → ∃ records laidOut,
          (∃ stats', ((tallySplit.alone d).run {} tallyInputs 1).result = .ok stats') ∧
          ((tallySplit.alone d).run {} tallyInputs 1).sinks =
            [tallySplit.framing.write (header ++ records)] ∧
          (tallySplit.alone d).dataRecords {} none tallyInputs = .ok records ∧
          records.mapM (Layout.formatWith d.layout) = .ok laidOut ∧
          tallySplit.dataRecords {} (some d) tallyInputs = .ok laidOut ∧
          (tallySplit.run {} tallyInputs 2).sinks[i]? =
            some (tallySplit.framing.write (header ++ laidOut)) ∧
          [1, 3][i]? = some records.length :=
  ⟨by cbv, run_splits (show _ = Except.ok
    { strategy := .external, input := 4, summed := 2, output := 4, perDestination := [1, 3],
      spilled := 4 } by cbv)⟩

end Job

end CardSort
