import CardSort.Proofs.Job.Arrangement
import CardSort.Proofs.Job.Destinations

/-!
# Destinations share out the unsplit output

A destination that lays nothing out receives the records of the unsplit output that it accepts,
in their order: its filter is applied before the records are put into order, and a stable order
of fewer records is the stable order with the others left out.

* `StableOrder.filter`, `Comparer.sort_filter` — **selecting and sorting commute**.
* `Destination.selects` — whether a destination accepts a record.
* `Job.judge_selects`, `Job.scan_selects` — what a filter of the pass takes from a record and from
  a scan.
* `Job.dataRecords_selects` — what it takes from the records of a pass.
* `Job.run_shares_out` — **each destination receives what it accepts of the unsplit output**, and
  a condition to include and to omit by splits it into two parts.
-/

set_option autoImplicit false

namespace CardSort

/-! ## Selecting and sorting -/

section

variable {c : Comparer} {arrived placed : List Bytes}

theorem Comparer.tied_filter (c : Comparer) (r : Bytes) (p : Bytes → Bool)
    (records : List Bytes) : c.tied r (records.filter p) = (c.tied r records).filter p :=
  List.filter_comm ..

/-- Leaving out records leaves a stable order of the others. -/
theorem StableOrder.filter (h : StableOrder c arrived placed) (p : Bytes → Bool) :
    StableOrder c (arrived.filter p) (placed.filter p) := by
  constructor
  · intro r
    rw [Comparer.tied_filter, Comparer.tied_filter, h.keepsTies r]
  · exact h.sorted.filter p

/-- **Selecting and sorting commute.** -/
theorem Comparer.sort_filter (c : Comparer) (p : Bytes → Bool) (records : List Bytes) :
    c.sort (records.filter p) = (c.sort records).filter p :=
  ((c.sort_stableOrder records).filter p).eq_sort.symm

end

/-- Whether the destination accepts the record. A filter that cannot be evaluated selects
nothing. -/
def Destination.selects (d : Destination) (record : Bytes) : Bool :=
  match d.accepts record with
  | .ok accepted => accepted
  | .error _ => false

theorem Destination.selects_of_accepts {d : Destination} {record : Bytes} {accepted : Bool}
    (h : d.accepts record = .ok accepted) : d.selects record = accepted := by
  simp only [selects, h]

namespace Job

variable {job : Job} {d : Destination} {inputs : List Input} {host : Host}

/-- The job with a single sink for all records. -/
def unsplit (job : Job) : Job := { job with destinations := [] }

theorem samePipeline_unsplit (job : Job) : SamePipeline job.unsplit job :=
  ⟨rfl, rfl, rfl, rfl, rfl, rfl, rfl, rfl⟩

/-! ## Scan -/

/-- A record that goes on without the filter of the pass goes on with it if the destination
accepts it, and is passed over if not. Other records are filtered either way. -/
theorem judge_selects (hinrec : job.inrec = none) {record : Bytes} {v w : Verdict}
    (hv : job.judge none record = .ok v) (hw : job.judge d.filter record = .ok w) :
    (v = .filtered ∧ w = .filtered) ∨
      ∃ accepted, v = .kept record ∧ d.accepts record = .ok accepted ∧
        w = if accepted then .kept record else .passedOver := by
  unfold judge at hv hw
  obtain ⟨passed, hpassed, hv⟩ := bind_eq_ok_iff.1 hv
  rw [hpassed, ok_bind] at hw
  cases passed with
  | false =>
    cases hv
    cases hw
    exact .inl ⟨rfl, rfl⟩
  | true =>
    obtain ⟨_, hnone, hv⟩ := bind_eq_ok_iff.1 hv
    cases hnone
    obtain ⟨laidOut, hlaidOut, hv⟩ := bind_eq_ok_iff.1 hv
    obtain ⟨_, hcheck, hv⟩ := bind_eq_ok_iff.1 hv
    cases hv
    rw [hinrec] at hlaidOut
    cases hlaidOut
    obtain ⟨accepted, haccepted, hw⟩ := bind_eq_ok_iff.1 hw
    refine .inr ⟨accepted, rfl, haccepted, ?_⟩
    cases accepted with
    | false =>
      cases hw
      rfl
    | true =>
      obtain ⟨laidOut, hlaidOut, hw⟩ := bind_eq_ok_iff.1 hw
      obtain ⟨_, _, hw⟩ := bind_eq_ok_iff.1 hw
      cases hw
      rw [hinrec] at hlaidOut
      cases hlaidOut
      rfl

theorem ofVerdicts_selects (hinrec : job.inrec = none) {records : List Bytes}
    {vs ws : List Verdict} (hvs : records.mapM (job.judge none) = .ok vs)
    (hws : records.mapM (job.judge d.filter) = .ok ws) :
    (Scan.ofVerdicts ws).feed.records = (Scan.ofVerdicts vs).feed.records.filter d.selects ∧
      ∀ r ∈ (Scan.ofVerdicts vs).feed.records, d.accepts r = .ok (d.selects r) := by
  induction records generalizing vs ws with
  | nil =>
    cases hvs
    cases hws
    exact ⟨rfl, fun r hr => absurd hr List.not_mem_nil⟩
  | cons record records ih =>
    obtain ⟨v, vs, hv, hvrest, rfl⟩ := List.forall₂_cons_left_iff.1 (mapM_eq_ok_iff.1 hvs)
    obtain ⟨w, ws, hw, hwrest, rfl⟩ := List.forall₂_cons_left_iff.1 (mapM_eq_ok_iff.1 hws)
    obtain ⟨hrecords, haccepts⟩ := ih (mapM_eq_ok_iff.2 hvrest) (mapM_eq_ok_iff.2 hwrest)
    rcases judge_selects hinrec hv hw with ⟨rfl, rfl⟩ | ⟨accepted, rfl, haccepted, rfl⟩
    · exact ⟨hrecords, haccepts⟩
    · have hselects := Destination.selects_of_accepts haccepted
      constructor
      · show _ = (record :: (Scan.ofVerdicts vs).feed.records).filter d.selects
        rw [List.filter_cons, hselects, ← hrecords]
        cases accepted <;> rfl
      · intro r hr
        rcases List.mem_cons.1 hr with rfl | hr
        · rw [hselects]
          exact haccepted
        · exact haccepts r hr

/-- A scan with the filter of the destination delivers what the destination selects of the scan
without it. -/
theorem scan_selects (hinrec : job.inrec = none) {header header' : List Bytes} {whole part : Scan}
    (hwhole : job.scan none inputs = .ok (header, whole)) (hwholeEnds : whole.feed.fault = none)
    (hpart : job.scan d.filter inputs = .ok (header', part)) (hpartEnds : part.feed.fault = none) :
    part.feed.records = whole.feed.records.filter d.selects ∧
      ∀ r ∈ whole.feed.records, d.accepts r = .ok (d.selects r) := by
  obtain ⟨_, _, hwhole⟩ := bind_eq_ok_iff.1 hwhole
  obtain ⟨_, _, hpart⟩ := bind_eq_ok_iff.1 hpart
  cases hwhole
  cases hpart
  obtain ⟨hfault, vs, hvs⟩ := exists_verdicts hwholeEnds
  obtain ⟨-, ws, hws⟩ := exists_verdicts hpartEnds
  rw [hfault, scanFrom_eq_ofVerdicts hvs, scanFrom_eq_ofVerdicts hws]
  exact ofVerdicts_selects hinrec hvs hws

/-! ## Passes and runs -/

theorem arrange_filter (job : Job) (p : Bytes → Bool) (records : List Bytes) :
    job.arrange (records.filter p) = (job.arrange records).filter p := by
  cases hkeys : job.activeComparer with
  | none => rw [arrange_of_none hkeys, arrange_of_none hkeys]
  | some c => rw [arrange_of_some hkeys, arrange_of_some hkeys, c.sort_filter]

/-- **The data records for a destination** are those of the unsplit pass that it accepts. -/
theorem dataRecords_selects (hmode : job.mode ≠ .merge) (hstable : job.Stable)
    (hinrec : job.inrec = none) (houtrec : job.outrec = none) (hsum : job.sum = none)
    (hlayout : d.layout = none) {records part : List Bytes}
    (hwhole : job.dataRecords host none inputs = .ok records)
    (hpart : job.dataRecords host (some d) inputs = .ok part) :
    part = records.filter d.selects ∧ ∀ r ∈ records, d.accepts r = .ok (d.selects r) := by
  obtain ⟨_, whole, hscan, hends, hrecords⟩ :=
    (dataRecords_eq_ok_iff hmode hstable houtrec rfl).1 hwhole
  obtain ⟨_, taken, hscan', hends', hpart⟩ :=
    (dataRecords_eq_ok_iff hmode hstable houtrec
      (show passLayout (some d) = none from hlayout)).1 hpart
  rw [foldFeed_of_no_sum hsum] at hrecords hpart
  cases hrecords
  cases hpart
  obtain ⟨htaken, haccepts⟩ := scan_selects hinrec hscan hends hscan' hends'
  rw [htaken, arrange_filter]
  exact ⟨rfl, fun r hr => haccepts r ((job.arrange_perm _).mem_iff.1 hr)⟩

/-- **Destinations share out the unsplit output.** If a job without layouts and sums that copies,
or sorts stably, succeeds, both into its destinations and into a single sink, then each destination
that lays nothing out receives the header and the records of the single sink that it accepts, in
their order. One that includes by a condition and one that omits by it receive every record between
them, each in one of them. -/
theorem run_shares_out (hmode : job.mode ≠ .merge) (hstable : job.Stable)
    (hinrec : job.inrec = none) (houtrec : job.outrec = none) (hsum : job.sum = none)
    {sinks : Nat} {stats single : Stats}
    (h : (job.run host inputs sinks).result = .ok stats)
    (hsingle : (job.unsplit.run host inputs 1).result = .ok single) :
    ∃ header records, job.header inputs = .ok header ∧
      job.unsplit.dataRecords host none inputs = .ok records ∧
      (job.unsplit.run host inputs 1).sinks = [job.framing.write (header ++ records)] ∧
      (∀ (i : Nat) (d : Destination), job.destinations[i]? = some d → d.layout = none →
        (∀ r ∈ records, d.accepts r = .ok (d.selects r)) ∧
        job.dataRecords host (some d) inputs = .ok (records.filter d.selects) ∧
        (job.run host inputs sinks).sinks[i]? =
          some (job.framing.write (header ++ records.filter d.selects))) ∧
      ∀ (i j : Nat) (including omitting : Destination) (condition : Filter),
        job.destinations[i]? = some including → job.destinations[j]? = some omitting →
        including.layout = none → omitting.layout = none →
        including.filter = Filter.combine (some condition) none →
        omitting.filter = Filter.combine none (some condition) →
        (∀ r ∈ records, omitting.selects r = !including.selects r) ∧
        (records.filter including.selects ++ records.filter omitting.selects).Perm records := by
  obtain ⟨header, records, hheader, hrecords, hsinks⟩ := exists_dataRecords_of_run rfl hsingle
  have hsame := job.samePipeline_unsplit
  rw [hsame.header_eq] at hheader
  have hwhole : job.dataRecords host none inputs = .ok records := by
    obtain ⟨_, scan, hscan, hends, hfold⟩ :=
      (dataRecords_eq_ok_iff (show job.unsplit.mode ≠ .merge from hmode) hstable houtrec rfl).1
        hrecords
    rw [hsame.scan_eq] at hscan
    exact (dataRecords_eq_ok_iff hmode hstable houtrec rfl).2 ⟨_, scan, hscan, hends, hfold⟩
  have hselects : ∀ (i : Nat) (d : Destination), job.destinations[i]? = some d →
      d.layout = none → (∀ r ∈ records, d.accepts r = .ok (d.selects r)) ∧
        job.dataRecords host (some d) inputs = .ok (records.filter d.selects) ∧
        (job.run host inputs sinks).sinks[i]? =
          some (job.framing.write (header ++ records.filter d.selects)) := by
    intro i d hd hlayout
    obtain ⟨p, hp, hsink, -⟩ := exists_completes_of_target h (getElem?_targets hd)
    obtain ⟨part, hpart⟩ := exists_dataRecords hp.pass hp.fault
    obtain ⟨-, -, header', hheader', hbytes⟩ := drained_of_dataRecords hp.pass hpart
    obtain rfl : header = header' := Except.ok.inj (hheader.symm.trans hheader')
    obtain ⟨rfl, haccepts⟩ :=
      dataRecords_selects hmode hstable hinrec houtrec hsum hlayout hwhole hpart
    exact ⟨haccepts, hpart, by rw [hsink, hbytes]⟩
  refine ⟨header, records, hheader, hrecords, hsinks, hselects, ?_⟩
  intro i j including omitting condition hi hj hlayout hlayout' hincluding homitting
  have hopposite : ∀ r ∈ records, omitting.selects r = !including.selects r := by
    intro r hr
    have hin := (hselects i including hi hlayout).1 r hr
    refine Destination.selects_of_accepts ?_
    rw [Destination.accepts, hincluding] at hin
    rw [Destination.accepts, homitting]
    show (condition.evaluate r >>= fun passed => pure !passed) = _
    rw [show condition.evaluate r = .ok (including.selects r) from hin]
    rfl
  refine ⟨hopposite, ?_⟩
  rw [List.filter_congr hopposite]
  exact List.filter_append_perm including.selects records

/-- The records of `tally` with an `a`, and those without. -/
def tallyParted : Job :=
  let condition : Filter := .compare ⟨.field ⟨0, 1, .ch, .ascii⟩, .eq, .text [0x61], .ascii⟩
  { tally.withResources 1 1 with
    sum := none
    destinations :=
      [{ filter := Filter.combine (some condition) none },
        { filter := Filter.combine none (some condition) }] }

/-- Through spilled runs of their own, the destinations receive `a2` and `a4`, and `b1` and `b9`. -/
theorem tallyParted_shares_out :
    (tallyParted.run {} tallyInputs 2).sinks =
        [[0x48, 0x30, 0x61, 0x32, 0x61, 0x34], [0x48, 0x30, 0x62, 0x31, 0x62, 0x39]] ∧
      ∃ header records, tallyParted.header tallyInputs = .ok header ∧
        tallyParted.unsplit.dataRecords {} none tallyInputs = .ok records ∧
        (tallyParted.unsplit.run {} tallyInputs 1).sinks =
          [tallyParted.framing.write (header ++ records)] ∧
        (∀ (i : Nat) (d : Destination), tallyParted.destinations[i]? = some d → d.layout = none →
          (∀ r ∈ records, d.accepts r = .ok (d.selects r)) ∧
          tallyParted.dataRecords {} (some d) tallyInputs = .ok (records.filter d.selects) ∧
          (tallyParted.run {} tallyInputs 2).sinks[i]? =
            some (tallyParted.framing.write (header ++ records.filter d.selects))) ∧
        ∀ (i j : Nat) (including omitting : Destination) (condition : Filter),
          tallyParted.destinations[i]? = some including →
          tallyParted.destinations[j]? = some omitting →
          including.layout = none → omitting.layout = none →
          including.filter = Filter.combine (some condition) none →
          omitting.filter = Filter.combine none (some condition) →
          (∀ r ∈ records, omitting.selects r = !including.selects r) ∧
          (records.filter including.selects ++ records.filter omitting.selects).Perm records :=
  ⟨by cbv, run_shares_out (by decide) (fun _ => rfl) rfl rfl rfl
    (show _ = Except.ok
      { strategy := .external, input := 4, output := 4, perDestination := [2, 2], spilled := 2 }
      by cbv)
    (show _ = Except.ok
      { strategy := .external, input := 4, output := 4, perDestination := [4], spilled := 3 }
      by cbv)⟩

end Job

end CardSort
