import CardSort.Proofs.Job.Merging
import CardSort.Proofs.Job.Repetition
import CardSort.Proofs.Order.Interleaving

/-!
# What a run needs to succeed

A job without sums and destinations whose sink can lay out its records succeeds if its inputs can
be read to their end, all their records can be judged, and a sort finds room, and only then.

* `Job.Survives` — data records that pass the filter.
* `Job.mem_scan_iff` — the records of a scan without a fault are the survivors, as the input layout
  leaves them.
* `Job.exists_clean_scan_iff` — when a scan has no fault.
* `Job.Room` — a sort of survivors fits into memory or can be spilled.
* `Job.exists_run_iff` — **when a run succeeds.**
-/

set_option autoImplicit false

namespace CardSort

namespace Job

variable {job : Job} {inputs : List Input} {host : Host} {r out : Bytes}

/-! ## Survivors -/

/-- The record is a data record of an input and passes the filter. -/
def Survives (job : Job) (inputs : List Input) (record : Bytes) : Prop :=
  (∃ input ∈ inputs, record ∈ (job.arrivals [input]).records) ∧
    Filter.passes job.filter record = .ok true

/-- What arrives are records of the inputs, also if one of them cannot be read. -/
theorem mem_arrivals_of_mem {number : Nat} (h : r ∈ (job.arrivalsFrom number inputs).records) :
    ∃ input ∈ inputs, r ∈ (job.arrivals [input]).records := by
  induction inputs generalizing number with
  | nil => cases h
  | cons input inputs ih =>
    cases hopen : job.openInput input with
    | error f => simp [arrivalsFrom, hopen, Feed.failed] at h
    | ok opened =>
      obtain ⟨front, feed⟩ := opened
      have hrest : r ∈ feed.records ∨ r ∈ (job.arrivalsFrom (number + feed.records.length)
          inputs).records := by
        cases hfault : feed.fault with
        | some f => exact .inl (by simpa [arrivalsFrom, hopen, hfault] using h)
        | none =>
          rw [arrivalsFrom_cons hopen hfault] at h
          exact List.mem_append.1 h
      rcases hrest with hr | hr
      · refine ⟨input, List.mem_cons_self, ?_⟩
        cases hfault : feed.fault with
        | some f => simpa [arrivals, arrivalsFrom, hopen, hfault] using hr
        | none =>
          rw [arrivals_one hopen hfault]
          exact hr
      · obtain ⟨input', hinput', hr'⟩ := ih hr
        exact ⟨input', List.mem_cons_of_mem _ hinput', hr'⟩

/-- All records of inputs that can be read arrive. -/
theorem mem_arrivals_of_clean {number : Nat} (hread : (job.arrivalsFrom number inputs).fault = none)
    {input : Input} (hinput : input ∈ inputs) (hr : r ∈ (job.arrivals [input]).records) :
    r ∈ (job.arrivalsFrom number inputs).records := by
  induction inputs generalizing number with
  | nil => cases hinput
  | cons first inputs ih =>
    cases hopen : job.openInput first with
    | error f => simp [arrivalsFrom, hopen, Feed.failed] at hread
    | ok opened =>
      obtain ⟨front, feed⟩ := opened
      cases hfault : feed.fault with
      | some f => simp [arrivalsFrom, hopen, hfault] at hread
      | none =>
        rw [arrivalsFrom_cons hopen hfault] at hread ⊢
        rcases List.mem_cons.1 hinput with rfl | hinput
        · rw [arrivals_one hopen hfault] at hr
          exact List.mem_append_left _ hr
        · exact List.mem_append_right _ (ih hread hinput)

/-! ## Scans without a fault -/

/-- A scan without a fault delivers all records that go on. -/
theorem mem_scanFrom_of_clean {fault : Option Fault} {number : Nat} {records : List Bytes}
    (hclean : (job.scanFrom none fault number records).feed.fault = none) (hr : r ∈ records)
    (hkept : job.judge none r = .ok (.kept out)) :
    out ∈ (job.scanFrom none fault number records).feed.records := by
  induction records generalizing number with
  | nil => cases hr
  | cons first records ih =>
    rw [scanFrom] at hclean ⊢
    cases hfirst : job.judge none first with
    | error f => simp [hfirst, Scan.stopped, Feed.failed] at hclean
    | ok v =>
      simp only [hfirst] at hclean ⊢
      have hrest : (job.scanFrom none fault (number + 1) records).feed.fault = none := by
        cases v <;> exact hclean
      rcases List.mem_cons.1 hr with rfl | hr
      · obtain rfl : v = .kept out := Except.ok.inj (hfirst.symm.trans hkept)
        exact List.mem_cons_self
      · have hout := ih hrest hr
        cases v with
        | kept record => exact List.mem_cons_of_mem record hout
        | filtered => exact hout
        | passedOver => exact hout

/-- A scan has no fault if all inputs can be read and all their records judged, and only then. -/
theorem exists_clean_scan_iff :
    (∃ header scan, job.scan none inputs = .ok (header, scan) ∧ scan.feed.fault = none) ↔
      (job.arrivals inputs).fault = none ∧
        ∀ r ∈ (job.arrivals inputs).records, ∃ v, job.judge none r = .ok v := by
  constructor
  · rintro ⟨header, scan, hscan, hclean⟩
    obtain ⟨_, _, h⟩ := bind_eq_ok_iff.1 hscan
    cases h
    obtain ⟨hread, verdicts, hverdicts⟩ := exists_verdicts hclean
    exact ⟨hread, fun r hr => exists_eq_ok_of_mapM hverdicts hr⟩
  · rintro ⟨hread, hjudged⟩
    obtain ⟨verdicts, hverdicts⟩ := exists_mapM_eq_ok hjudged
    obtain ⟨scans, hscans, hclean⟩ := exists_each_of_verdicts hread hverdicts
    have heach : job.scanEach none inputs = .ok scans := hscans
    exact ⟨_, _, scan_of_scanEach heach hclean, rfl⟩

/-- What a scan delivers are survivors as the input layout leaves them. -/
theorem exists_survivor_of_mem_scan {header : List Bytes} {scan : Scan}
    (hscan : job.scan none inputs = .ok (header, scan)) (hout : out ∈ scan.feed.records) :
    ∃ r, job.Survives inputs r ∧ Layout.formatWith job.inrec r = .ok out := by
  obtain ⟨_, _, h⟩ := bind_eq_ok_iff.1 hscan
  cases h
  obtain ⟨r, hr, hkept⟩ := mem_scanFrom hout
  obtain ⟨hpasses, -, hformat, -⟩ := judge_eq_kept_iff.1 hkept
  exact ⟨r, ⟨mem_arrivals_of_mem hr, hpasses⟩, hformat⟩

/-- **A scan without a fault delivers all survivors**, as the input layout leaves them, and nothing
else. -/
theorem mem_scan_iff {header : List Bytes} {scan : Scan}
    (hscan : job.scan none inputs = .ok (header, scan)) (hclean : scan.feed.fault = none) :
    out ∈ scan.feed.records ↔
      ∃ r, job.Survives inputs r ∧ Layout.formatWith job.inrec r = .ok out := by
  refine ⟨exists_survivor_of_mem_scan hscan, ?_⟩
  rintro ⟨r, ⟨⟨input, hinput, hr⟩, hpasses⟩, hformat⟩
  obtain ⟨hread, hjudged⟩ := exists_clean_scan_iff.1 ⟨header, scan, hscan, hclean⟩
  have harrives := mem_arrivals_of_clean hread hinput hr
  obtain ⟨v, hv⟩ := hjudged r harrives
  -- a survivor that is judged has passed the check
  have hcheck : job.judge none r = (job.check out >>= fun _ => pure (.kept out)) := by
    rw [judge, hpasses, ok_bind, if_pos rfl, show Filter.passes none r = .ok true from rfl,
      ok_bind, if_pos rfl, hformat, ok_bind]
  obtain ⟨_, _, hkept⟩ := bind_eq_ok_iff.1 (hcheck.symm.trans hv)
  cases hkept
  obtain ⟨_, _, h⟩ := bind_eq_ok_iff.1 hscan
  cases h
  exact mem_scanFrom_of_clean hclean harrives hv

/-! ## Room -/

/-- Survivors, as the input layout leaves them, have a length that four bytes can hold. -/
def ShortSurvivors (job : Job) (inputs : List Input) : Prop :=
  ∀ r, job.Survives inputs r → ∀ out, Layout.formatWith job.inrec r = .ok out →
    out.length < Run.lengthLimit

/-- A sort by keys that does not fit into memory finds the directory for spilled runs, and no
survivor is too long for them. -/
def Room (job : Job) (spillable : Bool) (inputs : List Input) : Prop :=
  job.mode = .sort → job.activeComparer ≠ none →
    job.FitsMemory inputs ∨ (spillable = true ∧ job.ShortSurvivors inputs)

/-- If survivors are short, so is what the scan delivers. -/
theorem ShortSurvivors.delivered (hshort : job.ShortSurvivors inputs) (header : List Bytes)
    (scan : Scan) (hscan : job.scan (passFilter none) inputs = .ok (header, scan)) :
    ∀ out ∈ scan.feed.records, out.length < Run.lengthLimit := by
  intro out hout
  obtain ⟨r, hr, hformat⟩ := exists_survivor_of_mem_scan hscan hout
  exact hshort r hr out hformat

/-! ## Passes and runs -/

/-- A sink that can lay out its records ends as its feed does. -/
theorem fault_drain (hsum : job.sum = none) {feed : Feed}
    (h : ∀ r ∈ feed.records, ∃ written, Layout.formatWith job.outrec r = .ok written)
    (header : List Bytes) : (job.drain none header feed).fault = feed.fault := by
  have hlaid : ∀ r ∈ feed.records, Layout.formatWith job.outrec r =
      .ok ((Layout.formatWith job.outrec r).toOption.getD []) := by
    intro r hr
    obtain ⟨written, hwritten⟩ := h r hr
    rw [hwritten]
    rfl
  rw [drain_of_layout hsum feed hlaid header]

/-- The scan of a pass that comes to its end has no fault. -/
theorem clean_of_completes (hsum : job.sum = none) {p : PassOutcome}
    (h : job.Completes host inputs none p) :
    ∃ header scan, job.scan none inputs = .ok (header, scan) ∧ scan.feed.fault = none := by
  obtain ⟨written, hwritten⟩ := exists_dataRecords h.pass h.fault
  obtain ⟨feed, hfeed, hlaid⟩ := bind_eq_ok_iff.1 hwritten
  obtain ⟨hfault, -⟩ := complete_layOut_iff.1 hlaid
  rw [foldFeed_of_no_sum hsum] at hfault
  cases hkeys : job.activeComparer with
  | none =>
    simp only [ordered, hkeys] at hfeed
    obtain ⟨⟨header, scan⟩, hscan, hfeed⟩ := bind_eq_ok_iff.1 hfeed
    cases hfeed
    exact ⟨header, scan, hscan, hfault⟩
  | some c =>
    by_cases hmerge : job.mode = .merge
    · simp only [ordered, hkeys, if_pos hmerge] at hfeed
      obtain ⟨scans, hscans, hfeed⟩ := bind_eq_ok_iff.1 hfeed
      cases hfeed
      have hclean : ∀ s ∈ scans, s.2.feed.fault = none := fun s hs =>
        (Merge.merge_perm hfault).1 _ (List.mem_map_of_mem hs)
      exact ⟨_, _, scan_of_scanEach hscans hclean, rfl⟩
    · simp only [ordered, hkeys, if_neg hmerge] at hfeed
      obtain ⟨⟨header, scan⟩, hscan, hfeed⟩ := bind_eq_ok_iff.1 hfeed
      obtain ⟨records, hrecords, -⟩ := bind_eq_ok_iff.1 hfeed
      exact ⟨header, scan, hscan, (Feed.complete_eq_ok_iff.1 hrecords).1⟩

/-- A pass that succeeds has found room. -/
theorem room_of_pass {p : PassOutcome} (h : job.pass host none inputs = .ok p)
    {header : List Bytes} {scan : Scan} (hscan : job.scan none inputs = .ok (header, scan))
    (hclean : scan.feed.fault = none) : job.Room host.spillable inputs := by
  intro hmode hkeys
  rcases pass_cases hmode h with ⟨hnone, -⟩ | ⟨-, -, hfits⟩ | ⟨-, hspillable, hshort⟩
  · exact absurd hnone hkeys
  · exact .inl hfits
  · exact .inr ⟨hspillable, fun r hr out hout =>
      hshort header scan hscan out ((mem_scan_iff hscan hclean).2 ⟨r, hr, hout⟩)⟩

/-- A pass whose scan has no fault and that finds room comes to its end, if its sink can lay out
the survivors. -/
theorem exists_completes_of_clean (hsum : job.sum = none)
    (hlaid : ∀ r, job.Survives inputs r → ∀ out, Layout.formatWith job.inrec r = .ok out →
      ∃ written, Layout.formatWith job.outrec out = .ok written)
    {header : List Bytes} {scan : Scan} (hscan : job.scan none inputs = .ok (header, scan))
    (hclean : scan.feed.fault = none) (hroom : job.Room host.spillable inputs) :
    ∃ p, job.Completes host inputs none p := by
  have hpassed : job.scan (passFilter none) inputs = .ok (header, scan) := hscan
  obtain ⟨scans, hscans, hcleans, rfl⟩ := exists_scanEach_of_scan hpassed hclean
  have hdrain : ∀ {feed : Feed}, feed.fault = none →
      feed.records ⊆ (gatherScans scans).feed.records →
      ∀ header, (job.drain none header feed).fault = none := by
    intro feed hfault hsubset header
    refine (fault_drain hsum (fun r hr => ?_) header).trans hfault
    obtain ⟨a, ha, hout⟩ := exists_survivor_of_mem_scan hscan (hsubset hr)
    exact hlaid a ha r hout
  cases hkeys : job.activeComparer with
  | none =>
    have hpass : job.pass host none inputs = job.copyPass none inputs := by
      simp only [pass, hkeys]
    rw [copyPass, show passFilter none = none from rfl, hscan] at hpass
    exact ⟨_, hpass, hdrain hclean (List.Subset.refl _) _⟩
  | some c =>
    obtain ⟨size, hsize⟩ := exists_totalSize hscans
    have hpass : job.pass host none inputs =
        if job.mode = .merge then job.mergePass c none inputs
        else if size ≤ job.config.memoryLimit then job.memoryPass host c none inputs
        else job.externalPass host c none inputs := by
      simp only [pass, hkeys, hsize]
      rfl
    by_cases hmerge : job.mode = .merge
    · rw [if_pos hmerge, mergePass, hscans] at hpass
      refine ⟨_, hpass, hdrain (Merge.fault_merge fun feed hfeed => ?_) ?_ _⟩
      · obtain ⟨s, hs, rfl⟩ := List.mem_map.1 hfeed
        exact hcleans s hs
      · exact Merge.merge_subset c _
    · rw [if_neg hmerge] at hpass
      split at hpass
      · refine ⟨_, hpass.trans (memoryPass_eq_ok_iff.2 ⟨_, _, hpassed, hclean, rfl⟩), ?_⟩
        exact hdrain rfl (job.sort_keyOrder host c _).perm.subset _
      · rename_i hlarge
        have hfits : ¬ job.FitsMemory inputs := mt (fitsMemory_iff hsize).1 hlarge
        have hsort := mode_of_keys hkeys hmerge
        obtain ⟨hspillable, hshort⟩ := (hroom hsort (by simp [hkeys])).resolve_left hfits
        obtain ⟨runs, hruns⟩ : ∃ runs, job.spill host c (gatherScans scans).feed = .ok runs :=
          exists_spill hclean (hshort.delivered header _ hscan)
        refine ⟨_, hpass.trans (externalPass_eq_ok_iff.2
          ⟨_, _, runs, hpassed, hspillable, hruns, rfl⟩), ?_⟩
        exact hdrain rfl (job.merged_keyOrder host c _).perm.subset _

/-- **When a run succeeds**: a job without sums and destinations whose sink can lay out the
survivors succeeds if it passes its checks, its scan has no fault, and there is room, and only
then. -/
theorem exists_run_iff (hsum : job.sum = none) (hdest : job.destinations = [])
    (hlaid : ∀ r, job.Survives inputs r → ∀ out, Layout.formatWith job.inrec r = .ok out →
      ∃ written, Layout.formatWith job.outrec out = .ok written) (host : Host) (sinks : Nat) :
    (∃ stats, (job.run host inputs sinks).result = .ok stats) ↔
      job.precheck sinks = .ok () ∧
        (∃ header scan, job.scan none inputs = .ok (header, scan) ∧ scan.feed.fault = none) ∧
        job.Room host.spillable inputs := by
  constructor
  · rintro ⟨stats, h⟩
    obtain ⟨p, hp, hfault, -, -⟩ := exists_pass_of_run hdest h
    obtain ⟨header, scan, hscan, hclean⟩ := clean_of_completes hsum ⟨hp, hfault⟩
    exact ⟨(exists_completes_of_run h).1, ⟨header, scan, hscan, hclean⟩,
      room_of_pass hp hscan hclean⟩
  · rintro ⟨hcheck, ⟨header, scan, hscan, hclean⟩, hroom⟩
    obtain ⟨p, hp⟩ := exists_completes_of_clean hsum hlaid hscan hclean hroom
    have htargets : job.targets = [none] := by simp [targets, hdest]
    have hpasses : List.Forall₂ (job.Completes host inputs) job.targets [p] := by
      rw [htargets]
      exact .cons hp .nil
    exact ⟨_, congrArg Outcome.result (run_of_completes hcheck hpasses)⟩

end Job

end CardSort
