import CardSort.Proofs.Job.Arrangement
import CardSort.Proofs.Job.Destinations

/-!
# Every record is accounted for

Each record that a pass reads is filtered, passed over, folded into another one, or written. The
stages count for themselves; over a pass, and over all passes of a run, the counts add up.

* `SumRule.foldFrom_length` — records folded and records emitted, by induction with what one
  `push` does to the counts.
* `Scan.ofVerdicts_length` — records filtered, passed over and kept.
* `Job.exists_scan_of_completes` — whatever the strategy, a pass drains the records of one scan.
* `Job.dropped`, `Job.passedOver` — the records that the filters reject.
* `Job.Balanced` — **the invariant** of the counts after some passes, and `Job.Balanced.addPass`,
  one more pass.
* `Job.run_accounts` — **the counts of a run add up**, and are those of its sinks.
-/

set_option autoImplicit false

namespace CardSort

/-! ## Folding -/

namespace SumRule

variable {rule : SumRule} {c : Comparer} {s t : SumState} {r : Bytes} {out : Option Bytes}

/-- A record that is pushed is emitted, pending or counted as summed, as those before it are. -/
theorem push_length (h : rule.push c s r = (.ok out, t)) :
    out.toList.length + t.pending.toList.length + t.summed =
      s.pending.toList.length + 1 + s.summed := by
  unfold push at h
  split at h
  · rename_i hnone
    cases h
    simp [hnone]
  · rename_i pending hsome
    split at h
    · cases h
      simp [hsome]
    · split at h
      · cases h
        simp [hsome]
        omega
      · split at h
        · cases h
          simp [hsome]
          omega
        · cases h
          simp [hsome]
        · cases h

theorem fault_of_foldFrom {fault : Option Fault} {records : List Bytes}
    (h : (rule.foldFrom c fault s records).feed.fault = none) : fault = none := by
  induction records generalizing s with
  | nil =>
    cases fault with
    | none => rfl
    | some f => simp [foldFrom, Feed.failed] at h
  | cons r rs ih =>
    rw [foldFrom] at h
    split at h
    · simp [Feed.failed] at h
    · exact ih h
    · exact ih h

/-- **Folding loses no record**: every record is emitted or counted as summed. -/
theorem foldFrom_length {records : List Bytes}
    (h : (rule.foldFrom c none s records).feed.fault = none) :
    (rule.foldFrom c none s records).feed.records.length +
        (rule.foldFrom c none s records).summed =
      s.pending.toList.length + records.length + s.summed := by
  induction records generalizing s with
  | nil => simp [foldFrom, SumState.finish, Feed.ofList]
  | cons r rs ih =>
    rw [foldFrom] at h ⊢
    split at h
    · simp [Feed.failed] at h
    · rename_i t hpush
      have hstep := push_length hpush
      rw [ih h]
      simp at hstep ⊢
      omega
    · rename_i emitted t hpush
      have hstep := push_length hpush
      have hrest := ih h
      simp [Feed.cons] at hstep hrest ⊢
      omega

end SumRule

/-! ## Scanning -/

/-- Every verdict is counted once: as filtered, as passed over, or as a record kept. -/
theorem Scan.ofVerdicts_length (verdicts : List Verdict) :
    (ofVerdicts verdicts).read = verdicts.length ∧
      (ofVerdicts verdicts).filtered = verdicts.count .filtered ∧
      verdicts.length = verdicts.count .filtered + verdicts.count .passedOver +
        (ofVerdicts verdicts).feed.records.length := by
  induction verdicts with
  | nil => exact ⟨rfl, rfl, rfl⟩
  | cons v vs ih =>
    obtain ⟨hread, hfiltered, hlength⟩ := ih
    have hcons : ofVerdicts (v :: vs) = (ofVerdicts vs).count v := rfl
    rw [hcons]
    cases v <;> simp [count, Feed.cons, hread, hfiltered] <;> omega

namespace Job

variable {job : Job} {target : Target} {inputs : List Input} {host : Host}

/-- The number of arrivals that the filter of the job rejects. -/
def dropped (job : Job) (inputs : List Input) : Nat :=
  (job.arrivals inputs).records.countP fun r => Filter.passes job.filter r = .ok false

/-- The number of arrivals that pass the filter of the job and that the filter of the pass
rejects. -/
def passedOver (job : Job) (target : Target) (inputs : List Input) : Nat :=
  (job.arrivals inputs).records.countP fun r =>
    Filter.passes job.filter r = .ok true ∧ Filter.passes (passFilter target) r = .ok false

theorem judge_eq_filtered_iff {passFilter : Option Filter} {record : Bytes} {v : Verdict}
    (h : job.judge passFilter record = .ok v) :
    (v = .filtered ↔ Filter.passes job.filter record = .ok false) ∧
      (v = .passedOver ↔ Filter.passes job.filter record = .ok true ∧
        Filter.passes passFilter record = .ok false) := by
  unfold judge at h
  obtain ⟨passed, hpassed, h⟩ := bind_eq_ok_iff.1 h
  cases passed with
  | false =>
    cases h
    simp [hpassed]
  | true =>
    obtain ⟨chosen, hchosen, h⟩ := bind_eq_ok_iff.1 h
    cases chosen with
    | false =>
      cases h
      simp [hpassed, hchosen]
    | true =>
      obtain ⟨laidOut, _, h⟩ := bind_eq_ok_iff.1 h
      obtain ⟨_, _, h⟩ := bind_eq_ok_iff.1 h
      cases h
      simp [hpassed, hchosen]

theorem count_verdicts {passFilter : Option Filter} {records : List Bytes}
    {verdicts : List Verdict} (h : records.mapM (job.judge passFilter) = .ok verdicts) :
    verdicts.length = records.length ∧
      verdicts.count .filtered =
        records.countP (fun r => Filter.passes job.filter r = .ok false) ∧
      verdicts.count .passedOver = records.countP (fun r =>
        Filter.passes job.filter r = .ok true ∧ Filter.passes passFilter r = .ok false) := by
  replace h := mapM_eq_ok_iff.1 h
  induction h with
  | nil => simp
  | @cons r v rs vs hv _ ih =>
    obtain ⟨hlength, hfiltered, hpassedOver⟩ := ih
    obtain ⟨hf, hp⟩ := judge_eq_filtered_iff hv
    refine ⟨by simp [hlength], ?_, ?_⟩
    · simp [List.count_cons, List.countP_cons, hfiltered, ← hf]
    · simp [List.count_cons, List.countP_cons, hpassedOver, ← hp]

/-- **A scan without a fault** has read all arrivals, and each of them is filtered, passed over or
delivered. -/
theorem scan_counts {header : List Bytes} {scan : Scan}
    (h : job.scan (passFilter target) inputs = .ok (header, scan))
    (hfault : scan.feed.fault = none) :
    scan.read = (job.arrivals inputs).records.length ∧ scan.filtered = job.dropped inputs ∧
      scan.read =
        scan.filtered + job.passedOver target inputs + scan.feed.records.length := by
  obtain ⟨records, _, h⟩ := bind_eq_ok_iff.1 h
  cases h
  obtain ⟨hnone, verdicts, hverdicts⟩ := exists_verdicts hfault
  obtain ⟨hlength, hfiltered, hpassedOver⟩ := count_verdicts hverdicts
  obtain ⟨hread, hdropped, htotal⟩ := Scan.ofVerdicts_length verdicts
  rw [hnone, scanFrom_eq_ofVerdicts hverdicts]
  unfold dropped passedOver
  omega

/-! ## One pass -/

/-- A feed that is folded without a fault has none. -/
theorem fault_of_foldFeed {feed : Feed} (h : (job.foldFeed feed).feed.fault = none) :
    feed.fault = none := by
  unfold foldFeed at h
  split at h
  · exact SumRule.fault_of_foldFrom h
  · exact h

theorem foldFeed_length {records : List Bytes}
    (h : (job.foldFeed (.ofList records)).feed.fault = none) :
    (job.foldFeed (.ofList records)).feed.records.length +
      (job.foldFeed (.ofList records)).summed = records.length := by
  unfold foldFeed at h ⊢
  split at h
  · have hcount := SumRule.foldFrom_length h
    simpa [SumRule.fold, Feed.ofList] using hcount
  · simp [Feed.ofList]

theorem fault_of_drain {layout : Option Layout} {header : List Bytes} {feed : Feed}
    (h : (job.drain layout header feed).fault = none) :
    (job.foldFeed feed).feed.fault = none :=
  (complete_layOut_iff.1 (Feed.complete_eq_ok_iff.2 ⟨h, rfl⟩)).1

/-- A sink without a fault writes or sums every record of the feed. -/
theorem drain_length {layout : Option Layout} {header records : List Bytes}
    (h : (job.drain layout header (.ofList records)).fault = none) :
    (job.drain layout header (.ofList records)).written +
      (job.drain layout header (.ofList records)).summed = records.length := by
  rw [← foldFeed_length (fault_of_drain h)]
  have hlaidOut := (complete_layOut_iff.1 (Feed.complete_eq_ok_iff.2 ⟨h, rfl⟩)).2
  have hlength := (mapM_eq_ok_iff.1 hlaidOut).length_eq
  simp only [drain] at hlength ⊢
  omega

/-- **A pass of any strategy that comes to its end** drains the records of one scan of all inputs,
in some order. -/
theorem exists_scan_of_completes {p : PassOutcome} (h : job.Completes host inputs target p) :
    ∃ header scan ordered, job.scan (passFilter target) inputs = .ok (header, scan) ∧
      scan.feed.fault = none ∧ p.read = scan.read ∧ p.filtered = scan.filtered ∧
      ordered.Perm scan.feed.records ∧
      p.drained = job.drain (passLayout target) header (.ofList ordered) := by
  obtain ⟨hpass, hfault⟩ := h
  cases hactive : job.activeComparer with
  | none =>
    simp only [pass, hactive] at hpass
    obtain ⟨⟨header, scan⟩, hscan, hpass⟩ := bind_eq_ok_iff.1 hpass
    cases hpass
    have hnone := fault_of_foldFeed (fault_of_drain hfault)
    refine ⟨header, scan, scan.feed.records, hscan, hnone, rfl, rfl, .refl _, ?_⟩
    rw [← Feed.eq_ofList hnone]
  | some c =>
    by_cases hmerge : job.mode = .merge
    · simp only [pass, hactive, if_pos hmerge] at hpass
      obtain ⟨scans, hscans, hpass⟩ := bind_eq_ok_iff.1 hpass
      cases hpass
      have hnone := fault_of_foldFeed (fault_of_drain hfault)
      obtain ⟨hfeeds, hperm⟩ := Merge.merge_perm hnone
      have hclean : ∀ s ∈ scans, s.2.feed.fault = none :=
        fun s hs => hfeeds _ (List.mem_map_of_mem hs)
      refine ⟨_, gatherScans scans, _, scan_of_scanEach hscans hclean, rfl, rfl, rfl, hperm, ?_⟩
      rw [← Feed.eq_ofList hnone]
    · obtain ⟨header, scan, hscan, hnone, hread, hfiltered, hdrained⟩ :=
        sorted_of_pass (mode_of_keys hactive hmerge) hactive hpass
      exact ⟨header, scan, job.place host c inputs scan.feed.records, hscan, hnone, hread,
        hfiltered, (job.place_keyOrder host c inputs _).perm, hdrained⟩

/-- **Every record that a pass reads** is filtered, passed over, summed or written. -/
theorem Completes.counts {p : PassOutcome} (h : job.Completes host inputs target p) :
    p.read = (job.arrivals inputs).records.length ∧ p.filtered = job.dropped inputs ∧
      p.read = p.filtered + job.passedOver target inputs + p.drained.summed +
        p.drained.written := by
  obtain ⟨header, scan, ordered, hscan, hnone, hread, hfiltered, hperm, hdrained⟩ :=
    exists_scan_of_completes h
  obtain ⟨harrived, hdropped, htotal⟩ := scan_counts hscan hnone
  have hfault := h.fault
  rw [hdrained] at hfault ⊢
  have hsink := drain_length hfault
  rw [hperm.length_eq] at hsink
  omega

/-! ## All passes -/

/-- The counts after the passes for some targets. -/
structure Balanced (job : Job) (inputs : List Input) (targets : List Target) (stats : Stats) :
    Prop where
  input : targets ≠ [] → stats.input = (job.arrivals inputs).records.length
  filtered : targets ≠ [] → stats.filtered = job.dropped inputs
  destinations : stats.perDestination.length = targets.length
  output : stats.output = stats.perDestination.sum
  /-- Each pass has read all arrivals. -/
  balance : (job.arrivals inputs).records.length * targets.length =
    job.dropped inputs * targets.length + (targets.map fun t => job.passedOver t inputs).sum +
      stats.summed + stats.output

theorem balanced_nil : job.Balanced inputs [] {} :=
  ⟨fun h => absurd rfl h, fun h => absurd rfl h, rfl, rfl, rfl⟩

/-- One more pass keeps the counts in balance: the first one sets what the others find. -/
theorem Balanced.addPass {targets : List Target} {stats : Stats} {p : PassOutcome}
    (h : job.Balanced inputs targets stats) (hp : job.Completes host inputs target p) :
    job.Balanced inputs (targets ++ [target]) (stats.addPass p) := by
  obtain ⟨hread, hfiltered, hcounts⟩ := hp.counts
  have hfirst : stats.perDestination.isEmpty = true ↔ targets = [] := by
    rw [List.isEmpty_iff_length_eq_zero, h.destinations, List.length_eq_zero_iff]
  constructor
  · intro _
    simp only [Stats.addPass, hfirst]
    split
    · exact hread
    · rename_i hne
      exact h.input hne
  · intro _
    simp only [Stats.addPass, hfirst]
    split
    · exact hfiltered
    · rename_i hne
      exact h.filtered hne
  · simp [Stats.addPass, h.destinations]
  · simp [Stats.addPass, h.output]
  · have hbalance := h.balance
    simp only [Stats.addPass, List.length_append, List.length_singleton, List.map_append,
      List.map_singleton, List.sum_append, List.sum_singleton, Nat.mul_add, Nat.mul_one]
    omega

theorem Balanced.foldl {done targets : List Target} {passes : List PassOutcome} {stats : Stats}
    (h : job.Balanced inputs done stats)
    (hpasses : List.Forall₂ (job.Completes host inputs) targets passes) :
    job.Balanced inputs (done ++ targets) (passes.foldl Stats.addPass stats) := by
  induction hpasses generalizing done stats with
  | nil => simpa using h
  | @cons target p targets passes hp _ ih =>
    have hnext := ih (h.addPass hp)
    simpa using hnext

/-- **The counts of a run add up.** If a run succeeds, in whatever mode and by whatever strategy,
it has read every arrival, and the job's filter has rejected those that are counted as filtered.
Without destinations all others are summed or written. With destinations the same holds of each
pass but for the records that its own filter rejects. The records counted for a sink are the data
records that it holds after the header. -/
theorem run_accounts {sinks : Nat} {stats : Stats}
    (h : (job.run host inputs sinks).result = .ok stats) :
    stats.input = (job.arrivals inputs).records.length ∧
      stats.filtered = job.dropped inputs ∧
      (job.destinations = [] → stats.input = stats.filtered + stats.summed + stats.output) ∧
      (job.destinations ≠ [] → stats.perDestination.length = job.destinations.length ∧
        stats.input * job.destinations.length =
          stats.filtered * job.destinations.length +
            (job.destinations.map fun d => job.passedOver (some d) inputs).sum +
            stats.summed + stats.output) ∧
      stats.output = stats.perDestination.sum ∧
      ∃ header, job.header inputs = .ok header ∧
        ∀ (i : Nat) (target : Target), job.targets[i]? = some target → ∃ records,
          job.dataRecords host target inputs = .ok records ∧
          (job.run host inputs sinks).sinks[i]? =
            some (job.framing.write (header ++ records)) ∧
          stats.perDestination[i]? = some records.length := by
  obtain ⟨hcheck, passes, hpasses⟩ := exists_completes_of_run h
  have hstats : stats = passes.foldl Stats.addPass {} := by
    rw [run_of_completes hcheck hpasses] at h
    exact (Except.ok.inj h).symm
  have hbalanced : job.Balanced inputs job.targets stats := by
    have := balanced_nil.foldl hpasses
    rwa [List.nil_append, ← hstats] at this
  obtain ⟨first, hfirst⟩ := job.exists_first_target
  have htargets : job.targets ≠ [] := by
    intro hnil
    simp [hnil] at hfirst
  have hbalance := hbalanced.balance
  rw [← hbalanced.input htargets, ← hbalanced.filtered htargets] at hbalance
  refine ⟨hbalanced.input htargets, hbalanced.filtered htargets, ?_, ?_, hbalanced.output, ?_⟩
  · intro hnone
    simp [targets, hnone, passedOver, passFilter, Filter.passes] at hbalance
    omega
  · intro hsome
    have hmap : job.targets = job.destinations.map some := by
      simp [targets, hsome]
    rw [hmap, List.length_map, List.map_map] at hbalance
    refine ⟨?_, hbalance⟩
    rw [hbalanced.destinations, hmap, List.length_map]
  · obtain ⟨p₀, hp₀, -⟩ := exists_completes_of_target h hfirst
    obtain ⟨header, _, hheader, -⟩ := drained_of_pass hp₀.pass
    refine ⟨header, hheader, ?_⟩
    intro i target htarget
    obtain ⟨p, hp, hsink, hcount⟩ := exists_completes_of_target h htarget
    obtain ⟨records, hrecords⟩ := exists_dataRecords hp.pass hp.fault
    obtain ⟨-, hwritten, header', hheader', hbytes⟩ := drained_of_dataRecords hp.pass hrecords
    obtain rfl : header = header' := Except.ok.inj (hheader.symm.trans hheader')
    exact ⟨records, hrecords, by rw [hsink, hbytes], by rw [hcount, hwritten]⟩

/-- The job `tallySplit` without the records that end in `9`. It need not be stable. -/
def tallyAccounted : Job :=
  { tallySplit with
    config := { tallySplit.config with stable := false }
    filter := some
      (.not (.compare ⟨.field ⟨1, 1, .ch, .ascii⟩, .eq, .text [0x39], .ascii⟩)) }

/-- Each pass reads four records and drops `b9`. The first one passes over `b1`, and both of them
fold `a4` and `a2` into one record, whichever comes first, so that one record and two records are
left. -/
theorem tallyAccounted_accounts :
    let host : Host := { unstable := .reversing }
    let stats : Stats :=
      { strategy := .external, input := 4, filtered := 1, summed := 2, output := 3,
        perDestination := [1, 2], spilled := 3 }
    (tallyAccounted.run host tallyInputs 2).result = .ok stats ∧
      tallyAccounted.passedOver (tallyAccounted.destinations[0]?) tallyInputs = 1 ∧
      4 = (tallyAccounted.arrivals tallyInputs).records.length ∧
      1 = tallyAccounted.dropped tallyInputs ∧
      (tallyAccounted.destinations = [] → 4 = 1 + 2 + 3) ∧
      (tallyAccounted.destinations ≠ [] → [1, 2].length = tallyAccounted.destinations.length ∧
        4 * tallyAccounted.destinations.length = 1 * tallyAccounted.destinations.length +
          (tallyAccounted.destinations.map fun d =>
            tallyAccounted.passedOver (some d) tallyInputs).sum + 2 + 3) ∧
      3 = [1, 2].sum ∧
      ∃ header, tallyAccounted.header tallyInputs = .ok header ∧
        ∀ (i : Nat) (target : Target), tallyAccounted.targets[i]? = some target → ∃ records,
          tallyAccounted.dataRecords host target tallyInputs = .ok records ∧
          (tallyAccounted.run host tallyInputs 2).sinks[i]? =
            some (tallyAccounted.framing.write (header ++ records)) ∧
          [1, 2][i]? = some records.length := by
  intro host stats
  have hrun : (tallyAccounted.run host tallyInputs 2).result = .ok stats := by cbv
  exact ⟨hrun, by cbv, run_accounts hrun⟩

end Job

end CardSort
