import CardSort.Proofs.Job.Keeping

/-!
# A layout that keeps the keys may come before or after the order

Records can be laid out before they are brought into order or when they are written. Which of the
two a job does shows in nothing but the lengths of spilled records, if the layout leaves the bytes
of the keys of all records alone.

* `Job.copyPass_layOut`, `Job.memoryPass_layOut`, `Job.mergePass_layOut` — passes of one strategy
  are the same; `Job.externalPass_layOut`, they end alike.
* `Job.pass_layOut`, `Job.run_layOut_agrees` — passes and runs that find room end alike.
* `Job.Filterable` — what both orders ask of the inputs besides.
* `Job.run_layOut` — **when the two runs succeed, and that they write the same.**
-/

set_option autoImplicit false

namespace CardSort

namespace Job

variable {job : Job} {layout : Layout} {inputs : List Input} {r : Bytes}

/-! ## Passes -/

section

variable {c : Comparer} (hbare : job.Bare) (hkeeps : job.KeepsAll layout inputs)

include hbare hkeeps

theorem copyPass_layOut :
    (job.layOutFirst layout).copyPass none inputs =
      (job.layOutLast layout).copyPass none inputs := by
  rw [copyPass, copyPass, show passFilter none = none from rfl, scan_layOut hbare hkeeps]
  cases hscan : (job.layOutLast layout).scan none inputs with
  | error f => rfl
  | ok scanned =>
    obtain ⟨header, scan⟩ := scanned
    have hdrain := drain_layOut hbare scan.feed
      (fun r hr => keepsKeys_of_mem_scan hbare hkeeps hscan hr) header
    show Except.ok (PassOutcome.mk .copy scan.read scan.filtered 0
      ((job.layOutFirst layout).drain none header (scan.feed.map _))) = _
    rw [hdrain]
    rfl

theorem memoryPass_layOut (hstable : job.config.stable = true)
    (hkeys : job.activeComparer = some c) (host : Host) :
    (job.layOutFirst layout).memoryPass host c none inputs =
      (job.layOutLast layout).memoryPass host c none inputs := by
  have hfirst : (job.layOutFirst layout).config.stable = true := hstable
  have hlast : (job.layOutLast layout).config.stable = true := hstable
  rw [memoryPass, memoryPass, show passFilter none = none from rfl, scan_layOut hbare hkeeps]
  cases hscan : (job.layOutLast layout).scan none inputs with
  | error f => rfl
  | ok scanned =>
    obtain ⟨header, scan⟩ := scanned
    simp only [Except.map, ok_bind, Prod.map_apply, id_eq, Scan.map, Feed.complete_map]
    cases hrecords : scan.feed.complete with
    | error f => rfl
    | ok records =>
      obtain ⟨-, rfl⟩ := Feed.complete_eq_ok_iff.1 hrecords
      have hdrain := drain_layOut hbare (.ofList (c.sort scan.feed.records))
        (fun r hr => keepsKeys_of_mem_sort hbare hkeeps hscan hr) header
      simp only [ok_bind, sort_of_stable hfirst, sort_of_stable hlast,
        Comparer.sort_map (unmoved_keeping hkeys layout)]
      exact congrArg (fun d => Except.ok (PassOutcome.mk .inMemory scan.read scan.filtered 0 d))
        hdrain

theorem scanEach_layOut :
    (job.layOutFirst layout).scanEach none inputs =
      ((job.layOutLast layout).scanEach none inputs).map
        (List.map (Prod.map id (Scan.map (layout.keeping job.activeKeys)))) :=
  mapM_map_of_eq fun _ hinput => scan_layOut hbare (hkeeps.one hinput)

theorem mergePass_layOut (hkeys : job.activeComparer = some c) :
    (job.layOutFirst layout).mergePass c none inputs =
      (job.layOutLast layout).mergePass c none inputs := by
  rw [mergePass, mergePass, scanEach_layOut hbare hkeeps]
  cases hscans : (job.layOutLast layout).scanEach none inputs with
  | error f => rfl
  | ok scans =>
    have hdrain := drain_layOut hbare (Merge.merge c (scans.map fun s => s.2.feed))
      (fun r hr => keepsKeys_of_mem_merge hbare hkeeps hscans hr)
      ((scans.head?.map Prod.fst).getD [])
    rw [← Merge.merge_map (unmoved_keeping hkeys layout)] at hdrain
    have hheader : (scans.head?.map (Prod.map id (Scan.map (layout.keeping job.activeKeys)))).map
        Prod.fst = scans.head?.map Prod.fst := by
      rw [Option.map_map]
      rfl
    simp only [Except.map, ok_bind, List.map_map, List.head?_map, hheader] at hdrain ⊢
    exact congrArg (fun d => Except.ok (PassOutcome.mk .merge (scans.map fun s => s.2.read).sum
      (scans.map fun s => s.2.filtered).sum 0 d)) hdrain

end

section

variable {c : Comparer} (hbare : job.Bare) (hkeeps : job.KeepsAll layout inputs)

include hbare hkeeps

/-- Passes through spilled runs end alike. -/
theorem externalPass_layOut (hstable : job.config.stable = true)
    (hkeys : job.activeComparer = some c)
    (hfirst : (job.layOutFirst layout).ShortSurvivors inputs)
    (hlast : (job.layOutLast layout).ShortSurvivors inputs) (host : Host) :
    ((job.layOutFirst layout).externalPass host c none inputs).map
        PassOutcome.withoutStrategy =
      ((job.layOutLast layout).externalPass host c none inputs).map
        PassOutcome.withoutStrategy := by
  cases hspillable : host.spillable with
  | false =>
    rw [externalPass, externalPass, show passFilter none = none from rfl, scan_layOut hbare hkeeps,
      hspillable]
    cases (job.layOutLast layout).scan none inputs <;> rfl
  | true =>
    have hfirstStable : (job.layOutFirst layout).config.stable = true := hstable
    have hlastStable : (job.layOutLast layout).config.stable = true := hstable
    rw [externalPass_of_delivered hfirstStable hspillable hfirst.delivered,
      externalPass_of_delivered hlastStable hspillable hlast.delivered,
      memoryPass_layOut hbare hkeeps hstable hkeys]

/-- **Passes end alike**, with the layout before the order or at the sink. -/
theorem pass_layOut (hstable : job.Stable) (hfirst : (job.layOutFirst layout).Room true inputs)
    (hlast : (job.layOutLast layout).Room true inputs) (host : Host) :
    ((job.layOutFirst layout).pass host none inputs).map PassOutcome.withoutStrategy =
      ((job.layOutLast layout).pass host none inputs).map PassOutcome.withoutStrategy := by
  have hactive : (job.layOutFirst layout).activeComparer = job.activeComparer := rfl
  have hactive' : (job.layOutLast layout).activeComparer = job.activeComparer := rfl
  rw [pass, pass, hactive, hactive']
  cases hkeys : job.activeComparer with
  | none => simp only [copyPass_layOut hbare hkeeps]
  | some c =>
    simp only [show (job.layOutFirst layout).mode = job.mode from rfl,
      show (job.layOutLast layout).mode = job.mode from rfl]
    split
    · rw [mergePass_layOut hbare hkeeps hkeys]
    · rename_i hmerge
      have hsort : job.mode = .sort := mode_of_keys hkeys hmerge
      cases hsize : totalSize inputs with
      | error f => rfl
      | ok size =>
        simp only [ok_bind, show (job.layOutFirst layout).config = job.config from rfl,
          show (job.layOutLast layout).config = job.config from rfl]
        split
        · rw [memoryPass_layOut hbare hkeeps (hstable hsort) hkeys]
        · rename_i hlarge
          have hfits : ¬ job.FitsMemory inputs := mt (fitsMemory_iff hsize).1 hlarge
          have hsome : job.activeComparer ≠ none := by simp [hkeys]
          exact externalPass_layOut hbare hkeeps (hstable hsort) hkeys
            ((hfirst hsort hsome).resolve_left hfits).2 ((hlast hsort hsome).resolve_left hfits).2
            host

end

/-! ## Runs -/

/-- The inputs can be read to their end, and the filter can be evaluated on all their records. -/
structure Filterable (job : Job) (inputs : List Input) : Prop where
  read : (job.arrivals inputs).fault = none
  filter : ∀ r ∈ (job.arrivals inputs).records, ∃ passed, Filter.passes job.filter r = .ok passed

section

variable (hbare : job.Bare) (hkeeps : job.KeepsAll layout inputs)

include hbare hkeeps

/-- The scan without the layout has no fault if there is none in reading and filtering. -/
theorem clean_layOutLast_iff :
    (∃ header scan, (job.layOutLast layout).scan none inputs = .ok (header, scan) ∧
      scan.feed.fault = none) ↔ job.Filterable inputs := by
  have hfilter : (job.layOutLast layout).filter = job.filter := rfl
  rw [exists_clean_scan_iff, arrivals_layOutLast]
  constructor
  · rintro ⟨hread, hjudged⟩
    refine ⟨hread, fun r hr => ?_⟩
    obtain ⟨v, hv⟩ := hjudged r hr
    obtain ⟨passed, hpassed, -⟩ := bind_eq_ok_iff.1 hv
    exact ⟨passed, hpassed⟩
  · rintro ⟨hread, hfiltered⟩
    refine ⟨hread, fun r hr => ?_⟩
    obtain ⟨passed, hpasses⟩ := hfiltered r hr
    cases passed with
    | false =>
      refine ⟨.filtered, ?_⟩
      rw [judge, hfilter, hpasses]
      rfl
    | true =>
      obtain ⟨out, hkept⟩ := hkeeps r ⟨mem_arrivals_of_mem hr, hpasses⟩
      exact ⟨_, (judge_layOut_of_keeps hbare hpasses hkept).2⟩

/-- Nor has the scan with the layout before it. -/
theorem clean_layOutFirst_iff :
    (∃ header scan, (job.layOutFirst layout).scan none inputs = .ok (header, scan) ∧
      scan.feed.fault = none) ↔ job.Filterable inputs := by
  rw [← clean_layOutLast_iff hbare hkeeps, scan_layOut hbare hkeeps]
  constructor
  · rintro ⟨header, scan, hscan, hclean⟩
    obtain ⟨⟨header', scan'⟩, hscan', hmap⟩ := map_eq_ok_iff.1 hscan
    cases hmap
    exact ⟨header', scan', hscan', hclean⟩
  · rintro ⟨header, scan, hscan, hclean⟩
    exact ⟨_, _, map_eq_ok_iff.2 ⟨_, hscan, rfl⟩, hclean⟩

/-- When the run with the layout before the order succeeds. -/
theorem exists_run_layOutFirst_iff (host : Host) (sinks : Nat) :
    (∃ stats, ((job.layOutFirst layout).run host inputs sinks).result = .ok stats) ↔
      job.precheck sinks = .ok () ∧ job.Filterable inputs ∧
        (job.layOutFirst layout).Room host.spillable inputs := by
  have hsum : (job.layOutFirst layout).sum = none := hbare.sum
  have hdest : (job.layOutFirst layout).destinations = [] := hbare.destinations
  have hcheck : (job.layOutFirst layout).precheck sinks = job.precheck sinks := rfl
  rw [exists_run_iff hsum hdest, clean_layOutFirst_iff hbare hkeeps, hcheck]
  intro r _ out _
  rw [layOutFirst_outrec, hbare.outrec]
  exact ⟨out, rfl⟩

/-- When the run with the layout at the sink succeeds. -/
theorem exists_run_layOutLast_iff (host : Host) (sinks : Nat) :
    (∃ stats, ((job.layOutLast layout).run host inputs sinks).result = .ok stats) ↔
      job.precheck sinks = .ok () ∧ job.Filterable inputs ∧
        (job.layOutLast layout).Room host.spillable inputs := by
  have hsum : (job.layOutLast layout).sum = none := hbare.sum
  have hdest : (job.layOutLast layout).destinations = [] := hbare.destinations
  have hcheck : (job.layOutLast layout).precheck sinks = job.precheck sinks := rfl
  rw [exists_run_iff hsum hdest, clean_layOutLast_iff hbare hkeeps, hcheck]
  intro r hr out hout
  rw [layOutLast_inrec, hbare.inrec] at hout
  cases hout
  obtain ⟨out, hkept⟩ := hkeeps r (survives_layOutLast.1 hr)
  exact ⟨out, hkept.format⟩

/-- Runs that find room end alike. -/
theorem run_layOut_agrees (hstable : job.Stable)
    (hfirst : (job.layOutFirst layout).Room true inputs)
    (hlast : (job.layOutLast layout).Room true inputs) (host : Host) (sinks : Nat) :
    ((job.layOutFirst layout).run host inputs sinks).Agrees
      ((job.layOutLast layout).run host inputs sinks) := by
  have hcheck : (job.layOutFirst layout).precheck sinks = job.precheck sinks := rfl
  have hcheck' : (job.layOutLast layout).precheck sinks = job.precheck sinks := rfl
  have htargets : (job.layOutFirst layout).targets = [none] := by
    simp [targets, layOutFirst, hbare.destinations]
  have htargets' : (job.layOutLast layout).targets = [none] := by
    simp [targets, layOutLast, hbare.destinations]
  simp only [run, runReading, hcheck, hcheck', htargets, htargets']
  cases job.precheck sinks with
  | error f => exact ⟨rfl, rfl⟩
  | ok _ =>
    refine runPasses_agrees (fun target htarget => ?_) rfl [] []
    cases List.mem_singleton.1 htarget
    exact pass_layOut hbare hkeeps hstable hfirst hlast host

end

/-- **A layout that keeps the keys may come before the order or after it.** Let the job be stable if
it sorts. Either run succeeds if the job passes its checks, the inputs can be read and filtered, and
there is room for its records, and only then. If there is room for both, they end with the same
fault or the same counts, and write the same bytes. -/
theorem run_layOut (hbare : job.Bare) (hstable : job.Stable)
    (hkeeps : job.KeepsAll layout inputs) (host : Host) (sinks : Nat) :
    ((∃ stats, ((job.layOutFirst layout).run host inputs sinks).result = .ok stats) ↔
        job.precheck sinks = .ok () ∧ job.Filterable inputs ∧
          (job.layOutFirst layout).Room host.spillable inputs) ∧
      ((∃ stats, ((job.layOutLast layout).run host inputs sinks).result = .ok stats) ↔
        job.precheck sinks = .ok () ∧ job.Filterable inputs ∧
          (job.layOutLast layout).Room host.spillable inputs) ∧
      ((job.layOutFirst layout).Room true inputs → (job.layOutLast layout).Room true inputs →
        ((job.layOutFirst layout).run host inputs sinks).Agrees
          ((job.layOutLast layout).run host inputs sinks)) :=
  ⟨exists_run_layOutFirst_iff hbare hkeeps host sinks,
    exists_run_layOutLast_iff hbare hkeeps host sinks,
    fun hfirst hlast => run_layOut_agrees hbare hkeeps hstable hfirst hlast host sinks⟩

/-- The job `tally` without sums. -/
def tallyPlain : Job := { tally with sum := none }

/-- The job `tallyPlain`, which spills runs. -/
def tallySpilled : Job := tallyPlain.withResources 1 1

/-- The layout of `FIELDS=(1,1,C'-',2,1)`, which puts a dash behind the letter. -/
def dashed : Layout :=
  ⟨[⟨none, .copy ⟨0, 1, .ch, .ascii⟩⟩, ⟨none, .constant [0x2D]⟩,
    ⟨none, .copy ⟨1, 1, .ch, .ascii⟩⟩], .ascii⟩

theorem mem_of_survives_spilled (h : tallySpilled.Survives tallyInputs r) :
    r ∈ [[0x62, 0x31], [0x61, 0x32], [0x62, 0x39], [0x61, 0x34]] := by
  obtain ⟨⟨input, hinput, hr⟩, -⟩ := h
  simp only [tallyInputs, List.mem_cons, List.not_mem_nil, or_false] at hinput
  rcases hinput with rfl | rfl
  · have hrecords : (tallySpilled.arrivals
        [.present [0x48, 0x30, 0x62, 0x31, 0x61, 0x32]]).records =
          [[0x62, 0x31], [0x61, 0x32]] := by cbv
    rw [hrecords] at hr
    exact List.mem_append_left [[0x62, 0x39], [0x61, 0x34]] hr
  · have hrecords : (tallySpilled.arrivals
        [.present [0x48, 0x39, 0x62, 0x39, 0x61, 0x34]]).records =
          [[0x62, 0x39], [0x61, 0x34]] := by cbv
    rw [hrecords] at hr
    exact List.mem_append_right [[0x62, 0x31], [0x61, 0x32]] hr

/-- Through three runs with or without the dash, `a-2` and `a-4` come before `b-1` and `b-9`. -/
theorem tallySpilled_layOut :
    Layout.ofCard "FIELDS=(1,1,C'-',2,1)" .ascii = .ok dashed ∧
      ((tallySpilled.layOutLast dashed).run {} tallyInputs 1).sinks =
        [[0x48, 0x30, 0x61, 0x2D, 0x32, 0x61, 0x2D, 0x34, 0x62, 0x2D, 0x31, 0x62, 0x2D, 0x39]] ∧
      ((tallySpilled.layOutFirst dashed).run {} tallyInputs 1).Agrees
        ((tallySpilled.layOutLast dashed).run {} tallyInputs 1) ∧
      (∃ stats, ((tallySpilled.layOutFirst dashed).run {} tallyInputs 1).result = .ok stats) ∧
      ∃ stats, ((tallySpilled.layOutLast dashed).run {} tallyInputs 1).result = .ok stats := by
  have hkeeps : tallySpilled.KeepsAll dashed tallyInputs := by
    intro r hr
    have hmem := mem_of_survives_spilled hr
    simp only [List.mem_cons, List.not_mem_nil, or_false] at hmem
    rcases hmem with rfl | rfl | rfl | rfl <;>
      exact ⟨_, keepsKeys_of_bytes_eq rfl (by decide) (by decide)⟩
  have hfilterable : tallySpilled.Filterable tallyInputs := ⟨by cbv, fun _ _ => ⟨true, rfl⟩⟩
  have hfirst : (tallySpilled.layOutFirst dashed).Room true tallyInputs := by
    refine fun _ _ => .inr ⟨rfl, fun r hr out hout => ?_⟩
    have hmem := mem_of_survives_spilled hr
    simp only [List.mem_cons, List.not_mem_nil, or_false] at hmem
    rcases hmem with rfl | rfl | rfl | rfl <;> cases hout <;> decide
  have hlast : (tallySpilled.layOutLast dashed).Room true tallyInputs := by
    refine fun _ _ => .inr ⟨rfl, fun r hr out hout => ?_⟩
    have hmem := mem_of_survives_spilled hr
    simp only [List.mem_cons, List.not_mem_nil, or_false] at hmem
    rcases hmem with rfl | rfl | rfl | rfl <;> cases hout <;> decide
  obtain ⟨hfirstSucceeds, hlastSucceeds, hagrees⟩ :=
    run_layOut ⟨rfl, rfl, rfl, rfl⟩ (fun _ => rfl) hkeeps {} 1
  exact ⟨by decide +kernel, by cbv, hagrees hfirst hlast,
    hfirstSucceeds.2 ⟨by decide, hfilterable, hfirst⟩,
    hlastSucceeds.2 ⟨by decide, hfilterable, hlast⟩⟩

/-- A layout that copies a whole record of `tally`. -/
def whole : Layout := ⟨[⟨none, .copy ⟨0, 2, .ch, .ascii⟩⟩], .ascii⟩

/-- Keeping the keys is not enough to succeed: input that ends within a record is a fault, with the
layout before the order or after it. -/
theorem not_succeeds_of_truncated :
    Layout.ofCard "FIELDS=(1,2)" .ascii = .ok whole ∧
      tallyPlain.Bare ∧ tallyPlain.mode = .sort ∧ tallyPlain.config.stable = true ∧
      tallyPlain.KeepsAll whole [.present [0x48, 0x30, 0x61, 0x61, 0x62]] ∧
      ((tallyPlain.layOutFirst whole).run {} [.present [0x48, 0x30, 0x61, 0x61, 0x62]] 1).result =
        .error (.truncated 2 2 1) ∧
      ((tallyPlain.layOutLast whole).run {} [.present [0x48, 0x30, 0x61, 0x61, 0x62]] 1).result =
        .error (.truncated 2 2 1) := by
  refine ⟨by decide +kernel, ⟨rfl, rfl, rfl, rfl⟩, rfl, rfl, ?_, by cbv, by cbv⟩
  rintro r ⟨⟨input, hinput, hr⟩, -⟩
  cases List.mem_singleton.1 hinput
  have hrecords : (tallyPlain.arrivals [.present [0x48, 0x30, 0x61, 0x61, 0x62]]).records =
      [[0x61, 0x61]] := by cbv
  rw [hrecords] at hr
  cases List.mem_singleton.1 hr
  exact ⟨_, keepsKeys_of_bytes_eq rfl (by decide) (by decide)⟩

end Job

end CardSort
