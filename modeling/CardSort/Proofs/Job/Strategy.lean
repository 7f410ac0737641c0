import Mathlib
import CardSort.Proofs.Job.Pipeline
import CardSort.Proofs.Job.Scan
import CardSort.Proofs.Order.Spill

/-!
# The strategy does not show

How a stable pass orders its records, at once or through spilled runs, shows in nothing but the
name of the strategy and the number of spilled runs, as long as the pass finds room.

* `Outcome.Agrees` — the same end, the same bytes in every sink, the same counts otherwise.
* `Job.HasRoom` — the inputs fit into memory, or there is a directory for spilled runs and no
  record is too long for them.
* `Job.place_of_stable` — either way a stable job puts records into the stable order.
* `Job.externalPass_of_delivered` — a pass through spilled runs ends as the pass that sorts at
  once.
* `Job.runPasses_agrees` — passes that agree one by one make runs that agree.
* `Job.run_withResources_agrees` — **neither the memory limit nor the workers show** where both
  runs find room; `Job.not_agrees_of_long_record` is a run that finds none.
-/

set_option autoImplicit false

namespace CardSort

/-! ## Counts without the strategy -/

/-- The counts without those that tell strategies apart. -/
def Stats.withoutStrategy (s : Stats) : Stats := { s with strategy := .copy, spilled := 0 }

/-- The end of a pass without what tells strategies apart. -/
def PassOutcome.withoutStrategy (p : PassOutcome) : PassOutcome :=
  { p with strategy := .copy, spilled := 0 }

/-- Two runs end alike: with the same fault, or with the same counts but for the strategy and its
spilled runs; and every sink has received the same bytes. -/
structure Outcome.Agrees (a b : Outcome) : Prop where
  result : a.result.map Stats.withoutStrategy = b.result.map Stats.withoutStrategy
  sinks : a.sinks = b.sinks

theorem PassOutcome.drained_eq {p q : PassOutcome} (h : p.withoutStrategy = q.withoutStrategy) :
    p.drained = q.drained := (PassOutcome.mk.inj h).2.2.2.2

/-- Counting a pass commutes with leaving the strategy out. -/
theorem Stats.withoutStrategy_addPass (s : Stats) (p : PassOutcome) :
    (s.addPass p).withoutStrategy = s.withoutStrategy.addPass p.withoutStrategy := by
  unfold Stats.addPass
  by_cases hfirst : s.perDestination.isEmpty = true <;>
    simp [Stats.withoutStrategy, PassOutcome.withoutStrategy, hfirst]

namespace Job

variable {job : Job} {host : Host} {c : Comparer} {target : Target} {inputs : List Input}

/-! ## Room -/

/-- The inputs are not larger than the memory limit, as far as they have a size. -/
def FitsMemory (job : Job) (inputs : List Input) : Prop :=
  ∀ size, totalSize inputs = .ok size → size ≤ job.config.memoryLimit

theorem fitsMemory_iff {size : Nat} (hsize : totalSize inputs = .ok size) :
    job.FitsMemory inputs ↔ size ≤ job.config.memoryLimit := by
  refine ⟨fun h => h size hsize, fun h size' hsize' => ?_⟩
  obtain rfl : size = size' := Except.ok.inj (hsize.symm.trans hsize')
  exact h

instance : Decidable (job.FitsMemory inputs) :=
  match hsize : totalSize inputs with
  | .ok _ => decidable_of_iff _ (fitsMemory_iff hsize).symm
  | .error _ => .isTrue fun size' hsize' => by
    rw [hsize] at hsize'
    cases hsize'

/-- All records that the scans of the passes deliver have a length that four bytes can hold. -/
def ShortScans (job : Job) (inputs : List Input) : Prop :=
  ∀ target ∈ job.targets, ∀ header scan,
    job.scan (passFilter target) inputs = .ok (header, scan) →
      ∀ r ∈ scan.feed.records, r.length < Run.lengthLimit

/-- A sort finds room: it has no keys to sort by, its inputs fit into memory, or there is a
directory for spilled runs and no record is too long for them. -/
def HasRoom (job : Job) (host : Host) (inputs : List Input) : Prop :=
  job.activeComparer = none ∨ job.FitsMemory inputs ∨
    (host.spillable = true ∧ job.ShortScans inputs)

/-- Scans deliver short records if all data records are short, as the input layout leaves them. -/
theorem shortScans_of_arrivals (h : ∀ r ∈ (job.arrivals inputs).records, ∀ out,
    Layout.formatWith job.inrec r = .ok out → out.length < Run.lengthLimit) :
    job.ShortScans inputs := by
  intro target _ header scan hscan out hout
  obtain ⟨r, hr, hformat⟩ := mem_scan hscan hout
  exact h r hr out hformat

/-! ## Spilling and sorting at once -/

/-- The records of a scan as a pass puts them into order, at once or through spilled runs. -/
def place (job : Job) (host : Host) (c : Comparer) (inputs : List Input) (records : List Bytes) :
    List Bytes :=
  if job.FitsMemory inputs then job.sort host c records else job.merged host c records

theorem place_keyOrder (job : Job) (host : Host) (c : Comparer) (inputs : List Input)
    (records : List Bytes) : KeyOrder c records (job.place host c inputs records) := by
  unfold place
  split
  · exact job.sort_keyOrder host c records
  · exact job.merged_keyOrder host c records

/-- **A stable job puts records into the stable order**, at once or through spilled runs. -/
theorem place_of_stable (hstable : job.config.stable = true) (records : List Bytes) :
    job.place host c inputs records = c.sort records := by
  unfold place
  split
  · exact sort_of_stable hstable
  · exact merged_of_stable hstable

/-- What a pass that sorts at once comes to. -/
theorem memoryPass_eq_ok_iff {p : PassOutcome} :
    job.memoryPass host c target inputs = .ok p ↔
      ∃ header scan, job.scan (passFilter target) inputs = .ok (header, scan) ∧
        scan.feed.fault = none ∧
        p = ⟨.inMemory, scan.read, scan.filtered, 0,
          job.drain (passLayout target) header (.ofList (job.sort host c scan.feed.records))⟩ := by
  unfold memoryPass
  constructor
  · intro h
    obtain ⟨⟨header, scan⟩, hscan, h⟩ := bind_eq_ok_iff.1 h
    obtain ⟨records, hrecords, h⟩ := bind_eq_ok_iff.1 h
    obtain ⟨hfault, rfl⟩ := Feed.complete_eq_ok_iff.1 hrecords
    cases h
    exact ⟨header, scan, hscan, hfault, rfl⟩
  · rintro ⟨header, scan, hscan, hfault, rfl⟩
    simp only [hscan, ok_bind, Feed.complete_eq_ok_iff.2 ⟨hfault, rfl⟩]
    rfl

/-- What a pass through spilled runs comes to. -/
theorem externalPass_eq_ok_iff {p : PassOutcome} :
    job.externalPass host c target inputs = .ok p ↔
      ∃ header scan runs, job.scan (passFilter target) inputs = .ok (header, scan) ∧
        host.spillable = true ∧ job.spill host c scan.feed = .ok runs ∧
        p = ⟨.external, scan.read, scan.filtered, runs.length,
          job.drain (passLayout target) header
            (.ofList (job.merged host c scan.feed.records))⟩ := by
  unfold externalPass
  constructor
  · intro h
    obtain ⟨⟨header, scan⟩, hscan, h⟩ := bind_eq_ok_iff.1 h
    cases hspillable : host.spillable with
    | false => simp only [hspillable] at h; cases h
    | true =>
      simp only [hspillable] at h
      obtain ⟨runs, hruns, h⟩ := bind_eq_ok_iff.1 h
      rw [merge_spill hruns] at h
      cases h
      exact ⟨header, scan, runs, hscan, rfl, hruns, rfl⟩
  · rintro ⟨header, scan, runs, hscan, hspillable, hruns, rfl⟩
    simp only [hscan, ok_bind, hspillable, if_true, hruns, merge_spill hruns]
    rfl

/-- A job with active keys that does not merge sorts. -/
theorem mode_of_keys (hkeys : job.activeComparer = some c)
    (hmerge : job.mode ≠ .merge) : job.mode = .sort := by
  cases hmode : job.mode with
  | sort => rfl
  | merge => exact absurd hmode hmerge
  | copy => simp [activeComparer, hmode] at hkeys

/-- **A pass in sort mode that succeeds** has scanned all inputs without a fault, and drains the
records of the scan in the order of the keys. -/
theorem sorted_of_pass {p : PassOutcome} (hmode : job.mode = .sort)
    (hkeys : job.activeComparer = some c) (h : job.pass host target inputs = .ok p) :
    ∃ header scan, job.scan (passFilter target) inputs = .ok (header, scan) ∧
      scan.feed.fault = none ∧ p.read = scan.read ∧ p.filtered = scan.filtered ∧
      p.drained = job.drain (passLayout target) header
        (.ofList (job.place host c inputs scan.feed.records)) := by
  have hmerge : job.mode ≠ .merge := by simp [hmode]
  simp only [pass, hkeys, if_neg hmerge] at h
  obtain ⟨size, hsize, h⟩ := bind_eq_ok_iff.1 h
  split at h
  · rename_i hfits
    obtain ⟨header, scan, hscan, hfault, rfl⟩ := memoryPass_eq_ok_iff.1 h
    refine ⟨header, scan, hscan, hfault, rfl, rfl, ?_⟩
    rw [place, if_pos ((fitsMemory_iff hsize).2 hfits)]
  · rename_i hlarge
    obtain ⟨header, scan, runs, hscan, -, hruns, rfl⟩ := externalPass_eq_ok_iff.1 h
    refine ⟨header, scan, hscan, (spill_eq_ok_iff.1 hruns).1, rfl, rfl, ?_⟩
    rw [place, if_neg (mt (fitsMemory_iff hsize).1 hlarge)]

/-- If all records that are scanned can be spilled, the pass of a stable job through spilled runs
ends as the pass that sorts at once. -/
theorem externalPass_of_delivered (hstable : job.config.stable = true)
    (hspillable : host.spillable = true)
    (hshort : ∀ header scan, job.scan (passFilter target) inputs = .ok (header, scan) →
      ∀ r ∈ scan.feed.records, r.length < Run.lengthLimit) :
    (job.externalPass host c target inputs).map PassOutcome.withoutStrategy =
      (job.memoryPass host c target inputs).map PassOutcome.withoutStrategy := by
  unfold externalPass memoryPass
  cases hscan : job.scan (passFilter target) inputs with
  | error f => rfl
  | ok scanned =>
    obtain ⟨header, scan⟩ := scanned
    simp only [ok_bind, hspillable, if_true]
    cases hfault : scan.feed.fault with
    | some f =>
      have hspill : job.spill host c scan.feed = .error f :=
        spill_of_fault hfault (hshort header scan hscan)
      rw [hspill, Feed.complete, hfault]
      rfl
    | none =>
      obtain ⟨runs, hruns⟩ : ∃ runs, job.spill host c scan.feed = .ok runs :=
        exists_spill hfault (hshort header scan hscan)
      rw [hruns, ok_bind, merge_spill hruns, merged_of_stable hstable,
        Feed.complete_eq_ok_iff.2 ⟨hfault, rfl⟩, ok_bind, sort_of_stable hstable]
      rfl

/-! ## Passes in sequence -/

/-- Passes that end alike make runs that end alike: by induction on the passes, with the counts so
far equal but for the strategy. -/
theorem runPasses_agrees {a b : Job} {host host' : Host} {inputs : List Input}
    {targets : List Target}
    (hpass : ∀ target ∈ targets,
      (a.pass host target inputs).map PassOutcome.withoutStrategy =
        (b.pass host' target inputs).map PassOutcome.withoutStrategy)
    {s t : Stats} (hstats : s.withoutStrategy = t.withoutStrategy) (done done' : List Bytes) :
    (a.runPasses host (fun _ => inputs) done s targets).Agrees
      (b.runPasses host' (fun _ => inputs) done' t targets) := by
  induction targets generalizing s t done done' with
  | nil => exact ⟨congrArg Except.ok hstats, rfl⟩
  | cons target targets ih =>
    have htarget := hpass target List.mem_cons_self
    simp only [runPasses]
    cases ha : a.pass host target inputs with
    | error f =>
      cases hb : b.pass host' target inputs with
      | error g =>
        rw [ha, hb] at htarget
        cases htarget
        exact ⟨rfl, rfl⟩
      | ok q => rw [ha, hb] at htarget; cases htarget
    | ok p =>
      cases hb : b.pass host' target inputs with
      | error g => rw [ha, hb] at htarget; cases htarget
      | ok q =>
        rw [ha, hb] at htarget
        have hpq : p.withoutStrategy = q.withoutStrategy := Except.ok.inj htarget
        have hdrained : p.drained = q.drained := PassOutcome.drained_eq hpq
        simp only [hdrained]
        -- the sink ends both runs here or neither
        cases q.drained.fault with
        | some f => exact ⟨rfl, rfl⟩
        | none =>
          have hnext : (s.addPass p).withoutStrategy = (t.addPass q).withoutStrategy := by
            rw [Stats.withoutStrategy_addPass, Stats.withoutStrategy_addPass, hstats, hpq]
          have hrest := ih (fun t ht => hpass t (List.mem_cons_of_mem _ ht)) hnext
            (done ++ [q.drained.bytes]) (done' ++ [q.drained.bytes])
          exact ⟨hrest.result, congrArg (q.drained.bytes :: ·) hrest.sinks⟩

/-- The pass of a stable job with keys in sort mode that finds room ends as the pass that sorts at
once, after a look at the sizes of the inputs. -/
theorem pass_of_hasRoom (hroom : job.HasRoom host inputs) (htarget : target ∈ job.targets)
    (hmode : job.mode = .sort) (hstable : job.config.stable = true)
    (hkeys : job.activeComparer = some c) :
    (job.pass host target inputs).map PassOutcome.withoutStrategy =
      (totalSize inputs >>= fun _ => job.memoryPass host c target inputs).map
        PassOutcome.withoutStrategy := by
  have hmerge : job.mode ≠ .merge := by simp [hmode]
  simp only [pass, hkeys, if_neg hmerge]
  cases hsize : totalSize inputs with
  | error f => rfl
  | ok size =>
    rw [ok_bind, ok_bind]
    split
    · rfl
    · rename_i hlarge
      rcases hroom with hnone | hfits | ⟨hspillable, hshort⟩
      · simp [hkeys] at hnone
      · exact absurd (hfits size hsize) hlarge
      · exact externalPass_of_delivered hstable hspillable (hshort target htarget)

/-- A pass in sort mode copies for want of keys, or sorts inputs that fit into memory, or spills
the records of its scan. -/
theorem pass_cases (hmode : job.mode = .sort) {p : PassOutcome}
    (h : job.pass host target inputs = .ok p) :
    (job.activeComparer = none ∧ p.strategy = .copy) ∨
      (p.strategy = .inMemory ∧ job.activeComparer ≠ none ∧ job.FitsMemory inputs) ∨
      (p.strategy = .external ∧ host.spillable = true ∧ ∀ header scan,
        job.scan (passFilter target) inputs = .ok (header, scan) →
          ∀ r ∈ scan.feed.records, r.length < Run.lengthLimit) := by
  have hmerge : job.mode ≠ .merge := by simp [hmode]
  cases hkeys : job.activeComparer with
  | none =>
    simp only [pass, hkeys] at h
    obtain ⟨_, _, h⟩ := bind_eq_ok_iff.1 h
    cases h
    exact .inl ⟨rfl, rfl⟩
  | some c =>
    simp only [pass, hkeys, if_neg hmerge] at h
    obtain ⟨size, hsize, h⟩ := bind_eq_ok_iff.1 h
    split at h
    · rename_i hfits
      obtain ⟨_, _, _, _, rfl⟩ := memoryPass_eq_ok_iff.1 h
      exact .inr (.inl ⟨rfl, Option.some_ne_none c, (fitsMemory_iff hsize).2 hfits⟩)
    · obtain ⟨header, scan, runs, hscan, hspillable, hruns, rfl⟩ := externalPass_eq_ok_iff.1 h
      refine .inr (.inr ⟨rfl, hspillable, ?_⟩)
      -- spilling has measured every record of the scan, whatever chunk it is in
      intro header' scan' hscan'
      obtain ⟨-, rfl⟩ := Prod.mk.inj (Except.ok.inj (hscan.symm.trans hscan'))
      exact short_of_spill hruns

/-- Every memory limit but zero passes the checks alike. -/
theorem precheck_withResources {memoryLimit : Nat} (hlimit : 1 ≤ memoryLimit)
    (workers sinks : Nat) :
    (job.withResources memoryLimit workers).precheck sinks =
      (job.withResources 1 1).precheck sinks := by
  obtain ⟨n, rfl⟩ : ∃ n, memoryLimit = n + 1 := ⟨memoryLimit - 1, by omega⟩
  rfl

/-- **Neither the memory limit nor the workers show**, if both runs of a stable job find room:
sorting at once or through spilled runs, cut wherever, a run ends with the same fault or the same
counts and writes the same bytes. -/
theorem run_withResources_agrees (job : Job) (hmode : job.mode = .sort)
    (hstable : job.config.stable = true) {host : Host} {inputs : List Input}
    {memoryLimit memoryLimit' workers workers' : Nat} (hlimit : 1 ≤ memoryLimit)
    (hlimit' : 1 ≤ memoryLimit')
    (hroom : (job.withResources memoryLimit workers).HasRoom host inputs)
    (hroom' : (job.withResources memoryLimit' workers').HasRoom host inputs) (sinks : Nat) :
    ((job.withResources memoryLimit workers).run host inputs sinks).Agrees
      ((job.withResources memoryLimit' workers').run host inputs sinks) := by
  have hsame := samePipeline_withResources job memoryLimit workers
  have hsame' := samePipeline_withResources job memoryLimit' workers'
  simp only [run, runReading]
  rw [precheck_withResources hlimit, precheck_withResources hlimit']
  cases (job.withResources 1 1).precheck sinks with
  | error f => exact ⟨rfl, rfl⟩
  | ok _ =>
    refine runPasses_agrees (fun target htarget => ?_) rfl [] []
    cases hkeys : job.activeComparer with
    | none =>
      simp only [pass, hsame.comparer, hsame'.comparer, hkeys]
      rw [hsame.copyPass_eq, hsame'.copyPass_eq]
    | some c =>
      have hsort : (job.withResources memoryLimit workers).mode = .sort := hmode
      have hsort' : (job.withResources memoryLimit' workers').mode = .sort := hmode
      rw [pass_of_hasRoom hroom htarget hsort hstable (hsame.comparer.trans hkeys),
        pass_of_hasRoom hroom' htarget hsort' hstable (hsame'.comparer.trans hkeys),
        hsame.memoryPass_eq, hsame'.memoryPass_eq]

/-- Records of two bytes, a letter to sort by and a digit to add up, after one header record. -/
def tally : Job :=
  { config := { headerRecords := 1, recordFormat := .fixed 2 }
    comparer := some ⟨[⟨⟨0, 1, .ch, .ascii⟩, .ascending⟩], .native⟩
    sum := some (.addFields [⟨1, 1, .zd, .ascii⟩]) }

/-- The header `H0` with `b1` and `a2`, and the header `H9` with `b9` and `a4`. -/
def tallyInputs : List Input :=
  [.present [0x48, 0x30, 0x62, 0x31, 0x61, 0x32], .present [0x48, 0x39, 0x62, 0x39, 0x61, 0x34]]

/-- Through three runs or at once, `a2` and `a4` make `a6`, and `b1` and `b9` stay apart. -/
theorem tally_withResources_agrees :
    ((tally.withResources 1 1).run {} tallyInputs 1).sinks =
        [[0x48, 0x30, 0x61, 0x36, 0x62, 0x31, 0x62, 0x39]] ∧
      ((tally.withResources 1 1).run {} tallyInputs 1).Agrees
        ((tally.withResources 1000 4).run {} tallyInputs 1) := by
  have hshort : (tally.withResources 1 1).ShortScans tallyInputs := by
    refine shortScans_of_arrivals fun r hr out hout => ?_
    cases hout
    revert r
    decide +kernel
  exact ⟨by cbv, run_withResources_agrees tally rfl rfl (by decide) (by decide)
    (.inr (.inr ⟨rfl, hshort⟩)) (.inr (.inl (by decide))) 1⟩

/-- The layout of `FIELDS=(1,1,n:C'A')`, where `n` is `gap + 2`: the first byte of a record, `gap`
blanks and an `A`. -/
def spreading (gap : Nat) : Layout :=
  ⟨[⟨none, .copy ⟨0, 1, .ch, .ascii⟩⟩, ⟨some (gap + 2), .constant [0x41]⟩], .ascii⟩

/-- A sort by the first byte of records that are spread out before. -/
def spread (gap : Nat) : Job :=
  { config := {}
    comparer := some ⟨[⟨⟨0, 1, .ch, .ascii⟩, .ascending⟩], .native⟩
    inrec := some (spreading gap) }

/-- The line `a`. -/
def lineOfA : List Input := [.present [0x61, 0x0A]]

/-- The record `a`, spread out. -/
def spreadA (gap : Nat) : Bytes := 0x61 :: (List.replicate gap 0x20 ++ [0x41])

theorem length_spreadA (gap : Nat) : (spreadA gap).length = gap + 2 := by
  simp [spreadA]

theorem format_spreading (gap : Nat) : (spreading gap).format [0x61] = .ok (spreadA gap) := by
  have hblank : Encoding.ascii.space = 0x20 := rfl
  have hcopy : (Content.copy ⟨0, 1, .ch, .ascii⟩).bytes .ascii [0x61] = .ok [0x61] := rfl
  have hfirst : Layout.writeAt 0x20 [] 0 [0x61] = [0x61] := rfl
  have hsecond : Layout.writeAt 0x20 [0x61] (gap + 1) [0x41] = spreadA gap := by
    simp [Layout.writeAt, Bytes.splice, spreadA]
  simp only [spreading, Layout.format, Layout.formatFrom, hblank, LayoutItem.start, hcopy, ok_bind,
    hfirst]
  exact congrArg Except.ok hsecond

theorem openInput_spread (gap memoryLimit : Nat) :
    ((spread gap).withResources memoryLimit 1).openInput (.present [0x61, 0x0A]) =
      .ok ([], .ofList [[0x61]]) := by
  have hrecords : ((spread gap).withResources memoryLimit 1).framing.records [0x61, 0x0A] =
      .ofList [[0x61]] := by
    show (Config.recordFormat {}).framing.records [0x61, 0x0A] = _
    cbv
  rw [openInput, hrecords]
  rfl

theorem scan_spread (gap memoryLimit : Nat) :
    ((spread gap).withResources memoryLimit 1).scan none lineOfA =
      .ok ([], ⟨.ofList [spreadA gap], 1, 0⟩) := by
  let job := (spread gap).withResources memoryLimit 1
  have hformat : Layout.formatWith job.inrec [0x61] = .ok (spreadA gap) := format_spreading gap
  have hcheck : job.check (spreadA gap) = .ok () := rfl
  have hjudge : job.judge none [0x61] = .ok (.kept (spreadA gap)) := by
    rw [judge, show Filter.passes job.filter [0x61] = .ok true from rfl, ok_bind, if_pos rfl,
      show Filter.passes none [0x61] = .ok true from rfl, ok_bind, if_pos rfl, hformat, ok_bind,
      hcheck]
    rfl
  exact scan_one_of_verdicts (openInput_spread gap memoryLimit) rfl
    (mapM_eq_ok_iff.2 (.cons hjudge .nil))

/-- In two bytes of memory the line is sorted. -/
theorem run_spread_in_memory (gap : Nat) :
    (((spread gap).withResources 2 1).run {} lineOfA 1).result =
      .ok ⟨.inMemory, 1, 0, 0, 1, [1], 0⟩ := by
  let job := (spread gap).withResources 2 1
  have hpass : job.pass {} none lineOfA =
      .ok ⟨.inMemory, 1, 0, 0, job.drain none [] (.ofList [spreadA gap])⟩ := by
    show job.memoryPass _ _ none lineOfA = _
    refine memoryPass_eq_ok_iff.2 ⟨_, _, scan_spread gap 2, rfl, ?_⟩
    simp [job, sort, withResources, spread, Comparer.sort, Feed.ofList, passLayout]
  show (job.runPasses {} (fun _ => lineOfA) [] {} [none]).result = _
  rw [runPasses, hpass]
  rfl

/-- In one byte it has to be spilled, and four bytes cannot hold the length of its record. -/
theorem run_spread_external {gap : Nat} (hgap : Run.lengthLimit ≤ gap + 2) :
    ((spread gap).withResources 1 1).run {} lineOfA 1 =
      ⟨.error (.setting (.recordTooLong (gap + 2))), [[]]⟩ := by
  let job := (spread gap).withResources 1 1
  have hlong : Run.lengthLimit ≤ (spreadA gap).length := by rwa [length_spreadA]
  have hpass : job.pass {} none lineOfA = .error (.setting (.recordTooLong (gap + 2))) := by
    show job.externalPass _ _ none lineOfA = _
    rw [externalPass, show passFilter none = none from rfl, scan_spread, ok_bind]
    -- the only chunk is left when the scan is over
    show (Run.write (Comparer.sort _ [spreadA gap]) >>= _ >>= _ >>= _) = _
    rw [Comparer.sort, List.mergeSort_singleton, Run.write_of_long hlong, length_spreadA]
    rfl
  show job.runPasses {} (fun _ => lineOfA) [] {} [none] = _
  rw [runPasses, hpass]
  rfl

/-- Short input records are not enough: spread out to `2 ^ 32 + 1` bytes, the line `a` is sorted in
two bytes of memory, and is a fault in one byte. -/
theorem not_agrees_of_long_record :
    let job := spread 4294967295
    Layout.ofCard "FIELDS=(1,1,4294967297:C'A')" .ascii = .ok (spreading 4294967295) ∧
      job.inrec = some (spreading 4294967295) ∧ job.mode = .sort ∧ job.config.stable = true ∧
      (∀ r ∈ ((job.withResources 1 1).arrivals lineOfA).records, r.length < Run.lengthLimit) ∧
      ((job.withResources 2 1).run {} lineOfA 1).result = .ok ⟨.inMemory, 1, 0, 0, 1, [1], 0⟩ ∧
      (job.withResources 1 1).run {} lineOfA 1 =
        ⟨.error (.setting (.recordTooLong 4294967297)), [[]]⟩ ∧
      ¬ ((job.withResources 2 1).run {} lineOfA 1).Agrees
        ((job.withResources 1 1).run {} lineOfA 1) := by
  have hmemory := run_spread_in_memory 4294967295
  have hexternal : ((spread 4294967295).withResources 1 1).run {} lineOfA 1 = _ :=
    run_spread_external (by decide)
  refine ⟨by decide +kernel, rfl, rfl, rfl, ?_, hmemory, hexternal, fun hagrees => ?_⟩
  · rw [lineOfA, arrivals_one (openInput_spread 4294967295 1) rfl]
    decide
  · have hresult := hagrees.result
    rw [hmemory, hexternal] at hresult
    cases hresult

end Job

end CardSort
