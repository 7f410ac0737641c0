import CardSort.Proofs.Job.Readings
import CardSort.Proofs.Layout.Validation

/-!
# Copying streams its records

A job in copy mode has no order to bring its records into, so each of them is written before the
next one is read. What the sink holds when the job fails is what it would hold if the input ended
there, and neither keys nor sums show.

* `Job.copied` — what copying makes of one record, on its own.
* `Job.copyReadings` — **the literal loop**, which reads a record, lays it out and writes it.
* `Job.layOut_scanReadings` — scan and sink, one after the other, do what the loop does.
* `Job.CopyFails` — the fault of a reading that cannot be copied, with the number it carries.
* `Job.Copies` — **a stream up to the first reading that cannot be copied**.
* `Job.exists_pass_copies` — a pass without keys is such a stream.
* `Job.copy_streams` — **a pass in copy mode is a stream, in which keys and sums do not show**.
-/

set_option autoImplicit false

namespace CardSort

namespace Job

variable {job : Job} {target : Target} {inputs : List Input}

/-! ## One record -/

/-- What copying makes of a record: nothing of one that a filter rejects, otherwise what the input
layout, the output layout and the layout of the target make of it, one after the other. -/
def copied (job : Job) (target : Target) (record : Bytes) : Except Fault (Option Bytes) := do
  if ← Filter.passes job.filter record then
    if ← Filter.passes (passFilter target) record then do
      let laidOut ← Layout.formatWith job.inrec record
      let out ← job.layOutRecord (passLayout target) laidOut
      pure (some out)
    else pure none
  else pure none

theorem copied_of_selects {record : Bytes} (h : job.selects (passFilter target) record) :
    job.copied target record = (do
      let laidOut ← Layout.formatWith job.inrec record
      let out ← job.layOutRecord (passLayout target) laidOut
      pure (some out)) := by
  rw [copied, h.1, ok_bind, if_pos rfl, h.2, ok_bind, if_pos rfl]

theorem copied_of_kept {record laidOut : Bytes}
    (h : job.judge (passFilter target) record = .ok (.kept laidOut)) :
    job.copied target record = (job.layOutRecord (passLayout target) laidOut).map some := by
  obtain ⟨hpasses, hchosen, hinrec, -⟩ := judge_eq_kept_iff.1 h
  rw [copied_of_selects ⟨hpasses, hchosen⟩, hinrec, ok_bind]
  cases job.layOutRecord (passLayout target) laidOut <;> rfl

theorem copied_of_dropped {record : Bytes} {v : Verdict}
    (h : job.judge (passFilter target) record = .ok v) (hv : v = .filtered ∨ v = .passedOver) :
    job.copied target record = .ok none := by
  obtain ⟨hfiltered, hpassedOver⟩ := judge_eq_filtered_iff h
  rcases hv with hv | hv
  · rw [copied, hfiltered.1 hv]
    rfl
  · obtain ⟨hpasses, hchosen⟩ := hpassedOver.1 hv
    rw [copied, hpasses, ok_bind, if_pos rfl, hchosen]
    rfl

/-- A record on which the scan stops cannot be copied: what the scan checks for the output layout
is needed by the layout itself, and nothing else is checked. -/
theorem exists_copied_eq_error (hkeys : job.activeComparer = none) {record : Bytes} {f : Fault}
    (h : job.Fails (passFilter target) (.ok record) f) :
    ∃ e, job.copied target record = .error e := by
  cases h with
  | filter hfails => exact ⟨f, bind_eq_error_iff.2 (.inl hfails)⟩
  | passFilter hpasses hfails =>
    refine ⟨f, ?_⟩
    rw [copied, hpasses, ok_bind, if_pos rfl, hfails]
    rfl
  | inrec hselects hfails =>
    refine ⟨f, ?_⟩
    rw [copied_of_selects hselects, hfails]
    rfl
  | @check _ laidOut _ hselects hinrec hfails =>
    cases hfails with
    | keys hactive => simp [hkeys] at hactive
    | sum hactive => simp [hkeys] at hactive
    | @outrec layout _ houtrec hfails =>
      cases hformat : layout.format laidOut with
      | ok out =>
        rw [Layout.validate_of_format hformat] at hfails
        cases hfails
      | error e =>
        refine ⟨e, ?_⟩
        rw [copied_of_selects hselects, hinrec, ok_bind, layOutRecord, houtrec,
          Layout.formatWith, hformat]
        rfl

/-! ## The loop -/

/-- Reads, lays out and writes record after record. The first reading has the number `arrival`,
the next record to be written the number `output`. -/
def copyReadings (job : Job) (target : Target) (arrival output : Nat) :
    List (Except Fault Bytes) → Feed
  | [] => .ofList []
  | .error f :: _ => .failed (f.atRecord arrival)
  | .ok r :: readings =>
    match job.judge (passFilter target) r with
    | .error f => .failed (f.atRecord arrival)
    | .ok (.kept laidOut) =>
      match job.layOutRecord (passLayout target) laidOut with
      | .error f => .failed (f.atRecord output)
      | .ok out => (copyReadings job target (arrival + 1) (output + 1) readings).cons out
    | .ok _ => copyReadings job target (arrival + 1) output readings

/-- **Scan and sink, one after the other, do what the loop does.** -/
theorem layOut_scanReadings (arrival output : Nat) (readings : List (Except Fault Bytes)) :
    Feed.mapNumbered
        (fun n r => (job.layOutRecord (passLayout target) r).mapError (Fault.atRecord n))
        (job.scanReadings (passFilter target) arrival readings).feed.fault output
        (job.scanReadings (passFilter target) arrival readings).feed.records =
      job.copyReadings target arrival output readings := by
  induction readings generalizing arrival output with
  | nil => rfl
  | cons x readings ih =>
    cases x with
    | error f => rfl
    | ok r =>
      rw [scanReadings, copyReadings]
      cases hr : job.judge (passFilter target) r with
      | error f => rfl
      | ok v =>
        cases v with
        | kept laidOut =>
          simp only [Scan.count, Feed.cons, Feed.mapNumbered]
          cases job.layOutRecord (passLayout target) laidOut with
          | error f => rfl
          | ok out => exact congrArg (Feed.cons out) (ih (arrival + 1) (output + 1))
        | filtered => exact ih (arrival + 1) output
        | passedOver => exact ih (arrival + 1) output

/-! ## Streams -/

/-- The fault of a reading that cannot be copied. One of the scan carries the number of the
reading, one of a layout that is applied at the sink the number of the record to be written. -/
inductive CopyFails (job : Job) (target : Target) (x : Except Fault Bytes) (arrival output : Nat) :
    Fault → Prop where
  | scan {f : Fault} (hfails : job.Fails (passFilter target) x f) :
      CopyFails job target x arrival output (f.atRecord arrival)
  | sink {r laidOut : Bytes} {f : Fault} (hread : x = .ok r)
      (hkept : job.judge (passFilter target) r = .ok (.kept laidOut))
      (hfails : job.layOutRecord (passLayout target) laidOut = .error f) :
      CopyFails job target x arrival output (f.atRecord output)

/-- What copying writes of readings: the records `before` have all been copied, and either nothing
is left or the next reading cannot be copied. -/
structure Copies (job : Job) (target : Target) (arrival output : Nat)
    (readings : List (Except Fault Bytes)) (written : Feed) (before : List Bytes)
    (rest : List (Except Fault Bytes)) : Prop where
  split : readings = before.map .ok ++ rest
  copied : ∃ outs, before.mapM (job.copied target) = .ok outs ∧
    written.records = outs.reduceOption
  completed : rest = [] → written.fault = none
  stopped : ∀ x after, rest = x :: after → (∃ e, x >>= job.copied target = .error e) ∧
    ∃ f, job.CopyFails target x (arrival + before.length) (output + written.records.length) f ∧
      written.fault = some f

namespace Copies

variable {arrival output : Nat} {readings : List (Except Fault Bytes)} {written : Feed}
  {before : List Bytes} {rest : List (Except Fault Bytes)} {r out : Bytes}

theorem nil : job.Copies target arrival output [] (.ofList []) [] [] where
  split := rfl
  copied := ⟨[], rfl, rfl⟩
  completed _ := rfl
  stopped := by simp

/-- The first reading cannot be copied. -/
theorem stop {x : Except Fault Bytes} {f : Fault}
    (hcopied : ∃ e, x >>= job.copied target = .error e)
    (hfails : job.CopyFails target x arrival output f) :
    job.Copies target arrival output (x :: readings) (.failed f) [] (x :: readings) where
  split := rfl
  copied := ⟨[], rfl, rfl⟩
  completed := by simp
  stopped := by
    rintro x after ⟨⟩
    exact ⟨hcopied, f, hfails, rfl⟩

/-- The first record is not written. -/
theorem drop (hr : job.copied target r = .ok none)
    (h : job.Copies target (arrival + 1) output readings written before rest) :
    job.Copies target arrival output (.ok r :: readings) written (r :: before) rest where
  split := by rw [h.split]; rfl
  copied := by
    obtain ⟨outs, houts, hwritten⟩ := h.copied
    exact ⟨none :: outs, mapM_eq_ok_iff.2 (.cons hr (mapM_eq_ok_iff.1 houts)), hwritten⟩
  completed := h.completed
  stopped x after hrest := by
    rw [List.length_cons, ← Nat.add_assoc, Nat.add_right_comm]
    exact h.stopped x after hrest

/-- The first record is written. -/
theorem write (hr : job.copied target r = .ok (some out))
    (h : job.Copies target (arrival + 1) (output + 1) readings written before rest) :
    job.Copies target arrival output (.ok r :: readings) (written.cons out) (r :: before) rest where
  split := by rw [h.split]; rfl
  copied := by
    obtain ⟨outs, houts, hwritten⟩ := h.copied
    refine ⟨some out :: outs, mapM_eq_ok_iff.2 (.cons hr (mapM_eq_ok_iff.1 houts)), ?_⟩
    rw [List.reduceOption_cons_of_some, ← hwritten]
    rfl
  completed := h.completed
  stopped x after hrest := by
    have hstopped := h.stopped x after hrest
    simp only [Feed.cons, List.length_cons] at hstopped ⊢
    rwa [← Nat.add_assoc, Nat.add_right_comm, ← Nat.add_assoc, Nat.add_right_comm output]

theorem fault_eq_none_iff (h : job.Copies target arrival output readings written before rest) :
    written.fault = none ↔ rest = [] := by
  constructor
  · intro hfault
    cases rest with
    | nil => rfl
    | cons x after =>
      obtain ⟨-, f, -, hf⟩ := h.stopped x after rfl
      rw [hfault] at hf
      cases hf
  · exact h.completed

end Copies

/-- The loop copies its readings, by induction on them. -/
theorem copyReadings_copies (hkeys : job.activeComparer = none) (target : Target)
    (arrival output : Nat) (readings : List (Except Fault Bytes)) :
    ∃ before rest, job.Copies target arrival output readings
      (job.copyReadings target arrival output readings) before rest := by
  induction readings generalizing arrival output with
  | nil => exact ⟨[], [], .nil⟩
  | cons x readings ih =>
    cases x with
    | error f => exact ⟨[], _, .stop ⟨f, rfl⟩ (.scan (.reading f))⟩
    | ok r =>
      rw [copyReadings]
      cases hr : job.judge (passFilter target) r with
      | error f =>
        have hfails := judge_eq_error_iff.1 hr
        exact ⟨[], _, .stop (exists_copied_eq_error hkeys hfails) (.scan hfails)⟩
      | ok v =>
        cases v with
        | kept laidOut =>
          have hcopied := copied_of_kept hr
          simp only
          cases hout : job.layOutRecord (passLayout target) laidOut with
          | error f =>
            rw [hout] at hcopied
            exact ⟨[], _, .stop ⟨f, hcopied⟩ (.sink rfl hr hout)⟩
          | ok out =>
            rw [hout] at hcopied
            obtain ⟨before, rest, h⟩ := ih (arrival + 1) (output + 1)
            exact ⟨r :: before, rest, h.write hcopied⟩
        | filtered =>
          obtain ⟨before, rest, h⟩ := ih (arrival + 1) output
          exact ⟨r :: before, rest, h.drop (copied_of_dropped hr (.inl rfl))⟩
        | passedOver =>
          obtain ⟨before, rest, h⟩ := ih (arrival + 1) output
          exact ⟨r :: before, rest, h.drop (copied_of_dropped hr (.inr rfl))⟩

/-! ## Passes -/

/-- A pass without keys writes what the loop writes, after the header. -/
theorem exists_pass_copies (hkeys : job.activeComparer = none)
    (hreadable : ∀ input ∈ inputs, job.HeaderReadable input) (host : Host) (target : Target) :
    ∃ p written before rest, job.pass host target inputs = .ok p ∧
      job.Copies target 1 1 (inputs.flatMap job.readings) written before rest ∧
      p.drained = ⟨job.framing.write (job.framedHeader inputs ++ written.records),
        written.records.length, 0, written.fault⟩ := by
  obtain ⟨before, rest, hcopies⟩ :=
    copyReadings_copies hkeys target 1 1 (inputs.flatMap job.readings)
  rw [pass, hkeys]
  simp only [copyPass, scan_eq_scanReadings hreadable, ok_bind, drain, foldFeed_of_no_keys hkeys,
    layOut, layOut_scanReadings]
  exact ⟨_, _, before, rest, rfl, hcopies, rfl⟩

/-- The same job with other keys and another sum rule. -/
def withKeys (job : Job) (comparer : Option Comparer) (sum : Option SumRule) : Job :=
  { job with comparer, sum }

theorem activeComparer_of_copy (hmode : job.mode = .copy) : job.activeComparer = none := by
  simp only [activeComparer, hmode]

/-- Keys and sums do not show in a pass in copy mode. -/
theorem pass_withKeys (hmode : job.mode = .copy) (comparer : Option Comparer)
    (sum : Option SumRule) (host : Host) (target : Target) (inputs : List Input) :
    (job.withKeys comparer sum).pass host target inputs =
      job.pass host target inputs := by
  have hkeys := activeComparer_of_copy hmode
  have hkeys' : (job.withKeys comparer sum).activeComparer = none := activeComparer_of_copy hmode
  have hopen : ∀ input, (job.withKeys comparer sum).openInput input = job.openInput input :=
    fun _ => rfl
  have hcheck : ∀ r, (job.withKeys comparer sum).check r = job.check r := by
    intro r
    simp only [check_eq, checkKeys, hkeys, hkeys']
    rfl
  have hjudge : ∀ r, (job.withKeys comparer sum).judge (passFilter target) r =
      job.judge (passFilter target) r := by
    intro r
    simp only [judge, hcheck]
    rfl
  simp only [pass, hkeys, hkeys', copyPass, scan_congr hopen hjudge, drain,
    foldFeed_of_no_keys hkeys, foldFeed_of_no_keys hkeys']
  rfl

/-- Passes that are the same make runs that are the same. -/
theorem runPasses_congr {a b : Job} {host : Host}
    (hpass : ∀ target inputs, a.pass host target inputs = b.pass host target inputs)
    (inputs : List Bytes → List Input) (done : List Bytes) (stats : Stats)
    (targets : List Target) :
    a.runPasses host inputs done stats targets =
      b.runPasses host inputs done stats targets := by
  induction targets generalizing done stats with
  | nil => rfl
  | cons target targets ih => simp only [runPasses, hpass, ih]

/-- Keys and sums do not show in a run in copy mode. -/
theorem run_withKeys (hmode : job.mode = .copy) (comparer : Option Comparer)
    (sum : Option SumRule) (host : Host) (inputs : List Input) (sinks : Nat) :
    (job.withKeys comparer sum).run host inputs sinks = job.run host inputs sinks := by
  have hprecheck : (job.withKeys comparer sum).precheck sinks = job.precheck sinks := by
    simp [precheck, withKeys, hmode, sinkCount]
  simp only [run, runReading, hprecheck,
    runPasses_congr (pass_withKeys hmode comparer sum host)]
  rfl

/-- **A pass in copy mode is a stream**: its sink holds the header and what has been written up to
the first reading that cannot be copied, the fault of which ends it. Keys and sums show neither in
the pass nor in a run. -/
theorem copy_streams (hmode : job.mode = .copy)
    (hreadable : ∀ input ∈ inputs, job.HeaderReadable input) (host : Host) (target : Target) :
    (∃ p written before rest, job.pass host target inputs = .ok p ∧
      job.Copies target 1 1 (inputs.flatMap job.readings) written before rest ∧
      p.drained = ⟨job.framing.write (job.framedHeader inputs ++ written.records),
        written.records.length, 0, written.fault⟩ ∧
      (p.drained.fault = none ↔ rest = [])) ∧
    ∀ comparer sum,
      (job.withKeys comparer sum).pass host target inputs =
        job.pass host target inputs ∧
      ∀ sinks, (job.withKeys comparer sum).run host inputs sinks =
        job.run host inputs sinks := by
  refine ⟨?_, fun comparer sum => ⟨pass_withKeys hmode comparer sum host target inputs,
    run_withKeys hmode comparer sum host inputs⟩⟩
  obtain ⟨p, written, before, rest, hpass, hcopies, hdrained⟩ :=
    exists_pass_copies (activeComparer_of_copy hmode) hreadable host target
  refine ⟨p, written, before, rest, hpass, hcopies, hdrained, ?_⟩
  rw [hdrained]
  exact hcopies.fault_eq_none_iff

/-- The job `tallyAccounted` in copy mode, which writes the digit of a record with a zero in front
of it. -/
def tallyCopied : Job :=
  { tallyAccounted with
    mode := .copy
    outrec := some ⟨[⟨none, .copy ⟨0, 1, .ch, .ascii⟩⟩, ⟨none, .edit ⟨1, 1, .zd, .ascii⟩
      ⟨⟨['T', 'T'], none, none⟩, none⟩⟩], .ascii⟩ }

/-- The records in front of `bz` are copied as `b01`, `a02` and `a04`. -/
theorem tallyCopied_streams :
    (∀ input ∈ tallyBrokenInputs, tallyCopied.HeaderReadable input) ∧
    (tallyCopied.pass {} none tallyBrokenInputs).map PassOutcome.drained =
      .ok ⟨[0x48, 0x30, 0x62, 0x30, 0x31, 0x61, 0x30, 0x32, 0x61, 0x30, 0x34], 3, 0,
        some (.invalidNumber 5 2 (.codec .zd (.badDigit 10 0x7A)))⟩ ∧
    (∃ p written before rest, tallyCopied.pass {} none tallyBrokenInputs = .ok p ∧
      tallyCopied.Copies none 1 1 (tallyBrokenInputs.flatMap tallyCopied.readings) written before
        rest ∧
      p.drained = ⟨tallyCopied.framing.write
          (tallyCopied.framedHeader tallyBrokenInputs ++ written.records),
        written.records.length, 0, written.fault⟩ ∧
      (p.drained.fault = none ↔ rest = [])) ∧
    ∀ comparer sum,
      (tallyCopied.withKeys comparer sum).pass {} none tallyBrokenInputs =
        tallyCopied.pass {} none tallyBrokenInputs ∧
      ∀ sinks, (tallyCopied.withKeys comparer sum).run {} tallyBrokenInputs sinks =
        tallyCopied.run {} tallyBrokenInputs sinks := by
  have hreadable : ∀ input ∈ tallyBrokenInputs, tallyCopied.HeaderReadable input := by
    decide +kernel
  exact ⟨hreadable, by cbv, copy_streams rfl hreadable {} none⟩

end Job

end CardSort
