import CardSort.Proofs.Job.Accounting

/-!
# The first record that fails ends a scan

A scan reads the data records of all inputs in order and stops at the first one that cannot be
read or that a stage does not accept. What it has delivered until then, what it has counted and
the number that its fault carries are said here of the readings alone, without the scan.

* `Job.framed`, `Job.readings` — what an input gives, and what it gives behind its header.
* `Job.HeaderReadable` — the header of an input can be read.
* `Job.Fails` — **how a reading fails**: it is none, or a stage fails on it.
* `Job.judge_eq_error_iff` — the scan decides as `Job.Fails` says.
* `Job.scan_eq_scanReadings` — a scan goes through the readings, wherever one input ends.
* `Job.Stops` — where a scan stops, what it has delivered and what it has counted.
* `Job.scan_stops` — **a scan stops at the first reading that fails, or comes to its end**.
-/

set_option autoImplicit false

namespace CardSort

/-- The number of the record that a fault of the data lies in. -/
def Fault.record? : Fault → Option Nat
  | recordTooShort record _ _ _ | invalidNumber record _ _ | truncated record _ _ => some record
  | _ => none

theorem Fault.record?_atRecord {f : Fault} {number : Nat}
    (h : (f.atRecord number).isDataFault = true) : (f.atRecord number).record? = some number := by
  cases f with
  | recordTooShort | invalidNumber | truncated => rfl
  | _ => cases h

/-- The records of a feed and the fault that ends it, one after the other. -/
def Feed.readings (feed : Feed) : List (Except Fault Bytes) :=
  feed.records.map .ok ++ (feed.fault.map .error).toList

namespace Job

variable {job : Job} {passFilter : Option Filter} {inputs : List Input}

/-! ## Readings -/

/-- The records of an input, header and data. -/
def framed (job : Job) : Input → Feed
  | .missing => .failed .io
  | .present data => job.framing.records data

/-- The header of an input can be read: no fault comes before its end. -/
def HeaderReadable (job : Job) (input : Input) : Prop :=
  input ≠ .missing ∧
    ((job.framed input).fault = none ∨ job.config.headerRecords ≤ (job.framed input).records.length)

instance (input : Input) : Decidable (job.HeaderReadable input) :=
  inferInstanceAs (Decidable (_ ∧ _))

/-- The header records of the first input. -/
def framedHeader (job : Job) : List Input → List Bytes
  | [] => []
  | input :: _ => (job.framed input).records.take job.config.headerRecords

/-- The data of an input as they are read: the records behind its header, and its fault. -/
def readings (job : Job) (input : Input) : List (Except Fault Bytes) :=
  Feed.readings
    { job.framed input with records := (job.framed input).records.drop job.config.headerRecords }

theorem openInput_of_readable {input : Input} (h : job.HeaderReadable input) :
    job.openInput input = .ok ((job.framed input).records.take job.config.headerRecords,
      ⟨(job.framed input).records.drop job.config.headerRecords, (job.framed input).fault⟩) := by
  obtain ⟨hpresent, hheader⟩ := h
  cases input with
  | missing => exact absurd rfl hpresent
  | present data =>
    simp only [openInput, framed] at hheader ⊢
    cases hfault : (job.framing.records data).fault with
    | none => simp only
    | some f =>
      have hcount : ¬ (job.framing.records data).records.length < job.config.headerRecords :=
        Nat.not_lt.2 (hheader.resolve_left (by simp [hfault]))
      simp only [if_neg hcount]

/-! ## Failing -/

/-- Both filters let a record through. -/
def selects (job : Job) (passFilter : Option Filter) (record : Bytes) : Prop :=
  Filter.passes job.filter record = .ok true ∧ Filter.passes passFilter record = .ok true

instance (record : Bytes) : Decidable (job.selects passFilter record) :=
  inferInstanceAs (Decidable (_ ∧ _))

/-- The check of a record fails: the keys, the summed fields or the output layout do not find what
they need. Each comes into play when the ones before it have not failed. -/
inductive Rejects (job : Job) (record : Bytes) (f : Fault) : Prop where
  | keys {c : Comparer} (hkeys : job.activeComparer = some c)
      (hfails : c.validate record = .error f)
  | sum {c : Comparer} {rule : SumRule} (hkeys : job.activeComparer = some c)
      (hvalid : c.validate record = .ok ()) (hsum : job.sum = some rule)
      (hfails : rule.validate record = .error f)
  | outrec {layout : Layout}
      (hvalid : ∀ c, job.activeComparer = some c → c.validate record = .ok () ∧
        ∀ rule, job.sum = some rule → rule.validate record = .ok ())
      (houtrec : job.outrec = some layout) (hfails : layout.validate record = .error f)

/-- A reading fails: no record could be read, or a stage fails on the record. Each stage comes into
play when the ones before it have not failed, the later ones only for records that both filters
let through. -/
inductive Fails (job : Job) (passFilter : Option Filter) : Except Fault Bytes → Fault → Prop where
  | reading (f : Fault) : Fails job passFilter (.error f) f
  | filter {r : Bytes} {f : Fault} (hfails : Filter.passes job.filter r = .error f) :
      Fails job passFilter (.ok r) f
  | passFilter {r : Bytes} {f : Fault} (hpasses : Filter.passes job.filter r = .ok true)
      (hfails : Filter.passes passFilter r = .error f) : Fails job passFilter (.ok r) f
  | inrec {r : Bytes} {f : Fault} (hselects : job.selects passFilter r)
      (hfails : Layout.formatWith job.inrec r = .error f) : Fails job passFilter (.ok r) f
  | check {r out : Bytes} {f : Fault} (hselects : job.selects passFilter r)
      (hinrec : Layout.formatWith job.inrec r = .ok out) (hfails : job.Rejects out f) :
      Fails job passFilter (.ok r) f

/-- The first part of the check: that of keys and summed fields. -/
def checkKeys (job : Job) (record : Bytes) : Except Fault Unit :=
  match job.activeComparer with
  | none => .ok ()
  | some c => do
    c.validate record
    match job.sum with
    | none => .ok ()
    | some rule => rule.validate record

/-- The last part of the check: that of the output layout. -/
def checkLayout (job : Job) (record : Bytes) : Except Fault Unit :=
  match job.outrec with
  | none => .ok ()
  | some layout => layout.validate record

theorem check_eq (record : Bytes) :
    job.check record = (job.checkKeys record >>= fun _ => job.checkLayout record) := by
  unfold check checkKeys checkLayout
  cases job.activeComparer with
  | none => cases job.outrec <;> rfl
  | some c =>
    simp only
    cases c.validate record <;> cases job.sum <;> cases job.outrec <;> rfl

theorem checkKeys_eq_ok_iff {record : Bytes} :
    job.checkKeys record = .ok () ↔ ∀ c, job.activeComparer = some c →
      c.validate record = .ok () ∧ ∀ rule, job.sum = some rule → rule.validate record = .ok () := by
  unfold checkKeys
  cases job.activeComparer with
  | none => simp
  | some c => cases job.sum <;> simp [check_bind_eq_ok_iff]

theorem checkKeys_eq_error_iff {record : Bytes} {f : Fault} :
    job.checkKeys record = .error f ↔ ∃ c, job.activeComparer = some c ∧
      (c.validate record = .error f ∨ c.validate record = .ok () ∧
        ∃ rule, job.sum = some rule ∧ rule.validate record = .error f) := by
  unfold checkKeys
  cases job.activeComparer with
  | none => simp
  | some c => cases job.sum <;> simp [check_bind_eq_error_iff]

/-- A check fails as `Rejects` says. -/
theorem check_eq_error_iff {record : Bytes} {f : Fault} :
    job.check record = .error f ↔ job.Rejects record f := by
  rw [check_eq, check_bind_eq_error_iff, checkKeys_eq_error_iff, checkKeys_eq_ok_iff]
  constructor
  · rintro (⟨c, hkeys, hfails | ⟨hvalid, rule, hsum, hfails⟩⟩ | ⟨hvalid, hfails⟩)
    · exact .keys hkeys hfails
    · exact .sum hkeys hvalid hsum hfails
    · unfold checkLayout at hfails
      split at hfails
      · cases hfails
      · exact .outrec hvalid ‹_› hfails
  · rintro (⟨hkeys, hfails⟩ | ⟨hkeys, hvalid, hsum, hfails⟩ | ⟨hvalid, houtrec, hfails⟩)
    · exact .inl ⟨_, hkeys, .inl hfails⟩
    · exact .inl ⟨_, hkeys, .inr ⟨hvalid, _, hsum, hfails⟩⟩
    · refine .inr ⟨hvalid, ?_⟩
      simpa only [checkLayout, houtrec] using hfails

/-- **The scan decides about a record as `Fails` says.** -/
theorem judge_eq_error_iff {record : Bytes} {f : Fault} :
    job.judge passFilter record = .error f ↔ job.Fails passFilter (.ok record) f := by
  unfold judge
  constructor
  · intro h
    rcases bind_eq_error_iff.1 h with h | ⟨passed, hpassed, h⟩
    · exact .filter h
    cases passed with
    | false => cases h
    | true =>
      rcases bind_eq_error_iff.1 h with h | ⟨chosen, hchosen, h⟩
      · exact .passFilter hpassed h
      cases chosen with
      | false => cases h
      | true =>
        rcases bind_eq_error_iff.1 h with h | ⟨laidOut, hlaidOut, h⟩
        · exact .inrec ⟨hpassed, hchosen⟩ h
        rcases bind_eq_error_iff.1 h with h | ⟨_, _, h⟩
        · exact .check ⟨hpassed, hchosen⟩ hlaidOut (check_eq_error_iff.1 h)
        · cases h
  · rintro (_ | hfails | ⟨hpasses, hfails⟩ | ⟨⟨hpasses, hchosen⟩, hfails⟩ |
      ⟨⟨hpasses, hchosen⟩, hinrec, hfails⟩)
    · rw [hfails]
      rfl
    · rw [hpasses, ok_bind, if_pos rfl, hfails]
      rfl
    · rw [hpasses, ok_bind, if_pos rfl, hchosen, ok_bind, if_pos rfl, hfails]
      rfl
    · rw [hpasses, ok_bind, if_pos rfl, hchosen, ok_bind, if_pos rfl, hinrec, ok_bind,
        check_eq_error_iff.2 hfails]
      rfl

/-! ## Going through readings -/

/-- Scans readings, of which the first one has the given number. -/
def scanReadings (job : Job) (passFilter : Option Filter) (number : Nat) :
    List (Except Fault Bytes) → Scan
  | [] => ⟨.ofList [], 0, 0⟩
  | .error f :: _ => ⟨.failed (f.atRecord number), 0, 0⟩
  | .ok r :: readings =>
    match job.judge passFilter r with
    | .ok verdict => (scanReadings job passFilter (number + 1) readings).count verdict
    | .error f => .stopped (f.atRecord number)

/-- Records in front of a scan are readings in front of those that it goes through. -/
theorem scanFrom_append {fault : Option Fault} {number : Nat} {records rest : List Bytes}
    {readings : List (Except Fault Bytes)}
    (h : job.scanFrom passFilter fault (number + records.length) rest =
      job.scanReadings passFilter (number + records.length) readings) :
    job.scanFrom passFilter fault number (records ++ rest) =
      job.scanReadings passFilter number (records.map .ok ++ readings) := by
  induction records generalizing number with
  | nil => exact h
  | cons r rs ih =>
    rw [List.length_cons, ← Nat.add_assoc, Nat.add_right_comm] at h
    rw [List.cons_append, List.map_cons, List.cons_append, scanFrom, scanReadings]
    cases job.judge passFilter r with
    | error f => rfl
    | ok verdict => simp only [ih h]

theorem scanFrom_arrivalsFrom (hreadable : ∀ input ∈ inputs, job.HeaderReadable input)
    (number : Nat) :
    job.scanFrom passFilter (job.arrivalsFrom number inputs).fault (number + 1)
        (job.arrivalsFrom number inputs).records =
      job.scanReadings passFilter (number + 1) (inputs.flatMap job.readings) := by
  induction inputs generalizing number with
  | nil => rfl
  | cons input inputs ih =>
    have hopen := openInput_of_readable (hreadable input List.mem_cons_self)
    have hrest := ih (fun input hinput => hreadable input (List.mem_cons_of_mem _ hinput))
    rw [List.flatMap_cons, readings, Feed.readings, List.append_assoc]
    generalize (job.framed input).records.drop job.config.headerRecords = records at hopen
    cases hfault : (job.framed input).fault with
    | some f =>
      have hfails : job.scanFrom passFilter (some (f.atRecord (number + records.length + 1)))
          (number + 1 + records.length) [] =
        job.scanReadings passFilter (number + 1 + records.length)
          (.error f :: inputs.flatMap job.readings) := by
        rw [Nat.add_right_comm]
        rfl
      have happend := scanFrom_append hfails
      rw [List.append_nil] at happend
      simp only [arrivalsFrom, hopen, hfault]
      exact happend
    | none =>
      simp only [arrivalsFrom, hopen, hfault, Feed.prepend]
      refine scanFrom_append ?_
      rw [Nat.add_right_comm]
      exact hrest (number + records.length)

/-- **A scan goes through the readings of its inputs**, wherever one of them ends. -/
theorem scan_eq_scanReadings (hreadable : ∀ input ∈ inputs, job.HeaderReadable input) :
    job.scan passFilter inputs = .ok (job.framedHeader inputs,
      job.scanReadings passFilter 1 (inputs.flatMap job.readings)) := by
  have hheader : job.header inputs = .ok (job.framedHeader inputs) := by
    cases inputs with
    | nil => rfl
    | cons input inputs =>
      rw [header, openInput_of_readable (hreadable input List.mem_cons_self)]
      rfl
  rw [scan, hheader, ok_bind, ← scanFrom_arrivalsFrom hreadable 0]
  rfl

/-! ## Where a scan stops -/

/-- A scan of readings stops behind the records `before`, none of which fails: at its end, or at
the first of the readings `rest`. It has delivered what the input layout makes of the records that
both filters let through, it has counted the records read and those that the filter of the job
rejects, and a fault of the data carries the number of the reading that fails. -/
structure Stops (job : Job) (passFilter : Option Filter) (readings : List (Except Fault Bytes))
    (scan : Scan) (before : List Bytes) (rest : List (Except Fault Bytes)) : Prop where
  split : readings = before.map .ok ++ rest
  accepted : ∀ r ∈ before, ∀ f, ¬ job.Fails passFilter (.ok r) f
  delivered : (before.filter fun r => job.selects passFilter r).mapM
    (Layout.formatWith job.inrec) = .ok scan.feed.records
  filtered : scan.filtered = before.countP fun r => Filter.passes job.filter r = .ok false
  read : scan.read = (readings.take (before.length + 1)).countP Except.isOk
  completed : rest = [] → scan.feed.fault = none
  failed : ∀ x after, rest = x :: after → ∃ f, job.Fails passFilter x f ∧
    scan.feed.fault = some (f.atRecord (before.length + 1))

/-- The readings up to the first one that fails. -/
theorem exists_before (job : Job) (passFilter : Option Filter)
    (readings : List (Except Fault Bytes)) :
    ∃ (before : List Bytes) (verdicts : List Verdict) (rest : List (Except Fault Bytes)),
      readings = before.map .ok ++ rest ∧ before.mapM (job.judge passFilter) = .ok verdicts ∧
        ∀ x after, rest = x :: after → ∃ f, job.Fails passFilter x f := by
  induction readings with
  | nil => exact ⟨[], [], [], rfl, rfl, by simp⟩
  | cons x readings ih =>
    cases x with
    | error f =>
      refine ⟨[], [], _, rfl, rfl, ?_⟩
      rintro x after ⟨⟩
      exact ⟨f, .reading f⟩
    | ok r =>
      cases hr : job.judge passFilter r with
      | error f =>
        refine ⟨[], [], _, rfl, rfl, ?_⟩
        rintro x after ⟨⟩
        exact ⟨f, judge_eq_error_iff.1 hr⟩
      | ok v =>
        obtain ⟨before, verdicts, rest, rfl, hverdicts, hrest⟩ := ih
        exact ⟨r :: before, v :: verdicts, rest, rfl,
          mapM_eq_ok_iff.2 (.cons hr (mapM_eq_ok_iff.1 hverdicts)), hrest⟩

theorem scanReadings_append {before : List Bytes} {verdicts : List Verdict}
    (h : before.mapM (job.judge passFilter) = .ok verdicts) (number : Nat)
    (rest : List (Except Fault Bytes)) :
    job.scanReadings passFilter number (before.map .ok ++ rest) =
      (Scan.ofVerdicts verdicts).followedBy
        (job.scanReadings passFilter (number + before.length) rest) := by
  replace h := mapM_eq_ok_iff.1 h
  induction h generalizing number with
  | nil => simp [Scan.ofVerdicts, Scan.followedBy, Feed.prepend, Feed.ofList]
  | @cons r v rs vs hv _ ih =>
    have hcons : Scan.ofVerdicts (v :: vs) = (Scan.ofVerdicts vs).count v := rfl
    rw [List.map_cons, List.cons_append, scanReadings, hv, hcons, Scan.count_followedBy,
      List.length_cons, ← Nat.add_assoc, Nat.add_right_comm, ← ih]

/-- What the verdicts on records deliver. -/
theorem records_ofVerdicts {before : List Bytes} {verdicts : List Verdict}
    (h : before.mapM (job.judge passFilter) = .ok verdicts) :
    (before.filter fun r => job.selects passFilter r).mapM (Layout.formatWith job.inrec) =
      .ok (Scan.ofVerdicts verdicts).feed.records := by
  rw [mapM_eq_ok_iff] at h ⊢
  induction h with
  | nil => exact .nil
  | @cons r v rs vs hv _ ih =>
    have hcons : Scan.ofVerdicts (v :: vs) = (Scan.ofVerdicts vs).count v := rfl
    obtain ⟨hfiltered, hpassedOver⟩ := judge_eq_filtered_iff hv
    rw [hcons]
    cases v with
    | kept out =>
      obtain ⟨hpasses, hchosen, hinrec, -⟩ := judge_eq_kept_iff.1 hv
      rw [List.filter_cons_of_pos (by simpa using ⟨hpasses, hchosen⟩)]
      exact .cons hinrec ih
    | filtered =>
      have hpasses := hfiltered.1 rfl
      rw [List.filter_cons_of_neg (by simp [selects, hpasses])]
      exact ih
    | passedOver =>
      obtain ⟨-, hchosen⟩ := hpassedOver.1 rfl
      rw [List.filter_cons_of_neg (by simp [selects, hchosen])]
      exact ih

/-- The scan that begins where all readings are used up, or where the next one fails. -/
theorem scanReadings_of_rest {rest : List (Except Fault Bytes)}
    (h : ∀ x after, rest = x :: after → ∃ f, job.Fails passFilter x f) (number : Nat) :
    ∃ fault, job.scanReadings passFilter number rest =
        ⟨⟨[], fault⟩, (rest.take 1).countP Except.isOk, 0⟩ ∧
      (rest = [] → fault = none) ∧
      ∀ x after, rest = x :: after →
        ∃ f, job.Fails passFilter x f ∧ fault = some (f.atRecord number) := by
  cases rest with
  | nil => exact ⟨none, rfl, fun _ => rfl, by simp⟩
  | cons x after =>
    obtain ⟨f, hfails⟩ := h x after rfl
    refine ⟨some (f.atRecord number), ?_, by simp, ?_⟩
    · cases x with
      | error f' =>
        cases hfails
        rfl
      | ok r =>
        rw [scanReadings, judge_eq_error_iff.2 hfails]
        rfl
    · rintro x after ⟨⟩
      exact ⟨f, hfails, rfl⟩

theorem scanReadings_stops (job : Job) (passFilter : Option Filter)
    (readings : List (Except Fault Bytes)) :
    ∃ before rest,
      job.Stops passFilter readings (job.scanReadings passFilter 1 readings) before rest := by
  obtain ⟨before, verdicts, rest, rfl, hverdicts, hrest⟩ :=
    exists_before job passFilter readings
  obtain ⟨hread, hfiltered, -⟩ := Scan.ofVerdicts_length verdicts
  obtain ⟨hlength, hcount, -⟩ := count_verdicts hverdicts
  have haccepted : ∀ r ∈ before, ∀ f, ¬ job.Fails passFilter (.ok r) f := by
    intro r hr f hfails
    obtain ⟨v, hv⟩ := exists_eq_ok_of_mapM hverdicts hr
    rw [judge_eq_error_iff.2 hfails] at hv
    cases hv
  have htake : ((before.map Except.ok ++ rest).take (before.length + 1)).countP Except.isOk =
      before.length + (rest.take 1).countP Except.isOk := by
    have hok : (before.map (Except.ok (ε := Fault))).countP Except.isOk = before.length := by
      rw [List.countP_map]
      exact List.countP_eq_length.2 fun _ _ => rfl
    rw [List.take_append, List.length_map, List.take_of_length_le (by simp), List.countP_append,
      hok, Nat.add_sub_cancel_left]
  obtain ⟨fault, hscan, hcompleted, hfailed⟩ := scanReadings_of_rest hrest (before.length + 1)
  refine ⟨before, rest, ?_⟩
  rw [scanReadings_append hverdicts, Nat.add_comm, hscan]
  refine ⟨rfl, haccepted, ?_, ?_, ?_, hcompleted, hfailed⟩
  · rw [records_ofVerdicts hverdicts]
    simp [Scan.followedBy, Feed.prepend]
  · simp only [Scan.followedBy, hfiltered, hcount, Nat.add_zero]
  · rw [htake]
    simp only [Scan.followedBy, hread, hlength]

/-- **A scan stops at the first reading that fails**, or comes to its end. Its header is that of
the first input. -/
theorem scan_stops (hreadable : ∀ input ∈ inputs, job.HeaderReadable input) :
    ∃ scan before rest, job.scan passFilter inputs = .ok (job.framedHeader inputs, scan) ∧
      job.Stops passFilter (inputs.flatMap job.readings) scan before rest ∧
      ∀ f, scan.feed.fault = some f → f.isDataFault = true →
        f.record? = some (before.length + 1) := by
  obtain ⟨before, rest, hstops⟩ :=
    scanReadings_stops job passFilter (inputs.flatMap job.readings)
  refine ⟨_, before, rest, scan_eq_scanReadings hreadable, hstops, ?_⟩
  intro f hfault hdata
  cases rest with
  | nil =>
    rw [hstops.completed rfl] at hfault
    cases hfault
  | cons x after =>
    obtain ⟨f', -, hf'⟩ := hstops.failed x after rfl
    rw [hf'] at hfault
    cases hfault
    exact Fault.record?_atRecord hdata

/-- The header `H0` with `b1`, `b9` and `a2`, and the header `H9` with `a4`, `bz` and `a1`. -/
def tallyBrokenInputs : List Input :=
  [.present [0x48, 0x30, 0x62, 0x31, 0x62, 0x39, 0x61, 0x32],
    .present [0x48, 0x39, 0x61, 0x34, 0x62, 0x7A, 0x61, 0x31]]

/-- The digit to add up is missing in `bz`, the fifth record. Of the four before it `b9` is
filtered. -/
theorem tallyAccounted_stops :
    (∀ input ∈ tallyBrokenInputs, tallyAccounted.HeaderReadable input) ∧
      tallyAccounted.scan none tallyBrokenInputs = .ok ([[0x48, 0x30]],
        ⟨⟨[[0x62, 0x31], [0x61, 0x32], [0x61, 0x34]],
          some (.invalidNumber 5 2 (.codec .zd (.badDigit 10 0x7A)))⟩, 5, 1⟩) ∧
      ∃ scan before rest, tallyAccounted.scan none tallyBrokenInputs =
          .ok (tallyAccounted.framedHeader tallyBrokenInputs, scan) ∧
        tallyAccounted.Stops none (tallyBrokenInputs.flatMap tallyAccounted.readings) scan before
          rest ∧
        ∀ f, scan.feed.fault = some f → f.isDataFault = true →
          f.record? = some (before.length + 1) := by
  have hreadable : ∀ input ∈ tallyBrokenInputs, tallyAccounted.HeaderReadable input := by
    decide +kernel
  exact ⟨hreadable, by cbv, scan_stops hreadable⟩

end Job

end CardSort
