import CardSort.Proofs.Framing.Inverse
import CardSort.Proofs.Job.Scan

/-!
# Scanning record by record

A scan is run as a loop: one input after the other is opened, its header is taken off, and each of
its data records is read, filtered, laid out and checked before the next one is read. Nothing but
the open input and two counts is kept from one record to the next.

* `Reader.feed` — what a reader still delivers; `Reader.takeUpTo_eq` takes a header off it.
* `Scanner` — the state of the loop, `Scanner.openNext` and `Scanner.step` what it does.
* `Scanner.run` — **the literal loop**, which ends because each step shortens what is left.
* `Scanner.left` — the data records that are left, and the fault that ends them.
* `Scanner.run_eq` — the loop scans what is left, by its recursion.
* `Scanner.scan_eq` — **it scans as `Job.scan` does**, also where a header cannot be read.
-/

set_option autoImplicit false

namespace CardSort

/-! ## Readers -/

namespace Reader

variable {r r' : Reader}

/-- What a reader delivers when it is asked again and again. -/
def feed (r : Reader) : Feed := r.framing.recordsFrom (r.count + 1) r.data

theorem feed_of_end (h : r.next = (.ok none, r')) : r.feed = .ofList [] := by
  rw [feed, recordsFrom_eq, h]

theorem feed_of_record {record : Bytes} (h : r.next = (.ok (some record), r')) :
    r.feed = r'.feed.cons record := by
  rw [feed, recordsFrom_eq, h]
  rfl

theorem feed_of_fault {f : Fault} (h : r.next = (.error f, r')) : r.feed = .failed f := by
  rw [feed, recordsFrom_eq, h]

/-- Asking a reader at its end changes nothing. -/
theorem eq_of_end (h : r.next = (.ok none, r')) : r' = r := by
  unfold next at h
  split at h <;> cases h
  rfl

theorem length_lt_of_next {record : Bytes} (h : r.next = (.ok (some record), r')) :
    r'.data.length < r.data.length := by
  unfold next at h
  split at h
  · cases h
  · rename_i hcut
    cases h
    exact Framing.length_lt_of_cut hcut
  · cases h
  · cases h

/-- Reads records, `count` of them at the most. -/
def takeUpTo : Nat → Reader → Except Fault (List Bytes × Reader)
  | 0, r => .ok ([], r)
  | count + 1, r =>
    match r.next with
    | (.error f, _) => .error f
    | (.ok none, r) => .ok ([], r)
    | (.ok (some record), r) => do
      let (records, r) ← takeUpTo count r
      pure (record :: records, r)

/-- Records can be taken off as long as no fault comes before them. -/
theorem takeUpTo_eq (count : Nat) (r : Reader)
    (h : r.feed.fault = none ∨ count ≤ r.feed.records.length) :
    ∃ r', takeUpTo count r = .ok (r.feed.records.take count, r') ∧
      r'.feed = ⟨r.feed.records.drop count, r.feed.fault⟩ := by
  induction count generalizing r with
  | zero => exact ⟨r, rfl, rfl⟩
  | succ count ih =>
    rw [takeUpTo]
    match hnext : r.next with
    | (.error f, r') =>
      simp [feed_of_fault hnext, Feed.failed] at h
    | (.ok none, r') =>
      rw [eq_of_end hnext]
      refine ⟨r, ?_, ?_⟩
      · simp [feed_of_end hnext, Feed.ofList]
      · simp [feed_of_end hnext, Feed.ofList]
    | (.ok (some record), r') =>
      rw [feed_of_record hnext] at h ⊢
      obtain ⟨r'', hrest, hfeed⟩ := ih r' (h.imp_right Nat.le_of_succ_le_succ)
      refine ⟨r'', ?_, hfeed⟩
      simp only [hrest]
      rfl

theorem length_takeUpTo {count : Nat} {r r' : Reader} {records : List Bytes}
    (h : takeUpTo count r = .ok (records, r')) : r'.data.length ≤ r.data.length := by
  induction count generalizing r records with
  | zero =>
    cases h
    exact Nat.le_refl _
  | succ count ih =>
    rw [takeUpTo] at h
    split at h
    · cases h
    · rename_i hnext
      cases h
      rw [eq_of_end hnext]
    · rename_i hnext
      obtain ⟨⟨front, r''⟩, hrest, h⟩ := bind_eq_ok_iff.1 h
      cases h
      exact (ih hrest).trans (length_lt_of_next hnext).le

theorem takeUpTo_of_fault {count : Nat} {r : Reader} {f : Fault} (hfault : r.feed.fault = some f)
    (hcount : r.feed.records.length < count) : takeUpTo count r = .error f := by
  induction count generalizing r with
  | zero => cases hcount
  | succ count ih =>
    rw [takeUpTo]
    match hnext : r.next with
    | (.error f', r') =>
      rw [feed_of_fault hnext] at hfault
      cases hfault
      rfl
    | (.ok none, r') =>
      rw [feed_of_end hnext] at hfault
      cases hfault
    | (.ok (some record), r') =>
      rw [feed_of_record hnext] at hfault hcount
      simp only [ih hfault (Nat.lt_of_succ_lt_succ hcount)]
      rfl

end Reader

/-- The data records of an input that is open, `number` data records having been read before, and
those of the inputs behind it. -/
def Job.arrivalsBehind (job : Job) (number : Nat) (feed : Feed) (inputs : List Input) : Feed :=
  match feed.fault with
  | some f => ⟨feed.records, some (f.atRecord (number + feed.records.length + 1))⟩
  | none => (job.arrivalsFrom (number + feed.records.length) inputs).prepend feed.records

theorem Job.arrivalsBehind_cons (job : Job) (number : Nat) (record : Bytes) (feed : Feed)
    (inputs : List Input) :
    job.arrivalsBehind number (feed.cons record) inputs =
      (job.arrivalsBehind (number + 1) feed inputs).cons record := by
  have hnumber : number + (feed.records.length + 1) = number + 1 + feed.records.length := by omega
  unfold arrivalsBehind
  simp only [Feed.cons, List.length_cons, hnumber]
  cases feed.fault <;> rfl

/-! ## The loop -/

/-- The state of a scan: the inputs that have not been opened, the reader of the one that is open,
and the counts. -/
structure Scanner where
  waiting : List Input
  reader : Option Reader := none
  read : Nat := 0
  filtered : Nat := 0
deriving DecidableEq, Repr

namespace Scanner

/-- What one step of a scan does. -/
inductive Step where
  /-- No input is left. -/
  | finished
  /-- The scan stops with a fault. -/
  | failed (f : Fault) (s : Scanner)
  /-- A record goes on. -/
  | delivered (record : Bytes) (s : Scanner)
  /-- No record goes on yet. -/
  | idle (s : Scanner)

/-- The state in which a scan goes on. -/
def Step.next? : Step → Option Scanner
  | finished | failed _ _ => none
  | delivered _ s | idle s => some s

variable (job : Job) (passFilter : Option Filter)

/-- Opens the next input and takes its header off. -/
def openNext (s : Scanner) : Except Fault (List Bytes × Scanner) :=
  match s.waiting with
  | [] => .ok ([], { s with reader := none })
  | .missing :: _ => .error .io
  | .present data :: inputs => do
    let (header, reader) ← Reader.takeUpTo job.config.headerRecords { framing := job.framing, data }
    pure (header, { s with waiting := inputs, reader := some reader })

/-- Reads one record, or opens the next input at the end of the one that is open. -/
def step (s : Scanner) : Step :=
  match s.reader with
  | none => .finished
  | some reader =>
    match reader.next with
    | (.error f, _) => .failed (f.atRecord (s.read + 1)) s
    | (.ok none, _) =>
      match s.openNext job with
      | .error f => .failed f s
      | .ok (_, s) => .idle s
    | (.ok (some record), reader) =>
      let s := { s with reader := some reader, read := s.read + 1 }
      match job.judge passFilter record with
      | .error f => .failed (f.atRecord s.read) s
      | .ok (.kept out) => .delivered out s
      | .ok .filtered => .idle { s with filtered := s.filtered + 1 }
      | .ok .passedOver => .idle s

/-- The bytes that are left, and one for the end of each input, and one for each to be opened. -/
def remaining (s : Scanner) : Nat :=
  (s.waiting.map fun
    | .missing => 2
    | .present data => data.length + 2).sum +
  match s.reader with
  | none => 0
  | some reader => reader.data.length + 1

variable {job passFilter} {s s' : Scanner}

/-- An input that has been opened holds no more than it did before. -/
theorem remaining_openNext {reader : Reader} {header : List Bytes}
    (hreader : s.reader = some reader) (h : s.openNext job = .ok (header, s')) :
    s'.remaining < s.remaining := by
  unfold openNext at h
  split at h
  · cases h
    simp [remaining, hreader]
  · cases h
  · rename_i data inputs hwaiting
    obtain ⟨⟨front, opened⟩, htake, h⟩ := bind_eq_ok_iff.1 h
    cases h
    have hlength : opened.data.length ≤ data.length := Reader.length_takeUpTo htake
    simp only [remaining, hreader, hwaiting, List.map_cons, List.sum_cons]
    omega

theorem remaining_step (h : (s.step job passFilter).next? = some s') :
    s'.remaining < s.remaining := by
  unfold step at h
  split at h
  · cases h
  rename_i reader hreader
  split at h
  · cases h
  · split at h
    · cases h
    · rename_i hopen
      cases h
      exact remaining_openNext hreader hopen
  · rename_i record reader' hnext
    have hlength := Reader.length_lt_of_next hnext
    have hread : ∀ read filtered,
        ({ s with reader := some reader', read, filtered } : Scanner).remaining < s.remaining := by
      intro read filtered
      simp only [remaining, hreader]
      omega
    split at h <;> cases h <;> exact hread _ _

variable (job passFilter) in
/-- Goes on step by step until a fault or the end, and delivers records on the way. -/
def run (s : Scanner) : Scan :=
  match _step : s.step job passFilter with
  | .finished => ⟨.ofList [], s.read, s.filtered⟩
  | .failed f s' => ⟨.failed f, s'.read, s'.filtered⟩
  | .delivered record s' =>
    let scan := run s'
    { scan with feed := scan.feed.cons record }
  | .idle s' => run s'
termination_by s.remaining
decreasing_by
  · exact remaining_step (by rw [_step]; rfl)
  · exact remaining_step (by rw [_step]; rfl)

theorem run_step (s : Scanner) :
    s.run job passFilter =
      match s.step job passFilter with
      | .finished => ⟨.ofList [], s.read, s.filtered⟩
      | .failed f s' => ⟨.failed f, s'.read, s'.filtered⟩
      | .delivered record s' =>
        let scan := s'.run job passFilter
        { scan with feed := scan.feed.cons record }
      | .idle s' => s'.run job passFilter := by
  rw [run]
  split <;> simp only [*]

variable (job passFilter) in
/-- Opens the first input, keeps its header, and scans all inputs. -/
def scan (inputs : List Input) : Except Fault (List Bytes × Scan) := do
  let (header, s) ← openNext job { waiting := inputs }
  pure (header, s.run job passFilter)

/-! ## What the loop scans -/

variable (job passFilter) in
/-- The data records that are left, and the fault that ends them. -/
def left (s : Scanner) : Feed :=
  match s.reader with
  | none => .ofList []
  | some reader => job.arrivalsBehind s.read reader.feed s.waiting

variable (job passFilter) in
/-- The counts of a scanner with the scan of all that is left. -/
def scanLeft (s : Scanner) : Scan :=
  let scan := job.scanFrom passFilter (s.left job).fault (s.read + 1) (s.left job).records
  { scan with read := s.read + scan.read, filtered := s.filtered + scan.filtered }

/-- Taking the header off an input opens it. -/
theorem openInput_present (data : Bytes) :
    job.openInput (.present data) =
      (Reader.takeUpTo job.config.headerRecords { framing := job.framing, data }).map
        fun (header, reader) => (header, reader.feed) := by
  generalize hreader : ({ framing := job.framing, data } : Reader) = reader
  have hfeed : job.framing.records data = reader.feed := by rw [← hreader]; rfl
  simp only [Job.openInput, hfeed]
  cases hfault : reader.feed.fault with
  | none =>
    obtain ⟨r, htake, hrest⟩ := reader.takeUpTo_eq job.config.headerRecords (.inl hfault)
    rw [htake]
    simp [Except.map, hrest, hfault]
  | some f =>
    by_cases hcount : reader.feed.records.length < job.config.headerRecords
    · rw [Reader.takeUpTo_of_fault hfault hcount]
      simp only [if_pos hcount]
      rfl
    · obtain ⟨r, htake, hrest⟩ :=
        reader.takeUpTo_eq job.config.headerRecords (.inr (Nat.le_of_not_lt hcount))
      rw [htake]
      simp [Except.map, hrest, hfault, hcount]

theorem arrivalsFrom_of_openNext_error {f : Fault} (h : s.openNext job = .error f) :
    job.arrivalsFrom s.read s.waiting = .failed f := by
  unfold openNext at h
  split at h
  · cases h
  · rename_i hwaiting
    cases h
    rw [hwaiting]
    rfl
  · rename_i data inputs hwaiting
    rw [hwaiting, Job.arrivalsFrom, openInput_present]
    cases htake : Reader.takeUpTo job.config.headerRecords { framing := job.framing, data } with
    | error f' =>
      simp only [htake] at h
      cases h
      rfl
    | ok taken =>
      simp only [htake] at h
      cases h

/-- The records that are left begin behind the header when the next input has been opened. -/
theorem left_of_openNext {header : List Bytes} (h : s.openNext job = .ok (header, s')) :
    s'.left job = job.arrivalsFrom s.read s.waiting ∧ s'.read = s.read ∧
      s'.filtered = s.filtered := by
  unfold openNext at h
  split at h
  · rename_i hwaiting
    cases h
    rw [hwaiting]
    exact ⟨rfl, rfl, rfl⟩
  · cases h
  · rename_i data inputs hwaiting
    obtain ⟨⟨front, reader⟩, htake, h⟩ := bind_eq_ok_iff.1 h
    cases h
    refine ⟨?_, rfl, rfl⟩
    rw [hwaiting, Job.arrivalsFrom, openInput_present, htake]
    rfl

/-- **What a step does to the scan of what is left**: it delivers a record, stops, or goes on. -/
theorem scanLeft_step (s : Scanner) :
    s.scanLeft job passFilter =
      match s.step job passFilter with
      | .finished => ⟨.ofList [], s.read, s.filtered⟩
      | .failed f s' => ⟨.failed f, s'.read, s'.filtered⟩
      | .delivered record s' =>
        let scan := s'.scanLeft job passFilter
        { scan with feed := scan.feed.cons record }
      | .idle s' => s'.scanLeft job passFilter := by
  cases hreader : s.reader with
  | none => simp [scanLeft, left, step, hreader, Job.scanFrom, Feed.ofList]
  | some reader =>
    rcases hnext : reader.next with ⟨f | _ | record, reader'⟩
    · have hleft : s.left job = ⟨[], some (f.atRecord (s.read + 1))⟩ := by
        simp only [left, hreader, Reader.feed_of_fault hnext]
        rfl
      simp only [step, hreader, hnext, scanLeft, hleft]
      rfl
    · -- the input ends
      have hleft : s.left job = job.arrivalsFrom s.read s.waiting := by
        simp only [left, hreader, Reader.feed_of_end hnext]
        rfl
      cases hopen : s.openNext job with
      | error f =>
        simp only [step, hreader, hnext, hopen, scanLeft, hleft,
          arrivalsFrom_of_openNext_error hopen]
        rfl
      | ok opened =>
        obtain ⟨header, s'⟩ := opened
        obtain ⟨hleft', hread, hfiltered⟩ := left_of_openNext hopen
        simp only [step, hreader, hnext, hopen, scanLeft, hleft, hleft', hread, hfiltered]
    · have hleft : s.left job =
          (({ s with reader := some reader', read := s.read + 1 } : Scanner).left job).cons
            record := by
        simp only [left, hreader, Reader.feed_of_record hnext]
        exact job.arrivalsBehind_cons ..
      cases hjudge : job.judge passFilter record with
      | error f =>
        simp only [step, hreader, hnext, hjudge, scanLeft, hleft, Feed.cons, Job.scanFrom]
        rfl
      | ok verdict =>
        cases verdict with
        | kept out =>
          simp only [step, hreader, hnext, hjudge, scanLeft, hleft, Feed.cons, Job.scanFrom,
            Scan.count, Nat.add_assoc, Nat.add_comm 1]
        | filtered =>
          simp only [step, hreader, hnext, hjudge, scanLeft, hleft, Feed.cons, Job.scanFrom,
            Scan.count, Nat.add_assoc, Nat.add_comm 1]
          rfl
        | passedOver =>
          simp only [step, hreader, hnext, hjudge, scanLeft, hleft, Feed.cons, Job.scanFrom,
            Scan.count, Nat.add_assoc, Nat.add_comm 1]

/-- The loop scans what is left, by its recursion. -/
theorem run_eq (s : Scanner) : s.run job passFilter = s.scanLeft job passFilter := by
  induction s using run.induct job passFilter with
  | case1 s hstep => rw [run_step, scanLeft_step, hstep]
  | case2 s f s' hstep => rw [run_step, scanLeft_step, hstep]
  | case3 s record s' hstep ih =>
    rw [run_step, scanLeft_step, hstep]
    simp only [ih]
  | case4 s s' hstep ih =>
    rw [run_step, scanLeft_step, hstep]
    exact ih

theorem header_eq (inputs : List Input) :
    job.header inputs = (openNext job { waiting := inputs }).map Prod.fst := by
  cases inputs with
  | nil => rfl
  | cons input inputs =>
    cases input with
    | missing => rfl
    | present data =>
      simp only [Job.header, openNext, openInput_present]
      cases Reader.takeUpTo job.config.headerRecords { framing := job.framing, data } <;> rfl

/-- **Scanning record by record is scanning**, also where a header cannot be read. -/
theorem scan_eq (inputs : List Input) :
    Scanner.scan job passFilter inputs = job.scan passFilter inputs := by
  rw [scan, Job.scan, header_eq]
  cases hopen : openNext job { waiting := inputs } with
  | error f => rfl
  | ok opened =>
    obtain ⟨header, s⟩ := opened
    obtain ⟨hleft, hread, hfiltered⟩ := left_of_openNext hopen
    show Except.ok (header, s.run job passFilter) = .ok (header, _)
    rw [run_eq, scanLeft, hleft, hread, hfiltered]
    simp only [Job.arrivals, Nat.zero_add]

end Scanner

end CardSort
