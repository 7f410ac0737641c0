import CardSort.Proofs.Job.Sorting

/-!
# Records that a pass arranges

A pass that does not merge puts the records of its scan into the order of the active keys, or
leaves them as they arrive. If nothing is laid out, it writes what the sum rule makes of them.

* `Job.Stable` — a job that sorts is stable; `Job.arrange`, the records of its scan in final order.
* `Job.dataRecords_eq_ok_iff` — **the data records of a pass, from the records of its scan.**
* `Job.exists_dataRecords_of_run` — a job without destinations writes its header and its data
  records into one sink.
-/

set_option autoImplicit false

namespace CardSort

theorem Feed.eq_ofList {feed : Feed} (h : feed.fault = none) : feed = .ofList feed.records := by
  obtain ⟨records, fault⟩ := feed
  cases h
  rfl

namespace Job

variable {job : Job} {target : Target} {inputs : List Input} {host : Host}
  {written : List Bytes}

/-- The job asks for a stable order if it sorts. -/
def Stable (job : Job) : Prop := job.mode = .sort → job.config.stable = true

/-- Records in the stable order of the active keys; without keys they stay as they are. -/
def arrange (job : Job) (records : List Bytes) : List Bytes :=
  match job.activeComparer with
  | none => records
  | some c => c.sort records

theorem arrange_of_none (hkeys : job.activeComparer = none) (records : List Bytes) :
    job.arrange records = records := by
  simp only [arrange, hkeys]

theorem arrange_of_some {c : Comparer} (hkeys : job.activeComparer = some c)
    (records : List Bytes) : job.arrange records = c.sort records := by
  simp only [arrange, hkeys]

theorem arrange_perm (job : Job) (records : List Bytes) : (job.arrange records).Perm records := by
  cases hkeys : job.activeComparer with
  | none => rw [arrange_of_none hkeys]
  | some c =>
    rw [arrange_of_some hkeys]
    exact (c.sort_keepsTies records).perm

/-! ## Folding and layout -/

theorem foldFeed_of_no_sum (hsum : job.sum = none) (feed : Feed) :
    job.foldFeed feed = ⟨feed, 0, 0⟩ := by
  simp [foldFeed, activeSum, hsum]

theorem foldFeed_of_no_keys (hkeys : job.activeComparer = none) (feed : Feed) :
    job.foldFeed feed = ⟨feed, 0, 0⟩ := by
  unfold foldFeed activeSum
  cases job.sum <;> simp [hkeys]

theorem foldFeed_of_sum {rule : SumRule} {c : Comparer} (hsum : job.sum = some rule)
    (hkeys : job.activeComparer = some c) (feed : Feed) : job.foldFeed feed = rule.fold c feed := by
  simp [foldFeed, activeSum, hsum, hkeys]

/-- A feed that no layout touches is written as it is. -/
theorem complete_layOut_of_no_layout (houtrec : job.outrec = none) {feed : Feed} :
    (job.layOut none feed).complete = .ok written ↔ feed = .ofList written := by
  have hstep : job.layOutRecord none = .ok := by
    funext record
    simp only [layOutRecord, houtrec, Layout.formatWith, ok_bind]
  rw [complete_layOut_iff, hstep, mapM_eq_ok_iff]
  constructor
  · rintro ⟨hfault, hsame⟩
    have hrecords : feed.records = written := by
      refine List.forall₂_eq_eq_eq ▸ hsame.imp ?_
      intro a b hab
      exact Except.ok.inj hab
    rw [← hrecords]
    exact Feed.eq_ofList hfault
  · rintro rfl
    exact ⟨rfl, List.forall₂_same.2 fun _ _ => rfl⟩

/-! ## Data records -/

/-- The records of a pass in final order are those of its scan, arranged. -/
theorem ordered_of_scan (hmode : job.mode ≠ .merge) (hstable : job.Stable) {header : List Bytes}
    {scan : Scan}
    (hscan : job.scan (passFilter target) inputs = .ok (header, scan))
    (hfault : scan.feed.fault = none) :
    job.ordered host target inputs = .ok (.ofList (job.arrange scan.feed.records)) := by
  cases hkeys : job.activeComparer with
  | none =>
    rw [arrange_of_none hkeys, ← Feed.eq_ofList hfault]
    simp only [ordered, hkeys, hscan, ok_bind]
    rfl
  | some c =>
    rw [arrange_of_some hkeys]
    simp only [ordered, hkeys, if_neg hmode, hscan, ok_bind,
      Feed.complete_eq_ok_iff.2 ⟨hfault, rfl⟩,
      place_of_stable (hstable (mode_of_keys hkeys hmode))]
    rfl

/-- **The data records of a pass without layouts** are what the sum rule makes of the records of
its scan, arranged. -/
theorem dataRecords_eq_ok_iff (hmode : job.mode ≠ .merge) (hstable : job.Stable)
    (houtrec : job.outrec = none) (hlayout : passLayout target = none) :
    job.dataRecords host target inputs = .ok written ↔ ∃ header scan,
      job.scan (passFilter target) inputs = .ok (header, scan) ∧ scan.feed.fault = none ∧
      (job.foldFeed (.ofList (job.arrange scan.feed.records))).feed = .ofList written := by
  rw [dataRecords, hlayout]
  constructor
  · intro h
    obtain ⟨feed, hfeed, h⟩ := bind_eq_ok_iff.1 h
    rw [complete_layOut_of_no_layout houtrec] at h
    cases hkeys : job.activeComparer with
    | none =>
      simp only [ordered, hkeys] at hfeed
      obtain ⟨⟨header, scan⟩, hscan, hfeed⟩ := bind_eq_ok_iff.1 hfeed
      cases hfeed
      rw [foldFeed_of_no_keys hkeys] at h
      have hfeed : scan.feed = .ofList written := h
      refine ⟨header, scan, hscan, by rw [hfeed]; rfl, ?_⟩
      rw [arrange_of_none hkeys, foldFeed_of_no_keys hkeys, hfeed]
      rfl
    | some c =>
      simp only [ordered, hkeys, if_neg hmode] at hfeed
      obtain ⟨⟨header, scan⟩, hscan, hfeed⟩ := bind_eq_ok_iff.1 hfeed
      obtain ⟨records, hrecords, hfeed⟩ := bind_eq_ok_iff.1 hfeed
      obtain ⟨hfault, rfl⟩ := Feed.complete_eq_ok_iff.1 hrecords
      cases hfeed
      rw [place_of_stable (hstable (mode_of_keys hkeys hmode)), ← arrange_of_some hkeys] at h
      exact ⟨header, scan, hscan, hfault, h⟩
  · rintro ⟨header, scan, hscan, hfault, h⟩
    rw [ordered_of_scan hmode hstable hscan hfault, ok_bind]
    exact (complete_layOut_of_no_layout houtrec).2 h

/-- **A job without destinations that succeeds** writes its header and its data records into one
sink. -/
theorem exists_dataRecords_of_run {sinks : Nat} {stats : Stats} (hdest : job.destinations = [])
    (h : (job.run host inputs sinks).result = .ok stats) :
    ∃ header written, job.header inputs = .ok header ∧
      job.dataRecords host none inputs = .ok written ∧
      (job.run host inputs sinks).sinks = [job.framing.write (header ++ written)] := by
  obtain ⟨p, hp, hfault, hsinks, -⟩ := exists_pass_of_run hdest h
  obtain ⟨written, hwritten⟩ := exists_dataRecords hp hfault
  obtain ⟨-, -, header, hheader, hbytes⟩ := drained_of_dataRecords hp hwritten
  refine ⟨header, written, hheader, hwritten, ?_⟩
  rw [hsinks, hbytes]

end Job

end CardSort
