import CardSort.Proofs.Framing
import CardSort.Proofs.Job.Distinct

/-!
# Sorting what has been sorted

A job that sorts, and changes no record, leaves its own output as it is: what it has written is
read as it was, passes the same filter and the same checks, and stands in order. Only room may be
lacking: an output that ends with a separator which its input lacked may be too large to be sorted
at once, and has to be spilled.

* `Job.Settled` — **the invariant**: header and records that a run leaves as they are.
* `Job.settled_of_run` — what a run writes is settled.
* `Job.scan_settled` — what is settled is scanned as it was written.
* `Job.exists_run_settled_iff` — a run over settled records succeeds if it finds room.
* `Job.run_repeats` — **a run over its own output reproduces it, if it finds room**.
-/

set_option autoImplicit false

namespace CardSort

/-- Records in key order are sorted already. -/
theorem Comparer.sort_eq_self {c : Comparer} {records : List Bytes}
    (h : records.Pairwise fun a b => c.le a b = true) : c.sort records = records :=
  List.mergeSort_of_pairwise h

namespace Job

variable {job : Job} {c : Comparer} {inputs : List Input} {host : Host}
  {header records written : List Bytes}

/-! ## Records that were read -/

theorem exists_of_openInput {input : Input} {feed : Feed}
    (h : job.openInput input = .ok (header, feed)) :
    ∃ data, input = .present data ∧
      header = (job.framing.records data).records.take job.config.headerRecords ∧
      feed.records = (job.framing.records data).records.drop job.config.headerRecords := by
  cases input with
  | missing => cases h
  | present data =>
    refine ⟨data, rfl, ?_⟩
    simp only [openInput] at h
    split at h
    · split at h
      · cases h
      · cases h
        exact ⟨rfl, rfl⟩
    · cases h
      exact ⟨rfl, rfl⟩

theorem frames_of_openInput (hunbordered : job.framing.Unbordered) {input : Input} {feed : Feed}
    (h : job.openInput input = .ok (header, feed)) :
    ∀ r ∈ header ++ feed.records, job.framing.Frames r := by
  obtain ⟨data, rfl, rfl, hrecords⟩ := exists_of_openInput h
  intro r hr
  rw [hrecords, List.take_append_drop] at hr
  exact Framing.frames_of_mem_records hunbordered hr

theorem frames_of_mem_arrivalsFrom (hunbordered : job.framing.Unbordered) {number : Nat}
    {r : Bytes} (h : r ∈ (job.arrivalsFrom number inputs).records) : job.framing.Frames r := by
  induction inputs generalizing number with
  | nil => cases h
  | cons input inputs ih =>
    rw [arrivalsFrom] at h
    cases hopen : job.openInput input with
    | error f =>
      rw [hopen] at h
      cases h
    | ok opened =>
      obtain ⟨front, feed⟩ := opened
      have hfirst : r ∈ feed.records → job.framing.Frames r := fun hr =>
        frames_of_openInput hunbordered hopen r (List.mem_append_right _ hr)
      simp only [hopen] at h
      cases hfault : feed.fault with
      | some f =>
        simp only [hfault] at h
        exact hfirst h
      | none =>
        simp only [hfault] at h
        rcases List.mem_append.1 h with h | h
        · exact hfirst h
        · exact ih h

theorem frames_of_mem_header (hunbordered : job.framing.Unbordered)
    (h : job.header inputs = .ok header) : ∀ r ∈ header, job.framing.Frames r := by
  cases inputs with
  | nil =>
    cases h
    intro r hr
    cases hr
  | cons input inputs =>
    obtain ⟨⟨front, feed⟩, hopen, h⟩ := bind_eq_ok_iff.1 h
    cases h
    intro r hr
    exact frames_of_openInput hunbordered hopen r (List.mem_append_left _ hr)

theorem header_eq_nil (hzero : job.config.headerRecords = 0)
    (h : job.header inputs = .ok header) : header = [] := by
  cases inputs with
  | nil =>
    cases h
    rfl
  | cons input inputs =>
    obtain ⟨⟨front, feed⟩, hopen, h⟩ := bind_eq_ok_iff.1 h
    cases h
    obtain ⟨data, -, rfl, -⟩ := exists_of_openInput hopen
    rw [hzero, List.take_zero]

/-- Without an input layout a record that goes on goes on again. -/
theorem judge_of_mem_scan (hinrec : job.inrec = none) {scan : Scan}
    (hscan : job.scan none inputs = .ok (header, scan)) {r : Bytes} (hr : r ∈ scan.feed.records) :
    r ∈ (job.arrivals inputs).records ∧ job.judge none r = .ok (.kept r) := by
  obtain ⟨_, _, hscan⟩ := bind_eq_ok_iff.1 hscan
  cases hscan
  obtain ⟨arrived, harrived, hkept⟩ := mem_scanFrom hr
  have hsame := (judge_eq_kept_iff.1 hkept).2.2.1
  rw [hinrec] at hsame
  cases hsame
  exact ⟨harrived, hkept⟩

/-! ## Settled records -/

/-- A run of the job leaves the header and the records as they are. -/
structure Settled (job : Job) (header records : List Bytes) : Prop where
  /-- Each of them is read as it was written. -/
  frames : ∀ r ∈ header ++ records, job.framing.Frames r
  /-- The header is where a run looks for it. -/
  front : (header ++ records).take job.config.headerRecords = header
  kept : ∀ r ∈ records, job.judge none r = .ok (.kept r)
  arranged : job.arrange records = records
  folded : (job.foldFeed (.ofList records)).feed = .ofList records

/-- What comes of records arranged and folded is arranged and folded, and made of them. -/
theorem arranged_again (hsum : job.sum = none ∨ job.sum = some .skipDuplicates)
    (h : (job.foldFeed (.ofList (job.arrange records))).feed = .ofList written) :
    written ⊆ records ∧ job.arrange written = written ∧
      (job.foldFeed (.ofList written)).feed = .ofList written := by
  cases hkeys : job.activeComparer with
  | none =>
    rw [arrange_of_none hkeys, foldFeed_of_no_keys hkeys] at h
    cases h
    refine ⟨List.Subset.refl _, arrange_of_none hkeys _, ?_⟩
    rw [foldFeed_of_no_keys hkeys]
  | some c =>
    have hsort := c.sort_stableOrder records
    rw [arrange_of_some hkeys] at h ⊢
    rcases hsum with hsum | hsum
    · rw [foldFeed_of_no_sum hsum] at h ⊢
      cases h
      exact ⟨hsort.keepsTies.perm.subset, Comparer.sort_eq_self hsort.sorted, rfl⟩
    · rw [(foldFeed_skipDuplicates hkeys hsum _).1] at h ⊢
      cases h
      have hsublist := c.distinct_sublist (c.sort records)
      refine ⟨List.Subset.trans hsublist.subset hsort.keepsTies.perm.subset, ?_, ?_⟩
      · exact Comparer.sort_eq_self (hsort.sorted.sublist hsublist)
      · rw [Comparer.distinct_eq_self (Comparer.distinct_strict hsort.sorted)]

/-- The header of a single input is in front of the records that come of it; an input that ends
within the header has no others. -/
theorem take_header {input : Input} (hheader : job.header [input] = .ok header)
    (hwritten : written ⊆ (job.arrivals [input]).records) :
    (header ++ written).take job.config.headerRecords = header := by
  obtain ⟨⟨front, feed⟩, hopen, h⟩ := bind_eq_ok_iff.1 hheader
  cases h
  obtain ⟨data, rfl, rfl, hrecords⟩ := exists_of_openInput hopen
  by_cases hlong : job.config.headerRecords ≤ (job.framing.records data).records.length
  · exact List.take_left' (List.length_take_of_le hlong)
  · have hnil : feed.records = [] := by
      rw [hrecords]
      exact List.drop_eq_nil_of_le (by omega)
    have hnone : (job.arrivals [.present data]).records = [] := by
      rw [arrivals, arrivalsFrom, hopen]
      cases hfault : feed.fault with
      | some f => simpa only [hfault] using hnil
      | none => simp [hfault, hnil, arrivalsFrom, Feed.prepend, Feed.ofList]
    rw [hnone, List.subset_nil] at hwritten
    rw [hwritten, List.append_nil, List.take_take, Nat.min_self]

/-- **What a run writes is settled.** -/
theorem settled_of_run (hmode : job.mode = .sort) (hstable : job.config.stable = true)
    (hsum : job.sum = none ∨ job.sum = some .skipDuplicates) (hinrec : job.inrec = none)
    (houtrec : job.outrec = none) (hdest : job.destinations = [])
    (hheader : job.config.headerRecords = 0 ∨ ∃ input, inputs = [input])
    (hunbordered : job.framing.Unbordered) {sinks : Nat} {stats : Stats}
    (h : (job.run host inputs sinks).result = .ok stats) :
    ∃ header scan written, job.scan none inputs = .ok (header, scan) ∧
      written ⊆ scan.feed.records ∧ job.Settled header written ∧
      (job.run host inputs sinks).sinks = [job.framing.write (header ++ written)] := by
  have hmerge : job.mode ≠ .merge := by simp [hmode]
  obtain ⟨header, written, hfront, hdata, hsinks⟩ := exists_dataRecords_of_run hdest h
  obtain ⟨header', scan, hscan, -, hfold⟩ :=
    (dataRecords_eq_ok_iff hmerge (fun _ => hstable) houtrec rfl).1 hdata
  obtain rfl : header' = header := Except.ok.inj ((header_of_scan hscan).symm.trans hfront)
  obtain ⟨hsubset, harranged, hfolded⟩ := arranged_again hsum hfold
  have hagain : ∀ r ∈ written, r ∈ (job.arrivals inputs).records ∧
      job.judge none r = .ok (.kept r) := fun r hr => judge_of_mem_scan hinrec hscan (hsubset hr)
  refine ⟨header', scan, written, hscan, hsubset, ⟨?_, ?_, ?_, harranged, hfolded⟩, hsinks⟩
  · intro r hr
    rcases List.mem_append.1 hr with hr | hr
    · exact frames_of_mem_header hunbordered hfront r hr
    · exact frames_of_mem_arrivalsFrom hunbordered (hagain r hr).1
  · rcases hheader with hzero | ⟨input, rfl⟩
    · rw [hzero, header_eq_nil hzero hfront, List.take_zero]
    · exact take_header hfront fun r hr => (hagain r hr).1
  · intro r hr
    exact (hagain r hr).2

/-! ## Runs over settled records -/

/-- A header and records that were written, as the input of another run. -/
def reread (job : Job) (header records : List Bytes) : List Input :=
  [.present (job.framing.write (header ++ records))]

theorem ofVerdicts_kept (records : List Bytes) :
    Scan.ofVerdicts (records.map .kept) = ⟨.ofList records, records.length, 0⟩ := by
  induction records with
  | nil => rfl
  | cons r rs ih =>
    show (Scan.ofVerdicts (rs.map .kept)).count (.kept r) = _
    rw [ih]
    rfl

theorem openInput_settled (hformed : job.framing.WellFormed) (h : job.Settled header records) :
    job.openInput (.present (job.framing.write (header ++ records))) =
      .ok (header, .ofList records) := by
  have hdrop : (header ++ records).drop job.config.headerRecords = records := by
    have hsplit := List.take_append_drop job.config.headerRecords (header ++ records)
    rw [h.front] at hsplit
    exact List.append_cancel_left hsplit
  simp only [openInput, Framing.records_write hformed h.frames, Feed.ofList, h.front, hdrop]

/-- **What is settled is scanned as it was written.** -/
theorem scan_settled (hformed : job.framing.WellFormed) (h : job.Settled header records) :
    job.scan none (job.reread header records) =
      .ok (header, ⟨.ofList records, records.length, 0⟩) := by
  have hverdicts : records.mapM (job.judge none) = .ok (records.map .kept) := by
    rw [mapM_eq_ok_iff, List.forall₂_map_right_iff]
    exact List.forall₂_same.2 h.kept
  rw [← ofVerdicts_kept]
  exact scan_one_of_verdicts (openInput_settled hformed h) rfl hverdicts

theorem dataRecords_settled (hmode : job.mode = .sort) (hstable : job.config.stable = true)
    (houtrec : job.outrec = none) (hformed : job.framing.WellFormed)
    (h : job.Settled header records) :
    job.dataRecords host none (job.reread header records) = .ok records := by
  have hmerge : job.mode ≠ .merge := by simp [hmode]
  refine (dataRecords_eq_ok_iff hmerge (fun _ => hstable) houtrec rfl).2
    ⟨_, _, scan_settled hformed h, rfl, ?_⟩
  show (job.foldFeed (.ofList (job.arrange records))).feed = _
  rw [h.arranged, h.folded]

/-- A pass over settled records that finds room succeeds. -/
theorem exists_pass_settled (hmode : job.mode = .sort) (hstable : job.config.stable = true)
    (hdest : job.destinations = []) (hformed : job.framing.WellFormed)
    (h : job.Settled header records) (hroom : job.HasRoom host (job.reread header records)) :
    ∃ p, job.pass host none (job.reread header records) = .ok p := by
  have hscan := scan_settled hformed h
  cases hkeys : job.activeComparer with
  | none =>
    simp only [pass, hkeys]
    exact ⟨_, bind_eq_ok_iff.2 ⟨_, hscan, rfl⟩⟩
  | some c =>
    have htarget : none ∈ job.targets := by simp [targets, hdest]
    have hsame := pass_of_hasRoom hroom htarget hmode hstable hkeys
    obtain ⟨q, hq⟩ : ∃ q, job.memoryPass host c none (job.reread header records) = .ok q :=
      ⟨_, memoryPass_eq_ok_iff.2 ⟨header, _, hscan, rfl, rfl⟩⟩
    rw [reread, totalSize, totalSize, ok_bind, ← reread, show (pure _ : Except Fault Nat) = .ok _
      from rfl, ok_bind, hq] at hsame
    obtain ⟨p, hp, -⟩ := map_eq_ok_iff.1 hsame
    exact ⟨p, hp⟩

/-- **A run over settled records succeeds** if it finds room, and only then. -/
theorem exists_run_settled_iff (hmode : job.mode = .sort) (hstable : job.config.stable = true)
    (houtrec : job.outrec = none) (hdest : job.destinations = []) {sinks : Nat}
    (hcheck : job.precheck sinks = .ok ()) (hformed : job.framing.WellFormed)
    (h : job.Settled header records) :
    (∃ stats, (job.run host (job.reread header records) sinks).result = .ok stats) ↔
      job.HasRoom host (job.reread header records) := by
  constructor
  · rintro ⟨stats, hrun⟩
    exact hasRoom_of_run hmode hrun
  · intro hroom
    obtain ⟨p, hp⟩ := exists_pass_settled hmode hstable hdest hformed h hroom
    have hdata : job.dataRecords host none (job.reread header records) = .ok records :=
      dataRecords_settled hmode hstable houtrec hformed h
    have htargets : job.targets = [none] := by simp [targets, hdest]
    have hpasses : List.Forall₂ (job.Completes host (job.reread header records)) job.targets
        [p] := by
      rw [htargets]
      exact .cons ⟨hp, (drained_of_dataRecords hp hdata).1⟩ .nil
    exact ⟨_, congrArg Outcome.result (run_of_completes hcheck hpasses)⟩

/-- **A run over settled records writes them as they are.** -/
theorem sinks_of_run_settled (hmode : job.mode = .sort) (hstable : job.config.stable = true)
    (houtrec : job.outrec = none)
    (hdest : job.destinations = []) (hformed : job.framing.WellFormed)
    (h : job.Settled header records) {sinks : Nat} {stats : Stats}
    (hrun : (job.run host (job.reread header records) sinks).result = .ok stats) :
    (job.run host (job.reread header records) sinks).sinks =
      [job.framing.write (header ++ records)] := by
  obtain ⟨p, hp, -, hsinks, -⟩ := exists_pass_of_run hdest hrun
  have hdata : job.dataRecords host none (job.reread header records) = .ok records :=
    dataRecords_settled hmode hstable houtrec hformed h
  obtain ⟨-, -, header', hheader, hbytes⟩ := drained_of_dataRecords hp hdata
  have hsame := header_of_scan (scan_settled hformed h)
  obtain rfl : header' = header := Except.ok.inj (hheader.symm.trans hsame)
  rw [hsinks, hbytes]

/-- **Sorting again changes nothing.** Let a stable job in sort mode change no record: no layout, no
destination, no sum but the one that drops duplicates. Let its framing be unambiguous, and its
header come from one input only. If it succeeds, then a run of the same job over its output
succeeds too, and reproduces this output, unless the first run has sorted at once and the second
one finds no room: the output does not fit into memory, and its records cannot be spilled. -/
theorem run_repeats (hmode : job.mode = .sort) (hstable : job.config.stable = true)
    (hsum : job.sum = none ∨ job.sum = some .skipDuplicates) (hinrec : job.inrec = none)
    (houtrec : job.outrec = none) (hdest : job.destinations = [])
    (hheader : job.config.headerRecords = 0 ∨ ∃ input, inputs = [input])
    (hunbordered : job.framing.Unbordered) {sinks : Nat} {stats : Stats}
    (h : (job.run host inputs sinks).result = .ok stats) :
    ∃ out, (job.run host inputs sinks).sinks = [out] ∧
      ((∃ again, (job.run host [.present out] sinks).result = .ok again) ↔
        (stats.strategy = .inMemory → job.HasRoom host [.present out])) ∧
      ∀ again, (job.run host [.present out] sinks).result = .ok again →
        (job.run host [.present out] sinks).sinks = [out] := by
  obtain ⟨header, scan, written, hscan, hsubset, hsettled, hsinks⟩ :=
    settled_of_run hmode hstable hsum hinrec houtrec hdest hheader hunbordered h
  have hcheck := (exists_completes_of_run h).1
  obtain ⟨_, hvalid, -⟩ := bind_eq_ok_iff.1 hcheck
  have hformed : job.framing.WellFormed := Config.wellFormed_of_validate hvalid
  have hagain : (∃ again, (job.run host (job.reread header written) sinks).result = .ok again) ↔
      _ :=
    exists_run_settled_iff hmode hstable houtrec hdest hcheck hformed hsettled
  refine ⟨_, hsinks, hagain.trans ⟨fun hroom _ => hroom, fun hroom => ?_⟩, fun again =>
    sinks_of_run_settled hmode hstable houtrec hdest hformed hsettled⟩
  obtain ⟨p, hp, -, -, rfl⟩ := exists_pass_of_run hdest h
  -- but for a first run in memory there is room, or no need of it
  rcases pass_cases hmode hp with ⟨hkeys, -⟩ | ⟨hstrategy, -⟩ | ⟨-, hspill, hshort⟩
  · exact .inl hkeys
  · exact hroom hstrategy
  · refine .inr (.inr ⟨hspill, fun target htarget header' scan' hscan' r hr => ?_⟩)
    have hnone : target = none := by simpa [targets, hdest] using htarget
    rw [hnone] at hscan'
    obtain ⟨-, rfl⟩ :=
      Prod.mk.inj (Except.ok.inj ((scan_settled hformed hsettled).symm.trans hscan'))
    exact hshort header scan hscan r (hsubset hr)

/-- Lines with carriage return and line feed in eight bytes of memory: a header, and the lines
sorted by their first byte, without duplicates. -/
def listing : Job :=
  { config := { headerRecords := 1, recordFormat := .separated "\r\n", memoryLimit := 8 }
    comparer := some ⟨[⟨⟨0, 1, .ch, .ascii⟩, .ascending⟩], .native⟩
    sum := some .skipDuplicates }

/-- The last line, `a` and a carriage return, lacks its end. It is written with one, so that the
output no longer fits into memory, and is read back as it was. -/
theorem listing_repeats :
    let inputs : List Input := [.present [0x68, 0x0D, 0x0A, 0x62, 0x0D, 0x0A, 0x61, 0x0D]]
    (listing.run {} inputs 1).sinks =
        [[0x68, 0x0D, 0x0A, 0x61, 0x0D, 0x0D, 0x0A, 0x62, 0x0D, 0x0A]] ∧
      ∃ out, (listing.run {} inputs 1).sinks = [out] ∧
        ((∃ again, (listing.run {} [.present out] 1).result = .ok again) ↔
          (Strategy.inMemory = .inMemory → listing.HasRoom {} [.present out])) ∧
        ∀ again, (listing.run {} [.present out] 1).result = .ok again →
          (listing.run {} [.present out] 1).sinks = [out] :=
  ⟨by cbv, run_repeats rfl rfl (.inr rfl) rfl rfl rfl (.inr ⟨_, rfl⟩) (by decide +kernel)
    (show _ = Except.ok ⟨.inMemory, 2, 0, 0, 2, [2], 0⟩ by cbv)⟩

/-- Without a directory for spilled runs `a` is sorted in one byte of memory, but not with the line
feed that is written behind it. -/
theorem not_repeats_without_room :
    let job : Job :=
      { config := { memoryLimit := 1 }
        comparer := some ⟨[⟨⟨0, 1, .ch, .ascii⟩, .ascending⟩], .native⟩ }
    job.framing.Unbordered ∧
      job.run { spillable := false } [.present [0x61]] 1 =
        ⟨.ok ⟨.inMemory, 1, 0, 0, 1, [1], 0⟩, [[0x61, 0x0A]]⟩ ∧
      job.run { spillable := false } [.present [0x61, 0x0A]] 1 = ⟨.error .io, [[]]⟩ :=
  ⟨by decide +kernel, by cbv, by cbv⟩

end Job

end CardSort
