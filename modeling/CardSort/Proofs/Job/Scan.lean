import CardSort.Proofs.Except
import CardSort.Proofs.Order.Merge

/-!
# Scanning inputs together and one by one

A scan that comes to its end is the list of its verdicts, and the verdicts do not depend on the
numbers of the records. So several inputs are scanned together as they are one by one.

* `Job.judge_eq_kept_iff` — when a record goes on, and how.
* `Scan.ofVerdicts` — records kept and counts, of a list of verdicts.
* `Job.scanFrom_eq_ofVerdicts`, `Job.exists_verdicts` — scans without a fault are those in which
  every record gets a verdict.
* `Job.mem_scan` — every record that goes on is an arrival as the input layout leaves it.
* `Job.scan_of_scanEach` — **scanning all inputs gives what scanning each of them gives**, one
  after the other.
-/

set_option autoImplicit false

namespace CardSort

/-! ## Verdicts -/

namespace Scan

/-- What verdicts make of a scan: the records kept, and the counts. -/
def ofVerdicts (verdicts : List Verdict) : Scan := verdicts.foldr count ⟨.ofList [], 0, 0⟩

/-- A scan that came to its end, followed by another one. -/
def followedBy (s t : Scan) : Scan :=
  ⟨t.feed.prepend s.feed.records, s.read + t.read, s.filtered + t.filtered⟩

theorem count_followedBy (v : Verdict) (s t : Scan) :
    (s.count v).followedBy t = (s.followedBy t).count v := by
  cases v <;> simp only [count, followedBy, Feed.cons, Feed.prepend, List.cons_append] <;>
    congr 1 <;> omega

theorem fault_ofVerdicts (verdicts : List Verdict) : (ofVerdicts verdicts).feed.fault = none := by
  induction verdicts with
  | nil => rfl
  | cons v vs ih => cases v <;> exact ih

theorem ofVerdicts_append (vs ws : List Verdict) :
    ofVerdicts (vs ++ ws) = (ofVerdicts vs).followedBy (ofVerdicts ws) := by
  induction vs with
  | nil => simp [ofVerdicts, followedBy, Feed.prepend, Feed.ofList]
  | cons v vs ih =>
    show (ofVerdicts (vs ++ ws)).count v = ((ofVerdicts vs).count v).followedBy (ofVerdicts ws)
    rw [ih, count_followedBy]

end Scan

namespace Job

variable {job : Job} {passFilter : Option Filter}

/-- A record goes on if both filters pass it, and then as the input layout leaves it, provided
that keys, sums and output layout find what they need. -/
theorem judge_eq_kept_iff {record out : Bytes} :
    job.judge passFilter record = .ok (.kept out) ↔
      Filter.passes job.filter record = .ok true ∧ Filter.passes passFilter record = .ok true ∧
        Layout.formatWith job.inrec record = .ok out ∧ job.check out = .ok () := by
  unfold judge
  constructor
  · intro h
    obtain ⟨passed, hpassed, h⟩ := bind_eq_ok_iff.1 h
    cases passed with
    | false => cases h
    | true =>
      obtain ⟨chosen, hchosen, h⟩ := bind_eq_ok_iff.1 h
      cases chosen with
      | false => cases h
      | true =>
        obtain ⟨laidOut, hlaidOut, h⟩ := bind_eq_ok_iff.1 h
        obtain ⟨_, hcheck, h⟩ := bind_eq_ok_iff.1 h
        cases h
        exact ⟨hpassed, hchosen, hlaidOut, hcheck⟩
  · rintro ⟨hpassed, hchosen, hlaidOut, hcheck⟩
    rw [hpassed, ok_bind, if_pos rfl, hchosen, ok_bind, if_pos rfl, hlaidOut, ok_bind, hcheck]
    rfl

/-! ## Scans that come to their end -/

/-- If every record gets a verdict, the scan is that of the verdicts, whatever the numbers. -/
theorem scanFrom_eq_ofVerdicts {records : List Bytes} {verdicts : List Verdict}
    (h : records.mapM (job.judge passFilter) = .ok verdicts) (number : Nat) :
    job.scanFrom passFilter none number records = Scan.ofVerdicts verdicts := by
  replace h := mapM_eq_ok_iff.1 h
  induction h generalizing number with
  | nil => rfl
  | cons hv _ ih =>
    simp only [scanFrom, hv, ih]
    rfl

/-- A scan without a fault gives every record a verdict. -/
theorem exists_verdicts {fault : Option Fault} {number : Nat} {records : List Bytes}
    (h : (job.scanFrom passFilter fault number records).feed.fault = none) :
    fault = none ∧ ∃ verdicts, records.mapM (job.judge passFilter) = .ok verdicts := by
  induction records generalizing number with
  | nil => exact ⟨h, [], rfl⟩
  | cons r rs ih =>
    rw [scanFrom] at h
    cases hr : job.judge passFilter r with
    | error f => simp [hr, Scan.stopped, Feed.failed] at h
    | ok v =>
      simp only [hr] at h
      have hrest : (job.scanFrom passFilter fault (number + 1) rs).feed.fault = none := by
        cases v <;> exact h
      obtain ⟨hfault, vs, hvs⟩ := ih hrest
      exact ⟨hfault, v :: vs, mapM_eq_ok_iff.2 (.cons hr (mapM_eq_ok_iff.1 hvs))⟩

theorem mem_scanFrom {fault : Option Fault} {number : Nat} {records : List Bytes} {out : Bytes}
    (h : out ∈ (job.scanFrom passFilter fault number records).feed.records) :
    ∃ r ∈ records, job.judge passFilter r = .ok (.kept out) := by
  induction records generalizing number with
  | nil => cases h
  | cons r rs ih =>
    rw [scanFrom] at h
    cases hr : job.judge passFilter r with
    | error f => simp [hr, Scan.stopped, Feed.failed] at h
    | ok v =>
      simp only [hr] at h
      have hcase : v = .kept out ∨
          out ∈ (job.scanFrom passFilter fault (number + 1) rs).feed.records := by
        cases v with
        | kept record =>
          rcases List.mem_cons.1 h with rfl | h
          · exact .inl rfl
          · exact .inr h
        | filtered => exact .inr h
        | passedOver => exact .inr h
      rcases hcase with rfl | hout
      · exact ⟨r, List.mem_cons_self, hr⟩
      · obtain ⟨r', hr', hkept⟩ := ih hout
        exact ⟨r', List.mem_cons_of_mem _ hr', hkept⟩

/-- Every record that goes on is an arrival as the input layout leaves it. -/
theorem mem_scan {inputs : List Input} {header : List Bytes} {scan : Scan} {out : Bytes}
    (h : job.scan passFilter inputs = .ok (header, scan)) (hout : out ∈ scan.feed.records) :
    ∃ r ∈ (job.arrivals inputs).records, Layout.formatWith job.inrec r = .ok out := by
  obtain ⟨_, _, h⟩ := bind_eq_ok_iff.1 h
  cases h
  obtain ⟨r, hr, hkept⟩ := mem_scanFrom hout
  exact ⟨r, hr, (judge_eq_kept_iff.1 hkept).2.2.1⟩

/-! ## Inputs one by one -/

theorem arrivalsFrom_cons {input : Input} {header : List Bytes} {feed : Feed}
    (hopen : job.openInput input = .ok (header, feed)) (hfault : feed.fault = none) (number : Nat)
    (inputs : List Input) :
    job.arrivalsFrom number (input :: inputs) =
      (job.arrivalsFrom (number + feed.records.length) inputs).prepend feed.records := by
  simp only [arrivalsFrom, hopen, hfault]

theorem arrivals_one {input : Input} {front : List Bytes} {feed : Feed}
    (hopen : job.openInput input = .ok (front, feed)) (hfault : feed.fault = none) :
    job.arrivals [input] = .ofList feed.records := by
  rw [arrivals, arrivalsFrom_cons hopen hfault]
  simp [arrivalsFrom, Feed.prepend, Feed.ofList]

/-- An input all of whose records get verdicts scans without a fault by itself. -/
theorem scan_one_of_verdicts {input : Input} {front : List Bytes} {feed : Feed}
    {verdicts : List Verdict} (hopen : job.openInput input = .ok (front, feed))
    (hfault : feed.fault = none)
    (h : feed.records.mapM (job.judge passFilter) = .ok verdicts) :
    job.scan passFilter [input] = .ok (front, Scan.ofVerdicts verdicts) := by
  have hheader : job.header [input] = .ok front := by
    simp only [header, hopen]
    rfl
  rw [scan, hheader, ok_bind, arrivals_one hopen hfault]
  show Except.ok (front, job.scanFrom passFilter none 1 feed.records) = _
  rw [scanFrom_eq_ofVerdicts h]

/-- What is known of an input that scans without a fault by itself. -/
theorem exists_of_scan_one {input : Input} {header : List Bytes} {scan : Scan}
    (h : job.scan passFilter [input] = .ok (header, scan)) (hclean : scan.feed.fault = none) :
    ∃ feed verdicts, job.openInput input = .ok (header, feed) ∧ feed.fault = none ∧
      feed.records.mapM (job.judge passFilter) = .ok verdicts ∧
      scan = Scan.ofVerdicts verdicts := by
  obtain ⟨records, hheader, h⟩ := bind_eq_ok_iff.1 h
  cases h
  obtain ⟨⟨header, feed⟩, hopen, h⟩ := bind_eq_ok_iff.1 hheader
  cases h
  obtain ⟨harrived, verdicts, hverdicts⟩ := exists_verdicts hclean
  have hfault : feed.fault = none := by
    cases hf : feed.fault with
    | none => rfl
    | some f => simp [arrivals, arrivalsFrom, hopen, hf] at harrived
  rw [arrivals_one hopen hfault] at hverdicts ⊢
  exact ⟨feed, verdicts, hopen, hfault, hverdicts, scanFrom_eq_ofVerdicts hverdicts 1⟩

/-- The scans of inputs one by one, put together. -/
def gatherScans (scans : List (List Bytes × Scan)) : Scan :=
  ⟨.ofList (Feed.gather (scans.map fun s => s.2.feed)), (scans.map fun s => s.2.read).sum,
    (scans.map fun s => s.2.filtered).sum⟩

theorem gatherScans_cons (header : List Bytes) (scan : Scan) (scans : List (List Bytes × Scan)) :
    gatherScans ((header, scan) :: scans) = scan.followedBy (gatherScans scans) := by
  simp only [gatherScans, Scan.followedBy, List.map_cons, List.sum_cons, Feed.gather_cons]
  rfl

/-- Inputs that scan without a fault one by one deliver their records one after the other. -/
theorem exists_verdicts_of_each {inputs : List Input} {scans : List (List Bytes × Scan)}
    (h : List.Forall₂ (fun input s => job.scan passFilter [input] = .ok s) inputs scans)
    (hclean : ∀ s ∈ scans, s.2.feed.fault = none) (number : Nat) :
    ∃ records verdicts, job.arrivalsFrom number inputs = .ofList records ∧
      records.mapM (job.judge passFilter) = .ok verdicts ∧
      Scan.ofVerdicts verdicts = gatherScans scans := by
  induction h generalizing number with
  | nil => exact ⟨[], [], rfl, rfl, rfl⟩
  | @cons input s inputs scans hs _ ih =>
    obtain ⟨header, scan⟩ := s
    obtain ⟨feed, vs, hopen, hfault, hvs, rfl⟩ :=
      exists_of_scan_one hs (hclean _ List.mem_cons_self)
    obtain ⟨records, ws, hrest, hws, hgather⟩ :=
      ih (fun s hs => hclean s (List.mem_cons_of_mem _ hs)) (number + feed.records.length)
    refine ⟨feed.records ++ records, vs ++ ws, ?_, ?_, ?_⟩
    · rw [arrivalsFrom_cons hopen hfault, hrest]
      rfl
    · rw [List.mapM_append, hvs, ok_bind, hws]
      rfl
    · rw [Scan.ofVerdicts_append, hgather, gatherScans_cons]

/-- The header of inputs is that of the first one. -/
theorem header_of_each {inputs : List Input} {scans : List (List Bytes × Scan)}
    (h : List.Forall₂ (fun input s => job.scan passFilter [input] = .ok s) inputs scans) :
    job.header inputs = .ok ((scans.head?.map Prod.fst).getD []) := by
  cases h with
  | nil => rfl
  | cons hs _ =>
    obtain ⟨records, hheader, hs⟩ := bind_eq_ok_iff.1 hs
    cases hs
    exact hheader

/-- **Scanning inputs together gives what scanning them one by one gives.** -/
theorem scan_of_scanEach {target : Target} {inputs : List Input}
    {scans : List (List Bytes × Scan)} (h : job.scanEach target inputs = .ok scans)
    (hclean : ∀ s ∈ scans, s.2.feed.fault = none) :
    job.scan (Job.passFilter target) inputs =
      .ok ((scans.head?.map Prod.fst).getD [], gatherScans scans) := by
  replace h := mapM_eq_ok_iff.1 h
  obtain ⟨records, verdicts, harrivals, hverdicts, hgather⟩ := exists_verdicts_of_each h hclean 0
  rw [scan, header_of_each h, ok_bind, arrivals, harrivals]
  show Except.ok (_, job.scanFrom (Job.passFilter target) none 1 records) = _
  rw [scanFrom_eq_ofVerdicts hverdicts, hgather]

/-- If all inputs together deliver records without a fault, so does each of them. -/
theorem exists_each_of_verdicts {inputs : List Input} {number : Nat} {verdicts : List Verdict}
    (harrived : (job.arrivalsFrom number inputs).fault = none)
    (h : (job.arrivalsFrom number inputs).records.mapM (job.judge passFilter) = .ok verdicts) :
    ∃ scans, inputs.mapM (fun input => job.scan passFilter [input]) = .ok scans ∧
      ∀ s ∈ scans, s.2.feed.fault = none := by
  induction inputs generalizing number verdicts with
  | nil => exact ⟨[], rfl, by simp⟩
  | cons input inputs ih =>
    cases hopen : job.openInput input with
    | error f => simp [arrivalsFrom, hopen, Feed.failed] at harrived
    | ok opened =>
      obtain ⟨front, feed⟩ := opened
      cases hfault : feed.fault with
      | some f => simp [arrivalsFrom, hopen, hfault] at harrived
      | none =>
        rw [arrivalsFrom_cons hopen hfault] at harrived h
        rw [Feed.prepend, List.mapM_append] at h
        obtain ⟨vs, hvs, h⟩ := bind_eq_ok_iff.1 h
        obtain ⟨ws, hws, h⟩ := bind_eq_ok_iff.1 h
        obtain ⟨scans, hscans, hclean⟩ := ih harrived hws
        have hone := scan_one_of_verdicts hopen hfault hvs
        refine ⟨(front, Scan.ofVerdicts vs) :: scans, ?_, ?_⟩
        · exact mapM_eq_ok_iff.2 (.cons hone (mapM_eq_ok_iff.1 hscans))
        · intro s hs
          rcases List.mem_cons.1 hs with rfl | hs
          · exact Scan.fault_ofVerdicts vs
          · exact hclean s hs

/-- A scan of all inputs without a fault is made of scans of each input without a fault. -/
theorem exists_scanEach_of_scan {target : Target} {inputs : List Input} {front : List Bytes}
    {scan : Scan} (h : job.scan (Job.passFilter target) inputs = .ok (front, scan))
    (hclean : scan.feed.fault = none) :
    ∃ scans, job.scanEach target inputs = .ok scans ∧
      (∀ s ∈ scans, s.2.feed.fault = none) ∧ scan = gatherScans scans := by
  obtain ⟨records, _, hscan⟩ := bind_eq_ok_iff.1 h
  cases hscan
  obtain ⟨harrived, verdicts, hverdicts⟩ := exists_verdicts hclean
  obtain ⟨scans, hscans, hall⟩ := exists_each_of_verdicts harrived hverdicts
  refine ⟨scans, hscans, hall, ?_⟩
  have hsame := h.symm.trans (scan_of_scanEach hscans hall)
  exact (Prod.mk.inj (Except.ok.inj hsame)).2

end Job

end CardSort
