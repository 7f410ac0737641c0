import CardSort.Proofs.Job.Readings
import CardSort.Proofs.Job.Success
import CardSort.Proofs.Layout.Validation
import CardSort.Proofs.Order.Mapped

/-!
# Layouts that keep the keys

A job can lay out its records before they are brought into order or when they are written. If the
layout leaves the bytes of the keys of all records alone, a scan with the layout delivers what the
layout makes of the records that a scan without it delivers.

* `Job.layOutFirst`, `Job.layOutLast` — the job with the layout before and after the order.
* `Job.KeepsKeys`, `Job.KeepsAll` — **what is asked of the layout**, for all survivors.
* `Layout.keeping` — the layout as a change of all records that never moves a key.
* `Job.judge_layOut` — a record is judged alike, with the layout before the check or without it.
* `Job.scan_layOut` — **a scan ends alike**, and its records are those laid out.
* `Job.drain_layOut` — records laid out before the sink or in it make the same bytes.
-/

set_option autoImplicit false

namespace CardSort

theorem Field.validate_congr_bytes {f : Field} {a b : Bytes} (h : f.bytes a = f.bytes b) :
    f.validate a = f.validate b := by
  unfold Field.validate Field.decimal
  rw [h]

/-- A field that passes its check exists. -/
theorem Field.exists_bytes_of_validate {f : Field} {record : Bytes}
    (h : f.validate record = .ok ()) : ∃ b, f.bytes record = .ok b := by
  unfold validate at h
  split at h
  · obtain ⟨value, hvalue, -⟩ := bind_eq_ok_iff.1 h
    obtain ⟨b, hb, -⟩ := bind_eq_ok_iff.1 hvalue
    exact ⟨b, hb⟩
  · obtain ⟨b, hb, -⟩ := bind_eq_ok_iff.1 h
    exact ⟨b, hb⟩

/-! ## A change that never moves a key -/

/-- The record as the layout leaves it, provided that this leaves the bytes of all keys alone. -/
def Layout.keeping (layout : Layout) (keys : List SortKey) (record : Bytes) : Bytes :=
  match layout.format record with
  | .ok out => if ∀ k ∈ keys, k.field.bytes out = k.field.bytes record then out else record
  | .error _ => record

theorem Layout.bytes_keeping (layout : Layout) (keys : List SortKey) (record : Bytes) :
    ∀ k ∈ keys, k.field.bytes (layout.keeping keys record) = k.field.bytes record := by
  intro k hk
  unfold keeping
  split
  · split
    · rename_i hkept
      exact hkept k hk
    · rfl
  · rfl

/-- The verdict with the record changed. -/
def Verdict.map (f : Bytes → Bytes) : Verdict → Verdict
  | kept record => kept (f record)
  | filtered => filtered
  | passedOver => passedOver

/-- The scan with all records changed. -/
def Scan.map (f : Bytes → Bytes) (s : Scan) : Scan := { s with feed := s.feed.map f }

theorem Scan.map_count (f : Bytes → Bytes) (v : Verdict) (s : Scan) :
    (s.count v).map f = (s.map f).count (v.map f) := by
  cases v <;> rfl

theorem Feed.complete_map (f : Bytes → Bytes) (feed : Feed) :
    (feed.map f).complete = feed.complete.map (List.map f) := by
  obtain ⟨records, fault⟩ := feed
  cases fault <;> rfl

namespace Job

variable {job : Job} {layout : Layout} {inputs : List Input} {r out : Bytes}

/-- The job that lays out its records before it brings them into order. -/
def layOutFirst (job : Job) (layout : Layout) : Job := { job with inrec := some layout }

/-- The job that lays out its records when it writes them. -/
def layOutLast (job : Job) (layout : Layout) : Job := { job with outrec := some layout }

@[simp] theorem layOutFirst_outrec (job : Job) (layout : Layout) :
    (job.layOutFirst layout).outrec = job.outrec := rfl

@[simp] theorem layOutLast_inrec (job : Job) (layout : Layout) :
    (job.layOutLast layout).inrec = job.inrec := rfl

/-- The keys that order the records. -/
def activeKeys (job : Job) : List SortKey := (job.activeComparer.map Comparer.keys).getD []

/-- The layout makes `out` of the record, and each key exists in both with the same bytes, which
decode if the key is numeric. -/
structure KeepsKeys (job : Job) (layout : Layout) (record out : Bytes) : Prop where
  format : layout.format record = .ok out
  valid : ∀ k ∈ job.activeKeys, k.field.validate record = .ok ()
  bytes : ∀ k ∈ job.activeKeys, ∃ b, k.field.bytes record = .ok b ∧ k.field.bytes out = .ok b

theorem activeKeys_of_some {c : Comparer} (hkeys : job.activeComparer = some c) :
    job.activeKeys = c.keys := by
  rw [activeKeys, hkeys]
  rfl

theorem KeepsKeys.bytes_eq (h : job.KeepsKeys layout r out) :
    ∀ k ∈ job.activeKeys, k.field.bytes out = k.field.bytes r := by
  intro k hk
  obtain ⟨b, hr, hout⟩ := h.bytes k hk
  rw [hr, hout]

/-- Keys that decode, with bytes that stay the same, are kept. -/
theorem keepsKeys_of_bytes_eq (hformat : layout.format r = .ok out)
    (hvalid : ∀ k ∈ job.activeKeys, k.field.validate r = .ok ())
    (hbytes : ∀ k ∈ job.activeKeys, k.field.bytes out = k.field.bytes r) :
    job.KeepsKeys layout r out := by
  refine ⟨hformat, hvalid, fun k hk => ?_⟩
  obtain ⟨b, hb⟩ := Field.exists_bytes_of_validate (hvalid k hk)
  exact ⟨b, hb, (hbytes k hk).trans hb⟩

theorem KeepsKeys.keeping_eq (h : job.KeepsKeys layout r out) :
    layout.keeping job.activeKeys r = out := by
  rw [Layout.keeping, h.format]
  exact if_pos h.bytes_eq

/-- Keys that are kept pass their check before and after. -/
theorem KeepsKeys.valid_out (h : job.KeepsKeys layout r out) :
    ∀ k ∈ job.activeKeys, k.field.validate out = .ok () := by
  intro k hk
  rw [Field.validate_congr_bytes (h.bytes_eq k hk)]
  exact h.valid k hk

theorem unmoved_keeping {c : Comparer} (hkeys : job.activeComparer = some c) (layout : Layout) :
    c.Unmoved (layout.keeping job.activeKeys) := by
  rw [activeKeys_of_some hkeys]
  exact Comparer.unmoved_of_bytes (layout.bytes_keeping c.keys)

/-- The job neither lays out its records nor sums, and has no destinations. -/
structure Bare (job : Job) : Prop where
  inrec : job.inrec = none
  outrec : job.outrec = none
  sum : job.sum = none
  destinations : job.destinations = []

/-! ## Scans -/

/-- A record passes the check if its keys and the output layout do. -/
theorem check_of_valid (hsum : job.sum = none)
    (hkeys : ∀ k ∈ job.activeKeys, k.field.validate r = .ok ())
    (hlayout : ∀ layout, job.outrec = some layout → layout.validate r = .ok ()) :
    job.check r = .ok () := by
  rw [check_eq, check_bind_eq_ok_iff, checkKeys_eq_ok_iff]
  refine ⟨fun c hactive => ⟨?_, ?_⟩, ?_⟩
  · rw [activeKeys_of_some hactive] at hkeys
    exact forM_eq_ok_iff.2 hkeys
  · simp [hsum]
  · unfold checkLayout
    split
    · rfl
    · exact hlayout _ ‹_›

section

variable (hbare : job.Bare)

include hbare

/-- A record that passes the filter goes on, with the layout before and without it. -/
theorem judge_layOut_of_keeps (hpasses : Filter.passes job.filter r = .ok true)
    (hkeeps : job.KeepsKeys layout r out) :
    (job.layOutFirst layout).judge none r = .ok (.kept out) ∧
      (job.layOutLast layout).judge none r = .ok (.kept r) := by
  constructor
  · refine judge_eq_kept_iff.2 ⟨hpasses, rfl, hkeeps.format, ?_⟩
    refine check_of_valid hbare.sum hkeeps.valid_out fun layout' hlayout => ?_
    rw [layOutFirst_outrec, hbare.outrec] at hlayout
    cases hlayout
  · refine judge_eq_kept_iff.2 ⟨hpasses, rfl, ?_, ?_⟩
    · rw [layOutLast_inrec, hbare.inrec]
      rfl
    · refine check_of_valid hbare.sum hkeeps.valid ?_
      rintro _ ⟨⟩
      exact Layout.validate_of_format hkeeps.format

/-- **The scan decides alike** with the layout before it, but for what it does to the record. -/
theorem judge_layOut
    (h : Filter.passes job.filter r = .ok true → ∃ out, job.KeepsKeys layout r out) :
    (job.layOutFirst layout).judge none r =
      ((job.layOutLast layout).judge none r).map (Verdict.map (layout.keeping job.activeKeys)) := by
  cases hpasses : Filter.passes job.filter r with
  | error f =>
    have hfirst : Filter.passes (job.layOutFirst layout).filter r = .error f := hpasses
    have hlast : Filter.passes (job.layOutLast layout).filter r = .error f := hpasses
    rw [judge, judge, hfirst, hlast]
    rfl
  | ok passed =>
    have hfirst : Filter.passes (job.layOutFirst layout).filter r = .ok passed := hpasses
    have hlast : Filter.passes (job.layOutLast layout).filter r = .ok passed := hpasses
    cases passed with
    | false =>
      rw [judge, judge, hfirst, hlast]
      rfl
    | true =>
      obtain ⟨out, hkeeps⟩ := h hpasses
      obtain ⟨hkept, hkept'⟩ := judge_layOut_of_keeps hbare hpasses hkeeps
      rw [hkept, hkept', ← hkeeps.keeping_eq]
      rfl

theorem scanFrom_layOut {records : List Bytes}
    (h : ∀ r ∈ records, Filter.passes job.filter r = .ok true → ∃ out, job.KeepsKeys layout r out)
    (fault : Option Fault) (number : Nat) :
    (job.layOutFirst layout).scanFrom none fault number records =
      ((job.layOutLast layout).scanFrom none fault number records).map
        (layout.keeping job.activeKeys) := by
  induction records generalizing number with
  | nil => rfl
  | cons r rs ih =>
    rw [List.forall_mem_cons] at h
    rw [scanFrom, scanFrom, judge_layOut hbare h.1]
    cases (job.layOutLast layout).judge none r with
    | error f => rfl
    | ok v =>
      show ((job.layOutFirst layout).scanFrom none fault (number + 1) rs).count (v.map _) =
        Scan.map _ (((job.layOutLast layout).scanFrom none fault (number + 1) rs).count v)
      rw [ih h.2, Scan.map_count]

end

theorem arrivals_layOutFirst (job : Job) (layout : Layout) (inputs : List Input) :
    (job.layOutFirst layout).arrivals inputs = job.arrivals inputs :=
  have hopen : ∀ input, (job.layOutFirst layout).openInput input = job.openInput input :=
    fun _ => rfl
  arrivalsFrom_congr hopen 0 inputs

theorem arrivals_layOutLast (job : Job) (layout : Layout) (inputs : List Input) :
    (job.layOutLast layout).arrivals inputs = job.arrivals inputs :=
  have hopen : ∀ input, (job.layOutLast layout).openInput input = job.openInput input :=
    fun _ => rfl
  arrivalsFrom_congr hopen 0 inputs

theorem survives_layOutLast :
    (job.layOutLast layout).Survives inputs r ↔ job.Survives inputs r := by
  simp only [Survives, arrivals_layOutLast]
  rfl

/-- The layout keeps the keys of the records of all inputs that pass the filter. -/
def KeepsAll (job : Job) (layout : Layout) (inputs : List Input) : Prop :=
  ∀ r, job.Survives inputs r → ∃ out, job.KeepsKeys layout r out

theorem KeepsAll.one (h : job.KeepsAll layout inputs) {input : Input} (hinput : input ∈ inputs) :
    job.KeepsAll layout [input] := by
  rintro r ⟨⟨_, hone, hr⟩, hpasses⟩
  cases List.mem_singleton.1 hone
  exact h r ⟨⟨input, hinput, hr⟩, hpasses⟩

section

variable (hbare : job.Bare) (hkeeps : job.KeepsAll layout inputs)

include hbare hkeeps

/-- **A scan with the layout before it delivers what the layout makes of the records** that a scan
without it delivers, and ends alike. -/
theorem scan_layOut :
    (job.layOutFirst layout).scan none inputs =
      ((job.layOutLast layout).scan none inputs).map
        (Prod.map id (Scan.map (layout.keeping job.activeKeys))) := by
  have hopen : ∀ input, (job.layOutFirst layout).openInput input =
      (job.layOutLast layout).openInput input := fun _ => rfl
  have hrecords : ∀ r ∈ (job.arrivals inputs).records,
      Filter.passes job.filter r = .ok true → ∃ out, job.KeepsKeys layout r out :=
    fun r hr hpasses => hkeeps r ⟨mem_arrivals_of_mem hr, hpasses⟩
  rw [scan, scan, arrivals_layOutFirst, arrivals_layOutLast, header_congr hopen]
  cases (job.layOutLast layout).header inputs with
  | error f => rfl
  | ok header =>
    simp only [ok_bind, scanFrom_layOut hbare hrecords]
    rfl

/-- What is delivered without the layout can be laid out. -/
theorem keepsKeys_of_mem_scan {header : List Bytes} {scan : Scan}
    (h : (job.layOutLast layout).scan none inputs = .ok (header, scan))
    (hr : r ∈ scan.feed.records) : ∃ out, job.KeepsKeys layout r out := by
  obtain ⟨a, ha, hsame⟩ := exists_survivor_of_mem_scan h hr
  rw [layOutLast_inrec, hbare.inrec] at hsame
  cases hsame
  exact hkeeps r (survives_layOutLast.1 ha)

theorem keepsKeys_of_mem_merge {c : Comparer} {scans : List (List Bytes × Scan)}
    (h : (job.layOutLast layout).scanEach none inputs = .ok scans)
    (hr : r ∈ (Merge.merge c (scans.map fun s => s.2.feed)).records) :
    ∃ out, job.KeepsKeys layout r out := by
  obtain ⟨feed, hfeed, hr⟩ := Feed.mem_gather.1 (Merge.merge_subset c _ hr)
  obtain ⟨⟨header, scan⟩, hs, rfl⟩ := List.mem_map.1 hfeed
  obtain ⟨input, hinput, hscan⟩ := exists_mem_of_forall₂ (mapM_eq_ok_iff.1 h) hs
  exact keepsKeys_of_mem_scan hbare (hkeeps.one hinput) hscan hr

theorem keepsKeys_of_mem_sort {c : Comparer} {header : List Bytes} {scan : Scan}
    (h : (job.layOutLast layout).scan none inputs = .ok (header, scan))
    (hr : r ∈ c.sort scan.feed.records) : ∃ out, job.KeepsKeys layout r out :=
  keepsKeys_of_mem_scan hbare hkeeps h ((c.sort_keepsTies _).perm.mem_iff.1 hr)

end

section

variable (hbare : job.Bare)

include hbare

/-- What a sink receives that lays out its records. -/
theorem drain_layOutLast (feed : Feed)
    (h : ∀ r ∈ feed.records, ∃ out, job.KeepsKeys layout r out) (header : List Bytes) :
    (job.layOutLast layout).drain none header feed =
      ⟨job.framing.write (header ++ feed.records.map (layout.keeping job.activeKeys)),
        feed.records.length, 0, feed.fault⟩ := by
  have hsum : (job.layOutLast layout).sum = none := hbare.sum
  refine drain_of_layout hsum feed (fun r hr => ?_) header
  obtain ⟨out, hkeeps⟩ := h r hr
  rw [hkeeps.keeping_eq]
  exact hkeeps.format

/-- Laying out records before they reach the sink or in it makes the same bytes. -/
theorem drain_layOut (feed : Feed) (h : ∀ r ∈ feed.records, ∃ out, job.KeepsKeys layout r out)
    (header : List Bytes) :
    (job.layOutFirst layout).drain none header (feed.map (layout.keeping job.activeKeys)) =
      (job.layOutLast layout).drain none header feed := by
  have hsum : (job.layOutFirst layout).sum = none := hbare.sum
  have hsame : ∀ r ∈ (feed.map (layout.keeping job.activeKeys)).records,
      Layout.formatWith (job.layOutFirst layout).outrec r = .ok (id r) := by
    intro r _
    rw [layOutFirst_outrec, hbare.outrec]
    rfl
  rw [drain_layOutLast hbare feed h, drain_of_layout hsum _ hsame, List.map_id]
  simp only [Feed.map, List.length_map]
  rfl

end

end Job

end CardSort
