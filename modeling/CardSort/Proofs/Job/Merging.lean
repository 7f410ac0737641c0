import CardSort.Proofs.Job.Delivery

/-!
# Merging inputs and sorting them

Inputs that are in key order by themselves may be merged or sorted: both put the records of all
inputs into the one stable order, and the sink cannot tell them apart.

* `Job.ReadyToMerge` — every input scans without a fault and delivers records in key order.
* `Job.mergePass_of_ready`, `Job.memoryPass_of_ready` — both passes drain the sorted records of
  all inputs.
* `Job.run_merge_agrees` — **a merge and a sort of such inputs end alike**, if the sort finds room.
-/

set_option autoImplicit false

namespace CardSort.Job

variable {job : Job} {host : Host} {c : Comparer} {target : Target} {inputs : List Input}

/-- Every input by itself scans without a fault and delivers its records in key order, after the
filters of job and pass and the input layout. -/
def ReadyToMerge (job : Job) (c : Comparer) (target : Target) (inputs : List Input) : Prop :=
  ∃ scans, job.scanEach target inputs = .ok scans ∧ ∀ s ∈ scans, s.2.feed.InOrder c

/-- Inputs that can be scanned have a size. -/
theorem exists_totalSize {scans : List (List Bytes × Scan)}
    (h : job.scanEach target inputs = .ok scans) : ∃ size, totalSize inputs = .ok size := by
  replace h := mapM_eq_ok_iff.1 h
  induction h with
  | nil => exact ⟨0, rfl⟩
  | @cons input s inputs scans hs _ ih =>
    obtain ⟨size, hsize⟩ := ih
    cases input with
    | missing => cases hs
    | present data =>
      refine ⟨data.length + size, ?_⟩
      rw [totalSize, hsize]
      rfl

/-- The merge of inputs in key order drains the sorted records of all inputs. -/
theorem mergePass_of_ready {scans : List (List Bytes × Scan)}
    (hscans : job.scanEach target inputs = .ok scans) (hin : ∀ s ∈ scans, s.2.feed.InOrder c) :
    job.mergePass c target inputs =
      .ok ⟨.merge, (gatherScans scans).read, (gatherScans scans).filtered, 0,
        job.drain (passLayout target) ((scans.head?.map Prod.fst).getD [])
          (.ofList (c.sort (gatherScans scans).feed.records))⟩ := by
  have hfeeds : ∀ feed ∈ scans.map fun s => s.2.feed, feed.InOrder c := by
    intro feed hfeed
    obtain ⟨s, hs, rfl⟩ := List.mem_map.1 hfeed
    exact hin s hs
  rw [mergePass, hscans, ok_bind, Merge.merge_eq_sort hfeeds]
  rfl

/-- Sorting inputs at once drains the sorted records of all inputs. -/
theorem memoryPass_of_ready (hstable : job.config.stable = true) {scans : List (List Bytes × Scan)}
    (hscans : job.scanEach target inputs = .ok scans) (hin : ∀ s ∈ scans, s.2.feed.InOrder c) :
    job.memoryPass host c target inputs =
      .ok ⟨.inMemory, (gatherScans scans).read, (gatherScans scans).filtered, 0,
        job.drain (passLayout target) ((scans.head?.map Prod.fst).getD [])
          (.ofList (c.sort (gatherScans scans).feed.records))⟩ := by
  have hscan := scan_of_scanEach hscans fun s hs => (hin s hs).fault
  refine memoryPass_eq_ok_iff.2 ⟨_, _, hscan, rfl, ?_⟩
  rw [sort_of_stable hstable]

/-- Merge mode and sort mode differ only in how records are ordered. -/
theorem samePipeline_sort (hmode : job.mode = .merge) :
    SamePipeline { job with mode := .sort } job :=
  ⟨rfl, rfl, by simp [activeComparer, hmode], rfl, rfl, rfl, rfl, rfl⟩

/-- **Merging inputs in key order gives what sorting them gives**: if the sort of a stable job finds
room, a run of the job in merge mode and one in sort mode end with the same fault or the same
counts, and write the same bytes. If it finds none, the run in sort mode fails. -/
theorem run_merge_agrees (hmode : job.mode = .merge) (hkeys : job.comparer = some c)
    (hstable : job.config.stable = true)
    (hready : ∀ target ∈ job.targets, job.ReadyToMerge c target inputs) (host : Host)
    (sinks : Nat) :
    ({ job with mode := .sort }.HasRoom host inputs →
      (job.run host inputs sinks).Agrees ({ job with mode := .sort }.run host inputs sinks)) ∧
      (¬ { job with mode := .sort }.HasRoom host inputs →
        ∃ fault, ({ job with mode := .sort }.run host inputs sinks).result = .error fault) := by
  constructor
  · intro hroom
    have hsame := samePipeline_sort hmode
    have hactive : job.activeComparer = some c := by simp [activeComparer, hmode, hkeys]
    have hcheck : job.precheck sinks = { job with mode := .sort }.precheck sinks := by
      simp [precheck, sinkCount, hkeys]
    simp only [run, runReading, ← hcheck]
    cases job.precheck sinks with
    | error f => exact ⟨rfl, rfl⟩
    | ok _ =>
      refine runPasses_agrees (fun target htarget => ?_) rfl [] []
      obtain ⟨scans, hscans, hin⟩ := hready target htarget
      obtain ⟨size, hsize⟩ := exists_totalSize hscans
      rw [pass_of_hasRoom hroom htarget rfl hstable (hsame.comparer.trans hactive), hsize, ok_bind,
        hsame.memoryPass_eq, memoryPass_of_ready hstable hscans hin]
      simp only [pass, hactive, if_pos hmode]
      rw [mergePass_of_ready hscans hin]
      rfl
  · intro hroom
    cases hresult : ({ job with mode := .sort }.run host inputs sinks).result with
    | error fault => exact ⟨fault, rfl⟩
    | ok stats => exact absurd (hasRoom_of_run rfl hresult) hroom

/-- Inputs that tie across each other: `a2` and `b1`, nothing but a header, `a4` and `b9`. -/
def tallyOrderedInputs : List Input :=
  [.present [0x48, 0x30, 0x61, 0x32, 0x62, 0x31], .present [0x48, 0x31],
    .present [0x48, 0x39, 0x61, 0x34, 0x62, 0x39]]

theorem tally_readyToMerge :
    ∀ target ∈ { tally with mode := .merge }.targets,
      ReadyToMerge { tally with mode := .merge }
        ⟨[⟨⟨0, 1, .ch, .ascii⟩, .ascending⟩], .native⟩ target tallyOrderedInputs := by
  intro target htarget
  cases List.mem_singleton.1 htarget
  refine ⟨[([[0x48, 0x30]], ⟨.ofList [[0x61, 0x32], [0x62, 0x31]], 2, 0⟩),
    ([[0x48, 0x31]], ⟨.ofList [], 0, 0⟩),
    ([[0x48, 0x39]], ⟨.ofList [[0x61, 0x34], [0x62, 0x39]], 2, 0⟩)], by cbv, ?_⟩
  intro s hs
  simp only [List.mem_cons, List.not_mem_nil, or_false] at hs
  rcases hs with rfl | rfl | rfl
  · exact ⟨rfl, by decide⟩
  · exact ⟨rfl, by decide⟩
  · exact ⟨rfl, by decide⟩

/-- Merged or sorted, `a2` and `a4` make `a6`, and `b1` and `b9` stay apart. -/
theorem tally_merge_agrees :
    (({ tally with mode := .merge }.run {} tallyOrderedInputs 1).sinks =
        [[0x48, 0x30, 0x61, 0x36, 0x62, 0x31, 0x62, 0x39]]) ∧
      ({ tally with mode := .merge }.run {} tallyOrderedInputs 1).Agrees
        ({ tally with mode := .sort }.run {} tallyOrderedInputs 1) :=
  ⟨by cbv, (run_merge_agrees rfl rfl rfl tally_readyToMerge {} 1).1 (.inr (.inl (by decide)))⟩

/-- Without a directory for spilled runs, one byte of memory is enough to merge `a` and `b`, each
with a line feed, but not to sort them. -/
theorem merge_not_agrees_without_room :
    let job : Job :=
      { config := { memoryLimit := 1 }
        mode := .merge
        comparer := some ⟨[⟨⟨0, 1, .ch, .ascii⟩, .ascending⟩], .native⟩ }
    let inputs : List Input := [.present [0x61, 0x0A], .present [0x62, 0x0A]]
    job.config.stable = true ∧
      (∀ target ∈ job.targets, job.ReadyToMerge ⟨[⟨⟨0, 1, .ch, .ascii⟩, .ascending⟩], .native⟩
        target inputs) ∧
      job.run { spillable := false } inputs 1 =
        ⟨.ok ⟨.merge, 2, 0, 0, 2, [2], 0⟩, [[0x61, 0x0A, 0x62, 0x0A]]⟩ ∧
      { job with mode := .sort }.run { spillable := false } inputs 1 = ⟨.error .io, [[]]⟩ := by
  intro job inputs
  refine ⟨rfl, ?_, by cbv, by cbv⟩
  intro target htarget
  cases List.mem_singleton.1 htarget
  refine ⟨[([], ⟨.ofList [[0x61]], 1, 0⟩), ([], ⟨.ofList [[0x62]], 1, 0⟩)], by cbv, ?_⟩
  intro s hs
  simp only [List.mem_cons, List.not_mem_nil, or_false] at hs
  rcases hs with rfl | rfl
  · exact ⟨rfl, by decide⟩
  · exact ⟨rfl, by decide⟩

end CardSort.Job
