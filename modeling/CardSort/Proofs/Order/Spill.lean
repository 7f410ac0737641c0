import Mathlib.Data.List.Perm.Basic
import CardSort.Proofs.Except
import CardSort.Proofs.Order.Merge
import CardSort.Proofs.Positional

/-!
# Sorting through spilled runs

Records are cut into chunks, each chunk is sorted and spilled as a run, and the runs are merged.
If chunks are sorted stably, the result does not depend on where the cuts fall.

* `Run.read_write` — a spilled run reads back as it was written.
* `Run.exists_write`, `Run.short_of_write` — a run can be spilled if four bytes can measure its
  records, and only then.
* `Chunk.cut` — the chunks without batches; `Chunk.flatten_cut`, in order they are the records.
* `Chunk.Buffers.chunks_read` — a record either ends a chunk or stays in the open one;
  `Chunk.flatten_buffers`, **the batches in order are the chunks of `cut`**.
* `Job.spill_eq_ok_iff` — when a feed is spilled, and as which runs.
* `Job.merge_spill`, `Job.merged_keyOrder` — merging the runs orders the records by their keys.
* `Job.merged_of_stable` — **merging stable runs gives what sorting in memory gives**.
-/

set_option autoImplicit false

namespace CardSort

/-! ## Runs on disk -/

namespace Run

theorem length_writeLength (n : Nat) : (writeLength n).length = 4 := by
  simp [writeLength, Positional.length_digits]

theorem readLength_writeLength {n : Nat} (h : n < lengthLimit) :
    readLength (writeLength n) = n := by
  rw [readLength, writeLength, List.reverse_reverse]
  exact Positional.value_bytes h

/-- Reading takes one record off behind its length. -/
theorem read_record {r rest : Bytes} (h : r.length < lengthLimit) :
    read (writeLength r.length ++ r ++ rest) = (read rest).cons r := by
  obtain ⟨a, b, c, d, habcd⟩ : ∃ a b c d, writeLength r.length = [a, b, c, d] := by
    have hlen := length_writeLength r.length
    match hw : writeLength r.length, hlen with
    | [a, b, c, d], _ => exact ⟨a, b, c, d, rfl⟩
  have hlength : readLength [a, b, c, d] = r.length := by
    rw [← habcd, readLength_writeLength h]
  rw [habcd, List.append_assoc]
  show read (a :: b :: c :: d :: (r ++ rest)) = (read rest).cons r
  rw [read]
  simp only [hlength, List.length_append, List.drop_left, List.take_left]
  rw [if_neg (by omega)]

/-- **A run reads back as it was written.** -/
theorem read_write {records : List Bytes} {data : Bytes} (h : write records = .ok data) :
    read data = .ofList records := by
  induction records generalizing data with
  | nil =>
    cases h
    rw [read]
  | cons r rs ih =>
    rw [write] at h
    split at h
    · rename_i hlen
      obtain ⟨rest, hrest, h⟩ := bind_eq_ok_iff.1 h
      cases h
      rw [read_record hlen, ih hrest]
      rfl
    · cases h

/-- Short records can be spilled. -/
theorem exists_write {records : List Bytes} (h : ∀ r ∈ records, r.length < lengthLimit) :
    ∃ data, write records = .ok data := by
  induction records with
  | nil => exact ⟨[], rfl⟩
  | cons r rs ih =>
    obtain ⟨rest, hrest⟩ := ih fun x hx => h x (List.mem_cons_of_mem _ hx)
    refine ⟨writeLength r.length ++ r ++ rest, ?_⟩
    rw [write, if_pos (h r List.mem_cons_self), hrest]
    rfl

/-- Only short records are spilled. -/
theorem short_of_write {records : List Bytes} {data : Bytes} (h : write records = .ok data) :
    ∀ r ∈ records, r.length < lengthLimit := by
  induction records generalizing data with
  | nil =>
    intro r hr
    cases hr
  | cons first rs ih =>
    rw [write] at h
    split at h
    · rename_i hlen
      obtain ⟨rest, hrest, -⟩ := bind_eq_ok_iff.1 h
      exact List.forall_mem_cons.2 ⟨hlen, ih hrest⟩
    · cases h

/-- A record that is too long cannot be spilled. -/
theorem write_of_long {r : Bytes} {rs : List Bytes} (h : lengthLimit ≤ r.length) :
    write (r :: rs) = .error (.setting (.recordTooLong r.length)) := by
  rw [write, if_neg (by omega)]
  rfl

end Run

/-! ## Chunks -/

namespace Chunk

/-- Cuts records into chunks, where `chunk` holds the open chunk in reverse. The open chunk ends
as soon as it has taken a record and has `size` records. -/
def cutFrom (size : Nat) (chunk : List Bytes) : List Bytes → List (List Bytes)
  | [] => if chunk.isEmpty then [] else [chunk.reverse]
  | r :: rs =>
    if size ≤ chunk.length + 1 then (r :: chunk).reverse :: cutFrom size [] rs
    else cutFrom size (r :: chunk) rs

/-- Cuts records into chunks. The first record opens the first chunk, so that a first chunk of
length one takes a second record before it ends. -/
def cut (memoryLimit workers : Nat) : List Bytes → List (List Bytes)
  | [] => []
  | first :: rest => cutFrom (recordsPerChunk memoryLimit workers first.length) [first] rest

theorem flatten_cutFrom (size : Nat) (chunk records : List Bytes) :
    (cutFrom size chunk records).flatten = chunk.reverse ++ records := by
  induction records generalizing chunk with
  | nil => cases chunk <;> simp [cutFrom]
  | cons r rs ih =>
    rw [cutFrom]
    split
    · rw [List.flatten_cons, ih]
      simp
    · rw [ih]
      simp

/-- The chunks in order are the records that were cut. -/
theorem flatten_cut (memoryLimit workers : Nat) (records : List Bytes) :
    (cut memoryLimit workers records).flatten = records := by
  cases records with
  | nil => rfl
  | cons first rest => exact flatten_cutFrom _ [first] rest

namespace Buffers

variable {size workers : Nat}

/-- The full chunks in the order of their runs. -/
def chunks (b : Buffers) : List (List Bytes) := b.spilled.flatten ++ b.waiting

theorem chunk_read (b : Buffers) (r : Bytes) :
    (b.read size workers r).chunk =
      if size ≤ b.chunk.length + 1 then [] else b.chunk ++ [r] := by
  unfold read
  simp only [List.length_append, List.length_singleton]
  split
  · split <;> rfl
  · rfl

/-- **A record ends the open chunk or stays in it**; whether the chunk has to wait does not
matter to the order. -/
theorem chunks_read (b : Buffers) (r : Bytes) :
    (b.read size workers r).chunks =
      if size ≤ b.chunk.length + 1 then b.chunks ++ [b.chunk ++ [r]] else b.chunks := by
  unfold read chunks
  simp only [List.length_append, List.length_singleton]
  split
  · split <;> simp
  · rfl

theorem flatten_rest (b : Buffers) :
    b.spilled.flatten ++ b.rest = b.chunks ++ if b.chunk.isEmpty then [] else [b.chunk] := by
  unfold rest chunks
  split <;> simp

/-- The loop cuts as `cutFrom` does, by induction on the records that are left. -/
theorem flatten_run (b : Buffers) (records : List Bytes) :
    (records.foldl (read size workers) b).spilled.flatten ++
        (records.foldl (read size workers) b).rest =
      b.chunks ++ cutFrom size b.chunk.reverse records := by
  induction records generalizing b with
  | nil => rw [List.foldl_nil, flatten_rest, cutFrom, List.isEmpty_reverse, List.reverse_reverse]
  | cons r rs ih =>
    rw [List.foldl_cons, ih, chunk_read, chunks_read, cutFrom, List.length_reverse]
    split
    · simp
    · simp

end Buffers

/-- **The chunks of all batches in order are those of `cut`**, however many workers there are. -/
theorem flatten_buffers (memoryLimit workers : Nat) (records : List Bytes) :
    (buffers memoryLimit workers records).spilled.flatten ++
        (buffers memoryLimit workers records).rest = cut memoryLimit workers records := by
  cases records with
  | nil => rfl
  | cons first rest => exact Buffers.flatten_run ⟨[first], [], []⟩ rest

end Chunk

/-! ## Spilling and merging -/

/-- A feed is complete if no fault ends it. -/
theorem Feed.complete_eq_ok_iff {feed : Feed} {records : List Bytes} :
    feed.complete = .ok records ↔ feed.fault = none ∧ feed.records = records := by
  unfold Feed.complete
  cases feed.fault <;> simp

namespace Job

variable {job : Job} {host : Host} {c : Comparer} {records : List Bytes} {feed : Feed}

/-- The chunks in which the job spills records. -/
def chunks (job : Job) (records : List Bytes) : List (List Bytes) :=
  Chunk.cut job.config.memoryLimit job.config.workers records

theorem flatten_chunks (job : Job) (records : List Bytes) :
    (job.chunks records).flatten = records :=
  Chunk.flatten_cut ..

/-- Whatever the job asks for, sorting orders by the keys. -/
theorem sort_keyOrder (job : Job) (host : Host) (c : Comparer) (records : List Bytes) :
    KeyOrder c records (job.sort host c records) := by
  unfold sort
  split
  · exact (c.sort_stableOrder records).keyOrder
  · exact ⟨host.unstable.perm c records, host.unstable.sorted c records⟩

theorem sort_of_stable (hstable : job.config.stable = true) :
    job.sort host c records = c.sort records :=
  if_pos hstable

/-- **A feed is spilled chunk by chunk**, in whatever batches, if it ends without a fault and all
chunks can be written, and only then. -/
theorem spill_eq_ok_iff {runs : List Bytes} :
    job.spill host c feed = .ok runs ↔ feed.fault = none ∧
      (job.chunks feed.records).mapM (fun chunk => Run.write (job.sort host c chunk)) =
        .ok runs := by
  rw [chunks, ← Chunk.flatten_buffers, List.mapM_append, mapM_flatten, spill]
  constructor
  · intro h
    obtain ⟨early, hearly, h⟩ := bind_eq_ok_iff.1 h
    obtain ⟨records, hcomplete, h⟩ := bind_eq_ok_iff.1 h
    obtain ⟨late, hlate, h⟩ := bind_eq_ok_iff.1 h
    refine ⟨(Feed.complete_eq_ok_iff.1 hcomplete).1, ?_⟩
    refine bind_eq_ok_iff.2 ⟨_, map_eq_ok_iff.2 ⟨early, hearly, rfl⟩, ?_⟩
    exact bind_eq_ok_iff.2 ⟨late, hlate, h⟩
  · rintro ⟨hfault, h⟩
    obtain ⟨_, hmap, h⟩ := bind_eq_ok_iff.1 h
    obtain ⟨early, hearly, rfl⟩ := map_eq_ok_iff.1 hmap
    obtain ⟨late, hlate, h⟩ := bind_eq_ok_iff.1 h
    refine bind_eq_ok_iff.2 ⟨early, hearly, ?_⟩
    refine bind_eq_ok_iff.2 ⟨feed.records, Feed.complete_eq_ok_iff.2 ⟨hfault, rfl⟩, ?_⟩
    exact bind_eq_ok_iff.2 ⟨late, hlate, h⟩

/-- A chunk of records that are short enough is written. -/
theorem exists_write_sort (h : ∀ r ∈ records, r.length < Run.lengthLimit) :
    ∃ data, Run.write (job.sort host c records) = .ok data :=
  Run.exists_write fun r hr => h r ((job.sort_keyOrder host c records).perm.mem_iff.1 hr)

theorem mem_of_mem_chunks {chunk : List Bytes} {r : Bytes} (hchunk : chunk ∈ job.chunks records)
    (hr : r ∈ chunk) : r ∈ records := by
  rw [← flatten_chunks job records]
  exact List.mem_flatten.2 ⟨chunk, hchunk, hr⟩

/-- Records that are short enough are spilled. -/
theorem exists_spill (hfault : feed.fault = none)
    (h : ∀ r ∈ feed.records, r.length < Run.lengthLimit) :
    ∃ runs, job.spill host c feed = .ok runs := by
  obtain ⟨runs, hruns⟩ : ∃ runs, (job.chunks feed.records).mapM (fun chunk =>
      Run.write (job.sort host c chunk)) = .ok runs :=
    exists_mapM_eq_ok fun chunk hchunk =>
      exists_write_sort fun r hr => h r (mem_of_mem_chunks hchunk hr)
  exact ⟨runs, spill_eq_ok_iff.2 ⟨hfault, hruns⟩⟩

/-- If all records that arrive are short enough, the fault of a feed is that of its spilling:
batches that are spilled before it do not fail. -/
theorem spill_of_fault {f : Fault} (hfault : feed.fault = some f)
    (h : ∀ r ∈ feed.records, r.length < Run.lengthLimit) : job.spill host c feed = .error f := by
  have hmem : ∀ batch ∈ (Chunk.buffers job.config.memoryLimit job.config.workers
      feed.records).spilled, ∀ chunk ∈ batch, chunk ∈ job.chunks feed.records := by
    intro batch hbatch chunk hchunk
    rw [chunks, ← Chunk.flatten_buffers]
    exact List.mem_append_left _ (List.mem_flatten.2 ⟨batch, hbatch, hchunk⟩)
  obtain ⟨early, hearly⟩ : ∃ early, (Chunk.buffers job.config.memoryLimit job.config.workers
      feed.records).spilled.mapM (job.spillBatch host c) = .ok early := by
    refine exists_mapM_eq_ok fun batch hbatch => exists_mapM_eq_ok fun chunk hchunk => ?_
    exact exists_write_sort fun r hr => h r (mem_of_mem_chunks (hmem batch hbatch chunk hchunk) hr)
  rw [spill, hearly, ok_bind, Feed.complete, hfault]
  rfl

/-- Only short records are spilled. -/
theorem short_of_spill {runs : List Bytes} (h : job.spill host c feed = .ok runs) :
    ∀ r ∈ feed.records, r.length < Run.lengthLimit := by
  intro r hr
  rw [← flatten_chunks job feed.records] at hr
  obtain ⟨chunk, hchunk, hr⟩ := List.mem_flatten.1 hr
  obtain ⟨data, hdata⟩ := exists_eq_ok_of_mapM (spill_eq_ok_iff.1 h).2 hchunk
  exact Run.short_of_write hdata r ((job.sort_keyOrder host c chunk).perm.mem_iff.2 hr)

/-- What is read back are the sorted chunks. -/
theorem read_spill {runs : List Bytes} (h : job.spill host c feed = .ok runs) :
    runs.map Run.read =
      (job.chunks feed.records).map fun chunk => .ofList (job.sort host c chunk) := by
  replace h := mapM_eq_ok_iff.1 (spill_eq_ok_iff.1 h).2
  generalize job.chunks feed.records = chunks at h
  induction h with
  | nil => rfl
  | cons hwrite _ ih => rw [List.map_cons, List.map_cons, Run.read_write hwrite, ih]

/-- The records of the sorted chunks, merged. -/
def merged (job : Job) (host : Host) (c : Comparer) (records : List Bytes) : List Bytes :=
  c.sort ((job.chunks records).map (job.sort host c)).flatten

/-- **Merging spilled runs merges the sorted chunks**, and does not fail. -/
theorem merge_spill {runs : List Bytes} (h : job.spill host c feed = .ok runs) :
    Merge.merge c (runs.map Run.read) = .ofList (job.merged host c feed.records) := by
  rw [read_spill h]
  have hin : ∀ run ∈ (job.chunks feed.records).map fun chunk => Feed.ofList (job.sort host c chunk),
      run.InOrder c := by
    intro run hrun
    obtain ⟨chunk, -, rfl⟩ := List.mem_map.1 hrun
    exact ⟨rfl, (job.sort_keyOrder host c chunk).sorted⟩
  rw [Merge.merge_eq_sort hin, merged, Feed.gather, List.flatMap_map, List.flatMap_def]
  rfl

/-- Sorted chunks that are merged stand in the order of the keys. -/
theorem merged_keyOrder (job : Job) (host : Host) (c : Comparer) (records : List Bytes) :
    KeyOrder c records (job.merged host c records) := by
  have hsort := c.sort_stableOrder ((job.chunks records).map (job.sort host c)).flatten
  refine ⟨hsort.keepsTies.perm.trans ?_, hsort.sorted⟩
  conv_rhs => rw [← flatten_chunks job records, ← List.map_id (job.chunks records)]
  exact List.Perm.flatten_congr <| List.forall₂_map_left_iff.2 <| List.forall₂_map_right_iff.2 <|
    List.forall₂_same.2 fun chunk _ => (job.sort_keyOrder host c chunk).perm

/-- **Stable chunks merge to the stable order**: sorted chunks keep the ties of their records, and
so does the merge. -/
theorem merged_of_stable (hstable : job.config.stable = true) :
    job.merged host c records = c.sort records := by
  have hkeeps : KeepsTies c records ((job.chunks records).map (job.sort host c)).flatten := by
    conv_lhs => rw [← flatten_chunks job records]
    refine KeepsTies.flatten fun chunk _ => ?_
    rw [sort_of_stable hstable]
    exact c.sort_keepsTies chunk
  exact ((c.sort_stableOrder _).of_keepsTies hkeeps).eq_sort

end Job

end CardSort
