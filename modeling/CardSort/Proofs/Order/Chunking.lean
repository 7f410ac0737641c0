import CardSort.Proofs.Order.Spill

/-!
# Chunks against the memory plan

The records of a chunk are gathered in a buffer, and full chunks wait in another one until there is
one for each worker; what both buffers hold at the end is spilled last. The memory plan says how
many records a chunk may have.

* `batches` — what the loop spills, batch by batch; `flatten_batches`, **in order these are the
  chunks of `cut`**, however many workers there are.
* `Fills` — how long the chunks are; `fills_cutFrom` says it of a run with any open chunk.
* `cut_keeps_plan` — **chunks are full, and lose nothing**. The first record opens the first chunk
  before any length is tested, so a first chunk has room for two records even if one is planned;
  this is the only chunk that is ever longer than planned.
-/

set_option autoImplicit false

namespace CardSort.Chunk

/-! ## Batches -/

/-- The batches of chunks that are spilled, in order: those that have been full, and what is left
when nothing is left to read. -/
def batches (memoryLimit workers : Nat) (records : List Bytes) : List (List (List Bytes)) :=
  let b := buffers memoryLimit workers records
  if b.rest.isEmpty then b.spilled else b.spilled ++ [b.rest]

/-- **The chunks of the batches in order are those of `cut`.** -/
theorem flatten_batches (memoryLimit workers : Nat) (records : List Bytes) :
    (batches memoryLimit workers records).flatten = cut memoryLimit workers records := by
  simp only [← flatten_buffers, batches]
  cases hrest : (buffers memoryLimit workers records).rest <;> simp

/-! ## The lengths of chunks -/

/-- The chunks are none of them empty, the first one has room for `first` records and every other
one for `size`, and all but the last are full. -/
structure Fills (first size : Nat) (chunks : List (List Bytes)) : Prop where
  nil_not_mem : [] ∉ chunks
  length_le : ∀ i chunk, chunks[i]? = some chunk → chunk.length ≤ if i = 0 then first else size
  full : ∀ i chunk, chunks[i]? = some chunk → i + 1 < chunks.length →
    chunk.length = if i = 0 then first else size

namespace Fills

variable {first size : Nat} {chunk : List Bytes} {chunks : List (List Bytes)}

theorem nil : Fills first size [] where
  nil_not_mem := by simp
  length_le := by simp
  full := by simp

/-- The last chunk need not be full. -/
theorem last (hne : chunk ≠ []) (hlength : chunk.length ≤ first) : Fills first size [chunk] where
  nil_not_mem := by simpa using hne.symm
  length_le := by
    intro i other h
    cases i with
    | zero => simpa [← Option.some.inj h] using hlength
    | succ i => simp at h
  full := by
    intro i other _ hi
    simp at hi

/-- A full chunk in front of others. -/
theorem cons (hpos : 0 < first) (hlength : chunk.length = first)
    (hchunks : Fills size size chunks) : Fills first size (chunk :: chunks) where
  nil_not_mem := by
    have hne : chunk ≠ [] := by
      rintro rfl
      simp at hlength
      omega
    simpa [hne.symm] using hchunks.nil_not_mem
  length_le := by
    intro i other h
    cases i with
    | zero => simp [← Option.some.inj h, hlength]
    | succ i => simpa using hchunks.length_le i other h
  full := by
    intro i other h hi
    cases i with
    | zero => simp [← Option.some.inj h, hlength]
    | succ i =>
      have hi' : i + 1 < chunks.length := by simpa using hi
      simpa using hchunks.full i other h hi'

end Fills

/-- What is cut with an open chunk fills it first, by induction on the records. A length is tested
behind a record only, so an open chunk takes one more record however long it is. -/
theorem fills_cutFrom {size : Nat} (hsize : 0 < size) (chunk records : List Bytes) :
    Fills (max size (chunk.length + 1)) size (cutFrom size chunk records) := by
  induction records generalizing chunk with
  | nil =>
    rw [cutFrom]
    split
    · exact .nil
    · rename_i hne
      apply Fills.last
      · simpa using hne
      · rw [List.length_reverse]
        omega
  | cons r rs ih =>
    rw [cutFrom]
    split
    · rename_i hfull
      apply Fills.cons
      · omega
      · rw [List.length_reverse, List.length_cons]
        omega
      · have hrest := ih []
        rwa [List.length_nil, Nat.zero_add, Nat.max_eq_left hsize] at hrest
    · rename_i hopen
      have hrest := ih (r :: chunk)
      have hroom : max size ((r :: chunk).length + 1) = max size (chunk.length + 1) := by
        rw [List.length_cons]
        omega
      rwa [hroom] at hrest

/-! ## The plan -/

/-- The number of records that the memory plan allows a chunk of these records: it goes by the
length of the first one. -/
def planned (memoryLimit workers : Nat) (records : List Bytes) : Nat :=
  recordsPerChunk memoryLimit workers (records.headD []).length

theorem planned_pos (memoryLimit workers : Nat) (records : List Bytes) :
    0 < planned memoryLimit workers records := by
  unfold planned recordsPerChunk
  omega

variable {memoryLimit workers : Nat} {records : List Bytes}

theorem fills_cut (memoryLimit workers : Nat) (records : List Bytes) :
    Fills (max (planned memoryLimit workers records) 2) (planned memoryLimit workers records)
      (cut memoryLimit workers records) := by
  cases records with
  | nil => exact .nil
  | cons first rest =>
    exact fills_cutFrom (planned_pos memoryLimit workers (first :: rest)) [first] rest

theorem length_le_of_mem_cut {chunk : List Bytes} (h : chunk ∈ cut memoryLimit workers records) :
    chunk.length ≤ records.length := by
  rw [← flatten_cut memoryLimit workers records]
  exact (List.sublist_flatten_of_mem h).length_le

/-- A plan of one record is broken as soon as there is a second one. -/
theorem exists_longer_of_planned_eq_one (hplanned : planned memoryLimit workers records = 1)
    (hrecords : 1 < records.length) :
    ∃ chunk ∈ cut memoryLimit workers records, chunk.length = 2 := by
  match records, hrecords with
  | first :: second :: rest, _ =>
    have hsize : recordsPerChunk memoryLimit workers first.length = 1 := hplanned
    refine ⟨[first, second], ?_, rfl⟩
    simp [cut, cutFrom, hsize]

/-- **The chunks, in the order in which batches spill them, are the records; none is empty, and all
but the last are full.** Only the first can be longer than planned: it has room for two records. So
all chunks keep to the plan unless it allows one record and there is a second one. -/
theorem cut_keeps_plan (memoryLimit workers : Nat) (records : List Bytes) :
    (batches memoryLimit workers records).flatten = cut memoryLimit workers records ∧
      (cut memoryLimit workers records).flatten = records ∧
      Fills (max (planned memoryLimit workers records) 2) (planned memoryLimit workers records)
        (cut memoryLimit workers records) ∧
      ((∀ chunk ∈ cut memoryLimit workers records,
          chunk.length ≤ planned memoryLimit workers records) ↔
        planned memoryLimit workers records ≠ 1 ∨ records.length ≤ 1) := by
  refine ⟨flatten_batches memoryLimit workers records, flatten_cut memoryLimit workers records,
    fills_cut memoryLimit workers records, ?_, ?_⟩
  · intro hplan
    by_contra hbroken
    have hone : planned memoryLimit workers records = 1 := by omega
    have hmany : 1 < records.length := by omega
    obtain ⟨chunk, hchunk, hlength⟩ := exists_longer_of_planned_eq_one hone hmany
    have := hplan chunk hchunk
    omega
  · intro hcase chunk hchunk
    have hpos := planned_pos memoryLimit workers records
    have hall := length_le_of_mem_cut hchunk
    obtain ⟨i, hi⟩ := List.mem_iff_getElem?.1 hchunk
    have hroom := (fills_cut memoryLimit workers records).length_le i chunk hi
    split at hroom <;> omega

/-- One byte of memory allows one record in a chunk, and the first chunk has two. -/
theorem not_keeps_plan_of_two_records :
    ¬ ∀ chunk ∈ cut 1 1 [[0x61], [0x62]], chunk.length ≤ planned 1 1 [[0x61], [0x62]] := by
  decide

end CardSort.Chunk
