import CardSort.Feed
import CardSort.Positional
import CardSort.Proofs.Key.Order

/-!
# Sorting and spilling records

Records are sorted by their keys. Those that do not fit into memory are cut, in order of arrival,
into chunks. Each chunk is sorted and spilled as a run: its records in order, each behind its
length in four bytes, lowest byte first.

* `Comparer.sort` is the stable sort; an `UnstableSort` may leave ties in any order.
* `Host` is what a run finds around it: a place for spilled runs, and an unstable sort.
* `Chunk.recordsPerChunk` is the length of a chunk that the memory of one worker allows.
* `Chunk.Buffers` and `Chunk.buffers` gather records into chunks and chunks into batches.
* `Run.write` writes a run; a record of `2 ^ 32` bytes or more is refused. `Run.read` reads it
  back.
-/

set_option autoImplicit false

namespace CardSort

/-! ## Sorting -/

/-- Records in the order of their keys; equal keys keep their order. -/
def Comparer.sort (c : Comparer) (records : List Bytes) : List Bytes := records.mergeSort c.le

/-- A sort that may leave ties in any order: nothing is known of it but that it loses no record,
makes none up, and orders by the keys. -/
structure UnstableSort where
  sort : Comparer → List Bytes → List Bytes
  perm : ∀ c records, (sort c records).Perm records
  sorted : ∀ c records, (sort c records).Pairwise fun a b => c.le a b = true

namespace UnstableSort

/-- A stable sort is one of them. -/
def stable : UnstableSort where
  sort := Comparer.sort
  perm _ records := List.mergeSort_perm records _
  sorted c records := List.pairwise_mergeSort c.le_trans c.le_total records

/-- The one that turns ties around. -/
def reversing : UnstableSort where
  sort c records := c.sort records.reverse
  perm _ records := (List.mergeSort_perm _ _).trans records.reverse_perm
  sorted c records := List.pairwise_mergeSort c.le_trans c.le_total records.reverse

end UnstableSort

/-- What a run finds around it. -/
structure Host where
  /-- Whether the directory for spilled runs exists. -/
  spillable : Bool := true
  /-- The sort of jobs that need not be stable. -/
  unstable : UnstableSort := .stable

/-! ## Chunks -/

namespace Chunk

/-- The number of records per chunk: as many records of the length of the first one, with four
bytes each for their length, as fit into the share of one worker, and at least one. -/
def recordsPerChunk (memoryLimit workers firstLength : Nat) : Nat :=
  max 1 (memoryLimit / max 1 workers / (4 + firstLength))

/-- What has been read: the open chunk, the full chunks that wait for the workers, and the batches
that have been spilled. -/
structure Buffers where
  chunk : List Bytes
  waiting : List (List Bytes)
  spilled : List (List (List Bytes))

namespace Buffers

/-- Reads a record into the open chunk. A chunk that has `size` records ends, and as soon as one
waits for each worker they are spilled. -/
def read (size workers : Nat) (b : Buffers) (r : Bytes) : Buffers :=
  let chunk := b.chunk ++ [r]
  if size ≤ chunk.length then
    let waiting := b.waiting ++ [chunk]
    if workers ≤ waiting.length then ⟨[], [], b.spilled ++ [waiting]⟩
    else ⟨[], waiting, b.spilled⟩
  else { b with chunk }

/-- The batch that is spilled last, when nothing is left to read: the chunks that wait, and the
open one. -/
def rest (b : Buffers) : List (List Bytes) :=
  if b.chunk.isEmpty then b.waiting else b.waiting ++ [b.chunk]

end Buffers

/-- The buffers once records have been read. The first record opens the first chunk before any
length is tested, and its own length tells how long chunks may be. -/
def buffers (memoryLimit workers : Nat) : List Bytes → Buffers
  | [] => ⟨[], [], []⟩
  | first :: rest =>
    rest.foldl (Buffers.read (recordsPerChunk memoryLimit workers first.length) workers)
      ⟨[first], [], []⟩

end Chunk

/-! ## Runs -/

namespace Run

/-- The first length that four bytes cannot hold. -/
def lengthLimit : Nat := 2 ^ (32 : Nat)

/-- A length in four bytes, lowest byte first. -/
def writeLength (n : Nat) : Bytes := ((Positional.digits 256 4 n).map UInt8.ofNat).reverse

/-- The length in four bytes, lowest byte first. -/
def readLength (bytes : Bytes) : Nat := Positional.value 256 (bytes.reverse.map UInt8.toNat)

/-- Writes the records of a run. -/
def write : List Bytes → Except Fault Bytes
  | [] => .ok []
  | r :: rs => do
    if r.length < lengthLimit then do
      let rest ← write rs
      pure (writeLength r.length ++ r ++ rest)
    else throw (.setting (.recordTooLong r.length))

/-- Reads the records of a run. A run that ends within a length or a record cannot be read. -/
def read (data : Bytes) : Feed :=
  match data with
  | [] => .ofList []
  | a :: b :: c :: d :: rest =>
    let length := readLength [a, b, c, d]
    if rest.length < length then .failed .io
    else (read (rest.drop length)).cons (rest.take length)
  | _ => .failed .io
termination_by data.length
decreasing_by
  simp only [List.length_drop, List.length_cons]
  omega

end Run

end CardSort
