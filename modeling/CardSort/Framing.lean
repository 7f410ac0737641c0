import CardSort.Config
import CardSort.Feed
import CardSort.Occurrence

/-!
# Framing of records

How a byte stream is cut into records, and how records are put together.

* `Framing.cut` takes the first record off a byte stream.
* `Framing.records` cuts a whole stream into a feed.
* `Framing.write` frames records for output.
* `Reader` reads one record after the other and counts them.
-/

set_option autoImplicit false

namespace CardSort

/-- Records of one length, or records that end with a separator. -/
inductive Framing where
  | fixed (length : Nat)
  | separated (separator : Bytes)
deriving DecidableEq, Repr

/-- The framing of a record format; a separator stands for its bytes in UTF-8. -/
def RecordFormat.framing : RecordFormat → Framing
  | fixed length => .fixed length
  | separated separator => .separated (Text.utf8 separator)

namespace Framing

/-- What the front of a byte stream holds. -/
inductive Cut where
  /-- No further record. -/
  | finished
  /-- A record, and the stream after it. -/
  | record (record rest : Bytes)
  /-- Too few bytes for a record of a fixed length. -/
  | partialRecord (actual : Nat)
  /-- An empty separator, with which no record ends. -/
  | noSeparator
deriving DecidableEq, Repr

/-- Takes the first record off a byte stream. The last record may lack its separator. -/
def cut (framing : Framing) (data : Bytes) : Cut :=
  match framing with
  | fixed length =>
    if length = 0 ∨ data = [] then .finished
    else if data.length < length then .partialRecord data.length
    else .record (data.take length) (data.drop length)
  | separated separator =>
    if separator = [] then .noSeparator
    else if data = [] then .finished
    else
      match Occurrence.splitAtFirst separator data with
      | some (record, rest) => .record record rest
      | none => .record data []

/-- A record taken off a stream leaves a shorter stream. -/
theorem length_lt_of_cut {framing : Framing} {data record rest : Bytes}
    (h : cut framing data = .record record rest) : rest.length < data.length := by
  cases framing with
  | fixed length =>
    simp only [cut] at h
    split at h
    · cases h
    split at h
    · cases h
    cases h
    simp only [List.length_drop]
    omega
  | separated separator =>
    simp only [cut] at h
    split at h
    · cases h
    · next hs =>
      split at h
      · cases h
      · next hd =>
        split at h
        · next hp =>
          cases h
          have := congrArg List.length (Occurrence.eq_of_splitAtFirst hp)
          have := List.length_pos_iff.2 hs
          simp only [List.length_append] at *
          omega
        · cases h
          exact List.length_pos_iff.2 hd

/-- The fault of a stream that ends within a record of a fixed length. -/
def truncation (framing : Framing) (number actual : Nat) : Fault :=
  match framing with
  | fixed length => .truncated number length actual
  | separated _ => .truncated number 0 actual

/-- Cuts a byte stream into records, numbered from `number` on. -/
def recordsFrom (framing : Framing) (number : Nat) (data : Bytes) : Feed :=
  match h : cut framing data with
  | .finished => .ofList []
  | .record record rest => (recordsFrom framing (number + 1) rest).cons record
  | .partialRecord actual => .failed (framing.truncation number actual)
  | .noSeparator => .failed (.setting .separatorEmpty)
termination_by data.length
decreasing_by exact length_lt_of_cut h

/-- Cuts a byte stream into records. -/
def records (framing : Framing) (data : Bytes) : Feed := recordsFrom framing 1 data

/-- One record framed for output. -/
def writeRecord (framing : Framing) (record : Bytes) : Bytes :=
  match framing with
  | fixed _ => record
  | separated separator => record ++ separator

/-- Records framed for output. -/
def write (framing : Framing) (records : List Bytes) : Bytes := records.flatMap framing.writeRecord

end Framing

/-- A byte stream that is read record by record, and the number of records read. -/
structure Reader where
  framing : Framing
  data : Bytes
  count : Nat := 0
deriving DecidableEq, Repr

/-- Reads the next record, or `none` at the end. A truncated record is consumed. -/
def Reader.next (r : Reader) : Except Fault (Option Bytes) × Reader :=
  match r.framing.cut r.data with
  | .finished => (.ok none, r)
  | .record record rest => (.ok (some record), { r with data := rest, count := r.count + 1 })
  | .partialRecord actual =>
    (.error (r.framing.truncation (r.count + 1) actual), { r with data := [] })
  | .noSeparator => (.error (.setting .separatorEmpty), r)

end CardSort
