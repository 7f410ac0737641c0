import CardSort.Job

/-!
# Writing records in final order

Records in final order are folded by the sum rule, laid out for the output and for the
destination, and framed.

* `SumRule.fold` folds a whole feed; the record that is pending at its end is emitted last.
* `Job.layOut` applies the output layout and the layout of the destination.
* `Job.drain` gives the bytes that a sink receives, also when the feed ends with a fault.
-/

set_option autoImplicit false

namespace CardSort

/-- A folded feed, with the counts of the folding. -/
structure Folded where
  feed : Feed
  summed : Nat
  overflows : Nat
deriving DecidableEq, Repr

namespace SumRule

/-- Folds the records of a feed from a state on. If the feed ends with a fault, the pending
record is not emitted. -/
def foldFrom (rule : SumRule) (comparer : Comparer) (fault : Option Fault) (s : SumState) :
    List Bytes → Folded
  | [] =>
    match fault with
    | some f => ⟨.failed f, s.summed, s.overflows⟩
    | none =>
      let (last, s) := s.finish
      ⟨.ofList last.toList, s.summed, s.overflows⟩
  | r :: rs =>
    match rule.push comparer s r with
    | (.error f, s) => ⟨.failed f, s.summed, s.overflows⟩
    | (.ok none, s) => foldFrom rule comparer fault s rs
    | (.ok (some out), s) =>
      let folded := foldFrom rule comparer fault s rs
      { folded with feed := folded.feed.cons out }

/-- Folds the records of a feed. -/
def fold (rule : SumRule) (comparer : Comparer) (feed : Feed) : Folded :=
  rule.foldFrom comparer feed.fault {} feed.records

end SumRule

/-- What a sink has received, and the counts of the pass if it came to its end. -/
structure Drained where
  bytes : Bytes
  written : Nat
  summed : Nat
  fault : Option Fault
deriving DecidableEq, Repr

namespace Job

/-- A feed in final order, folded by the active sum rule. -/
def foldFeed (job : Job) (feed : Feed) : Folded :=
  match job.activeSum with
  | some (rule, comparer) => rule.fold comparer feed
  | none => ⟨feed, 0, 0⟩

/-- An output record: the output layout, then the layout of the destination. -/
def layOutRecord (job : Job) (layout : Option Layout) (record : Bytes) : Except Fault Bytes := do
  let laidOut ← Layout.formatWith job.outrec record
  Layout.formatWith layout laidOut

/-- The output records of a feed. A fault carries the number of the output record. -/
def layOut (job : Job) (layout : Option Layout) (feed : Feed) : Feed :=
  Feed.mapNumbered (fun n r => (job.layOutRecord layout r).mapError (Fault.atRecord n)) feed.fault
    1 feed.records

/-- Writes the header and a feed in final order to a sink. -/
def drain (job : Job) (layout : Option Layout) (header : List Bytes) (feed : Feed) : Drained :=
  let folded := job.foldFeed feed
  let out := job.layOut layout folded.feed
  { bytes := job.framing.write (header ++ out.records)
    written := out.records.length
    summed := folded.summed
    fault := out.fault }

end Job

end CardSort
