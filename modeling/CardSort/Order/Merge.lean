import CardSort.Feed
import CardSort.Key

/-!
# Merging runs

Several runs are merged by taking the least of their first records again and again. Among equal
records that of the earliest run comes first, so merging sorted pieces of one sequence keeps the
order of arrival.

* `Merge.Source` is a run with a first record.
* `Merge.pickLeast` finds the source whose first record comes next.
* `Merge.merge` merges feeds into one feed.
-/

set_option autoImplicit false

namespace CardSort.Merge

/-- A run that is not exhausted: its first record, the records after it, and the fault that
ends it. -/
structure Source where
  head : Bytes
  tail : List Bytes
  fault : Option Fault
deriving DecidableEq, Repr

/-- The sources of feeds in order. A feed without records is exhausted, or fails. -/
def sources : List Feed → Except Fault (List Source)
  | [] => .ok []
  | feed :: feeds =>
    match feed.records with
    | r :: rs => do
      let more ← sources feeds
      pure (⟨r, rs, feed.fault⟩ :: more)
    | [] =>
      match feed.fault with
      | some f => .error f
      | none => sources feeds

/-- The source whose first record comes first, with the sources before and after it. Of equal
records the leftmost one is taken. -/
def pickLeast (c : Comparer) (s : Source) : List Source → List Source × Source × List Source
  | [] => ([], s, [])
  | t :: ts =>
    let (before, least, after) := pickLeast c t ts
    if c.le s.head least.head then ([], s, t :: ts) else (s :: before, least, after)

/-- The number of records of sources. -/
def total (sources : List Source) : Nat := (sources.map fun s => s.tail.length + 1).sum

theorem pickLeast_eq (c : Comparer) (s : Source) (ss : List Source) :
    s :: ss = (pickLeast c s ss).1 ++ (pickLeast c s ss).2.1 :: (pickLeast c s ss).2.2 := by
  induction ss generalizing s with
  | nil => rfl
  | cons t ts ih =>
    simp only [pickLeast]
    split
    · rfl
    · rw [List.cons_append, ← ih]

theorem total_append (xs ys : List Source) : total (xs ++ ys) = total xs + total ys := by
  simp [total]

theorem total_cons (s : Source) (ss : List Source) :
    total (s :: ss) = s.tail.length + 1 + total ss := by
  simp [total]

theorem total_pickLeast (c : Comparer) (s : Source) (ss : List Source) :
    total (s :: ss) = total (pickLeast c s ss).1 +
      ((pickLeast c s ss).2.1.tail.length + 1 + total (pickLeast c s ss).2.2) := by
  rw [← total_cons, ← total_append, ← pickLeast_eq]

/-- Merges sources. The next record of a run is read before the one taken from it is emitted, so
a run that fails withholds its last record. -/
def mergeSources (c : Comparer) : List Source → Feed
  | [] => .ofList []
  | s :: ss =>
    let picked := pickLeast c s ss
    match _tail : picked.2.1.tail with
    | [] =>
      match picked.2.1.fault with
      | some f => .failed f
      | none => (mergeSources c (picked.1 ++ picked.2.2)).cons picked.2.1.head
    | r :: rs =>
      (mergeSources c (picked.1 ++ ⟨r, rs, picked.2.1.fault⟩ :: picked.2.2)).cons picked.2.1.head
termination_by sources => total sources
decreasing_by
  · rw [total_pickLeast c s ss, total_append]
    omega
  · rw [total_pickLeast c s ss, total_append, total_cons]
    have : (pickLeast c s ss).2.1.tail.length = rs.length + 1 := by
      rw [show (pickLeast c s ss).2.1.tail = r :: rs from _tail]
      rfl
    simp only
    omega

/-- Merges feeds. -/
def merge (c : Comparer) (feeds : List Feed) : Feed :=
  match sources feeds with
  | .ok ss => mergeSources c ss
  | .error f => .failed f

end CardSort.Merge
