import CardSort.Bytes
import CardSort.Fault

/-!
# Feeds of records

A feed is a stream of records together with how it ends: at its end, or with a fault. The
records are those delivered before the fault.

* `Feed.cons` and `Feed.prepend` put records in front of a feed.
* `Feed.mapNumbered` passes each record through a step that may fail, with its number.
* `Feed.complete` demands that the feed ends without a fault.
-/

set_option autoImplicit false

namespace CardSort

/-- Records in order, and the fault that ends them, if there is one. -/
structure Feed where
  records : List Bytes
  fault : Option Fault
deriving DecidableEq, Repr

namespace Feed

/-- The feed of a list of records. -/
def ofList (records : List Bytes) : Feed := ⟨records, none⟩

/-- The feed that fails at once. -/
def failed (f : Fault) : Feed := ⟨[], some f⟩

/-- The feed with one record in front. -/
def cons (r : Bytes) (feed : Feed) : Feed := { feed with records := r :: feed.records }

/-- The records of a list, then those of a feed. -/
def prepend (records : List Bytes) (feed : Feed) : Feed :=
  { feed with records := records ++ feed.records }

/-- Passes records through a step with their numbers from `number` on; the first one that fails
ends the feed. -/
def mapNumbered (step : Nat → Bytes → Except Fault Bytes) (fault : Option Fault) (number : Nat) :
    List Bytes → Feed
  | [] => ⟨[], fault⟩
  | r :: rs =>
    match step number r with
    | .ok out => (mapNumbered step fault (number + 1) rs).cons out
    | .error f => failed f

/-- The records of a feed that ends without a fault. -/
def complete (feed : Feed) : Except Fault (List Bytes) :=
  match feed.fault with
  | none => .ok feed.records
  | some f => .error f

end Feed

end CardSort
