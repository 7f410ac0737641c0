import CardSort.Deck
import CardSort.Framing

/-!
# Jobs

A job is a configuration with compiled statements. It runs over a list of inputs and writes one
sink per destination.

* `Job.ofDeck` and `Job.ofText` build a job from a deck.
* `Job.activeComparer` are the keys that order the records; copy mode has none.
* `Strategy`, `Stats` and `Outcome` describe a run.
-/

set_option autoImplicit false

namespace CardSort

/-- One input: its bytes, or a file that cannot be opened. -/
inductive Input where
  | present (data : Bytes)
  | missing
deriving DecidableEq, Repr

/-- How a pass orders its records. -/
inductive Strategy where
  /-- In order of arrival. -/
  | copy
  /-- Inputs in key order are merged. -/
  | merge
  /-- All records are sorted at once. -/
  | inMemory
  /-- Sorted chunks are spilled and merged. -/
  | external
deriving DecidableEq, Repr

/-- The name of a strategy. -/
def Strategy.name : Strategy → String
  | copy => "copy"
  | merge => "merge"
  | inMemory => "in-memory"
  | external => "external"

/-- The counts of a run. -/
structure Stats where
  /-- The strategy of the first pass. -/
  strategy : Strategy := .copy
  /-- Data records read by the first pass. -/
  input : Nat := 0
  /-- Records that the filter drops in the first pass. -/
  filtered : Nat := 0
  /-- Records folded into another one, over all passes. -/
  summed : Nat := 0
  /-- Records written, over all destinations. -/
  output : Nat := 0
  /-- Records written to each destination. -/
  perDestination : List Nat := []
  /-- Runs spilled, over all passes. -/
  spilled : Nat := 0
deriving DecidableEq, Repr

/-- The end of a run: its counts or a fault, and what each sink has received. -/
structure Outcome where
  result : Except Fault Stats
  sinks : List Bytes

/-- A configuration with compiled statements. -/
structure Job where
  config : Config
  mode : Mode := .sort
  comparer : Option Comparer := none
  filter : Option Filter := none
  inrec : Option Layout := none
  outrec : Option Layout := none
  sum : Option SumRule := none
  destinations : List Destination := []
deriving DecidableEq, Repr

namespace Job

/-- The job of a compiled deck. An option for equal keys wins over the configuration. -/
def ofDeck (deck : Deck) (config : Config) : Job :=
  { config := { config with stable := deck.stable.getD config.stable }
    mode := deck.mode
    comparer := deck.comparer
    filter := deck.filter
    inrec := deck.inrec
    outrec := deck.outrec
    sum := deck.sum
    destinations := deck.destinations }

/-- The job of a deck of control statements. -/
def ofText (text : String) (config : Config) : Except Fault Job := do
  config.validate
  let deck ← Deck.ofText text config
  pure (ofDeck deck config)

/-- The keys that order the records. -/
def activeComparer (job : Job) : Option Comparer :=
  match job.mode with
  | .copy => none
  | .sort | .merge => job.comparer

/-- The rule that folds records with equal keys; without keys there is nothing to fold. -/
def activeSum (job : Job) : Option (SumRule × Comparer) :=
  match job.sum, job.activeComparer with
  | some rule, some comparer => some (rule, comparer)
  | _, _ => none

/-- The framing of inputs and outputs. -/
def framing (job : Job) : Framing := job.config.recordFormat.framing

/-- The number of sinks that a run writes. -/
def sinkCount (job : Job) : Nat := max 1 job.destinations.length

end Job

end CardSort
