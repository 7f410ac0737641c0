import CardSort.Main
import CardSort.Proofs.Job.Sorting
import CardSort.Proofs.Job.Merging
import CardSort.Proofs.Sum.Conservation
import CardSort.Proofs.Job.Destinations
import CardSort.Proofs.Field.Canonical
import CardSort.Proofs.Job.Partition
import CardSort.Proofs.Sum.Grouping
import CardSort.Proofs.Job.Repetition
import CardSort.Proofs.Job.Accounting
import CardSort.Proofs.Job.Failure
import CardSort.Proofs.Filter.Printing
import CardSort.Proofs.Card.Fields
import CardSort.Proofs.Card.Scanning
import CardSort.Proofs.Deck.Order
import CardSort.Proofs.Deck.Faults
import CardSort.Proofs.Deck.Continuation
import CardSort.Proofs.Framing.Inverse
import CardSort.Proofs.Framing.Buffer
import CardSort.Proofs.Layout.Printing
import CardSort.Proofs.Destination.Blocks
import CardSort.Proofs.Order.Interleaving
import CardSort.Proofs.Job.Readings
import CardSort.Proofs.Job.Scanner
import CardSort.Proofs.Job.Copying
import CardSort.Proofs.Job.Commutation
import CardSort.Proofs.Order.Chunking
import CardSort.Proofs.Layout.Width
import CardSort.Proofs.Collation
import CardSort.Proofs.Filter.Comparison
import CardSort.Proofs.Deck.Selection
import CardSort.Proofs.Card.Listing
import CardSort.Proofs.Text.Hexadecimal
import CardSort.Proofs.Key.Binary
import CardSort.Proofs.Sum.Overflow
import CardSort.Proofs.Filter.HexConstant
import CardSort.Proofs.Filter.Padding
import CardSort.Proofs.Card.Operations
import CardSort.Proofs.Order.Run
