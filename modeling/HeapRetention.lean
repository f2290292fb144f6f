import HeapRetention.Main
import HeapRetention.Proofs.Removal
import HeapRetention.Proofs.Recorded
import HeapRetention.Proofs.Snapshot
import HeapRetention.Proofs.Cache
import HeapRetention.Proofs.Tokens
import HeapRetention.Proofs.Faults
import HeapRetention.Proofs.Filling
import HeapRetention.Proofs.Ancestors
import HeapRetention.Proofs.TwoWays
import HeapRetention.Proofs.Settling
import HeapRetention.Proofs.Totals
import HeapRetention.Proofs.Growth
import HeapRetention.Proofs.Balance
import HeapRetention.Proofs.Partition
import HeapRetention.Proofs.Width
import HeapRetention.Proofs.HeapTable
import HeapRetention.Proofs.Rankings
import HeapRetention.Proofs.Exports
import HeapRetention.Proofs.Documents
import HeapRetention.Proofs.Strangers
import HeapRetention.Proofs.Numerals
import HeapRetention.Proofs.Readback
import HeapRetention.Proofs.Writing
import HeapRetention.Proofs.WrittenForms
import HeapRetention.Proofs.Transpose
import HeapRetention.Proofs.Postorder
import HeapRetention.Proofs.Rising
