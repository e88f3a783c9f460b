import RecordStore.Buckets
import RecordStore.Bytes
import RecordStore.Candidates
import RecordStore.Codec
import RecordStore.Error
import RecordStore.Event
import RecordStore.Group
import RecordStore.Index
import RecordStore.Inspect
import RecordStore.Json
import RecordStore.Json.Reader
import RecordStore.KeyList
import RecordStore.Number.Binary64
import RecordStore.Number.Decimal
import RecordStore.Number.Digits
import RecordStore.Number.Numeric
import RecordStore.Number.Shortest
import RecordStore.Plan
import RecordStore.Query
import RecordStore.Query.Access
import RecordStore.Query.Clause
import RecordStore.Query.Criterion
import RecordStore.Query.Selection
import RecordStore.Row
import RecordStore.Schema
import RecordStore.Schema.Declaration
import RecordStore.SortedMap
import RecordStore.StableSort
import RecordStore.StableSort.Comparing
import RecordStore.StableSort.Merge
import RecordStore.StableSort.Partition
import RecordStore.StableSort.Runs
import RecordStore.StableSort.Small
import RecordStore.Store
import RecordStore.Store.Find
import RecordStore.Store.Maintenance
import RecordStore.Taken
import RecordStore.Text.CaseFold
import RecordStore.Text.CharClass
import RecordStore.Text.DecimalDigit
import RecordStore.Text.Pattern
import RecordStore.Text.Pattern.Bracket
import RecordStore.Text.Pattern.Escape
import RecordStore.Text.Pattern.Reader
import RecordStore.Text.Quoted
import RecordStore.Text.Range
import RecordStore.Text.Unprintable
import RecordStore.Text.Utf8
import RecordStore.Text.WordCharacter
import RecordStore.Timestamp
import RecordStore.Traced
import RecordStore.Value
import RecordStore.Value.Compare
import RecordStore.Value.Keycode
import RecordStore.View
import RecordStore.Proofs.Step
import RecordStore.Proofs.Buckets
import RecordStore.Proofs.Bytes
import RecordStore.Proofs.Digits
import RecordStore.Proofs.KeyList
import RecordStore.Proofs.KeyListJson
import RecordStore.Proofs.StableSort
import RecordStore.Proofs.Candidates
import RecordStore.Proofs.Walk
import RecordStore.Proofs.Find
import RecordStore.Proofs.Index
import RecordStore.Proofs.KeyListCalls
import RecordStore.Proofs.InStep
import RecordStore.Proofs.Rebuild
import RecordStore.Proofs.History
import RecordStore.Proofs.Selected
import RecordStore.Proofs.DecimalOrder
import RecordStore.Proofs.Decimal
import RecordStore.Proofs.Restored
import RecordStore.Proofs.KeyOrder
import RecordStore.Proofs.ValueOrder
import RecordStore.Proofs.Rounding
import RecordStore.Proofs.Transitivity
import RecordStore.Proofs.Comparison
import RecordStore.Proofs.Scan
import RecordStore.Proofs.Declared
import RecordStore.Proofs.IndexScan
import RecordStore.Proofs.SliceScan
import RecordStore.Proofs.RoundTrip
import RecordStore.Proofs.Alternatives
import RecordStore.Proofs.Removal
import RecordStore.Proofs.FailedWrite
import RecordStore.Proofs.FirstMatch
import RecordStore.Proofs.Paging
import RecordStore.Proofs.Batches
import RecordStore.Proofs.Isolation
import RecordStore.Proofs.Incremental
import RecordStore.Proofs.Rejection
import RecordStore.Proofs.KeyLookup
import RecordStore.Proofs.EntryVerdict
import RecordStore.Proofs.BulkUpdate
import RecordStore.Proofs.FallibleOrder
import RecordStore.Proofs.Merging
import RecordStore.Proofs.Sorting
import RecordStore.Proofs.RowSort
import RecordStore.Proofs.Grouping
import RecordStore.Proofs.GroupSort
import RecordStore.Proofs.Thinning
import RecordStore.Proofs.BulkDelete
import RecordStore.Proofs.DeclaredIndexes
import RecordStore.Proofs.Truncation
import RecordStore.Proofs.Summing
import RecordStore.Proofs.StoredRows
import RecordStore.Proofs.Keeping
import RecordStore.Proofs.Sequence
import RecordStore.Proofs.SameKey
import RecordStore.Proofs.RecordMap
import RecordStore.Proofs.WellFormed
import RecordStore.Proofs.PartOrder
import RecordStore.Proofs.Seek
import RecordStore.Proofs.Draining
import RecordStore.Proofs.Positions
import RecordStore.Proofs.Sinks
import RecordStore.Proofs.Explained
