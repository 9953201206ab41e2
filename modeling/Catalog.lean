import Catalog.Command.Arguments
import Catalog.Command.Instant
import Catalog.Command.Invocation
import Catalog.Command.Listing
import Catalog.Command.Run
import Catalog.Digest.Sha256
import Catalog.Field.Basic
import Catalog.Field.Change
import Catalog.Field.Flatten
import Catalog.Field.Normalize
import Catalog.Files.Content
import Catalog.Files.Error
import Catalog.Files.Path
import Catalog.Files.Tree
import Catalog.Files.Walk
import Catalog.Import.Job
import Catalog.Import.Scan
import Catalog.Json.Number
import Catalog.Json.Printer
import Catalog.Json.Syntax
import Catalog.Json.Value
import Catalog.Main
import Catalog.Media.Bitmap
import Catalog.Media.Fingerprint
import Catalog.Media.Raster
import Catalog.Media.Signature
import Catalog.Number.Decimal
import Catalog.Number.Double
import Catalog.Number.Shortest
import Catalog.Number.WrittenForm
import Catalog.Order.Keyed
import Catalog.Order.Sort
import Catalog.Order.Total
import Catalog.Proofs.Field.Change
import Catalog.Proofs.Field.Extracted
import Catalog.Proofs.Field.Leaves
import Catalog.Proofs.Field.Normalized
import Catalog.Proofs.Field.Overlap
import Catalog.Proofs.Field.Places
import Catalog.Proofs.Field.Reversal
import Catalog.Proofs.Files.Path
import Catalog.Proofs.Files.Tree
import Catalog.Proofs.Files.Walk
import Catalog.Proofs.Import.Atomicity
import Catalog.Proofs.Import.Fingerprints
import Catalog.Proofs.Import.Hidden
import Catalog.Proofs.Import.Intake
import Catalog.Proofs.Import.Order
import Catalog.Proofs.Import.OwnView
import Catalog.Proofs.Import.Pipeline
import Catalog.Proofs.Import.Rescan
import Catalog.Proofs.Import.Sidecars
import Catalog.Proofs.Json.Number
import Catalog.Proofs.Json.Sorted
import Catalog.Proofs.Json.Strings
import Catalog.Proofs.Media.Fingerprint
import Catalog.Proofs.Media.Raster
import Catalog.Proofs.Number.Decimal
import Catalog.Proofs.Number.Rounding
import Catalog.Proofs.Number.Shortest
import Catalog.Proofs.Number.Special
import Catalog.Proofs.Number.WrittenForm
import Catalog.Proofs.Order.Keyed
import Catalog.Proofs.Order.Sort
import Catalog.Proofs.Query.ByteCompile
import Catalog.Proofs.Query.ByteScan
import Catalog.Proofs.Query.Canonical
import Catalog.Proofs.Query.Clause
import Catalog.Proofs.Query.Comparison
import Catalog.Proofs.Query.Finite
import Catalog.Proofs.Query.NumberValue
import Catalog.Proofs.Query.Occurrence
import Catalog.Proofs.Query.QuotedValue
import Catalog.Proofs.Query.Quotes
import Catalog.Proofs.Query.Segments
import Catalog.Proofs.Query.Shortcut
import Catalog.Proofs.Query.Size
import Catalog.Proofs.Query.Spelling
import Catalog.Proofs.Query.Written
import Catalog.Proofs.Query.WrittenSize
import Catalog.Proofs.Settings.Overrides
import Catalog.Proofs.Similarity.Arena
import Catalog.Proofs.Similarity.ArenaIndex
import Catalog.Proofs.Similarity.ArenaSearch
import Catalog.Proofs.Similarity.Distance
import Catalog.Proofs.Similarity.Extension
import Catalog.Proofs.Similarity.MetricTree
import Catalog.Proofs.Similarity.Nearest
import Catalog.Proofs.Store.Account
import Catalog.Proofs.Store.Admission
import Catalog.Proofs.Store.Comparison
import Catalog.Proofs.Store.Conjunction
import Catalog.Proofs.Store.Consistent
import Catalog.Proofs.Store.Contents
import Catalog.Proofs.Store.Deposits
import Catalog.Proofs.Store.Derivation
import Catalog.Proofs.Store.Dossier
import Catalog.Proofs.Store.Favorites
import Catalog.Proofs.Store.Fields
import Catalog.Proofs.Store.History
import Catalog.Proofs.Store.Identity
import Catalog.Proofs.Store.Isolation
import Catalog.Proofs.Store.Ledger
import Catalog.Proofs.Store.Matching
import Catalog.Proofs.Store.OwnText
import Catalog.Proofs.Store.Provenance
import Catalog.Proofs.Store.Recency
import Catalog.Proofs.Store.Repetition
import Catalog.Proofs.Store.Replay
import Catalog.Proofs.Store.Run
import Catalog.Proofs.Store.SameNumber
import Catalog.Proofs.Store.Sizes
import Catalog.Proofs.Store.Totals
import Catalog.Proofs.Store.Transaction
import Catalog.Proofs.Store.Upsert
import Catalog.Proofs.Text.Ascii
import Catalog.Proofs.Text.Blank
import Catalog.Proofs.Text.Hex
import Catalog.Proofs.Text.Lines
import Catalog.Proofs.Text.Raw
import Catalog.Proofs.Text.Slice
import Catalog.Query.Clause
import Catalog.Query.Compile
import Catalog.Query.Depth
import Catalog.Query.Literal
import Catalog.Query.Operator
import Catalog.Query.Quotes
import Catalog.Settings.Basic
import Catalog.Settings.Document
import Catalog.Settings.Overrides
import Catalog.Similarity.Hash
import Catalog.Similarity.Linear
import Catalog.Similarity.MetricTree
import Catalog.Similarity.Nearest
import Catalog.Store.Archive
import Catalog.Store.Basic
import Catalog.Store.Database
import Catalog.Store.Favorite
import Catalog.Store.Foreign
import Catalog.Store.Ledger
import Catalog.Store.Record
import Catalog.Store.Report
import Catalog.Store.Search
import Catalog.Store.Stats
import Catalog.Store.Tables
import Catalog.Store.Upsert
import Catalog.Text.Ascii
import Catalog.Text.Blank
import Catalog.Text.CaseTable
import Catalog.Text.Escape
import Catalog.Text.Hex
import Catalog.Text.Raw
import Catalog.Text.Search
import Catalog.Text.SmallLetters
import Catalog.Text.Utf8
