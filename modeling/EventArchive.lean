import EventArchive.Archive.Basic
import EventArchive.Archive.Query
import EventArchive.Collection.Cycle
import EventArchive.Collection.EventTier
import EventArchive.Collection.IndexTier
import EventArchive.Config.Basic
import EventArchive.Config.Load
import EventArchive.Data.Bytes
import EventArchive.Data.Calendar
import EventArchive.Data.Decimal
import EventArchive.Data.Distinct
import EventArchive.Data.Heap
import EventArchive.Data.Hex
import EventArchive.Data.SortedMap
import EventArchive.Data.Split
import EventArchive.Data.Varint
import EventArchive.Event.Basic
import EventArchive.Event.Error
import EventArchive.Event.Json
import EventArchive.Filter.Basic
import EventArchive.Filter.Json
import EventArchive.Json.Magnitude
import EventArchive.Json.Printer
import EventArchive.Json.Reader
import EventArchive.Json.Value
import EventArchive.Key.Field
import EventArchive.Key.Index
import EventArchive.Key.Layout
import EventArchive.Key.TagValue
import EventArchive.Logging.Config
import EventArchive.Logging.Directive
import EventArchive.Logging.Subscriber
import EventArchive.Proofs.AccessMerge
import EventArchive.Proofs.AuthorIsolation
import EventArchive.Proofs.Budget
import EventArchive.Proofs.ByteOrder
import EventArchive.Proofs.Censuses
import EventArchive.Proofs.Changes
import EventArchive.Proofs.Contents
import EventArchive.Proofs.Convergence
import EventArchive.Proofs.CountAgrees
import EventArchive.Proofs.Deletions
import EventArchive.Proofs.DeliveryOrder
import EventArchive.Proofs.DemotedPriors
import EventArchive.Proofs.Demotion
import EventArchive.Proofs.EventText
import EventArchive.Proofs.FilterText
import EventArchive.Proofs.Found
import EventArchive.Proofs.HeapOrder
import EventArchive.Proofs.IdLookups
import EventArchive.Proofs.IdOrder
import EventArchive.Proofs.IdQueries
import EventArchive.Proofs.InFlight
import EventArchive.Proofs.JsonGrammar
import EventArchive.Proofs.JsonShapes
import EventArchive.Proofs.JsonWritten
import EventArchive.Proofs.KeyCodec
import EventArchive.Proofs.KeyIdentity
import EventArchive.Proofs.KeyShape
import EventArchive.Proofs.Leases
import EventArchive.Proofs.Ledger
import EventArchive.Proofs.Leftovers
import EventArchive.Proofs.LogLevels
import EventArchive.Proofs.Lookup
import EventArchive.Proofs.Meets
import EventArchive.Proofs.MergeLoop
import EventArchive.Proofs.MergeOrder
import EventArchive.Proofs.Narrowing
import EventArchive.Proofs.Numerals
import EventArchive.Proofs.Ownership
import EventArchive.Proofs.PagedScans
import EventArchive.Proofs.Plans
import EventArchive.Proofs.Polling
import EventArchive.Proofs.QueryExact
import EventArchive.Proofs.QueryHits
import EventArchive.Proofs.Reachable
import EventArchive.Proofs.RecordForms
import EventArchive.Proofs.Revival
import EventArchive.Proofs.Saving
import EventArchive.Proofs.ScanHits
import EventArchive.Proofs.ScanRange
import EventArchive.Proofs.SlotVersions
import EventArchive.Proofs.SortedMap
import EventArchive.Proofs.StaleMarks
import EventArchive.Proofs.StoredPrefixes
import EventArchive.Proofs.StoredRoundTrip
import EventArchive.Proofs.Sweeps
import EventArchive.Proofs.SweptLedger
import EventArchive.Proofs.TagSpelling
import EventArchive.Proofs.TieBreak
import EventArchive.Proofs.TierGather
import EventArchive.Proofs.TierLookups
import EventArchive.Proofs.TierOrder
import EventArchive.Proofs.TierOutcomes
import EventArchive.Proofs.TierPlaces
import EventArchive.Proofs.TierSteps
import EventArchive.Proofs.TieredLimits
import EventArchive.Proofs.TieredRetention
import EventArchive.Proofs.TieredRuns
import EventArchive.Proofs.TieredVersions
import EventArchive.Proofs.TimeWindow
import EventArchive.Proofs.TopOfUnion
import EventArchive.Proofs.Transactions
import EventArchive.Proofs.Versions
import EventArchive.Proofs.Victims
import EventArchive.Proofs.Watermarks
import EventArchive.Query.Count
import EventArchive.Query.Feed
import EventArchive.Query.Merge
import EventArchive.Query.Plan
import EventArchive.Query.Scan
import EventArchive.Relay.Basic
import EventArchive.Relay.Error
import EventArchive.Relay.Gather
import EventArchive.Relay.Parts
import EventArchive.Session.Basic
import EventArchive.Session.Request
import EventArchive.Settings.Document
import EventArchive.Settings.Toml
import EventArchive.Settings.Value
import EventArchive.Store.Access
import EventArchive.Store.Database
import EventArchive.Store.Edit
import EventArchive.Store.Error
import EventArchive.Store.Mutation
import EventArchive.Store.Serials
import EventArchive.Stored.Counter
import EventArchive.Stored.Record
import EventArchive.Stored.Value
import EventArchive.Tiered.Basic
import EventArchive.Tiered.Link
import EventArchive.Tiered.Merge
import EventArchive.Tiered.Poll
