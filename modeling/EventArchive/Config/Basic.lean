import EventArchive.Store.Error

/-!
# Configuration of an archive

Every setting has a default. `Config.validate` says what settings a tier accepts; the first setting
that is refused is the one reported.
-/
namespace EventArchive

/-- A percentage of a number, rounded down. -/
def percentOf (total : UInt64) (percent : UInt8) : UInt64 :=
  UInt64.ofNat (total.toNat * percent.toNat / 100)

/-- When a tier collects, and down to what. The budget of the records is a percentage of the size
limit; what the limit leaves above it is the budget of the index entries of demoted records. -/
structure CollectionConfig where
  /-- Bytes a tier may take; zero turns collection off. -/
  sizeLimit : UInt64
  /-- Percentage of the limit that a sweep goes down to. -/
  lowWater : UInt8
  /-- Percentage of the limit at which a sweep starts. -/
  highWater : UInt8
  /-- Seconds between two collections. -/
  intervalSecs : UInt64
  /-- Percentage of the index budget that a sweep goes down to. -/
  indexLowWater : UInt8
  /-- Percentage of the index budget at which a sweep starts. -/
  indexHighWater : UInt8
  deriving DecidableEq, Repr

namespace CollectionConfig

/-- Collection is off. -/
def standard : CollectionConfig := ⟨0, 86, 92, 300, 86, 92⟩

/-- Whether a tier collects at all. -/
def enabled (c : CollectionConfig) : Bool := 0 < c.sizeLimit

/-- Seconds between two collections, at least one. -/
def interval (c : CollectionConfig) : UInt64 := max c.intervalSecs 1

/-- Bytes of records at which a sweep starts. -/
def highMark (c : CollectionConfig) : UInt64 := percentOf c.sizeLimit c.highWater

/-- Bytes of records that a sweep goes down to. -/
def lowMark (c : CollectionConfig) : UInt64 := percentOf c.sizeLimit c.lowWater

/-- Bytes left for the index entries of demoted records. -/
def indexHeadroom (c : CollectionConfig) : UInt64 :=
  percentOf c.sizeLimit (100 - min c.highWater 100)

/-- Bytes of index entries at which a sweep starts. -/
def indexHighMark (c : CollectionConfig) : UInt64 := percentOf c.indexHeadroom c.indexHighWater

/-- Bytes of index entries that a sweep goes down to. -/
def indexLowMark (c : CollectionConfig) : UInt64 := percentOf c.indexHeadroom c.indexLowWater

/-- A pair of percentages as an error text shows it. -/
def showMarks (low high : UInt8) : String :=
  "watermarks must satisfy low < high <= 100, got " ++ toString low.toNat ++ " and "
    ++ toString high.toNat

/-- Whether the percentages are in order. -/
def validate (c : CollectionConfig) : Except ArchiveError Unit :=
  if c.highWater ≤ c.lowWater ∨ 100 < c.highWater then
    .error (.config ("gc " ++ showMarks c.lowWater c.highWater))
  else if c.indexHighWater ≤ c.indexLowWater ∨ 100 < c.indexHighWater then
    .error (.config ("index " ++ showMarks c.indexLowWater c.indexHighWater))
  else .ok ()

end CollectionConfig

/-- How accesses are queued and written. -/
structure AccessConfig where
  /-- Accesses that may wait; further ones are dropped. -/
  queueDepth : UInt64
  /-- Accesses written in one transaction. -/
  batchSize : UInt64
  /-- Attempts before a batch is dropped. -/
  maxAttempts : UInt32
  /-- Milliseconds between the first two attempts. -/
  retryBaseMs : UInt64
  deriving DecidableEq, Repr

namespace AccessConfig

/-- The default settings. -/
def standard : AccessConfig := ⟨1024, 64, 8, 5⟩

end AccessConfig

/-- How a tiered archive copies recent records from its secondary tier. -/
structure PollConfig where
  /-- Seconds between two polls; zero turns polling off. -/
  intervalSecs : UInt64
  /-- How many intervals a poll reaches back behind the end of the one before. -/
  overlap : UInt32
  deriving DecidableEq, Repr

namespace PollConfig

/-- Polling is off. -/
def standard : PollConfig := ⟨0, 4⟩

/-- Whether a tiered archive polls at all. -/
def enabled (c : PollConfig) : Bool := 0 < c.intervalSecs

/-- Seconds between two polls, at least one. -/
def interval (c : PollConfig) : UInt64 := max c.intervalSecs 1

/-- Intervals to reach back; fewer than two count as four. -/
def overlapFactor (c : PollConfig) : UInt32 := if c.overlap < 2 then 4 else c.overlap

/-- The largest span of time, in seconds and nanoseconds. -/
def longest : Nat × Nat := (UInt64.size - 1, 999999999)

/-- How far a poll reaches back, in seconds and nanoseconds; a span too long is the longest one. -/
def overlapSpan (c : PollConfig) : Nat × Nat :=
  let seconds := c.interval.toNat * c.overlapFactor.toNat
  if seconds < UInt64.size then (seconds, 0) else longest

end PollConfig

/-- The settings of a tier. -/
structure Config where
  /-- Path of the database file. -/
  dbPath : String
  /-- Bytes of pages kept in memory. -/
  cacheSize : UInt64
  /-- The most results that a query delivers. -/
  maxLimit : UInt64
  /-- Serials set aside at a time. -/
  serialBatch : UInt64
  /-- Results that may wait between the parts of a query. -/
  scanQueueDepth : UInt64
  /-- Keys read at a time. -/
  scanPageSize : UInt64
  collection : CollectionConfig
  access : AccessConfig
  poll : PollConfig
  deriving DecidableEq, Repr

namespace Config

/-- The default settings. -/
def standard : Config where
  dbPath := "strata.redb"
  cacheSize := 67108864
  maxLimit := 500
  serialBatch := 1000
  scanQueueDepth := 12
  scanPageSize := 64
  collection := .standard
  access := .standard
  poll := .standard

/-- Whether a tier accepts the settings. -/
def validate (c : Config) : Except ArchiveError Unit :=
  if c.maxLimit = 0 then .error (.config "max_limit must be positive")
  else if c.serialBatch = 0 then .error (.config "serial_batch must be positive")
  else if c.scanQueueDepth = 0 ∨ c.scanPageSize = 0 then
    .error (.config "scan queue depth and page size must be positive")
  else if c.access.queueDepth = 0 ∨ c.access.batchSize = 0 then
    .error (.config "access queue depth and batch size must be positive")
  else if c.access.maxAttempts = 0 then
    .error (.config "access max_attempts must be positive")
  else c.collection.validate

/-- The number of results for a requested one; none and zero ask for the most. -/
def effectiveLimit (c : Config) (requested : Option UInt64) : UInt64 :=
  match requested with
  | some n => if n = 0 then c.maxLimit else min n c.maxLimit
  | none => c.maxLimit

end Config
end EventArchive
