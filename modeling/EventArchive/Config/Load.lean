import EventArchive.Config.Basic
import EventArchive.Settings.Toml

/-!
# Loading a configuration

A configuration is read from a table of settings, each of which has a default, and is written as a
table that names them all. A settings file is read and then validated.
-/
namespace EventArchive

/-- The settings of collection in a table. -/
def CollectionConfig.ofSetting? (s : Setting) : Option CollectionConfig := do
  let d := standard
  let ms ← s.part? ["size_limit", "low_water", "high_water", "interval_secs", "index_low_water",
    "index_high_water"]
  return {
    sizeLimit := ← readMember ms "size_limit" Setting.uint64? d.sizeLimit
    lowWater := ← readMember ms "low_water" Setting.uint8? d.lowWater
    highWater := ← readMember ms "high_water" Setting.uint8? d.highWater
    intervalSecs := ← readMember ms "interval_secs" Setting.uint64? d.intervalSecs
    indexLowWater := ← readMember ms "index_low_water" Setting.uint8? d.indexLowWater
    indexHighWater := ← readMember ms "index_high_water" Setting.uint8? d.indexHighWater }

/-- A table of all settings of collection. -/
def CollectionConfig.toSetting (c : CollectionConfig) : Setting :=
  .table [("size_limit", .ofNat c.sizeLimit.toNat), ("low_water", .ofNat c.lowWater.toNat),
    ("high_water", .ofNat c.highWater.toNat), ("interval_secs", .ofNat c.intervalSecs.toNat),
    ("index_low_water", .ofNat c.indexLowWater.toNat),
    ("index_high_water", .ofNat c.indexHighWater.toNat)]

/-- The settings of accesses in a table. -/
def AccessConfig.ofSetting? (s : Setting) : Option AccessConfig := do
  let d := standard
  let ms ← s.part? ["queue_depth", "batch_size", "max_attempts", "retry_base_ms"]
  return {
    queueDepth := ← readMember ms "queue_depth" Setting.uint64? d.queueDepth
    batchSize := ← readMember ms "batch_size" Setting.uint64? d.batchSize
    maxAttempts := ← readMember ms "max_attempts" Setting.uint32? d.maxAttempts
    retryBaseMs := ← readMember ms "retry_base_ms" Setting.uint64? d.retryBaseMs }

/-- A table of all settings of accesses. -/
def AccessConfig.toSetting (c : AccessConfig) : Setting :=
  .table [("queue_depth", .ofNat c.queueDepth.toNat), ("batch_size", .ofNat c.batchSize.toNat),
    ("max_attempts", .ofNat c.maxAttempts.toNat), ("retry_base_ms", .ofNat c.retryBaseMs.toNat)]

/-- The settings of polling in a table. -/
def PollConfig.ofSetting? (s : Setting) : Option PollConfig := do
  let d := standard
  let ms ← s.part? ["interval_secs", "overlap"]
  return {
    intervalSecs := ← readMember ms "interval_secs" Setting.uint64? d.intervalSecs
    overlap := ← readMember ms "overlap" Setting.uint32? d.overlap }

/-- A table of all settings of polling. -/
def PollConfig.toSetting (c : PollConfig) : Setting :=
  .table [("interval_secs", .ofNat c.intervalSecs.toNat), ("overlap", .ofNat c.overlap.toNat)]

/-- Why no configuration was loaded. -/
inductive LoadError where
  /-- The text is no table of settings, or a setting has a value of another type. -/
  | unreadable
  | refused (cause : ArchiveError)

namespace Config

/-- The settings of a tier in a table. -/
def ofSetting? (s : Setting) : Option Config := do
  let d := standard
  let ms ← s.part? ["db_path", "cache_size", "max_limit", "serial_batch", "scan_queue_depth",
    "scan_page_size", "gc", "access", "poll"]
  return {
    dbPath := ← readMember ms "db_path" Setting.text? d.dbPath
    cacheSize := ← readMember ms "cache_size" Setting.uint64? d.cacheSize
    maxLimit := ← readMember ms "max_limit" Setting.uint64? d.maxLimit
    serialBatch := ← readMember ms "serial_batch" Setting.uint64? d.serialBatch
    scanQueueDepth := ← readMember ms "scan_queue_depth" Setting.uint64? d.scanQueueDepth
    scanPageSize := ← readMember ms "scan_page_size" Setting.uint64? d.scanPageSize
    collection := ← readMember ms "gc" CollectionConfig.ofSetting? d.collection
    access := ← readMember ms "access" AccessConfig.ofSetting? d.access
    poll := ← readMember ms "poll" PollConfig.ofSetting? d.poll }

/-- A table of all settings of a tier. -/
def toSetting (c : Config) : Setting :=
  .table [("db_path", .text c.dbPath), ("cache_size", .ofNat c.cacheSize.toNat),
    ("max_limit", .ofNat c.maxLimit.toNat), ("serial_batch", .ofNat c.serialBatch.toNat),
    ("scan_queue_depth", .ofNat c.scanQueueDepth.toNat),
    ("scan_page_size", .ofNat c.scanPageSize.toNat), ("gc", c.collection.toSetting),
    ("access", c.access.toSetting), ("poll", c.poll.toSetting)]

/-- The default settings with a database file of one's own. -/
def ofPath (path : String) : Config := { standard with dbPath := path }

/-- The valid configuration that a text in TOML writes. -/
def ofToml (text : String) : Except LoadError Config :=
  match (Toml.parse? text).bind ofSetting? with
  | none => .error .unreadable
  | some c =>
    match c.validate with
    | .ok () => .ok c
    | .error cause => .error (.refused cause)

/-- The valid configuration that a file holds, given its text if there is such a file. -/
def ofFile (file : Option String) : Except LoadError Config :=
  match file with
  | some text => ofToml text
  | none => .error (.refused (.io "No such file or directory (os error 2)"))

end Config
end EventArchive
