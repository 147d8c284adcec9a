/-!
# Errors of an archive

What an operation on a tier, or on both tiers of a tiered archive, can fail with. Saving an event a
second time and deleting an absent one are outcomes and no errors.
-/
namespace EventArchive

/-- Why an operation on an archive failed. -/
inductive ArchiveError where
  /-- The engine below failed to read or write. -/
  | database (detail : String)
  /-- A directory or a file could not be used. -/
  | io (detail : String)
  /-- A stored value is not of its form. -/
  | corrupt (detail : String)
  | serialization (detail : String)
  | deserialization (detail : String)
  /-- No serial could be given out. -/
  | serialAllocation (detail : String)
  /-- No plan exists for the filter. -/
  | invalidFilter (detail : String)
  | config (detail : String)
  /-- A write kept conflicting. -/
  | conflict (attempts : Nat)
  | cancelled
  | closed
  /-- A task ended without an answer. -/
  | task (detail : String)
  /-- One or more tiers failed. -/
  | tiers (causes : List ArchiveError)

namespace ArchiveError

mutual

/-- The text of an error. -/
def message : ArchiveError → String
  | .database detail => "Database error: " ++ detail
  | .io detail => "I/O error: " ++ detail
  | .corrupt detail => "Corrupt record: " ++ detail
  | .serialization detail => "Serialization error: " ++ detail
  | .deserialization detail => "Deserialization error: " ++ detail
  | .serialAllocation detail => "Serial allocation failed: " ++ detail
  | .invalidFilter detail => "Invalid filter: " ++ detail
  | .config detail => "Configuration error: " ++ detail
  | .conflict attempts => "Write conflict persisted after " ++ toString attempts ++ " attempts"
  | .cancelled => "Operation cancelled"
  | .closed => "Store is closed"
  | .task detail => "Task failed: " ++ detail
  | .tiers causes =>
    toString causes.length ++ " tier(s) failed: " ++ String.intercalate "; " (messages causes)

/-- The texts of several errors. -/
def messages : List ArchiveError → List String
  | [] => []
  | e :: es => e.message :: messages es

end

/-- Whether the engine below failed. -/
def isDatabase : ArchiveError → Bool
  | .database _ => true
  | _ => false

end ArchiveError
end EventArchive
