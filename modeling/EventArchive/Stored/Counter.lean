import EventArchive.Key.Field
import EventArchive.Store.Error

/-!
# Access counters

A counter keeps when a record was last delivered and how large it is. It has twelve bytes: the time
in eight, the size in four.
-/
namespace EventArchive

/-- When a record was last delivered, and its size. -/
structure Counter where
  lastAccess : UInt64
  size : UInt32
  deriving DecidableEq, Repr

namespace Counter

/-- A counter for a record of `size` bytes; a size beyond 32 bits is held as the largest one. -/
def ofSize (lastAccess : UInt64) (size : Nat) : Counter :=
  ⟨lastAccess, UInt32.ofNat (min size (UInt32.size - 1))⟩

/-- The bytes of a counter. -/
def encode (c : Counter) : Bytes := Key.write [⟨.timestamp, c.lastAccess⟩, ⟨.size, c.size⟩]

/-- The counter of given bytes. -/
def decode (bytes : Bytes) : Except KeyError Counter :=
  if bytes.length = 12 then
    .ok ⟨UInt64.ofNat (Bytes.toNatBE (bytes.take 8)), UInt32.ofNat (Bytes.toNatBE (bytes.drop 8))⟩
  else if bytes.length < 12 then .error (.truncated 12 bytes.length)
  else .error (.trailing (bytes.length - 12))

/-- The error of an archive that meets a value that is no counter. -/
def corrupt (e : KeyError) : ArchiveError := .corrupt ("counter value: " ++ e.message)

end Counter
end EventArchive
