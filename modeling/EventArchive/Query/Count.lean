import EventArchive.Query.Scan

/-!
# Counting

Counting walks the same keys as a query and counts the serials it meets. Where the index expresses
the whole filter, a key counts without a look at its record.
-/
namespace EventArchive

namespace Scan

/-- The serial that a key of the scan counts, if it does. -/
def counted? (s : Scan) (k : Keyspace) (residual : Option Filter) (key : Bytes) :
    Option Serial :=
  if s.owns key then
    if residual.isNone then Key.serial? key
    else (resolve k residual (s.timeOf key) key).map (·.serial)
  else none

/-- The serials that a scan counts. -/
def countedSerials (s : Scan) (k : Keyspace) (residual : Option Filter) (since : UInt64) :
    List Serial :=
  ((s.keysBelow k s.upper).takeWhile (!s.isPast since ·)).filterMap (s.counted? k residual)

end Scan

namespace Plan

/-- Number of distinct records that the scans of a plan find, without any limit. -/
def count (p : Plan) (k : Keyspace) : Nat :=
  (distinct (p.scans.flatMap fun s => s.countedSerials k p.residual p.since)).length

/-- Whether some scan of a plan has a key to look at. -/
def meetsKey (p : Plan) (k : Keyspace) : Bool :=
  p.scans.any fun s => ! (s.keysBelow k s.upper).isEmpty

end Plan
end EventArchive
