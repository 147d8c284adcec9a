import EventArchive.Query.Plan
import EventArchive.Store.Database
import EventArchive.Stored.Record

/-!
# Running a scan

A scan walks its keys backwards in pages. Each page is read from the table as it is then, and the
next one starts below the last key the page has seen, whether that key was a hit or not. A key whose
length is not that of the scan belongs to another value. The first key older than the window ends
the scan.
-/
namespace EventArchive

/-- A record that a scan has found. -/
structure Hit where
  serial : Serial
  createdAt : Int64
  record : Record
  deriving DecidableEq

/-- What one page found, and where the next one starts if there is one. -/
structure Page where
  hits : List Hit
  resume : Option Bytes
  deriving DecidableEq

namespace Scan

/-- The record behind an index key of a given time, if it satisfies the residual filter. A key
without a record, and one whose record is damaged, is no hit. -/
def resolve (k : Keyspace) (residual : Option Filter) (time : Option UInt64) (key : Bytes) :
    Option Hit := do
  let serial ← Key.serial? key
  let value ← k.record? serial
  match StoredValue.decode value with
  | .ok (.full e) =>
    if residual.all (·.isMatch e) then some ⟨serial, e.createdAt, .full e⟩ else none
  | .ok (.stub id) =>
    let createdAt := (time.map timeOfClamped).getD 0
    if residual.all (·.isStubMatch id) then some ⟨serial, createdAt, .stub id createdAt⟩ else none
  | .error _ => none

/-- The time that a key of the scan holds; none if the layout has no time. -/
def timeOf (s : Scan) (key : Bytes) : Option UInt64 :=
  if s.untimed then none else some ((Key.timestamp? key).getD 0)

/-- Whether a key belongs to the scan. -/
def owns (s : Scan) (key : Bytes) : Bool := key.length == s.keyLength

/-- Whether a key of the scan is older than the window. -/
def isPast (s : Scan) (since : UInt64) (key : Bytes) : Bool :=
  s.owns key && (s.timeOf key).any (· < since)

/-- The hit of a key, if it is one. -/
def hit? (s : Scan) (k : Keyspace) (residual : Option Filter) (key : Bytes) : Option Hit :=
  if s.owns key then resolve k residual (s.timeOf key) key else none

/-- The keys of the scan below a bound, newest first. -/
def keysBelow (s : Scan) (k : Keyspace) (upper : Bytes) : List Bytes :=
  ((k.range s.stem upper).map (·.1)).reverse

/-- Read keys until the page is full, the window is left or no key is left. A page has room for at
least one key. -/
def readKeys (s : Scan) (k : Keyspace) (residual : Option Filter) (since : UInt64) :
    (room : Nat) → List Bytes → Page
  | _, [] => ⟨[], none⟩
  | room, key :: keys =>
    if s.isPast since key then ⟨[], none⟩
    else
      let found := (s.hit? k residual key).toList
      match room with
      | 0 | 1 => ⟨found, some key⟩
      | room + 2 =>
        let page := s.readKeys k residual since (room + 1) keys
        ⟨found ++ page.hits, page.resume⟩

/-- The page that starts below a bound. -/
def readPage (s : Scan) (k : Keyspace) (residual : Option Filter) (since : UInt64)
    (pageSize : Nat) (upper : Bytes) : Page :=
  s.readKeys k residual since pageSize (s.keysBelow k upper)

/-- The hits of all pages from a bound on. The fuel bounds the number of pages. -/
def readPages (s : Scan) (k : Keyspace) (residual : Option Filter) (since : UInt64)
    (pageSize : Nat) : (fuel : Nat) → Bytes → List Hit
  | 0, _ => []
  | fuel + 1, upper =>
    let page := s.readPage k residual since pageSize upper
    match page.resume with
    | none => page.hits
    | some next => page.hits ++ s.readPages k residual since pageSize fuel next

/-- The hits of a scan, in the order in which it finds them. Every page sees at least one key, so
there are no more pages than keys, and a last one. -/
def hits (s : Scan) (k : Keyspace) (residual : Option Filter) (since : UInt64)
    (pageSize : Nat) : List Hit :=
  s.readPages k residual since pageSize ((s.keysBelow k s.upper).length + 1) s.upper

/-- The hits of a scan that reads all its keys at once. -/
def onePass (s : Scan) (k : Keyspace) (residual : Option Filter) (since : UInt64) : List Hit :=
  ((s.keysBelow k s.upper).takeWhile (!s.isPast since ·)).filterMap (s.hit? k residual)

end Scan
end EventArchive
