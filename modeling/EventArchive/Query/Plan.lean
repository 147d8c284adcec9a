import EventArchive.Data.Distinct
import EventArchive.Filter.Basic
import EventArchive.Key.Index
import EventArchive.Store.Error

/-!
# Plans

A plan turns a filter into scans of one index, the most selective that the filter speaks of:

```text
identifiers        id                       a scan for each     checks the whole filter
authors            pubkey or pubkeyKind     for each (and kind) checks authors and tags
tags               tag, tag32, tagAddress   for each value      checks kinds and tags
kinds              kind                     for each
none of these      createdAt                one
```

Keys hold eight bytes of identifiers and authors, and tag keys do not hold the name of the tag, so
what an index cannot express is checked against the record.
-/
namespace EventArchive

/-- The largest number of 64 bits; as the end of a time window, no end. -/
def maxUInt64 : UInt64 := UInt64.ofNat (UInt64.size - 1)

/-- A walk over the keys of one beginning, newest first. -/
structure Scan where
  layout : Layout
  /-- What the keys begin with. -/
  stem : Bytes
  /-- Whether the keys hold no time to check. -/
  untimed : Bool
  /-- The newest time to include. -/
  till : UInt64
  deriving DecidableEq, Repr

namespace Scan

/-- A scan of keys that hold a time. -/
def timed (layout : Layout) (stem : Bytes) (till : UInt64) : Scan := ⟨layout, stem, false, till⟩

/-- The key before which the scan starts: the beginning with the first time too late, or, where
every time will do, with more high bytes than a key can have after it. -/
def upper (s : Scan) : Bytes :=
  if s.untimed ∨ s.till = maxUInt64 then s.stem ++ List.replicate 17 0xff
  else s.stem ++ Bytes.bigEndian 8 (s.till.toNat + 1)

/-- The length of the keys of the scan. Longer tag values with the same beginning have longer
keys. -/
def keyLength (s : Scan) : Nat := s.stem.length + (if s.untimed then 0 else 8) + 8

end Scan

/-- Scans, and what they leave to be checked. -/
structure Plan where
  scans : List Scan
  /-- What a record has to satisfy besides. -/
  residual : Option Filter
  /-- The oldest time to include. -/
  since : UInt64
  deriving DecidableEq

namespace Plan

/-- The plan that finds nothing. -/
def nothing : Plan := ⟨[], none, 0⟩

/-- The layout of the first scan. -/
def layout? (p : Plan) : Option Layout := p.scans.head?.map (·.layout)

/-- A tag name without accepted values. -/
def emptyTag? (f : Filter) : Option Char :=
  (f.tags.entries.find? fun t => t.2.isEmpty).map (·.1)

/-- Whether no time at which records are kept lies in the window. -/
def isImpossible (f : Filter) : Bool :=
  match f.till with
  | none => false
  | some till => till < 0 || f.since.any (till < ·)

/-- The scans for identifiers. -/
def idScans (f : Filter) : List Scan :=
  distinct (f.ids.map fun id => ⟨.id, Key.idStem id, true, maxUInt64⟩)

/-- The scans for authors. -/
def authorScans (f : Filter) (till : UInt64) : List Scan :=
  distinct (f.authors.flatMap fun a =>
    if f.kinds.isEmpty then [.timed .pubkey (Key.pubkeyStem a) till]
    else f.kinds.map fun k => .timed .pubkeyKind (Key.pubkeyKindStem a k) till)

/-- The scans for tag values. -/
def tagScans (f : Filter) (till : UInt64) : List Scan :=
  distinct (f.tags.entries.flatMap fun t => t.2.map fun v =>
    let value := TagValue.classify v
    .timed value.layout value.stem till)

/-- The scans for kinds. -/
def kindScans (f : Filter) (till : UInt64) : List Scan :=
  distinct (f.kinds.map fun k => .timed .kind (Key.kindStem k) till)

/-- The plan for a filter whose window is possible. -/
def choose (f : Filter) : Plan :=
  let since := (f.since.map clampTime).getD 0
  let till := (f.till.map clampTime).getD maxUInt64
  if ¬ f.ids.isEmpty then ⟨idScans f, some { f with limit := none }, since⟩
  else if ¬ f.authors.isEmpty then
    ⟨authorScans f till, some { Filter.any with authors := f.authors, tags := f.tags }, since⟩
  else if ¬ f.tags.isEmpty then
    ⟨tagScans f till, some { Filter.any with kinds := f.kinds, tags := f.tags }, since⟩
  else if ¬ f.kinds.isEmpty then ⟨kindScans f till, none, since⟩
  else ⟨[.timed .createdAt Key.createdAtStem till], none, since⟩

/-- The plan for a filter. A tag name without accepted values is an error, since the filter can
match nothing. -/
def ofFilter (f : Filter) : Except ArchiveError Plan :=
  match emptyTag? f with
  | some name =>
    .error (.invalidFilter ("tag filter #" ++ String.singleton name ++ " has no values"))
  | none => .ok (if isImpossible f then nothing else choose f)

end Plan
end EventArchive
