import EventArchive.Tiered.Basic

/-!
# Polling

A tiered archive that polls copies recent records of its secondary tier into the local one at
intervals. Each poll asks for a window of time that begins some intervals before the end of the one
before, so that records which reach the secondary tier late are still found. A poll that fails
leaves the beginning of the window where it was. Events that are new to the local tier are sent to
subscribers.
-/
namespace EventArchive

/-- Copying the records of a poll. -/
structure Pull where
  primary : Archive
  synced : Subscription
  /-- Number of records that have been read. -/
  read : Nat
  failure : Option ArchiveError

namespace Pull

/-- Copy one record, unless one before it could not be saved. Demoted records are passed over. -/
def step (now : Int64) (p : Pull) (r : Record) : Pull :=
  if p.failure.isSome then p
  else
    let p := { p with read := p.read + 1 }
    match r with
    | .stub .. => p
    | .full e =>
      match p.primary.save now e with
      | (.error err, primary) => { p with primary, failure := some err }
      | (.ok outcome, primary) =>
        if outcome = .stored ∨ outcome = .revived then
          { p with primary, synced := p.synced.push e }
        else { p with primary }

end Pull

namespace Poller

/-- How far a poll reaches back, in whole seconds of a signed number of 64 bits. -/
def overlap (c : PollConfig) : Int := min c.overlapSpan.1 Int64.maxValue.toInt

/-- The beginning of the window after one that ended at a time. -/
def nextSince (c : PollConfig) (till : Int64) : Int64 :=
  Int64.ofInt (max (till.toInt - overlap c) Int64.minValue.toInt)

/-- The filter of a poll. -/
def window (since till : Int64) : Filter := (Filter.any.withSince since).withTill till

end Poller

namespace TieredArchive

/-- Poll once. Polling stops if the stream of the secondary tier is cancelled or the task that reads
it ends. -/
def poll (t : TieredArchive) (now : Int64) (p : Poller) : TieredArchive :=
  let config := t.primary.config.poll
  let waiting := { p with untilPoll := config.interval.toNat }
  match t.link.send t.secondary (Poller.window p.since now) false with
  | .lost => { t with poller := none }
  | .answer (.error _) => { t with poller := some waiting }
  | .answer (.ok d) =>
    let pull := d.feed.records.foldl (Pull.step now) ⟨t.primary, t.synced, 0, none⟩
    let t := { t with
      primary := pull.primary
      secondary := t.secondary.noteAccesses now (d.accessed pull.read)
      synced := pull.synced }
    if pull.failure.isSome then { t with poller := some waiting }
    else if d.feed.ended = .cancelled then { t with poller := none }
    else { t with poller := some { waiting with since := Poller.nextSince config now } }

/-- Let a second pass, after which the time is `now`. What falls due runs: collection in the local
tier, collection in the secondary tier, and polling. -/
def tick (t : TieredArchive) (now : Int64) : TieredArchive :=
  let t := { t with primary := t.primary.tick, secondary := t.secondary.tick }
  match t.poller with
  | none => t
  | some p =>
    if p.untilPoll ≤ 1 then t.poll now p
    else { t with poller := some { p with untilPoll := p.untilPoll - 1 } }

/-- The events that subscribers have received since they last looked, and how many they missed. -/
def receive (t : TieredArchive) : Subscription × TieredArchive :=
  (t.synced, { t with synced := .empty })

end TieredArchive
end EventArchive
