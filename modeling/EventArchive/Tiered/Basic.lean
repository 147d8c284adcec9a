import EventArchive.Tiered.Link

/-!
# Tiered archives

A tiered archive keeps everything in a secondary tier and what is in use in a local tier, where
collection demotes records instead of deleting them. Saving and deleting go to both tiers. A query
merges both and looks demoted records up in the secondary tier; an event that a lookup brings is
saved in the local tier again.
-/
namespace EventArchive

/-- Events that a subscriber has still to receive. -/
structure Subscription where
  waiting : List Event
  /-- Number of events that were dropped because too many waited. -/
  missed : Nat
  deriving DecidableEq

namespace Subscription

/-- Events that may wait. -/
def depth : Nat := 256

/-- The subscription to which nothing has been sent. -/
def empty : Subscription := ⟨[], 0⟩

/-- Send an event; if too many wait, the oldest one is dropped. -/
def push (s : Subscription) (e : Event) : Subscription :=
  if s.waiting.length < depth then { s with waiting := s.waiting ++ [e] }
  else ⟨s.waiting.drop 1 ++ [e], s.missed + 1⟩

end Subscription

/-- Polling that has been started. -/
structure Poller where
  /-- The earliest time the next poll asks for. -/
  since : Int64
  /-- Seconds until the next poll. -/
  untilPoll : Nat
  deriving DecidableEq

/-- A local tier and a secondary one. -/
structure TieredArchive where
  primary : Archive
  secondary : Archive
  link : Link
  poller : Option Poller
  /-- Whether polling has ever been started. -/
  hasPolled : Bool
  synced : Subscription
  deriving DecidableEq

/-- The results of both tiers, or the errors of those that failed. -/
def joinTiers {α β : Type} : Except ArchiveError α → Except ArchiveError β →
    Except ArchiveError (α × β)
  | .ok a, .ok b => .ok (a, b)
  | .ok _, .error e => .error (.tiers [e])
  | .error e, .ok _ => .error (.tiers [e])
  | .error e, .error e' => .error (.tiers [e, e'])

/-- The results of both tiers, where that of the secondary one came over the link. -/
def joinReply {α β : Type} (primary : Except ArchiveError α) : Reply β →
    Except ArchiveError (α × β)
  | .answer secondary => joinTiers primary secondary
  | .lost => .error Reply.taskError

namespace TieredArchive

/-- Make a tiered archive of two archives. Collection in the local one demotes from now on. -/
def join (primary secondary : Archive) (link : Link) : TieredArchive :=
  ⟨primary.withDemotion true, secondary, link, none, false, .empty⟩

/-! ### Changes -/

/-- Save an event in both tiers; the outcome is that of the local one. -/
def save (t : TieredArchive) (now : Int64) (e : Event) :
    Except ArchiveError SaveOutcome × TieredArchive :=
  let (outcome, primary) := t.primary.save now e
  let (reply, secondary) := Link.ask t.link.save t.secondary (·.save now e)
  ((joinReply outcome reply).map (·.1), { t with primary, secondary })

/-- Delete an event in both tiers. -/
def delete (t : TieredArchive) (e : Event) : Except ArchiveError DeleteOutcome × TieredArchive :=
  let (outcome, primary) := t.primary.delete e
  let (reply, secondary) := Link.ask t.link.delete t.secondary (·.delete e)
  ((joinReply outcome reply).map fun o =>
    if o = (.notFound, .notFound) then .notFound else .deleted, { t with primary, secondary })

/-- Start collection in both tiers, and polling if the configuration asks for it and it has not been
started. -/
def init (t : TieredArchive) (now : Int64) : Except ArchiveError Unit × TieredArchive :=
  let (outcome, primary) := t.primary.init
  let (reply, secondary) := Link.ask t.link.init t.secondary Archive.init
  let t := { t with primary, secondary }
  match joinReply outcome reply with
  | .error e => (.error e, t)
  | .ok _ =>
    let poll := t.primary.config.poll
    if poll.enabled ∧ ¬ t.hasPolled then
      (.ok (), { t with poller := some ⟨now, poll.interval.toNat⟩, hasPolled := true })
    else (.ok (), t)

/-- Stop polling and close both tiers. If the task of the secondary tier ends, the local one has
stopped but not returned its lease. -/
def close (t : TieredArchive) : Except ArchiveError Unit × TieredArchive :=
  let (reply, secondary) := Link.ask t.link.close t.secondary fun s => (.ok (), s.close)
  let primary := match reply with
    | .answer _ => t.primary.close
    | .lost => t.primary.halt
  ((joinReply (.ok ()) reply).map fun _ => (), { t with primary, secondary, poller := none })

/-! ### Queries -/

/-- The streams of both tiers; that of the secondary one is missing if the task ended. A secondary
tier that fails counts as one part that is missing. -/
def feeds (t : TieredArchive) (f : Filter) (cancelled : Bool) :
    Except ArchiveError (Feed Hit × Option Delivery) := do
  let primary ← t.primary.feed f cancelled
  match t.link.send t.secondary f cancelled with
  | .lost => return (primary, none)
  | .answer (.error _) => return (primary, some (.silent (.incomplete 1)))
  | .answer (.ok d) => return (primary, some d)

/-- What a query leaves behind whose task ended: the local tier has turned to its first record. -/
def abandon (t : TieredArchive) (now : Int64) (primary : Feed Hit) : TieredArchive :=
  { t with primary := t.primary.noteAccesses now (primary.records.take 1) }

/-- The most records that a query delivers. -/
def limitFor (t : TieredArchive) (f : Filter) : Nat :=
  (t.primary.config.effectiveLimit f.limit).toNat

/-- Merge two streams until `cap` records have been delivered. -/
def merge (t : TieredArchive) (f : Filter) (order : Nat → Nat) (cap : Nat) (primary : Feed Hit)
    (secondary : Delivery) : TierMerge :=
  TierMerge.run f (fun id => (t.link.fetch t.secondary id).1) order cap
    (primary.records.map Hit.record) secondary.feed.records

/-- What a merge sends to the reader of the query. -/
def mergedFeed (t : TieredArchive) (f : Filter) (primary : Feed Hit) (secondary : Delivery)
    (m : TierMerge) : Feed Record :=
  let readPrimary := primary.records.length - m.primary.length
  let readSecondary := secondary.feed.records.length - m.secondary.length
  let outcomes := [primary.outcomeAfter readPrimary t.primary.buffer,
    secondary.feed.outcomeAfter readSecondary t.secondary.buffer]
  ⟨m.records, mergedOutcome outcomes (t.limitFor f ≤ m.delivered.length) m.failed, .cancelled⟩

/-- Save the events that lookups brought in the local tier, each once. One that cannot be saved is
dropped. -/
def revive (a : Archive) (now : Int64) (events : List Event) : Archive :=
  (distinctBy Event.id [] events).foldl (fun a e => (a.save now e).2) a

/-- What a merge leaves behind: the accesses on both tiers and the events that lookups brought. A
lookup that has begun reads the secondary tier even if the merge does not wait for it. -/
def settle (t : TieredArchive) (now : Int64) (primary : Feed Hit) (secondary : Delivery)
    (m : TierMerge) : TieredArchive :=
  let readPrimary := primary.records.length - m.primary.length
  let readSecondary := secondary.feed.records.length - m.secondary.length
  let lookedUp := (m.completed.reverse ++ m.pending).flatMap fun r =>
    (t.link.fetch t.secondary r.id).2
  { t with
    primary := revive
      (t.primary.noteAccesses now (primary.offered readPrimary t.primary.buffer)) now m.fetched
    secondary := t.secondary.noteAccesses now (secondary.accessed readSecondary ++ lookedUp) }

/-- Read everything that a query sends. One that is cancelled before it starts sends nothing. -/
def query (t : TieredArchive) (order : Nat → Nat) (now : Int64) (f : Filter) (cancelled : Bool) :
    Except ArchiveError (Reading Record) × TieredArchive :=
  match t.feeds f cancelled with
  | .error e => (.error e, t)
  | .ok (primary, none) => (.error Reply.taskError, t.abandon now primary)
  | .ok (primary, some secondary) =>
    if cancelled then (.ok (Feed.silent .cancelled).readAll, t)
    else
      let m := t.merge f order (t.limitFor f) primary secondary
      (.ok (t.mergedFeed f primary secondary m).readAll, t.settle now primary secondary m)

/-- Slots of the buffer between a query and its reader. -/
def buffer (t : TieredArchive) : Nat := t.primary.buffer

/-- Read at most `n` records of a query. The merge goes on until the buffer is full and it holds one
more record. -/
def take (t : TieredArchive) (order : Nat → Nat) (now : Int64) (f : Filter) (n : Nat) :
    Except ArchiveError (Reading Record) × TieredArchive :=
  match t.feeds f false with
  | .error e => (.error e, t)
  | .ok (primary, none) => (.error Reply.taskError, t.abandon now primary)
  | .ok (primary, some secondary) =>
    let cap := min (t.limitFor f) (n + Feed.slots t.buffer + 1)
    let m := t.merge f order cap primary secondary
    (.ok ((t.mergedFeed f primary secondary m).readSome n t.buffer),
      t.settle now primary secondary m)

/-- The greater of the numbers of both tiers. A tier that fails is passed over if the other one
answers. -/
def count (t : TieredArchive) (f : Filter) (cancelled : Bool) : Except ArchiveError Nat :=
  let secondary := Link.ask t.link.count t.secondary fun s => (s.count f cancelled, s)
  match t.primary.count f cancelled, secondary.1 with
  | _, .lost => .error Reply.taskError
  | .ok a, .answer (.ok b) => .ok (max a b)
  | .ok a, .answer (.error _) => .ok a
  | .error _, .answer (.ok b) => .ok b
  | .error e, .answer (.error e') => .error (.tiers [e, e'])

end TieredArchive
end EventArchive
