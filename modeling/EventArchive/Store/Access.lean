import EventArchive.Config.Basic
import EventArchive.Store.Database

/-!
# Noting accesses

Delivering a record notes the time in its counter. Accesses wait in a bounded queue; one that finds
it full is dropped. They are written in batches, each in one transaction. A counter never goes back
in time, and none is made for a record that has none.
-/
namespace EventArchive

/-- A record that was delivered. -/
structure Access where
  id : EventId
  serial : Serial
  deriving DecidableEq

namespace Keyspace

/-- Note one access. -/
def touchOne (at_ : UInt64) (s : Nat × Keyspace) (a : Access) : Except KeyError (Nat × Keyspace) :=
  let key := Key.counter a.id a.serial
  match s.2.get? key with
  | none => .ok s
  | some value => do
    let c ← Counter.decode value
    if at_ ≤ c.lastAccess then return s
    else return (s.1 + 1, s.2.insert key { c with lastAccess := at_ }.encode)

/-- Note a batch of accesses, and count the counters that moved. A damaged counter fails the whole
batch. -/
def touch (k : Keyspace) (batch : List Access) (at_ : UInt64) :
    Except ArchiveError (Nat × Keyspace) :=
  match batch.foldlM (touchOne at_) (0, k) with
  | .ok r => .ok r
  | .error e => .error (Counter.corrupt e)

/-- Note a batch of accesses; a batch that fails is dropped, since trying again meets the same
damaged counter. -/
def touchOrDrop (k : Keyspace) (batch : List Access) (at_ : UInt64) : Keyspace :=
  match k.touch batch at_ with
  | .ok (_, k) => k
  | .error _ => k

end Keyspace

/-- A list cut into parts of a size; the last one may be shorter. The fuel bounds their number. -/
def batches {α : Type} (size : Nat) : (fuel : Nat) → List α → List (List α)
  | 0, _ => []
  | _ + 1, [] => []
  | fuel + 1, a :: as =>
    ((a :: as).take (max size 1)) :: batches size fuel ((a :: as).drop (max size 1))

/-- Accesses that wait to be written. -/
structure AccessQueue where
  config : AccessConfig
  waiting : List Access
  /-- Whether the queue still takes accesses. -/
  isOpen : Bool
  deriving DecidableEq

namespace AccessQueue

/-- The queue without accesses. -/
def start (config : AccessConfig) : AccessQueue := ⟨config, [], true⟩

/-- Queue an access, if there is room. -/
def record (q : AccessQueue) (a : Access) : AccessQueue :=
  if q.isOpen ∧ q.waiting.length < max q.config.queueDepth.toNat 1 then
    { q with waiting := q.waiting ++ [a] }
  else q

/-- Write everything that waits, batch by batch. -/
def drain (q : AccessQueue) (k : Keyspace) (now : UInt64) : AccessQueue × Keyspace :=
  let parts := batches q.config.batchSize.toNat q.waiting.length q.waiting
  ({ q with waiting := [] }, parts.foldl (fun k batch => k.touchOrDrop batch now) k)

/-- Close the queue and write everything that waits in one batch. -/
def shutdown (q : AccessQueue) (k : Keyspace) (now : UInt64) : AccessQueue × Keyspace :=
  ({ q with waiting := [], isOpen := false }, k.touchOrDrop q.waiting now)

end AccessQueue
end EventArchive
