import EventArchive.Proofs.KeyShape
import EventArchive.Proofs.StoredRoundTrip
import EventArchive.Collection.IndexTier
import EventArchive.Store.Access

/-! # The key space as a ledger

What the key space holds for one serial is one of three things: a whole event, a
demoted one, or the tag keys that a displaced one left behind (`Holding`).  A
**ledger** says which of them it is for every serial, and the key space
**renders** the ledger if it has exactly the entries that the ledger calls for.
Every operation of the store is then a change of the ledger at the serials it
names, and leaves the keys of all others alone.
-/
namespace EventArchive

/-! ### Holdings -/

/-- What is held under one serial. -/
inductive Holding where
  /-- A whole event, and when it was last delivered. -/
  | live (event : Event) (lastAccess : UInt64)
  /-- An event of which the identifier and the index keys are left. -/
  | demoted (event : Event)
  /-- An event of which the tag keys are left, until the next sweep. -/
  | queued (event : Event)
  deriving DecidableEq

namespace Holding

/-- The event that was saved under the serial. -/
def event : Holding → Event
  | live e _ => e
  | demoted e => e
  | queued e => e

/-- Whether the event is demoted, if there is a record of it. -/
def stub? : Holding → Option Bool
  | live _ _ => some false
  | demoted _ => some true
  | queued _ => none

/-- The value of the record. -/
def record? : Holding → Option Bytes
  | live e _ => some (StoredValue.encode e)
  | demoted e => some e.id.bytes
  | queued _ => none

/-- The counter. -/
def counter? : Holding → Option Counter
  | live e t => some (Counter.ofSize t (StoredValue.encode e).length)
  | demoted _ => none
  | queued _ => none

/-- The index keys. -/
def keys (h : Holding) (s : Serial) : List Bytes :=
  match h with
  | live e _ => Key.index e s
  | demoted e => Key.index e s
  | queued e => Key.tagged e s

/-- The entry that a holding calls for under a key. -/
def value? (h : Holding) (s : Serial) (key : Bytes) : Option Bytes :=
  if key = Key.event s then h.record?
  else if key = Key.counter h.event.id s then h.counter?.map Counter.encode
  else if key ∈ h.keys s then some []
  else none

variable {h : Holding} {s : Serial} {key v : Bytes}

theorem mem_index_of_mem_keys (hk : key ∈ h.keys s) : key ∈ Key.index h.event s := by
  cases h with
  | live e t => exact hk
  | demoted e => exact hk
  | queued e => exact Key.mem_index.mpr (.inr hk)

theorem value?_eq_some_iff : h.value? s key = some v ↔
    (key = Key.event s ∧ h.record? = some v) ∨
    (key = Key.counter h.event.id s ∧ h.counter?.map Counter.encode = some v) ∨
    (key ∈ h.keys s ∧ v = []) := by
  have hevent : Key.event s ∉ h.keys s := fun hm =>
    Key.event_not_mem_index s s h.event (mem_index_of_mem_keys hm)
  have hcounter : Key.counter h.event.id s ∉ h.keys s := fun hm =>
    Key.counter_not_mem_index h.event.id s s h.event (mem_index_of_mem_keys hm)
  rw [value?]
  split_ifs with he hc hm
  · subst he
    simp [Key.event_ne_counter, hevent]
  · subst hc
    simp [he, hcounter]
  · simp [he, hc, hm, eq_comm]
  · simp [he, hc, hm]

/-- The keys of a holding belong to its serial. -/
theorem serial?_of_value? (hv : h.value? s key = some v) : Key.serial? key = some s := by
  rcases value?_eq_some_iff.mp hv with ⟨rfl, -⟩ | ⟨rfl, -⟩ | ⟨hm, -⟩
  · exact Key.serial?_event s
  · exact Key.serial?_counter _ s
  · exact Key.serial?_of_mem_index (mem_index_of_mem_keys hm)

theorem value?_event : h.value? s (Key.event s) = h.record? := if_pos rfl

theorem value?_counter (h : Holding) (s : Serial) (i : EventId) :
    h.value? s (Key.counter i s) =
      if i.head8 = h.event.id.head8 then h.counter?.map Counter.encode else none := by
  have hindex : Key.counter i s ∉ h.keys s := fun hm =>
    Key.counter_not_mem_index i s s h.event (mem_index_of_mem_keys hm)
  simp only [value?, if_neg (Ne.symm (Key.event_ne_counter s s i)), Key.counter_inj, if_neg hindex]

theorem record?_eq_none_iff : h.record? = none ↔ h.stub? = none := by
  cases h <;> simp [record?, stub?]

/-- A record begins with the identifier of its event. -/
theorem idBytes?_of_record? (hv : h.record? = some v) :
    StoredValue.idBytes? v = some h.event.id.bytes := by
  cases h with
  | live e t =>
    cases hv
    exact StoredValue.idBytes?_encode e
  | demoted e =>
    cases hv
    exact StoredValue.idBytes?_id e.id
  | queued e => cases hv

/-- The length of a record tells whether it is demoted. -/
theorem stub?_of_record? (hv : h.record? = some v) : h.stub? = some (StoredValue.isStub v) := by
  cases h with
  | live e t =>
    cases hv
    rw [StoredValue.isStub_encode, stub?]
  | demoted e =>
    cases hv
    rw [StoredValue.isStub_id, stub?]
  | queued e => cases hv

end Holding

/-! ### Ledgers -/

/-- What is held under each serial. -/
abbrev Ledger := Serial → Option Holding

namespace Ledger

/-- The entry that a ledger calls for under a key. -/
def value? (L : Ledger) (key : Bytes) : Option Bytes :=
  (Key.serial? key).bind fun s => (L s).bind fun h => h.value? s key

variable {L : Ledger} {s : Serial} {key v : Bytes}

theorem value?_of_serial? (hs : Key.serial? key = some s) :
    L.value? key = (L s).bind fun h => h.value? s key := by
  rw [value?, hs, Option.bind_some]

theorem value?_eq_some_iff :
    L.value? key = some v ↔ ∃ s h, L s = some h ∧ h.value? s key = some v := by
  constructor
  · intro hv
    obtain ⟨s, -, hv⟩ := Option.bind_eq_some_iff.mp hv
    obtain ⟨h, hs, hv⟩ := Option.bind_eq_some_iff.mp hv
    exact ⟨s, h, hs, hv⟩
  · rintro ⟨s, h, hs, hv⟩
    rw [value?_of_serial? (Holding.serial?_of_value? hv), hs]
    exact hv

/-- No two records hold one event. -/
def Unique (L : Ledger) : Prop :=
  ∀ s s' h h', L s = some h → L s' = some h' → h.stub?.isSome → h'.stub?.isSome →
    h.event.id = h'.event.id → s = s'

end Ledger

namespace Keyspace

/-- The key space has exactly the entries that a ledger calls for. -/
def Renders (k : Keyspace) (L : Ledger) : Prop := ∀ key, k.get? key = L.value? key

namespace Renders
variable {k k' : Keyspace} {L : Ledger} {s : Serial} {key v : Bytes}

theorem get?_own (hr : k.Renders L) (hs : Key.serial? key = some s) :
    k.get? key = (L s).bind fun h => h.value? s key := by
  rw [hr, Ledger.value?_of_serial? hs]

theorem record? (hr : k.Renders L) (s : Serial) : k.record? s = (L s).bind Holding.record? := by
  rw [Keyspace.record?, hr.get?_own (Key.serial?_event s)]
  exact Option.bind_congr fun h _ => h.value?_event

theorem record?_eq_some_iff (hr : k.Renders L) :
    k.record? s = some v ↔ ∃ h, L s = some h ∧ h.record? = some v := by
  rw [hr.record?, Option.bind_eq_some_iff]

/-- The ledger of an empty key space. -/
theorem empty : Renders ∅ fun _ => none := by
  intro key
  rw [SortedMap.get?_empty, Ledger.value?]
  cases Key.serial? key <;> rfl

/-! ### Changes at one serial -/

/-- **The keys of a serial are changed alone.**  If an operation leaves the keys
of every other serial, it changes the ledger at that serial only. -/
theorem update (hr : k.Renders L) (s : Serial) (o : Option Holding)
    (hframe : ∀ key, Key.serial? key ≠ some s → k'.get? key = k.get? key)
    (hown : ∀ key, Key.serial? key = some s →
      k'.get? key = o.bind fun h => h.value? s key) :
    k'.Renders (Function.update L s o) := by
  intro key
  by_cases hs : Key.serial? key = some s
  · rw [hown key hs, Ledger.value?_of_serial? hs, Function.update_self]
  · rw [hframe key hs, hr key, Ledger.value?, Ledger.value?]
    refine Option.bind_congr fun s' hs' => ?_
    rw [Function.update_of_ne]
    rintro rfl
    exact hs hs'

end Renders
end Keyspace
end EventArchive
