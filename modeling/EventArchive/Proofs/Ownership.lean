import EventArchive.Proofs.Transactions

/-! # Every key has an owner

After any run of transactions the key space splits by serial.  A record owns its
entry, all index keys of the event it was saved for and, while it is whole, one
counter; a displaced record owns the tag keys that its queued serial will clear;
no other serial owns a key.  So no operation forgets a key, whatever was
demoted, revived, replaced or swept before, and wherever the run was
interrupted.
-/
namespace EventArchive

/-- A serial owns an entry of the key space. -/
def Keyspace.Owns (k : Keyspace) (s : Serial) (key v : Bytes) : Prop :=
  k.get? key = some v ∧ Key.serial? key = some s

/-- **The key space splits by serial**, given the events that were stored under each. -/
structure Database.SplitsBySerial (db : Database) (journal : List (Serial × Event)) : Prop where
  /-- No serial was given out twice. -/
  once : (journal.map (·.1)).Nodup
  /-- Every key belongs to a serial. -/
  owned : ∀ key v, db.events.get? key = some v → ∃ s, db.events.Owns s key v
  /-- A whole record owns its entry, its index keys and a counter of its size. -/
  live : ∀ s v, db.events.record? s = some v → StoredValue.isStub v = false →
    db.purge.contains s = false ∧ ∃ (e : Event) (c : Counter), (s, e) ∈ journal ∧
      c.size.toNat = min (StoredValue.encode e).length (2 ^ 32 - 1) ∧
      ∀ key w, db.events.Owns s key w ↔
        (key = Key.event s ∧ w = StoredValue.encode e) ∨
        (key ∈ Key.index e s ∧ w = []) ∨
        (key = Key.counter e.id s ∧ w = c.encode)
  /-- A demoted record owns its identifier and its index keys. -/
  demoted : ∀ s v, db.events.record? s = some v → StoredValue.isStub v = true →
    db.purge.contains s = false ∧ ∃ e : Event, (s, e) ∈ journal ∧
      ∀ key w, db.events.Owns s key w ↔
        (key = Key.event s ∧ w = e.id.bytes) ∨ (key ∈ Key.index e s ∧ w = [])
  /-- A queued serial owns tag keys. -/
  queued : ∀ s, db.purge.contains s = true →
    ∃ e : Event, (s, e) ∈ journal ∧
      ∀ key w, db.events.Owns s key w ↔ key ∈ Key.tagged e s ∧ w = []
  /-- No other serial owns a key. -/
  other : ∀ s, db.events.record? s = none → db.purge.contains s = false →
    ∀ key w, ¬ db.events.Owns s key w

namespace Database.Represents
variable {db : Database} {L : Ledger} {s : Serial} {h : Holding} {key w : Bytes}

/-- A serial owns what its holding calls for. -/
theorem owns_iff (hdb : db.Represents L) (hL : L s = some h) :
    db.events.Owns s key w ↔ h.value? s key = some w := by
  constructor
  · rintro ⟨hget, hserial⟩
    rwa [hdb.events.get?_own hserial, hL] at hget
  · intro hval
    have hserial := Holding.serial?_of_value? hval
    exact ⟨by rwa [hdb.events.get?_own hserial, hL], hserial⟩

theorem owns_live {e : Event} {t : UInt64} (hdb : db.Represents L) (hL : L s = some (.live e t)) :
    db.events.Owns s key w ↔ (key = Key.event s ∧ w = StoredValue.encode e) ∨
      (key ∈ Key.index e s ∧ w = []) ∨
      (key = Key.counter e.id s ∧
        w = (Counter.ofSize t (StoredValue.encode e).length).encode) := by
  rw [hdb.owns_iff hL, Holding.value?_eq_some_iff]
  simp only [Holding.record?, Holding.counter?, Holding.keys, Holding.event, Option.some.injEq,
    Option.map_some, eq_comm (b := w)]
  tauto

theorem owns_demoted {e : Event} (hdb : db.Represents L) (hL : L s = some (.demoted e)) :
    db.events.Owns s key w ↔
      (key = Key.event s ∧ w = e.id.bytes) ∨ (key ∈ Key.index e s ∧ w = []) := by
  rw [hdb.owns_iff hL, Holding.value?_eq_some_iff]
  simp [Holding.record?, Holding.counter?, Holding.keys, eq_comm (b := w)]

theorem owns_queued {e : Event} (hdb : db.Represents L) (hL : L s = some (.queued e)) :
    db.events.Owns s key w ↔ key ∈ Key.tagged e s ∧ w = [] := by
  rw [hdb.owns_iff hL, Holding.value?_eq_some_iff]
  simp [Holding.record?, Holding.counter?, Holding.keys]

end Database.Represents

/-- The size in a counter is the length of the record, as far as 32 bits hold it. -/
theorem Counter.size_ofSize (t : UInt64) (n : Nat) :
    (Counter.ofSize t n).size.toNat = min n (2 ^ 32 - 1) := by
  show (UInt32.ofNat (min n (2 ^ 32 - 1))).toNat = _
  rw [UInt32.toNat_ofNat']
  omega

/-- The tables of a ledger split by serial. -/
theorem Tier.Follows.splitsBySerial {t : Tier} {L : Ledger} {J : List (Serial × Event)}
    (hf : t.Follows L J) : t.db.SplitsBySerial J where
  once := hf.once
  owned key v hget := by
    obtain ⟨s, h, hL, hval⟩ := Ledger.value?_eq_some_iff.mp (hf.db.events key ▸ hget)
    exact ⟨s, hget, Holding.serial?_of_value? hval⟩
  live s v hrec hstub := by
    obtain ⟨h, hL, hrec⟩ := hf.db.events.record?_eq_some_iff.mp hrec
    have hpurge := hf.db.purge s
    rw [hL] at hpurge
    cases h with
    | live e access =>
      exact ⟨by simpa using hpurge, e, Counter.ofSize access _, hf.stored s _ hL,
        Counter.size_ofSize access _, fun key w => hf.db.owns_live hL⟩
    | demoted e =>
      cases hrec
      rw [StoredValue.isStub_id] at hstub
      cases hstub
    | queued e => cases hrec
  demoted s v hrec hstub := by
    obtain ⟨h, hL, hrec⟩ := hf.db.events.record?_eq_some_iff.mp hrec
    have hpurge := hf.db.purge s
    rw [hL] at hpurge
    cases h with
    | live e access =>
      cases hrec
      rw [StoredValue.isStub_encode] at hstub
      cases hstub
    | demoted e =>
      exact ⟨by simpa using hpurge, e, hf.stored s _ hL, fun key w => hf.db.owns_demoted hL⟩
    | queued e => cases hrec
  queued s hpurge := by
    obtain ⟨e, hL⟩ := (hf.db.purge s).mp hpurge
    exact ⟨e, hf.stored s _ hL, fun key w => hf.db.owns_queued hL⟩
  other s hrec hpurge key w := by
    rintro ⟨hget, hserial⟩
    rw [hf.db.events.get?_own hserial] at hget
    obtain ⟨h, hL, -⟩ := Option.bind_eq_some_iff.mp hget
    rw [hf.db.events.record?, hL, Option.bind_some] at hrec
    cases h with
    | live e access => cases hrec
    | demoted e => cases hrec
    | queued e =>
      rw [(hf.db.purge s).mpr ⟨e, hL⟩] at hpurge
      cases hpurge

/-- **Every key has an owner.**  Whatever write transactions ran on a new database, in whatever
order, its key space splits by serial into whole records, demoted records and the tag keys of
queued serials, each of an event that was saved under the serial. -/
theorem Tier.splitsBySerial_run (batch : UInt64) (xs : List Transaction)
    (hid : Identified (xs.filterMap (·.event?))) :
    ((fresh batch).run xs).db.SplitsBySerial ((fresh batch).journal xs) := by
  obtain ⟨L, hf⟩ := exists_follows batch hid
  exact hf.splitsBySerial

/-- A profile is demoted, then displaced by a newer one, and its tag key is left in the queue when
the tier is opened again. -/
theorem Tier.splitsBySerial_run_displaced :
    let xs : List Transaction :=
      [.save 1 (.uniform 1 7 10 0 [⟨["t", "x"]⟩]), .sweepRecords [0] true,
        .save 2 (.uniform 2 7 20 0 []), .crash 8]
    Identified (xs.filterMap (·.event?)) ∧
      ((fresh 8).run xs).db.purge.contains 0 = true ∧
      ((fresh 8).run xs).db.SplitsBySerial ((fresh 8).journal xs) :=
  ⟨by decide +kernel, by decide +kernel, Tier.splitsBySerial_run 8 _ (by decide +kernel)⟩

end EventArchive
