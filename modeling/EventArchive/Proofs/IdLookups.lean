import EventArchive.Proofs.CountAgrees
import EventArchive.Proofs.IdQueries

/-! # Lookups by identifier are exact

The keys of the identifier index hold eight bytes of an identifier, so those of
identifiers that begin alike are in one scan, and a list with such identifiers, or
with the same one twice, is read with fewer scans than it has members.  Whose key it
is tells the record that the key leads to: it begins with all of the identifier,
whether it is whole or demoted.  So a query for some identifiers delivers the records
of these and of no others, each once, and the lookup that saving and deleting rest on
finds the one record of its identifier (`Archive.id_lookups_exact`).
-/
namespace EventArchive

namespace Keyspace

/-- The record under a serial, as it is read. -/
def read? (k : Keyspace) (s : Serial) : Option StoredValue :=
  (k.record? s).bind fun v => (StoredValue.decode v).toOption

variable {k : Keyspace} {L : Ledger} {s : Serial} {i : EventId} {e : Event}

namespace Renders
variable (hr : k.Renders L) (hfits : ∀ s h, L s = some h → h.event.Sized)
include hr hfits

/-- What is read under a serial is what the ledger holds under it. -/
theorem read?_eq : k.read? s = (L s).bind fun
    | .live e _ => some (.full e)
    | .demoted e => some (.stub e.id)
    | .queued _ => none := by
  rw [read?, hr.record?]
  cases hL : L s with
  | none => rfl
  | some h =>
    cases h with
    | live e t =>
      show (StoredValue.decode (StoredValue.encode e)).toOption = _
      rw [StoredValue.decode_encode (e := e) (hfits s _ hL)]
      rfl
    | demoted e =>
      show (StoredValue.decode e.id.bytes).toOption = _
      rw [StoredValue.decode_id]
      rfl
    | queued e => rfl

theorem read?_eq_full_iff : k.read? s = some (.full e) ↔ ∃ t, L s = some (.live e t) := by
  rw [hr.read?_eq hfits]
  cases L s with
  | none => simp
  | some h => cases h <;> simp

theorem read?_eq_stub_iff : k.read? s = some (.stub i) ↔
    ∃ e, L s = some (.demoted e) ∧ e.id = i := by
  rw [hr.read?_eq hfits]
  cases L s with
  | none => simp
  | some h => cases h <;> simp

/-! ### Finding a record -/

section
variable (hu : L.Unique)
include hu

/-- A whole record of an identifier is found as such. -/
theorem locate_eq_whole_iff : k.locate i = some ⟨s, false⟩ ↔
    ∃ e, k.read? s = some (.full e) ∧ e.id = i := by
  rw [hr.locate_eq_some_iff hu]
  simp only [hr.read?_eq_full_iff hfits]
  constructor
  · rintro ⟨h, hL, hid, hstub⟩
    cases h with
    | live e t => exact ⟨e, ⟨t, hL⟩, hid⟩
    | demoted e => cases hstub
    | queued e => cases hstub
  · rintro ⟨e, ⟨t, hL⟩, hid⟩
    exact ⟨.live e t, hL, hid, rfl⟩

/-- A demoted record of an identifier is found as such. -/
theorem locate_eq_stub_iff : k.locate i = some ⟨s, true⟩ ↔ k.read? s = some (.stub i) := by
  rw [hr.locate_eq_some_iff hu, hr.read?_eq_stub_iff hfits]
  constructor
  · rintro ⟨h, hL, hid, hstub⟩
    cases h with
    | live e t => cases hstub
    | demoted e => exact ⟨e, hL, hid⟩
    | queued e => cases hstub
  · rintro ⟨e, hL, hid⟩
    exact ⟨.demoted e, hL, hid, rfl⟩

/-- Nothing is found where there is no record of the identifier. -/
theorem locate_eq_absent_iff : k.locate i = none ↔
    ∀ s, k.read? s ≠ some (.stub i) ∧ ∀ e, k.read? s = some (.full e) → e.id ≠ i := by
  rw [Option.eq_none_iff_forall_ne_some]
  constructor
  · intro hnone s
    refine ⟨fun hstub => hnone _ ((hr.locate_eq_stub_iff hfits hu).mpr hstub), fun e he heq => ?_⟩
    exact hnone _ ((hr.locate_eq_whole_iff hfits hu).mpr ⟨e, he, heq⟩)
  · rintro hnone ⟨s, stub⟩ hfound
    cases stub with
    | false =>
      obtain ⟨e, he, heq⟩ := (hr.locate_eq_whole_iff hfits hu).mp hfound
      exact (hnone s).2 e he heq
    | true => exact (hnone s).1 ((hr.locate_eq_stub_iff hfits hu).mp hfound)

end
end Renders
end Keyspace

/-! ### Queries for identifiers -/

/-- A reading of the records that a key space holds of some identifiers: of the whole ones those
that match the filter, and all the demoted ones, which have no time there. -/
structure Reading.LooksUp (r : Reading Record) (k : Keyspace) (f : Filter) : Prop where
  complete : r.outcome = .complete
  once : (r.records.map Record.id).Nodup
  whole : ∀ e, .full e ∈ r.records ↔ (∃ s, k.read? s = some (.full e)) ∧ f.isMatch e = true
  demoted : ∀ i t, .stub i t ∈ r.records ↔
    t = 0 ∧ i ∈ f.ids ∧ ∃ s, k.read? s = some (.stub i)

namespace Plan
variable {f : Filter} {p : Plan} {k : Keyspace} {L : Ledger}

/-- A plan for some identifiers looks them up. -/
theorem reading_looksUp (hr : k.Renders L) (hfits : ∀ s h, L s = some h → h.event.Sized)
    (hu : L.Unique) (hplan : ofFilter f = .ok p) (hids : f.ids ≠ [])
    (hpossible : isImpossible f = false) (pageSize : Nat) :
    (p.reading k pageSize).LooksUp k f where
  complete := rfl
  once := by
    rw [reading, List.map_map]
    exact found_ids_nodup hr hfits (uniform_of_ofFilter hplan) hu pageSize
  whole e := by
    simp only [hr.read?_eq_full_iff hfits]
    constructor
    · intro hfull
      obtain ⟨hit, hmem, hrecord⟩ := List.mem_map.mp hfull
      obtain ⟨h, hL, ⟨e', t, rfl, hmatch, hhit⟩ | ⟨e', -, -, hhit⟩⟩ :=
        (mem_found_of_ids hr hfits hplan hids hpossible).mp hmem
      · rw [hhit] at hrecord
        obtain rfl := Record.full.inj hrecord
        exact ⟨⟨_, t, hL⟩, hmatch⟩
      · rw [hhit] at hrecord
        cases hrecord
    · rintro ⟨⟨s, t, hL⟩, hmatch⟩
      refine List.mem_map.mpr ⟨⟨s, e.createdAt, .full e⟩, ?_, rfl⟩
      exact (mem_found_of_ids hr hfits hplan hids hpossible).mpr
        ⟨_, hL, .inl ⟨e, t, rfl, hmatch, rfl⟩⟩
  demoted i time := by
    simp only [hr.read?_eq_stub_iff hfits]
    constructor
    · intro hstub
      obtain ⟨hit, hmem, hrecord⟩ := List.mem_map.mp hstub
      obtain ⟨h, hL, ⟨e, t, -, -, hhit⟩ | ⟨e, rfl, hid, hhit⟩⟩ :=
        (mem_found_of_ids hr hfits hplan hids hpossible).mp hmem
      · rw [hhit] at hrecord
        cases hrecord
      · rw [hhit] at hrecord
        obtain ⟨rfl, rfl⟩ := Record.stub.inj hrecord
        exact ⟨rfl, hid, _, e, hL, rfl⟩
    · rintro ⟨rfl, hid, s, e, hL, rfl⟩
      refine List.mem_map.mpr ⟨⟨s, 0, .stub e.id 0⟩, ?_, rfl⟩
      exact (mem_found_of_ids hr hfits hplan hids hpossible).mpr
        ⟨_, hL, .inr ⟨e, rfl, hid, rfl⟩⟩

end Plan

namespace Archive

/-- **Lookups by identifier are exact**, however many of the identifiers begin alike, and whatever
of their records is demoted.  On an open archive, a query with identifiers and a possible window
delivers, if its limit leaves nothing out, the whole records that match and the demoted ones of the
listed identifiers, each once.  And the lookup of an identifier finds a record of it exactly if
there is one, with its serial, and whole or demoted as it is. -/
theorem id_lookups_exact {es : List Event} {a : Archive} (ha : Reached es a) (hid : Identified es)
    (hfits : ∀ e ∈ es, e.Sized) (hopen : a.isClosed = false) {f : Filter} {plan : Plan}
    (hplan : Plan.ofFilter f = .ok plan) (hids : f.ids ≠ [])
    (hpossible : Plan.isImpossible f = false) (now : Int64) :
    (∃ n, a.count f false = .ok n ∧ (n ≤ (a.config.effectiveLimit f.limit).toNat →
      ∃ reading, (a.query now f false).1 = .ok reading ∧ reading.LooksUp a.db.events f)) ∧
    ∀ i,
      (∀ s, a.db.events.locate i = some ⟨s, false⟩ ↔
        ∃ e, a.db.events.read? s = some (.full e) ∧ e.id = i) ∧
      (∀ s, a.db.events.locate i = some ⟨s, true⟩ ↔ a.db.events.read? s = some (.stub i)) ∧
      (a.db.events.locate i = none ↔ ∀ s, a.db.events.read? s ≠ some (.stub i) ∧
        ∀ e, a.db.events.read? s = some (.full e) → e.id ≠ i) := by
  obtain ⟨L, J, hf, hmem⟩ := ha.exists_follows hid
  have hr : a.db.events.Renders L := hf.db.events
  have hsized : ∀ s h, L s = some h → h.event.Sized := fun s h hL => hfits _ (hmem s h hL)
  constructor
  · refine ⟨_, count_eq hopen hplan, fun hlimit => ?_⟩
    rw [← Plan.length_found_eq_count hr hsized hplan a.config.scanPageSize.toNat] at hlimit
    exact ⟨_, query_eq_reading hopen hplan now hlimit,
      Plan.reading_looksUp hr hsized hf.unique hplan hids hpossible _⟩
  · intro i
    exact ⟨fun s => hr.locate_eq_whole_iff hsized hf.unique,
      fun s => hr.locate_eq_stub_iff hsized hf.unique, hr.locate_eq_absent_iff hsized hf.unique⟩

/-- The identifiers of five records begin with the same 31 bytes, and two of the records are
demoted.  A query for some of them, one of them twice, is one scan; it delivers the whole record
whose kind is asked for and both demoted ones, and not the one that is not asked for. -/
theorem id_lookups_exact_colliding :
    let i (last : UInt8) : EventId := ⟨List.replicate 31 9 ++ [last], rfl⟩
    let event (last : UInt8) (kind : UInt16) : Event :=
      { Event.uniform 0 7 10 kind [] with id := i last }
    let es : List Event := [event 1 1, event 2 1, event 3 2, event 4 2, event 5 1]
    let a := (fresh.saveAll 5 es).demote [1, 2]
    let f := (Filter.any.withIds [i 1, i 2, i 1, i 3, i 4, i 6]).withKinds [⟨1⟩]
    ∃ reading, Reached es a ∧ (Plan.choose f).scans = [.ofId (i 1)] ∧
      (a.query 9 f false).1 = .ok reading ∧
      reading.records = [.stub (i 3) 0, .stub (i 2) 0, .full (event 1 1)] ∧
      reading.LooksUp a.db.events f ∧ a.db.events.locate (i 4) = some ⟨3, false⟩ ∧
      a.db.events.locate (i 2) = some ⟨1, true⟩ ∧ a.db.events.locate (i 6) = none := by
  intro i event es a f
  have ha : Reached es a := (Reached.fresh.saveAll 5 es).work _ rfl
  have hplan : Plan.ofFilter f = .ok (Plan.choose f) := rfl
  obtain ⟨⟨n, hcount, hfound⟩, hlocate⟩ := id_lookups_exact ha (by decide +kernel)
    (by decide +kernel) (by decide +kernel) hplan (by decide +kernel) (by decide +kernel) 9
  have hn : (a.count f false).toOption = some 3 := by decide +kernel
  rw [hcount] at hn
  obtain rfl : n = 3 := Option.some.inj hn
  obtain ⟨reading, hquery, hlooksUp⟩ := hfound (by decide +kernel)
  have hread : (a.query 9 f false).1.toOption.map (·.records) =
      some [.stub (i 3) 0, .stub (i 2) 0, .full (event 1 1)] := by decide +kernel
  rw [hquery] at hread
  obtain ⟨hwhole, -, -⟩ := hlocate (i 4)
  obtain ⟨-, hdemoted, -⟩ := hlocate (i 2)
  exact ⟨reading, ha, by decide +kernel, hquery, Option.some.inj hread, hlooksUp,
    (hwhole 3).mpr ⟨event 4 2, by decide +kernel, rfl⟩, (hdemoted 1).mpr (by decide +kernel),
    by decide +kernel⟩

end Archive
end EventArchive
