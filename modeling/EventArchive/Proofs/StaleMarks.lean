import EventArchive.Collection.Cycle
import EventArchive.Proofs.Ownership
import EventArchive.Proofs.QueryExact

/-! # Sweeping by old marks

A collection marks its victims in one transaction and sweeps them in later ones,
chunk by chunk, and anything may be written in between: a victim may have been
delivered, deleted, displaced, demoted or made whole again by the time a sweep
comes to it.  A sweep looks at the record again, and changes it only if the mark
still holds: a sweep of records changes victims that are whole and leaves each of
them a complete identifier record or nothing, and a sweep of the indices clears
victims that are demoted.  Nothing else is touched, and nothing is brought back
(`Collector.stale_marks_safe`).
-/
namespace EventArchive

/-! ### What a sweep may do -/

namespace Database

/-- The whole event that is read under a serial. -/
def whole? (db : Database) (s : Serial) : Option Event :=
  (db.events.record? s).bind StoredValue.event?

/-- **A sweep of records**, by whatever list of victims. -/
structure RecordsSwept (db db' : Database) (victims : List Serial) (demote : Bool) : Prop where
  /-- The keys of a serial stay as they are, unless it is a victim and its record is whole. -/
  kept : ∀ key, (∀ s ∈ victims, Key.serial? key = some s → db.whole? s = none) →
    db'.events.get? key = db.events.get? key
  /-- A victim that is demoted is left with its identifier and every index key of its event. -/
  demoted : demote = true → ∀ s ∈ victims, ∀ e, db.whole? s = some e → ∀ key v,
    db'.events.Owns s key v ↔
      (key = Key.event s ∧ v = e.id.bytes) ∨ (key ∈ Key.index e s ∧ v = [])
  /-- A victim that is removed is left with no key. -/
  removed : demote = false → ∀ s ∈ victims, ∀ e, db.whole? s = some e → ∀ key v,
    ¬ db'.events.Owns s key v
  /-- No key is added. -/
  created : ∀ key, (db'.events.get? key).isSome → (db.events.get? key).isSome
  tables : db'.purge = db.purge ∧ db'.settings = db.settings

/-- **A sweep of the indices**, by whatever list of victims. -/
structure IndicesSwept (db db' : Database) (victims : List Serial) : Prop where
  /-- A record that is whole keeps its keys and their values, also if it is a victim. -/
  whole : ∀ s v, db.events.record? s = some v → StoredValue.isStub v = false →
    ∀ key, Key.serial? key = some s → db'.events.get? key = db.events.get? key
  /-- So does a demoted record that is no victim. -/
  spared : ∀ s v, db.events.record? s = some v → StoredValue.isStub v = true → s ∉ victims →
    ∀ key, Key.serial? key = some s → db'.events.get? key = db.events.get? key
  /-- A victim that is demoted is left with no key, and so is what is queued. -/
  cleared : ∀ s, (s ∈ victims ∧ (db.events.record? s).any StoredValue.isStub = true) ∨
    db.purge.contains s = true → ∀ key v, ¬ db'.events.Owns s key v
  /-- No key is added, and no value is changed. -/
  created : ∀ key v, db'.events.get? key = some v → db.events.get? key = some v
  settings : db'.settings = db.settings

namespace Represents
variable {db : Database} {L : Ledger} {s : Serial} {e : Event}

theorem whole?_eq_some_iff (hdb : db.Represents L) : db.whole? s = some e ↔
    ∃ t, L s = some (.live e t) ∧ StoredValue.decode (StoredValue.encode e) = .ok (.full e) := by
  rw [whole?, hdb.events.record?]
  cases hL : L s with
  | none => simp
  | some h =>
    cases h with
    | live e' t =>
      rw [Option.bind_some, Holding.record?, Option.bind_some, StoredValue.event?]
      cases hd : StoredValue.decode (StoredValue.encode e') with
      | error err =>
        constructor
        · intro heq
          cases heq
        · rintro ⟨t', heq, hread⟩
          cases heq
          cases hd.symm.trans hread
      | ok v =>
        obtain rfl := StoredValue.eq_full_of_decode_encode hd
        constructor
        · intro heq
          cases heq
          exact ⟨t, rfl, hd⟩
        · rintro ⟨t', heq, -⟩
          cases heq
          rfl
    | demoted e' =>
      rw [Option.bind_some, Holding.record?, Option.bind_some, StoredValue.event?,
        StoredValue.decode_id]
      simp
    | queued e' => simp [Holding.record?]

/-- **Sweeping records is safe** on the tables of a ledger. -/
theorem recordsSwept (hdb : db.Represents L) (victims : List Serial) (demote : Bool) :
    db.RecordsSwept (EventTier.sweep db victims demote).2 victims demote := by
  have hdb' := hdb.sweepRecords victims demote
  have hswept : ∀ s ∈ victims, ∀ e, db.whole? s = some e →
      L.swept victims demote s = if demote then some (.demoted e) else none := by
    intro s hs e hwhole
    obtain ⟨t, hL, hread⟩ := hdb.whole?_eq_some_iff.mp hwhole
    rw [Ledger.swept, if_pos hs, hL, Option.bind_some, Holding.swept, hread]
  refine ⟨?_, ?_, ?_, ?_, EventTier.tables_sweep db victims demote⟩
  · intro key hkey
    rw [hdb.events key, hdb'.events key, Ledger.value?, Ledger.value?]
    refine Option.bind_congr fun s hserial => ?_
    rcases L.swept_cases victims demote s with hsame | ⟨e, t, hs, hL, hread, -⟩
    · rw [hsame]
    · have hnone := hkey s hs hserial
      rw [hdb.whole?_eq_some_iff.mpr ⟨t, hL, hread⟩] at hnone
      cases hnone
  · rintro rfl s hs e hwhole key v
    exact hdb'.owns_demoted (hswept s hs e hwhole)
  · rintro rfl s hs e hwhole key v ⟨hget, hserial⟩
    rw [hdb'.events.get?_own hserial, hswept s hs e hwhole] at hget
    cases hget
  · intro key hsome
    obtain ⟨v, hv⟩ := Option.isSome_iff_exists.mp hsome
    rw [hdb'.events key] at hv
    obtain ⟨s, h', hL', hval⟩ := Ledger.value?_eq_some_iff.mp hv
    have hserial := Holding.serial?_of_value? hval
    rw [hdb.events.get?_own hserial]
    rcases L.swept_cases victims demote s with hsame | ⟨e, t, -, hL, -, hleft⟩
    · rw [← hsame, hL', Option.bind_some, hval]
      rfl
    · -- what is left of a whole record are keys that it had
      rw [hleft] at hL'
      obtain rfl := Option.some.inj (Option.ite_none_right_eq_some.mp hL').2
      rw [hL, Option.bind_some]
      rcases Holding.value?_eq_some_iff.mp hval with ⟨rfl, -⟩ | ⟨-, hcounter⟩ | ⟨hm, -⟩
      · rw [Holding.value?_event]
        rfl
      · cases hcounter
      · exact Option.isSome_iff_exists.mpr
          ⟨[], Holding.value?_eq_some_iff.mpr (.inr (.inr ⟨hm, rfl⟩))⟩

/-- **Sweeping indices is safe** on the tables of a ledger. -/
theorem indicesSwept (hdb : db.Represents L) (victims : List Serial) :
    db.IndicesSwept (IndexTier.sweep db victims).2 victims := by
  have hdb' := hdb.sweepIndices victims
  have hsame : ∀ s h, L s = some h → ¬ (s ∈ victims ∧ h.stub? = some true) → h.stub?.isSome →
      ∀ key, Key.serial? key = some s →
        (IndexTier.sweep db victims).2.events.get? key = db.events.get? key := by
    intro s h hL hout hheld key hserial
    have hL' := Ledger.pruned_eq_some_iff.mpr ⟨hL, hout, hheld⟩
    rw [hdb.events.get?_own hserial, hdb'.events.get?_own hserial, hL, hL']
  have hheld : ∀ {s v}, db.events.record? s = some v →
      ∃ h, L s = some h ∧ h.stub? = some (StoredValue.isStub v) := by
    intro s v hrec
    obtain ⟨h, hL, hrec⟩ := hdb.events.record?_eq_some_iff.mp hrec
    exact ⟨h, hL, Holding.stub?_of_record? hrec⟩
  refine ⟨?_, ?_, ?_, ?_, IndexTier.settings_sweep db victims⟩
  · intro s v hrec hstub
    obtain ⟨h, hL, hform⟩ := hheld hrec
    rw [hstub] at hform
    refine hsame s h hL ?_ (by rw [hform]; rfl)
    rw [hform]
    rintro ⟨-, ⟨⟩⟩
  · intro s v hrec hstub hout
    obtain ⟨h, hL, hform⟩ := hheld hrec
    exact hsame s h hL (fun hvictim => hout hvictim.1) (by rw [hform]; rfl)
  · rintro s hdoomed key v ⟨hget, hserial⟩
    have hd := (IndexTier.contains_doomed db victims s).mpr hdoomed
    have hcleared : L.pruned victims s = none := by
      rw [hdb.pruned_eq victims]
      exact if_pos hd
    rw [hdb'.events.get?_own hserial, hcleared] at hget
    cases hget
  · intro key v hv
    rw [hdb'.events key] at hv
    obtain ⟨s, h, hL', hval⟩ := Ledger.value?_eq_some_iff.mp hv
    have hL := (Ledger.pruned_eq_some_iff.mp hL').1
    rw [hdb.events key]
    exact Ledger.value?_eq_some_iff.mpr ⟨s, h, hL, hval⟩

end Represents
end Database

/-! ### Collections in phases -/

/-- A sweep of victims, and then of others, is one sweep. -/
theorem EventTier.sweep_append (db : Database) (victims victims' : List Serial) (demote : Bool) :
    (sweep (sweep db victims demote).2 victims' demote).2 =
      (sweep db (victims ++ victims') demote).2 := by
  -- what is counted on the way changes nothing in the tables
  have hcounts : ∀ (ss : List Serial) (n n' : Swept) (db : Database),
      (ss.foldl (sweepOne demote) (n, db)).2 = (ss.foldl (sweepOne demote) (n', db)).2 := by
    intro ss
    induction ss with
    | nil => exact fun n n' db => rfl
    | cons s ss ih =>
      intro n n' db
      have hone : (sweepOne demote (n, db) s).2 = (sweepOne demote (n', db) s).2 := by
        rw [sweepOne, sweepOne]
        split
        · split <;> rfl
        · rfl
      rw [List.foldl_cons, List.foldl_cons, ih _ (sweepOne demote (n', db) s).1, hone]
  rw [sweep, sweep, sweep, List.foldl_append]
  exact hcounts victims' _ _ _

/-- A collector at work on the tables of a tier. -/
structure Collector where
  tier : Tier
  config : CollectionConfig
  /-- Whether the cycle demotes what it sweeps. -/
  demote : Bool
  /-- Victims of the records that are marked and not swept yet. -/
  records : List Serial
  /-- Victims of the indices that are marked and not swept yet. -/
  indices : List Serial

namespace Collector

/-- What happens to the tables that a collector works on. -/
inductive Act where
  /-- Somebody else writes. -/
  | foreign (x : Transaction)
  /-- A cycle begins: it counts the records and marks its victims. -/
  | markRecords (config : CollectionConfig) (demote : Bool)
  /-- The next victims of the records are swept. -/
  | sweepRecords (n : Nat)
  | markIndices
  | sweepIndices

/-- The event that is given to whoever writes. -/
def Act.event? : Act → Option Event
  | .foreign x => x.event?
  | _ => none

/-- A collector that has not marked anything. -/
def idle (t : Tier) : Collector := ⟨t, .standard, false, [], []⟩

def step (c : Collector) : Act → Collector
  | .foreign x => { c with tier := c.tier.step x }
  | .markRecords config demote =>
    { c with
      config, demote, records := EventTier.mark (EventTier.census c.tier.db.events) config }
  | .sweepRecords n =>
    { c with
      tier := c.tier.step (.sweepRecords (c.records.take n) c.demote)
      records := c.records.drop n }
  | .markIndices =>
    { c with indices := IndexTier.mark (IndexTier.census c.tier.db.events) c.config }
  | .sweepIndices => { c with tier := c.tier.step (.sweepIndices c.indices), indices := [] }

def run (c : Collector) (acts : List Act) : Collector := acts.foldl step c

theorem run_append (c : Collector) (acts acts' : List Act) :
    c.run (acts ++ acts') = (c.run acts).run acts' := List.foldl_append

/-- The chunks of a sweep are one sweep. -/
theorem run_chunks (c : Collector) (ns : List Nat) : c.run (ns.map .sweepRecords) =
    { c with
      tier := c.tier.step (.sweepRecords (c.records.take ns.sum) c.demote)
      records := c.records.drop ns.sum } := by
  induction ns generalizing c with
  | nil => rfl
  | cons n ns ih =>
    show (c.step (.sweepRecords n)).run (ns.map .sweepRecords) = _
    rw [ih, List.sum_cons, List.take_add, Tier.step, Tier.step, ← EventTier.sweep_append]
    show { c with tier := _, records := (c.records.drop n).drop ns.sum } = _
    rw [List.drop_drop]
    rfl

/-- **The phases make up a cycle**, if nothing is written in between, in whatever chunks the records
are swept. -/
theorem run_cycle (c : Collector) (config : CollectionConfig) (demote : Bool) {ns : List Nat}
    (hall : (EventTier.mark (EventTier.census c.tier.db.events) config).length ≤ ns.sum) :
    (((c.step (.markRecords config demote)).run (ns.map .sweepRecords)).run
      [.markIndices, .sweepIndices]).tier.db = (c.tier.db.collect config demote).2 := by
  have htake : (c.step (.markRecords config demote)).records.take ns.sum =
      EventTier.mark (EventTier.census c.tier.db.events) config := List.take_of_length_le hall
  rw [run_chunks, htake]
  rfl

/-- Whatever the order of the phases, and whatever is written in between, the tables go through a
run of transactions. -/
theorem exists_run (c : Collector) (acts : List Act) : ∃ xs : List Transaction,
    (c.run acts).tier = c.tier.run xs ∧ xs.filterMap (·.event?) = acts.filterMap Act.event? := by
  induction acts generalizing c with
  | nil => exact ⟨[], rfl, rfl⟩
  | cons x acts ih =>
    obtain ⟨xs, hrun, hevents⟩ := ih (c.step x)
    cases x with
    | foreign x =>
      refine ⟨x :: xs, hrun, ?_⟩
      rw [List.filterMap_cons, List.filterMap_cons, hevents]
      rfl
    | markRecords config demote => exact ⟨xs, hrun, hevents⟩
    | sweepRecords n => exact ⟨.sweepRecords (c.records.take n) c.demote :: xs, hrun, hevents⟩
    | markIndices => exact ⟨xs, hrun, hevents⟩
    | sweepIndices => exact ⟨.sweepIndices c.indices :: xs, hrun, hevents⟩

/-- **Old marks are safe.**  Whatever is written while a collector is at work, by saving, deleting,
noting accesses, by other collectors or by opening the tables again, in whatever order with its own
phases and chunks: at every moment a sweep of the next victims of the records, and one of the
victims of the indices, does what a sweep may do. -/
theorem stale_marks_safe (batch : UInt64) (acts : List Act)
    (hid : Identified (acts.filterMap Act.event?)) :
    let c := (idle (Tier.fresh batch)).run acts
    (∀ n, c.tier.db.RecordsSwept (c.step (.sweepRecords n)).tier.db (c.records.take n)
      c.demote) ∧
      c.tier.db.IndicesSwept (c.step .sweepIndices).tier.db c.indices := by
  intro c
  obtain ⟨xs, hrun, hevents⟩ := (idle (Tier.fresh batch)).exists_run acts
  have hid' : Identified (xs.filterMap (·.event?)) := by rwa [hevents]
  obtain ⟨L, hf⟩ := Tier.exists_follows batch hid'
  have hdb : c.tier.db.Represents L := by
    rw [show c.tier = (Tier.fresh batch).run xs from hrun]
    exact hf.db
  exact ⟨fun n => hdb.recordsSwept _ _, hdb.indicesSwept _⟩

/-- Of three notes that are marked, the first is deleted before the sweep comes to it. The others
are demoted and marked again, and the second is saved once more before the indices are swept. -/
theorem stale_marks_safe_revived :
    let e (n : UInt8) : Event := .uniform n 7 10 1 []
    let config : CollectionConfig := ⟨150, 10, 90, 300, 86, 92⟩
    let saves : List Act :=
      [.foreign (.save 1 (e 1)), .foreign (.save 2 (e 2)), .foreign (.save 3 (e 3))]
    let acts := saves ++ [.markRecords config true, .foreign (.delete (e 1))]
    let acts' := acts ++ [.sweepRecords 3, .markIndices, .foreign (.save 4 (e 2))]
    let c := (idle (Tier.fresh 8)).run acts
    let c' := (idle (Tier.fresh 8)).run acts'
    c.records = [0, 1, 2] ∧ c.tier.db.whole? 0 = none ∧ c.tier.db.whole? 1 = some (e 2) ∧
      c.tier.db.RecordsSwept (c.step (.sweepRecords 3)).tier.db [0, 1, 2] c.demote ∧
      c'.indices = [1, 2] ∧ c'.tier.db.whole? 1 = some (e 2) ∧
      c'.tier.db.IndicesSwept (c'.step .sweepIndices).tier.db [1, 2] := by
  intro e config saves acts acts' c c'
  have hid : Identified (acts.filterMap Act.event?) := by decide +kernel
  have hid' : Identified (acts'.filterMap Act.event?) := by decide +kernel
  let saved := (idle (Tier.fresh 8)).run saves
  have hc : c = (saved.step (.markRecords config true)).step (.foreign (.delete (e 1))) :=
    run_append _ saves _
  have hc' : c' = ((c.step (.sweepRecords 3)).step .markIndices).step (.foreign (.save 4 (e 2))) :=
    run_append _ acts _
  -- what is counted is in the order in which it is marked
  have hrecords : c.records = [0, 1, 2] := by
    have hmark : ∀ x : Collector,
        ((x.step (.markRecords config true)).step (.foreign (.delete (e 1)))).records =
          EventTier.mark (EventTier.census x.tier.db.events) config := fun _ => rfl
    rw [hc, hmark, EventTier.mark, List.mergeSort_of_pairwise (by decide +kernel)]
    decide +kernel
  obtain ⟨htier, hconfig, hdemotes⟩ : c.tier = saved.tier.step (.delete (e 1)) ∧
      c.config = config ∧ c.demote = true := by
    rw [hc]
    exact ⟨rfl, rfl, rfl⟩
  have hswept : (c.step (.sweepRecords 3)).tier =
      (saved.tier.step (.delete (e 1))).step (.sweepRecords [0, 1, 2] true) := by
    have hsweep : ∀ x : Collector, (x.step (.sweepRecords 3)).tier =
        x.tier.step (.sweepRecords (x.records.take 3) x.demote) := fun _ => rfl
    rw [hsweep, hrecords, hdemotes, htier]
    rfl
  have hindices : c'.indices = [1, 2] := by
    have hmark : ∀ x : Collector,
        (((x.step (.sweepRecords 3)).step .markIndices).step (.foreign (.save 4 (e 2)))).indices =
          IndexTier.mark (IndexTier.census (x.step (.sweepRecords 3)).tier.db.events) x.config :=
      fun _ => rfl
    rw [hc', hmark, hswept, hconfig, IndexTier.mark,
      List.mergeSort_of_pairwise (by decide +kernel)]
    decide +kernel
  have hrevived : c'.tier.db.whole? 1 = some (e 2) := by
    have hsave : ∀ x : Collector,
        (((x.step (.sweepRecords 3)).step .markIndices).step (.foreign (.save 4 (e 2)))).tier =
          (x.step (.sweepRecords 3)).tier.step (.save 4 (e 2)) := fun _ => rfl
    rw [hc', hsave, hswept]
    decide +kernel
  have hsafe : c.tier.db.RecordsSwept (c.step (.sweepRecords 3)).tier.db
      (c.records.take 3) c.demote := (stale_marks_safe 8 acts hid).1 3
  have hsafe' : c'.tier.db.IndicesSwept (c'.step .sweepIndices).tier.db c'.indices :=
    (stale_marks_safe 8 acts' hid').2
  rw [hrecords] at hsafe
  rw [hindices] at hsafe'
  refine ⟨hrecords, ?_, ?_, hsafe, hindices, hrevived, hsafe'⟩
  · rw [htier]
    decide +kernel
  · rw [htier]
    decide +kernel

end Collector
end EventArchive
