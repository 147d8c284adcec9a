import EventArchive.Proofs.Sweeps
import EventArchive.Proofs.Watermarks

/-! # A cycle keeps a tier within its budgets

A cycle of collection takes records away until what is left is within the low
mark, if it has to: the victims are the beginning of a list, and what follows
them fits (`EventTier.exists_needed_append`).  Then it does the same for the index
keys of demoted records.  The two high marks together are no more than the size
limit, and a second cycle finds nothing to do (`Archive.collect_bounded`).
-/
namespace EventArchive

/-! ### Victims -/

namespace EventTier
variable {α : Type}

/-- What is left behind the victims is within the bound. -/
theorem exists_needed_append (size : α → Nat) (bound : Nat) (as : List α) : ∃ rest,
    as = needed size bound (as.map size).sum as ++ rest ∧ (rest.map size).sum ≤ bound := by
  induction as with
  | nil => exact ⟨[], rfl, Nat.zero_le _⟩
  | cons a as ih =>
    rw [needed]
    split
    · rename_i hle
      exact ⟨a :: as, rfl, hle⟩
    · obtain ⟨rest, has, hrest⟩ := ih
      refine ⟨rest, ?_, hrest⟩
      rw [List.map_cons, List.sum_cons, Nat.add_sub_cancel_left, List.cons_append, ← has]

theorem needed_eq_nil {size : α → Nat} {bound remaining : Nat} (h : remaining ≤ bound)
    (as : List α) : needed size bound remaining as = [] := by
  cases as with
  | nil => rfl
  | cons a as => rw [needed, if_pos h]

/-- What is no victim is within the bound, in whichever order the victims are taken. -/
theorem sum_unneeded_le (size : α → Nat) (bound : Nat) (serial : α → Serial) {as bs : List α}
    (hperm : bs.Perm as) :
    ((as.filter fun a => decide (serial a ∉
      (needed size bound (as.map size).sum bs).map serial)).map size).sum ≤ bound := by
  rw [← (hperm.map size).sum_eq]
  obtain ⟨rest, hbs, hrest⟩ := exists_needed_append size bound bs
  generalize needed size bound (bs.map size).sum bs = victims at hbs
  have hgone : victims.filter (fun a => decide (serial a ∉ victims.map serial)) = [] := by
    rw [List.filter_eq_nil_iff]
    intro a ha hout
    exact of_decide_eq_true hout (List.mem_map_of_mem ha)
  rw [← ((hperm.filter _).map size).sum_eq, hbs, List.filter_append, hgone, List.nil_append]
  exact ((List.filter_sublist.map size).sum_le_sum fun _ _ => Nat.zero_le _).trans hrest

end EventTier

/-! ### The tier of records -/

namespace EventTier
variable {db : Database} {n : Nat} {config : CollectionConfig} {c : Census} {s : Serial}

theorem mark_eq_nil (h : c.total ≤ config.lowMark.toNat ∨ c.total < config.highMark.toNat) :
    mark c config = [] := by
  rw [mark]
  split_ifs with hoff
  · rfl
  · rcases h with hle | hlt
    · rw [needed_eq_nil hle, List.map_nil]
    · exact absurd (.inr hlt) hoff

theorem mark_sublist (c : Census) (config : CollectionConfig) :
    (mark c config).Sublist ((c.live.mergeSort Entry.goesBefore).map (·.serial)) := by
  rw [mark]
  split_ifs
  · exact List.nil_sublist _
  · have htotal : c.total = ((c.live.mergeSort Entry.goesBefore).map (·.size)).sum :=
      ((List.mergeSort_perm c.live _).map _).sum_eq.symm
    obtain ⟨rest, happ, -⟩ := exists_needed_append Entry.size config.lowMark.toNat
      (c.live.mergeSort Entry.goesBefore)
    refine List.Sublist.map _ ?_
    rw [htotal]
    conv_rhs => rw [happ]
    exact List.sublist_append_left _ _

/-- A victim is a whole record. -/
theorem exists_of_mem_mark (h : db.Sound n) (hs : s ∈ mark (census db.events) config) :
    ∃ v, db.events.record? s = some v ∧ StoredValue.isStub v = false := by
  obtain ⟨entry, hentry, rfl⟩ := List.mem_map.mp ((mark_sublist _ _).subset hs)
  rw [(List.mergeSort_perm _ _).mem_iff, h.census_live, List.mem_map] at hentry
  obtain ⟨⟨key, v⟩, hmem, rfl⟩ := hentry
  obtain ⟨s, rfl, hv, hwhole⟩ := h.mem_wholeRecords.mp hmem
  rw [Key.serialOf_event]
  exact ⟨v, hv, hwhole⟩

/-- No record is a victim twice. -/
theorem mark_nodup (h : db.Sound n) (config : CollectionConfig) :
    (mark (census db.events) config).Nodup := by
  have hserials := census_live_nodup h.recordKeys
  refine List.Nodup.sublist (mark_sublist _ config) ?_
  exact ((List.mergeSort_perm _ _).map _).nodup_iff.mpr hserials

/-- What a sweep of the marked records does. -/
theorem sweeps_mark (h : db.Sound n) (config : CollectionConfig) (demote : Bool) :
    Sweeps db (mark (census db.events) config) ⟨0, 0⟩
      (sweep db (mark (census db.events) config) demote) :=
  sweeps_foldl h (mark_nodup h config) (fun _ hs => exists_of_mem_mark h hs) demote _

/-- **The whole records come down to the low mark**, if they had reached the high mark. -/
theorem wholeBytes_sweep_mark (h : db.Sound n) (hon : config.enabled = true) (demote : Bool) :
    (sweep db (mark (census db.events) config) demote).2.events.wholeBytes ≤
        config.lowMark.toNat ∨
      db.events.wholeBytes < config.highMark.toNat ∧
        (sweep db (mark (census db.events) config) demote).2.events.wholeRecords =
          db.events.wholeRecords := by
  rcases Nat.lt_or_ge (census db.events).total config.highMark.toNat with hlt | hge
  · refine .inr ⟨h.census_total ▸ hlt, ?_⟩
    rw [mark_eq_nil (.inr hlt)]
    rfl
  · refine .inl ?_
    have hmark : mark (census db.events) config =
        (needed Entry.size config.lowMark.toNat ((census db.events).live.map (·.size)).sum
          ((census db.events).live.mergeSort Entry.goesBefore)).map (·.serial) := by
      rw [mark, if_neg]
      · rfl
      · rw [not_or, Nat.not_lt, not_not]
        exact ⟨hon, hge⟩
    have hleft := sum_unneeded_le Entry.size config.lowMark.toNat Entry.serial
      (List.mergeSort_perm (census db.events).live Entry.goesBefore)
    rw [Keyspace.wholeBytes,
      wholeRecords_sweep h (h.sweepRecords _ demote) (sweeps_mark h config demote)]
    rw [← hmark, h.census_live, List.filter_map, List.map_map] at hleft
    exact hleft

end EventTier

/-! ### The tier of indices -/

namespace IndexTier
variable {db : Database} {n : Nat} {config : CollectionConfig} {c : List Entry}

theorem mark_eq_nil (h : total c ≤ config.indexLowMark.toNat ∨
    total c < config.indexHighMark.toNat) : mark c config = [] := by
  rw [mark]
  split_ifs with hoff
  · rfl
  · rcases h with hle | hlt
    · rw [EventTier.needed_eq_nil hle, List.map_nil]
    · exact absurd (.inr hlt) hoff

/-- **The index keys of demoted records come down to the low mark**, if they had reached the high
mark. -/
theorem demotedBytes_sweep_mark (h : db.Sound n) (hon : config.enabled = true) :
    (sweep db (mark (census db.events) config)).2.events.demotedBytes ≤
        config.indexLowMark.toNat ∨
      db.events.demotedBytes < config.indexHighMark.toNat ∧
        (sweep db (mark (census db.events) config)).2.events.demotedEntries =
          db.events.demotedEntries := by
  rcases Nat.lt_or_ge (total (census db.events)) config.indexHighMark.toNat with hlt | hge
  · refine .inr ⟨h.index_total ▸ hlt, ?_⟩
    rw [mark_eq_nil (.inr hlt), demotedEntries_sweep h, List.filter_eq_self]
    intro e he
    obtain ⟨-, -, s, hs, -⟩ := Keyspace.mem_demotedEntries.mp he
    rw [hs]
    rfl
  · refine .inl ?_
    have hmark : mark (census db.events) config =
        (EventTier.needed Entry.bytes config.indexLowMark.toNat
          ((census db.events).map (·.bytes)).sum
          ((census db.events).mergeSort Entry.goesBefore)).map (·.serial) := by
      rw [mark, if_neg]
      · rfl
      · rw [not_or, Nat.not_lt, not_not]
        exact ⟨hon, hge⟩
    have hleft := EventTier.sum_unneeded_le Entry.bytes config.indexLowMark.toNat Entry.serial
      (List.mergeSort_perm (census db.events) Entry.goesBefore)
    rw [← hmark, h.sum_census fun s => decide (s ∉ mark (census db.events) config)] at hleft
    rw [Keyspace.demotedBytes, demotedEntries_sweep h]
    exact hleft

end IndexTier

/-! ### A cycle -/

namespace Database

/-- A database between the two sweeps of a cycle. -/
def sweptRecords (db : Database) (config : CollectionConfig) (demote : Bool) : Database :=
  (EventTier.sweep db (EventTier.mark (EventTier.census db.events) config) demote).2

/-- **What a cycle comes to.** -/
structure Bounded (db : Database) (config : CollectionConfig) (demote : Bool)
    (report : CollectionReport) (db' : Database) : Prop where
  /-- The whole records are within the low mark, or were below the high mark and stay. -/
  whole : db'.events.wholeBytes ≤ config.lowMark.toNat ∨
    db.events.wholeBytes < config.highMark.toNat ∧
      db'.events.wholeRecords = db.events.wholeRecords
  /-- The index keys of demoted records are within theirs, or were below the high mark after the
  first sweep and stay. -/
  demoted : db'.events.demotedBytes ≤ config.indexLowMark.toNat ∨
    (db.sweptRecords config demote).events.demotedBytes < config.indexHighMark.toNat ∧
      db'.events.demotedEntries = (db.sweptRecords config demote).events.demotedEntries
  total : db'.events.wholeBytes + db'.events.demotedBytes ≤ config.sizeLimit.toNat
  marked : report.marked = report.demoted + report.deleted
  /-- Another cycle, of either kind, finds nothing to do. -/
  again : ∀ demote', ∃ report', db'.collect config demote' = (report', db') ∧
    report'.marked = 0 ∧ report'.indexSerialsPruned = 0 ∧ report'.changed = false

variable {db : Database} {n : Nat} {config : CollectionConfig}

/-- A cycle on a database that is within its marks, and has nothing queued, changes nothing. -/
theorem Sound.collect_settled (h : db.Sound n)
    (hwhole : db.events.wholeBytes ≤ config.lowMark.toNat ∨
      db.events.wholeBytes < config.highMark.toNat)
    (hdemoted : db.events.demotedBytes ≤ config.indexLowMark.toNat ∨
      db.events.demotedBytes < config.indexHighMark.toNat)
    (hpurge : db.purge = ∅) (demote : Bool) :
    ∃ report, db.collect config demote = (report, db) ∧ report.marked = 0 ∧
      report.indexSerialsPruned = 0 ∧ report.changed = false := by
  rw [← h.census_total] at hwhole
  rw [← h.index_total] at hdemoted
  have hempty : (IndexTier.doomed db []).isEmpty = true := by
    rw [IndexTier.doomed, hpurge]
    rfl
  have hindices : IndexTier.sweep db [] = (0, db) := by rw [IndexTier.sweep, if_pos hempty]
  have hrecords : EventTier.sweep db [] demote = (⟨0, 0⟩, db) := rfl
  let report : CollectionReport := {
    liveBytes := (EventTier.census db.events).total
    liveRecords := (EventTier.census db.events).live.length
    demotedRecords := (EventTier.census db.events).demoted
    marked := 0
    demoted := 0
    deleted := 0
    indexBytes := IndexTier.total (IndexTier.census db.events)
    indexSerialsPruned := 0
    indexEntriesRemoved := 0 }
  refine ⟨report, ?_, rfl, rfl, rfl⟩
  rw [collect, EventTier.mark_eq_nil hwhole, hrecords]
  dsimp only
  rw [IndexTier.mark_eq_nil hdemoted, hindices]
  rfl

/-- **A cycle bounds the database**, and one is enough. -/
theorem Sound.bounded_collect (h : db.Sound n) (hvalid : config.validate = .ok ())
    (hon : 0 < config.sizeLimit) (demote : Bool) :
    db.Bounded config demote (db.collect config demote).1 (db.collect config demote).2 := by
  have henabled : config.enabled = true := decide_eq_true hon
  have hswept : (db.sweptRecords config demote).Sound n := h.sweepRecords _ demote
  have hcollect : (db.collect config demote).2 = (IndexTier.sweep (db.sweptRecords config demote)
      (IndexTier.mark (IndexTier.census (db.sweptRecords config demote).events) config)).2 := rfl
  have hsound : (db.collect config demote).2.Sound n := hswept.sweepIndices _
  -- the second sweep leaves what the first one brought within its mark
  have hwhole : (db.collect config demote).2.events.wholeRecords =
      (db.sweptRecords config demote).events.wholeRecords :=
    IndexTier.wholeRecords_sweep hswept _
  have hfirst := EventTier.wholeBytes_sweep_mark h henabled demote
  have hsecond := IndexTier.demotedBytes_sweep_mark hswept henabled
  rw [← hcollect] at hsecond
  have hlow := UInt64.le_iff_toNat_le.mp (config.lowMark_le_highMark hvalid)
  have hindexLow := UInt64.le_iff_toNat_le.mp (config.indexLowMark_le_indexHighMark hvalid)
  have hlimit := config.highMarks_le_sizeLimit hvalid
  have hbytes : (db.collect config demote).2.events.wholeBytes ≤ config.lowMark.toNat ∨
      db.events.wholeBytes < config.highMark.toNat ∧
        (db.collect config demote).2.events.wholeRecords = db.events.wholeRecords := by
    rw [Keyspace.wholeBytes, hwhole]
    exact hfirst
  have hbelow : (db.collect config demote).2.events.wholeBytes ≤ config.lowMark.toNat ∨
      (db.collect config demote).2.events.wholeBytes < config.highMark.toNat :=
    hbytes.imp_right fun ⟨hlt, hsame⟩ => by rwa [Keyspace.wholeBytes, hsame]
  have hindexBelow : (db.collect config demote).2.events.demotedBytes ≤
        config.indexLowMark.toNat ∨
      (db.collect config demote).2.events.demotedBytes < config.indexHighMark.toNat :=
    hsecond.imp_right fun ⟨hlt, hsame⟩ => by rwa [Keyspace.demotedBytes, hsame]
  refine ⟨hbytes, hsecond, by omega, ?_, fun demote' => ?_⟩
  · have hcount := (EventTier.sweeps_mark h config demote).count
    rw [Nat.zero_add, Nat.zero_add] at hcount
    exact hcount.symm
  · exact hsound.collect_settled hbelow hindexBelow (IndexTier.purge_sweep _ _) demote'

end Database

namespace Archive

/-- **A cycle of collection bounds an archive.**  Whatever requests, sweeps and reopenings led to
its tables, and whatever events they were given that fit their encoding, a cycle with settings
that are accepted and a size limit brings them within the limit, and another one finds nothing to
do. -/
theorem collect_bounded {es : List Event} {a : Archive} (ha : Reached es a)
    (hfits : ∀ e ∈ es, e.Sized) {config : CollectionConfig} (hvalid : config.validate = .ok ())
    (hon : 0 < config.sizeLimit) (demote : Bool) :
    a.db.Bounded config demote (a.db.collect config demote).1 (a.db.collect config demote).2 :=
  (ha.sound hfits).db.bounded_collect hvalid hon demote

/-- Five notes have reached the high mark, so a cycle brings them down to the low one. -/
theorem collect_bounded_marked :
    let es : List Event := [.uniform 1 7 10 1 [], .uniform 2 7 20 1 [], .uniform 3 7 30 1 [],
      .uniform 4 7 40 1 [], .uniform 5 7 50 1 []]
    let a := fresh.saveAll 5 es
    let config : CollectionConfig := ⟨1000, 30, 50, 300, 40, 60⟩
    let cycle := a.db.collect config true
    Reached es a ∧ config.validate = .ok () ∧ config.highMark.toNat ≤ a.db.events.wholeBytes ∧
      cycle.2.events.wholeBytes ≤ config.lowMark.toNat ∧
      a.db.Bounded config true cycle.1 cycle.2 := by
  intro es a config cycle
  have ha : Reached es a := Reached.fresh.saveAll 5 es
  have hvalid : config.validate = .ok () := rfl
  have hmarked : config.highMark.toNat ≤ a.db.events.wholeBytes := by decide +kernel
  have hbounded : a.db.Bounded config true cycle.1 cycle.2 :=
    collect_bounded ha (by decide +kernel) hvalid (by decide) true
  refine ⟨ha, hvalid, hmarked, ?_, hbounded⟩
  exact hbounded.whole.resolve_right fun h => Nat.not_lt.mpr hmarked h.1

end Archive
end EventArchive
