import EventArchive.Proofs.Reachable

/-! # What is stored under the keys of records

Whatever events a tier is given, even different ones of one identifier, the keys
of records are those of serials that have been given out, and what is stored
under them can be read: it has the length of a demoted record or it is a whole
event.  A serial that is queued for the next sweep has no record
(`Tier.Sound`).  This is less than what a ledger says, and needs less: of the
events only that they fit their encoding.
-/
namespace EventArchive

/-- A value that is demoted by its length, or a whole event. -/
def StoredValue.Readable (value : Bytes) : Prop :=
  isStub value = true ∨ ∃ e, decode value = .ok (.full e)

theorem StoredValue.readable_encode {e : Event} (he : e.Sized) : Readable (encode e) :=
  .inr ⟨e, decode_encode he⟩

/-- The records of a database have serials below a bound and can be read, and those of queued
serials are gone. -/
structure Database.Sound (db : Database) (bound : Nat) : Prop where
  records : ∀ key v, db.events.get? key = some v → Key.layout? key = some .event →
    ∃ s, key = Key.event s ∧ s.toNat < bound ∧ StoredValue.Readable v
  queued : ∀ s, db.purge.contains s = true → s.toNat < bound ∧ db.events.record? s = none

theorem Lease.Covers.of_settings {l : Lease} {db db' : Database} (h : l.Covers db)
    (hsettings : db'.settings = db.settings) : l.Covers db' :=
  ⟨h.batch_pos, h.next_le, hsettings ▸ h.bound⟩

theorem Key.event_inj {s s' : Serial} (h : Key.event s = Key.event s') : s = s' := by
  have hserial := congrArg Key.serial? h
  rw [Key.serial?_event, Key.serial?_event] at hserial
  exact Option.some.inj hserial

/-- No key of a record is an index key. -/
theorem Key.not_mem_index {e : Event} {s : Serial} {key : Bytes}
    (hl : layout? key = some .event) : key ∉ index e s := by
  intro hm
  obtain ⟨l, hl', hsec⟩ := layout?_of_mem_index hm
  rw [hl] at hl'
  cases hl'
  cases hsec

theorem Key.ne_counter {i : EventId} {s : Serial} {key : Bytes}
    (hl : layout? key = some .event) : key ≠ counter i s := by
  rintro rfl
  rw [layout?_counter] at hl
  cases hl

namespace Keyspace
variable {k : Keyspace} {s : Serial} {e : Event} {key : Bytes}

/-- Writing a record changes no other record. -/
theorem get?_putRecord (hl : Key.layout? key = some .event) (now : UInt64) :
    (k.putRecord now e s).get? key =
      if key = Key.event s then some (StoredValue.encode e) else k.get? key := by
  rw [putRecord, SortedMap.get?_insert, if_neg (Key.ne_counter hl), SortedMap.get?_insert]

theorem get?_insertRecord (hl : Key.layout? key = some .event) (now : UInt64) :
    (k.insertRecord now e s).get? key =
      if key = Key.event s then some (StoredValue.encode e) else k.get? key := by
  rw [insertRecord, get?_putRecord hl, SortedMap.get?_insertAll, if_neg (Key.not_mem_index hl)]

theorem get?_demoteRecord (hl : Key.layout? key = some .event) :
    (k.demoteRecord e.id s).get? key =
      if key = Key.event s then some e.id.bytes else k.get? key := by
  rw [demoteRecord, SortedMap.get?_erase, if_neg (Key.ne_counter hl), SortedMap.get?_insert]

theorem get?_removeRecord (hl : Key.layout? key = some .event) :
    (k.removeRecord e s).get? key = if key = Key.event s then none else k.get? key := by
  rw [removeRecord, SortedMap.get?_eraseAll]
  simp [Key.not_mem_index hl, Key.ne_counter hl]

/-- What is found by its identifier is a record. -/
theorem isSome_record?_of_locate {i : EventId} {found : Located}
    (h : k.locate i = some found) : (k.record? found.serial).isSome := by
  obtain ⟨v, hv, -⟩ := exists_record_of_locate h
  rw [hv]
  rfl

/-- What is found for a slot is a record. -/
theorem isSome_record?_of_rivals {p : Prior} (h : p ∈ k.rivals e) :
    (k.record? p.serial).isSome := by
  rw [rivals] at h
  split at h
  · obtain ⟨entry, -, hp⟩ := List.mem_filterMap.mp h
    obtain ⟨-, hp⟩ := Option.ite_none_right_eq_some.mp hp
    simp only [priorAt, Option.bind_eq_bind, Option.bind_eq_some_iff] at hp
    obtain ⟨s, -, time, -, v, hv, hp⟩ := hp
    have hserial : p.serial = s := by
      split at hp
      · split at hp <;> cases hp
        rfl
      · split at hp <;> cases hp
        rfl
      · cases hp
    rw [hserial, hv]
    rfl
  · cases h

/-- Two tables with the same keys, and the same values but those of counters. -/
def SameButCounters (k' k : Keyspace) : Prop :=
  ∀ key, k'.get? key = k.get? key ∨
    (∃ i s, key = Key.counter i s) ∧ (k.get? key).isSome ∧ (k'.get? key).isSome

theorem SameButCounters.trans {k k' k'' : Keyspace} (h' : k''.SameButCounters k')
    (h : k'.SameButCounters k) : k''.SameButCounters k := by
  intro key
  rcases h key with heq | ⟨hcounter, hold, hnew⟩
  · rw [← heq]
    exact h' key
  · rcases h' key with heq' | ⟨-, -, hnew'⟩
    · exact .inr ⟨hcounter, hold, by rwa [heq']⟩
    · exact .inr ⟨hcounter, hold, hnew'⟩

theorem SameButCounters.isSome_eq {k k' : Keyspace} (h : k'.SameButCounters k) (key : Bytes) :
    (k'.get? key).isSome = (k.get? key).isSome := by
  rcases h key with heq | ⟨-, hold, hnew⟩
  · rw [heq]
  · rw [hold, hnew]

theorem touchOne_sameButCounters {at_ : UInt64} {a : Access} {s s' : Nat × Keyspace}
    (h : touchOne at_ s a = .ok s') : s'.2.SameButCounters s.2 := by
  rw [touchOne] at h
  split at h
  · cases h
    exact fun _ => .inl rfl
  · rename_i value hvalue
    cases hdecode : Counter.decode value with
    | error err =>
      rw [hdecode] at h
      cases h
    | ok c =>
      rw [hdecode] at h
      simp only [Bind.bind, Except.bind] at h
      split at h <;> cases h
      · exact fun _ => .inl rfl
      · intro key
        rw [SortedMap.get?_insert]
        split
        · rename_i hkey
          rw [hkey, hvalue]
          exact .inr ⟨⟨_, _, rfl⟩, rfl, rfl⟩
        · exact .inl rfl

theorem touches_sameButCounters {at_ : UInt64} {batch : List Access} {s s' : Nat × Keyspace}
    (h : batch.foldlM (touchOne at_) s = .ok s') : s'.2.SameButCounters s.2 := by
  induction batch generalizing s with
  | nil =>
    cases h
    exact fun _ => .inl rfl
  | cons a batch ih =>
    rw [List.foldlM_cons] at h
    cases ha : touchOne at_ s a with
    | error err =>
      rw [ha] at h
      cases h
    | ok s'' =>
      rw [ha] at h
      exact (ih h).trans (touchOne_sameButCounters ha)

/-- Noting accesses changes the values of counters alone. -/
theorem touchOrDrop_sameButCounters (k : Keyspace) (batch : List Access) (at_ : UInt64) :
    (k.touchOrDrop batch at_).SameButCounters k := by
  rw [touchOrDrop, touch]
  cases h : batch.foldlM (touchOne at_) (0, k) with
  | error err => exact fun _ => .inl rfl
  | ok r => exact touches_sameButCounters (s := (0, k)) h

/-- Noting accesses changes no record. -/
theorem get?_touchOrDrop (hl : Key.layout? key = some .event) (batch : List Access)
    (at_ : UInt64) : (k.touchOrDrop batch at_).get? key = k.get? key := by
  refine (touchOrDrop_sameButCounters k batch at_ key).resolve_right ?_
  rintro ⟨⟨i, s, hcounter⟩, -⟩
  exact Key.ne_counter hl hcounter

end Keyspace

namespace Database.Sound
variable {db db' : Database} {n : Nat} {s : Serial} {e : Event}

theorem mono {m : Nat} (h : db.Sound n) (hle : n ≤ m) : db.Sound m where
  records key v hv hl := by
    obtain ⟨s, hkey, hs, hread⟩ := h.records key v hv hl
    exact ⟨s, hkey, Nat.lt_of_lt_of_le hs hle, hread⟩
  queued s hs := ⟨Nat.lt_of_lt_of_le (h.queued s hs).1 hle, (h.queued s hs).2⟩

theorem lt_of_record? (h : db.Sound n) (hs : (db.events.record? s).isSome) : s.toNat < n := by
  obtain ⟨v, hv⟩ := Option.isSome_iff_exists.mp hs
  obtain ⟨s', hkey, hlt, -⟩ := h.records _ v hv (Key.layout?_event s)
  rwa [Key.event_inj hkey]

theorem readable (h : db.Sound n) {v : Bytes} (hv : db.events.record? s = some v) :
    StoredValue.Readable v := by
  obtain ⟨-, -, -, hread⟩ := h.records _ v hv (Key.layout?_event s)
  exact hread

/-- A serial with a record is not queued. -/
theorem not_queued (h : db.Sound n) (hs : (db.events.record? s).isSome) :
    db.purge.contains s = false := by
  rw [Bool.eq_false_iff]
  intro hq
  rw [(h.queued s hq).2] at hs
  cases hs

/-- Records are removed, and serials without a record are queued. -/
theorem of_le (h : db.Sound n)
    (hk : ∀ key v, db'.events.get? key = some v → Key.layout? key = some .event →
      db.events.get? key = some v)
    (hq : ∀ s, db'.purge.contains s = true → db.purge.contains s = true ∨
      (s.toNat < n ∧ db'.events.record? s = none)) : db'.Sound n where
  records key v hv hl := h.records key v (hk key v hv hl) hl
  queued s hs := by
    rcases hq s hs with hold | hnew
    · obtain ⟨hlt, hnone⟩ := h.queued s hold
      refine ⟨hlt, Option.eq_none_iff_forall_ne_some.mpr fun v hv => ?_⟩
      have hv' : db.events.record? s = some v := hk _ v hv (Key.layout?_event s)
      rw [hnone] at hv'
      cases hv'
    · exact hnew

/-- A record is written under a serial that is not queued. -/
theorem of_put {k' : Keyspace} {v : Bytes} (h : db.Sound n) (hs : s.toNat < n)
    (hfree : db.purge.contains s = false) (hread : StoredValue.Readable v)
    (hk : ∀ key, Key.layout? key = some .event →
      k'.get? key = if key = Key.event s then some v else db.events.get? key) :
    Sound { db with events := k' } n where
  records key v' hv' hl := by
    rw [hk key hl] at hv'
    split at hv'
    · rename_i hkey
      cases hv'
      exact ⟨s, hkey, hs, hread⟩
    · exact h.records key v' hv' hl
  queued s' hs' := by
    obtain ⟨hlt, hnone⟩ := h.queued s' hs'
    refine ⟨hlt, ?_⟩
    have hne : s' ≠ s := by
      rintro rfl
      rw [hfree] at hs'
      cases hs'
    rw [Keyspace.record?, hk _ (Key.layout?_event s'), if_neg fun heq => hne (Key.event_inj heq)]
    exact hnone

/-! ### Operations -/

theorem removeRecord (h : db.Sound n) (e : Event) (s : Serial) :
    Sound { db with events := db.events.removeRecord e s } n := by
  refine h.of_le (fun key v hv hl => ?_) fun s hs => .inl hs
  rw [Keyspace.get?_removeRecord hl] at hv
  exact (Option.ite_none_left_eq_some.mp hv).2

theorem removePrior {p : Prior} (h : db.Sound n) (e : Event) (hp : p.serial.toNat < n) :
    (db.removePrior e p).Sound n := by
  rw [Database.removePrior]
  split
  · exact h.removeRecord _ _
  · refine h.of_le (fun key v hv _ => ?_) fun s hs => ?_
    · rw [SortedMap.get?_eraseAll] at hv
      exact (Option.ite_none_left_eq_some.mp hv).2
    · by_cases heq : s = p.serial
      · refine .inr ⟨heq ▸ hp, ?_⟩
        rw [heq, Keyspace.record?, SortedMap.get?_eraseAll, if_pos List.mem_cons_self]
      · refine .inl ?_
        rwa [SortedMap.contains, SortedMap.get?_insert, if_neg heq] at hs

theorem clear {ps : List Prior} (h : db.Sound n) (e : Event)
    (hps : ∀ p ∈ ps, p.serial.toNat < n) : (ps.foldl (·.removePrior e ·) db).Sound n := by
  induction ps generalizing db with
  | nil => exact h
  | cons p ps ih =>
    exact ih (h.removePrior e (hps p List.mem_cons_self))
      fun p' hp' => hps p' (List.mem_cons_of_mem _ hp')

/-- Saving takes at most the serial that it is given. -/
theorem saveAs (h : db.Sound n) (he : e.Sized) (hs : s.toNat = n) (now : UInt64) :
    (db.saveAs now s e).2.Sound (n + 1) := by
  have hnext := h.mono (Nat.le_succ n)
  rw [Database.saveAs]
  split
  · exact hnext
  · rename_i s' hfound
    have hrec := Keyspace.isSome_record?_of_locate hfound
    exact hnext.of_put (hnext.lt_of_record? hrec) (h.not_queued hrec)
      (StoredValue.readable_encode he) fun key hl => Keyspace.get?_putRecord hl now
  · dsimp only
    split
    · have hcleared : ((db.events.rivals e).foldl (·.removePrior e ·) db).Sound n :=
        h.clear e fun p hp => h.lt_of_record? (Keyspace.isSome_record?_of_rivals hp)
      refine (hcleared.mono (Nat.le_succ n)).of_put (s := s) (by omega) ?_
        (StoredValue.readable_encode he) fun key hl => Keyspace.get?_insertRecord hl now
      -- queued serials are below the bound, and this one is not
      rw [Bool.eq_false_iff]
      intro hq
      have := (hcleared.queued s hq).1
      omega
    · exact hnext

theorem sweepOne (h : db.Sound n) (demote : Bool) (c : EventTier.Swept) (s : Serial) :
    (EventTier.sweepOne demote (c, db) s).2.Sound n := by
  rw [EventTier.sweepOne]
  split
  · rename_i e hv
    obtain ⟨v, hv, -⟩ := Option.map_eq_some_iff.mp hv
    have hrec : (db.events.record? s).isSome := by
      rw [hv]
      rfl
    split
    · exact h.of_put (h.lt_of_record? hrec) (h.not_queued hrec)
        (.inl (StoredValue.isStub_id e.id)) fun key hl => Keyspace.get?_demoteRecord hl
    · exact h.removeRecord _ _
  · exact h

theorem sweepRecords (h : db.Sound n) (victims : List Serial) (demote : Bool) :
    (EventTier.sweep db victims demote).2.Sound n := by
  have hfold : ∀ r : EventTier.Swept × Database, r.2.Sound n →
      (victims.foldl (EventTier.sweepOne demote) r).2.Sound n := by
    induction victims with
    | nil => exact fun r hr => hr
    | cons s victims ih => exact fun r hr => ih _ (hr.sweepOne demote r.1 s)
  exact hfold (⟨0, 0⟩, db) h

theorem sweepIndices (h : db.Sound n) (victims : List Serial) :
    (IndexTier.sweep db victims).2.Sound n := by
  rw [IndexTier.sweep]
  dsimp only
  split
  · exact h
  · refine h.of_le (fun key v hv _ => ?_) fun s hs => absurd hs Bool.false_ne_true
    rw [get?_purgeSerials] at hv
    exact (Option.ite_none_left_eq_some.mp hv).2

end Database.Sound

/-! ### Runs -/

/-- The records of a tier can be read, and their serials have been given out. -/
structure Tier.Sound (t : Tier) : Prop where
  db : t.db.Sound t.lease.next.toNat
  lease : t.lease.Covers t.db

namespace Tier
variable {t : Tier}

/-- Opening tables leaves their records and goes on behind every serial that was given out. -/
theorem start_spec (hlease : t.lease.Covers t.db) (batch : UInt64) :
    (start t.db batch).db.events = t.db.events ∧ (start t.db batch).db.purge = t.db.purge ∧
      t.lease.next.toNat ≤ (start t.db batch).lease.next.toNat ∧
      (start t.db batch).lease.Covers (start t.db batch).db := by
  have hnext : ∀ {db : Database},
      db.settings.get? Database.serialSetting = t.db.settings.get? Database.serialSetting →
      t.lease.next.toNat ≤ (Lease.resume db batch).next.toNat := by
    intro db hsettings
    have hlimit : (Lease.resume db batch).next = t.lease.limit := by
      rw [← hlease.bound, ← hsettings]
      rfl
    rw [hlimit]
    exact hlease.next_le
  rw [start]
  split
  · rename_i db hprepare
    rw [Database.prepare] at hprepare
    split at hprepare
    · cases hprepare
      have hne : Database.serialSetting ≠ Database.versionSetting := by decide
      refine ⟨rfl, rfl, hnext ?_, Lease.covers_resume _ batch⟩
      rw [SortedMap.get?_insert, if_neg hne]
    · split at hprepare <;> cases hprepare
      exact ⟨rfl, rfl, hnext rfl, Lease.covers_resume _ batch⟩
  · exact ⟨rfl, rfl, hnext rfl, Lease.covers_resume _ batch⟩

/-- Saving either changes nothing, or it takes the next serial and saves the event under it. -/
theorem save_cases (hlease : t.lease.Covers t.db) (now : UInt64) (e : Event) :
    (t.step (.save now e) = t ∧ t.stored? (.save now e) = none) ∨
    ∃ (lease : Lease) (db : Database), db.events = t.db.events ∧ db.purge = t.db.purge ∧
      lease.next.toNat = t.lease.next.toNat + 1 ∧
      lease.Covers (db.saveAs now t.lease.next e).2 ∧
      t.step (.save now e) = ⟨(db.saveAs now t.lease.next e).2, lease⟩ ∧
      t.stored? (.save now e) = if (db.saveAs now t.lease.next e).1 = .stored then
        some (t.lease.next, e) else none := by
  by_cases hkind : e.kind.retention = .ephemeral
  · rw [step, stored?, Database.save, if_pos hkind]
    exact .inl ⟨rfl, rfl⟩
  by_cases hlive : (t.db.events.locate e.id).any (!·.stub) = true
  · rw [step, stored?, Database.save, if_neg hkind, if_pos hlive]
    exact .inl ⟨rfl, rfl⟩
  rw [step, stored?, Database.save, if_neg hkind, if_neg hlive]
  cases hissue : t.lease.issue t.db with
  | error err => exact .inl ⟨rfl, rfl⟩
  | ok issued =>
    obtain ⟨s, lease, db⟩ := issued
    obtain ⟨rfl, hnext, hcovers, hevents, hpurge, -⟩ := Lease.issue_eq_ok hlease hissue
    refine .inr ⟨lease, db, hevents, hpurge, hnext,
      hcovers.of_settings (Database.settings_saveAs db now t.lease.next e), rfl, ?_⟩
    dsimp only
    cases (db.saveAs now t.lease.next e).1 <;> rfl

theorem sound_fresh (batch : UInt64) : (fresh batch).Sound where
  db := ⟨nofun, nofun⟩
  lease := Lease.covers_resume _ batch

namespace Sound

/-- Opening tables again goes on behind every serial that was given out. -/
theorem start (h : t.Sound) (batch : UInt64) : (start t.db batch).Sound := by
  obtain ⟨hevents, hpurge, hnext, hcovers⟩ := start_spec h.lease batch
  refine ⟨Database.Sound.mono ?_ hnext, hcovers⟩
  exact h.db.of_le (fun key v hv _ => hevents ▸ hv) fun s hs => .inl (hpurge ▸ hs)

theorem release (h : t.Sound) : t.release.Sound where
  db := h.db.of_le (fun _ _ hv _ => hv) fun _ hs => .inl hs
  lease := Lease.covers_release h.lease

theorem save {e : Event} (h : t.Sound) (he : e.Sized) (now : UInt64) :
    (t.step (.save now e)).Sound := by
  rcases save_cases h.lease now e with
    ⟨hstep, -⟩ | ⟨lease, db, hevents, hpurge, hnext, hcovers, hstep, -⟩
  · rwa [hstep]
  · have hdb : db.Sound t.lease.next.toNat :=
      h.db.of_le (fun key v hv _ => hevents ▸ hv) fun s hs => .inl (hpurge ▸ hs)
    rw [hstep]
    exact ⟨hnext ▸ hdb.saveAs he rfl now, hcovers⟩

/-- **One transaction.** -/
theorem step (h : t.Sound) (x : Transaction) (hfits : ∀ e, x.event? = some e → e.Sized) :
    (t.step x).Sound := by
  cases x with
  | save now e => exact h.save (hfits e rfl) now
  | delete e =>
    rw [Tier.step, Database.delete]
    split
    · exact h
    · exact ⟨h.db.removeRecord _ _, h.lease.of_settings rfl⟩
  | touch batch now =>
    refine ⟨h.db.of_le (fun key v hv hl => ?_) fun s hs => .inl hs, h.lease.of_settings rfl⟩
    exact (Keyspace.get?_touchOrDrop hl batch now).symm.trans hv
  | sweepRecords victims demote =>
    exact ⟨h.db.sweepRecords victims demote,
      h.lease.of_settings (EventTier.tables_sweep t.db victims demote).2⟩
  | sweepIndices victims =>
    exact ⟨h.db.sweepIndices victims,
      h.lease.of_settings (IndexTier.settings_sweep t.db victims)⟩
  | release => exact h.release
  | reopen batch => exact h.release.start batch
  | crash batch => exact h.start batch

/-- **A run of transactions.** -/
theorem run (h : t.Sound) {xs : List Transaction}
    (hfits : ∀ e ∈ xs.filterMap (·.event?), e.Sized) : (t.run xs).Sound := by
  induction xs generalizing t with
  | nil => exact h
  | cons x xs ih =>
    rw [List.forall_mem_filterMap, List.forall_mem_cons, ← List.forall_mem_filterMap] at hfits
    exact ih (h.step x hfits.1) hfits.2

end Sound
end Tier

/-- **Every archive that can be reached has sound records.** -/
theorem Archive.Reached.sound {es : List Event} {a : Archive} (ha : Reached es a)
    (hfits : ∀ e ∈ es, e.Sized) : a.tier.Sound := by
  obtain ⟨batch, xs, hrun, hes⟩ := ha.exists_run
  rw [hrun]
  exact (Tier.sound_fresh batch).run fun e he => hfits e (hes e he)

end EventArchive
