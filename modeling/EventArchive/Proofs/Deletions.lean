import EventArchive.Proofs.RecordForms
import EventArchive.Proofs.StoredPrefixes

/-! # What deleting leaves

A record is found for deletion by its identifier alone, and the keys that go with it
are those of the event that was asked for, not of the one that was stored.  To say
what is left, one has to know whose keys there are.  Whatever is done to a tier, and
whatever events it is given, also different ones of one identifier, **every key
belongs to a serial that was given out, and is one of those that were written when
its event was stored**; and as long as the serial has a record, all of its index keys
are there and the record begins with the identifier of that event
(`Keyspace.OwnedBy`, `Tier.Owned`).

So deleting leaves everything of other serials alone, and of the serial that it finds
exactly the index keys of the stored event that are none of the given one
(`Archive.delete_leaves`).  Nothing is left if the given event has all of these keys,
as it does if it agrees with the stored one in author, kind and time and has all of
its tags.  What is left is not queued, so no sweep will look for it.
-/
namespace EventArchive

/-- The keys that are written when an event is stored under a serial. -/
def Key.ofRecord (e : Event) (s : Serial) : List Bytes :=
  Key.event s :: Key.index e s ++ [Key.counter e.id s]

namespace Key
variable {e d : Event} {s : Serial} {key : Bytes}

theorem mem_ofRecord : key ∈ ofRecord e s ↔
    key = event s ∨ key ∈ index e s ∨ key = counter e.id s := by
  rw [ofRecord, List.cons_append, List.mem_cons, List.mem_append, List.mem_singleton]

theorem serial?_of_mem_ofRecord (h : key ∈ ofRecord e s) : serial? key = some s := by
  rcases mem_ofRecord.mp h with rfl | h | rfl
  · exact serial?_event s
  · exact serial?_of_mem_index h
  · exact serial?_counter e.id s

theorem ne_of_mem_index (h : key ∈ index e s) (i : EventId) (s' : Serial) :
    key ≠ event s' ∧ key ≠ counter i s' := by
  refine ⟨?_, ?_⟩
  · rintro rfl
    exact event_not_mem_index s' s e h
  · rintro rfl
    exact counter_not_mem_index i s' s e h

/-- An event with the identifier, author, kind and time of another one, and all of its tags, has
all of its index keys. -/
theorem index_subset_of_agrees (hid : e.id = d.id) (hauthor : d.pubkey = e.pubkey)
    (hkind : d.kind = e.kind) (htime : d.createdAt = e.createdAt) (htags : ∀ t ∈ e.tags, t ∈ d.tags)
    (h : key ∈ index e s) : key ∈ index d s := by
  rcases mem_index.mp h with h | h
  · rw [hid, ← hauthor, ← hkind, ← htime] at h
    exact mem_index.mpr (.inl h)
  · obtain ⟨v, hv, rfl⟩ := mem_tagged.mp h
    rw [indexedTagValues, mem_distinct, List.mem_filterMap] at hv
    obtain ⟨t, ht, hvalue⟩ := hv
    refine mem_index.mpr (.inr (mem_tagged.mpr ⟨v, ?_, by rw [htime]⟩))
    rw [indexedTagValues, mem_distinct, List.mem_filterMap]
    exact ⟨t, htags t ht, hvalue⟩

end Key

/-! ### Whose keys there are -/

namespace Keyspace

/-- **Every key belongs to an event that was stored**, and a record has all index keys of its
event and begins with the identifier. -/
structure OwnedBy (k : Keyspace) (J : List (Serial × Event)) : Prop where
  owner : ∀ key, (k.get? key).isSome → ∃ p ∈ J, key ∈ Key.ofRecord p.2 p.1
  record : ∀ p ∈ J, ∀ v, k.record? p.1 = some v →
    StoredValue.idBytes? v = some p.2.id.bytes ∧ ∀ key ∈ Key.index p.2 p.1, (k.get? key).isSome

namespace OwnedBy
variable {k k' : Keyspace} {J : List (Serial × Event)} {e : Event} {s : Serial} {v : Bytes}

theorem empty : OwnedBy ∅ [] := ⟨nofun, nofun⟩

/-- The event that was stored under the serial of a record. -/
theorem exists_owner (h : k.OwnedBy J) (hv : k.record? s = some v) : ∃ e, (s, e) ∈ J := by
  have hkey : (k.get? (Key.event s)).isSome := Option.isSome_iff_exists.mpr ⟨v, hv⟩
  obtain ⟨⟨s', e⟩, hp, hmem⟩ := h.owner _ hkey
  have hserial := Key.serial?_of_mem_ofRecord hmem
  rw [Key.serial?_event] at hserial
  obtain rfl := Option.some.inj hserial
  exact ⟨e, hp⟩

theorem id_eq_of_record (h : k.OwnedBy J) (hp : (s, e) ∈ J) (hv : k.record? s = some v)
    {i : EventId} (hid : StoredValue.idBytes? v = some i.bytes) : e.id = i := by
  have hown := (h.record _ hp v hv).1
  rw [hid] at hown
  exact FixedBytes.ext_bytes (Option.some.inj hown).symm

/-- Records keep their index keys and the identifiers that they begin with, and no keys appear but
counters. -/
theorem of_kept (h : k.OwnedBy J)
    (hkeys : ∀ key, (k'.get? key).isSome → (k.get? key).isSome ∨
      ∃ p ∈ J, key = Key.counter p.2.id p.1)
    (hrecords : ∀ p ∈ J, ∀ v', k'.record? p.1 = some v' →
      (∃ v, k.record? p.1 = some v ∧ StoredValue.idBytes? v' = StoredValue.idBytes? v) ∧
        ∀ key ∈ Key.index p.2 p.1, (k.get? key).isSome → (k'.get? key).isSome) :
    k'.OwnedBy J where
  owner key hkey := by
    rcases hkeys key hkey with hold | ⟨p, hp, rfl⟩
    · exact h.owner key hold
    · exact ⟨p, hp, Key.mem_ofRecord.mpr (.inr (.inr rfl))⟩
  record p hp v' hv' := by
    obtain ⟨⟨v, hv, hid⟩, hindex⟩ := hrecords p hp v' hv'
    obtain ⟨hown, hall⟩ := h.record p hp v hv
    exact ⟨hid.trans hown, fun key hkey => hindex key hkey (hall key hkey)⟩

/-- Keys go, and the record of their serial with them. -/
theorem of_erase (h : k.OwnedBy J)
    (hget : ∀ key, k'.get? key = none ∨ k'.get? key = k.get? key)
    (hgone : ∀ key s, Key.serial? key = some s → k'.get? key ≠ k.get? key →
      k'.record? s = none) : k'.OwnedBy J := by
  have hsame : ∀ {key v}, k'.get? key = some v → k.get? key = some v := by
    intro key v hv
    rcases hget key with hnone | heq
    · rw [hnone] at hv
      cases hv
    · rwa [heq] at hv
  refine h.of_kept (fun key hkey => ?_) fun p hp v' hv' =>
    ⟨⟨v', hsame hv', rfl⟩, fun key hkey hold => ?_⟩
  · obtain ⟨v, hv⟩ := Option.isSome_iff_exists.mp hkey
    exact .inl (Option.isSome_iff_exists.mpr ⟨v, hsame hv⟩)
  · by_cases heq : k'.get? key = k.get? key
    · rwa [heq]
    · have hnone := hgone key p.1 (Key.serial?_of_mem_index hkey) heq
      rw [hnone] at hv'
      cases hv'

/-- Some keys of one serial go, and its record with them. -/
theorem eraseAll (h : k.OwnedBy J) {ks : List Bytes} (hevent : Key.event s ∈ ks)
    (hks : ∀ key ∈ ks, Key.serial? key = some s) : OwnedBy (k.eraseAll ks) J := by
  refine h.of_erase (fun key => ?_) fun key s' hs' hchanged => ?_
  · rw [SortedMap.get?_eraseAll]
    split
    · exact .inl rfl
    · exact .inr rfl
  · have hkey : key ∈ ks := by
      by_contra hnot
      rw [SortedMap.get?_eraseAll, if_neg hnot] at hchanged
      exact hchanged rfl
    obtain rfl := Option.some.inj ((hks key hkey).symm.trans hs')
    rw [record?, SortedMap.get?_eraseAll, if_pos hevent]

/-! ### Operations -/

theorem removeRecord (h : k.OwnedBy J) (e : Event) (s : Serial) : (k.removeRecord e s).OwnedBy J :=
  h.eraseAll (Key.mem_ofRecord.mpr (.inl rfl)) fun _ => Key.serial?_of_mem_ofRecord

/-- A record is written anew for an event of its identifier, and beside it no more than the counter
of that identifier changes. -/
theorem of_rewritten (h : k.OwnedBy J) (hv : k.record? s = some v)
    (hid : StoredValue.idBytes? v = some e.id.bytes) {new : Bytes}
    (hnew : StoredValue.idBytes? new = some e.id.bytes)
    (hevents : ∀ key, Key.layout? key = some .event →
      k'.get? key = if key = Key.event s then some new else k.get? key)
    (hget : ∀ key, key ≠ Key.event s → key ≠ Key.counter e.id s → k'.get? key = k.get? key) :
    k'.OwnedBy J := by
  obtain ⟨e₀, hp₀⟩ := h.exists_owner hv
  have hsame := h.id_eq_of_record hp₀ hv hid
  refine h.of_kept (fun key hkey => ?_) fun p hp v' hv' => ⟨?_, fun key hkey hold => ?_⟩
  · by_cases hevent : key = Key.event s
    · exact .inl (Option.isSome_iff_exists.mpr ⟨v, hevent ▸ hv⟩)
    by_cases hcounter : key = Key.counter e.id s
    · exact .inr ⟨_, hp₀, by rw [hcounter, hsame]⟩
    · rw [hget key hevent hcounter] at hkey
      exact .inl hkey
  · rw [record?, hevents _ (Key.layout?_event p.1)] at hv'
    split at hv'
    · rename_i hkey
      obtain rfl := Option.some.inj hv'
      rw [Key.event_inj hkey]
      exact ⟨v, hv, hnew.trans hid.symm⟩
    · exact ⟨v', hv', rfl⟩
  · obtain ⟨hevent, hcounter⟩ := Key.ne_of_mem_index hkey e.id s
    rwa [hget key hevent hcounter]

theorem putRecord (h : k.OwnedBy J) (hv : k.record? s = some v)
    (hid : StoredValue.idBytes? v = some e.id.bytes) (now : UInt64) :
    (k.putRecord now e s).OwnedBy J := by
  refine h.of_rewritten hv hid (StoredValue.idBytes?_encode e)
    (fun key hl => get?_putRecord hl now) fun key hevent hcounter => ?_
  rw [Keyspace.putRecord, SortedMap.get?_insert, if_neg hcounter, SortedMap.get?_insert,
    if_neg hevent]

theorem demoteRecord (h : k.OwnedBy J) (hv : k.record? s = some v)
    (hid : StoredValue.idBytes? v = some e.id.bytes) : (k.demoteRecord e.id s).OwnedBy J := by
  refine h.of_rewritten hv hid (StoredValue.idBytes?_id e.id)
    (fun key hl => get?_demoteRecord hl) fun key hevent hcounter => ?_
  rw [Keyspace.demoteRecord, SortedMap.get?_erase, if_neg hcounter, SortedMap.get?_insert,
    if_neg hevent]

theorem insertRecord (h : k.OwnedBy J) (hnew : ∀ p ∈ J, p.1 ≠ s) (e : Event) (now : UInt64) :
    (k.insertRecord now e s).OwnedBy (J ++ [(s, e)]) := by
  have hget : ∀ key, ((k.insertRecord now e s).get? key).isSome ↔
      key ∈ Key.ofRecord e s ∨ (k.get? key).isSome := by
    intro key
    rw [Keyspace.insertRecord, Keyspace.putRecord, SortedMap.get?_insert, SortedMap.get?_insert,
      SortedMap.get?_insertAll, Key.mem_ofRecord]
    split
    · simp [*]
    · split
      · simp [*]
      · split <;> simp [*]
  refine ⟨fun key hkey => ?_, fun p hp v hv => ?_⟩
  · rcases (hget key).mp hkey with hmem | hold
    · exact ⟨(s, e), List.mem_append_right _ (List.mem_singleton_self _), hmem⟩
    · obtain ⟨p, hp, hmem⟩ := h.owner key hold
      exact ⟨p, List.mem_append_left _ hp, hmem⟩
  · rw [record?, get?_insertRecord (Key.layout?_event p.1)] at hv
    rcases List.mem_append.mp hp with hp | hp
    · rw [if_neg fun hkey => hnew p hp (Key.event_inj hkey)] at hv
      obtain ⟨hid, hindex⟩ := h.record p hp v hv
      exact ⟨hid, fun key hkey => (hget key).mpr (.inr (hindex key hkey))⟩
    · obtain rfl := List.mem_singleton.mp hp
      rw [if_pos rfl] at hv
      obtain rfl := Option.some.inj hv
      refine ⟨StoredValue.idBytes?_encode e, fun key hkey => ?_⟩
      exact (hget key).mpr (.inl (Key.mem_ofRecord.mpr (.inr (.inl hkey))))

theorem touchOrDrop (h : k.OwnedBy J) (batch : List Access) (now : UInt64) :
    (k.touchOrDrop batch now).OwnedBy J := by
  have hsame := touchOrDrop_sameButCounters k batch now
  refine h.of_kept (fun key hkey => .inl ?_) fun p _ v' hv' => ⟨⟨v', ?_, rfl⟩, fun key _ hold => ?_⟩
  · rwa [hsame.isSome_eq] at hkey
  · rwa [record?, get?_touchOrDrop (Key.layout?_event p.1)] at hv'
  · rwa [hsame.isSome_eq]

end OwnedBy
end Keyspace

namespace Database
variable {db : Database} {J : List (Serial × Event)} {e : Event} {s : Serial}

theorem ownedBy_removePrior (h : db.events.OwnedBy J) (e : Event) (p : Prior) :
    (db.removePrior e p).events.OwnedBy J := by
  rw [removePrior]
  split
  · dsimp only
    exact h.removeRecord _ _
  · refine h.eraseAll (s := p.serial) List.mem_cons_self fun key hkey => ?_
    rcases List.mem_cons.mp hkey with rfl | hkey
    · exact Key.serial?_event p.serial
    · exact Key.serial?_of_mem_untagged hkey

/-- Saving stores the event under the serial that it is given, or stores nothing. -/
theorem ownedBy_saveAs (h : db.events.OwnedBy J) (hnew : ∀ p ∈ J, p.1 ≠ s) (now : UInt64)
    (e : Event) : (db.saveAs now s e).2.events.OwnedBy
      (J ++ (if (db.saveAs now s e).1 = .stored then some (s, e) else none).toList) := by
  rw [saveAs]
  split
  · simpa using h
  · rename_i found hfound
    obtain ⟨v, hv, hid, -⟩ := Keyspace.exists_record_of_locate hfound
    simpa using h.putRecord hv hid now
  · dsimp only
    split
    · have hcleared : ∀ (ps : List Prior) {db : Database}, db.events.OwnedBy J →
          (ps.foldl (·.removePrior e ·) db).events.OwnedBy J := by
        intro ps
        induction ps with
        | nil => exact fun h => h
        | cons p ps ih => exact fun h => ih (ownedBy_removePrior h e p)
      exact (hcleared _ h).insertRecord hnew e now
    · simpa using h

theorem ownedBy_sweepRecords (h : db.events.OwnedBy J) (victims : List Serial) (demote : Bool) :
    (EventTier.sweep db victims demote).2.events.OwnedBy J := by
  have hone : ∀ (r : EventTier.Swept × Database) (s : Serial), r.2.events.OwnedBy J →
      (EventTier.sweepOne demote r s).2.events.OwnedBy J := by
    rintro ⟨c, db⟩ s h
    rw [EventTier.sweepOne]
    split
    · rename_i e hread
      obtain ⟨v, hv, hdecode⟩ := Option.map_eq_some_iff.mp hread
      split
      · exact h.demoteRecord hv (StoredValue.idBytes?_of_decode_full hdecode).1
      · dsimp only
        exact h.removeRecord _ _
    · exact h
  have hfold : ∀ r : EventTier.Swept × Database, r.2.events.OwnedBy J →
      (victims.foldl (EventTier.sweepOne demote) r).2.events.OwnedBy J := by
    induction victims with
    | nil => exact fun r hr => hr
    | cons s victims ih => exact fun r hr => ih _ (hone r s hr)
  exact hfold (⟨0, 0⟩, db) h

/-- A record goes with the index keys of its serial. -/
theorem ownedBy_sweepIndices (h : db.events.OwnedBy J) (victims : List Serial) :
    (IndexTier.sweep db victims).2.events.OwnedBy J := by
  rw [IndexTier.sweep]
  dsimp only
  split
  · exact h
  · refine h.of_erase (fun key => ?_) fun key s hserial hchanged => ?_
    · rw [get?_purgeSerials]
      split
      · exact .inl rfl
      · exact .inr rfl
    · rw [get?_purgeSerials] at hchanged
      split at hchanged
      · rename_i hcleared
        obtain ⟨s', hs', hdoomed, -⟩ := hcleared
        obtain rfl := Option.some.inj (hserial.symm.trans hs')
        rw [Keyspace.record?, get?_purgeSerials,
          if_pos ⟨s, Key.serial?_event s, hdoomed, .inl rfl⟩]
      · exact absurd rfl hchanged

end Database

/-! ### Runs -/

/-- The keys of a tier are those of the events that were stored, and none of their serials will be
given out again. -/
structure Tier.Owned (t : Tier) (J : List (Serial × Event)) : Prop where
  events : t.db.events.OwnedBy J
  issued : ∀ p ∈ J, p.1.toNat < t.lease.next.toNat
  once : (J.map (·.1)).Nodup
  lease : t.lease.Covers t.db

namespace Tier
variable {t : Tier} {J : List (Serial × Event)}

theorem owned_fresh (batch : UInt64) : (fresh batch).Owned [] where
  events := .empty
  issued := nofun
  once := List.nodup_nil
  lease := Lease.covers_resume _ batch

namespace Owned

/-- What stores nothing and gives out no serial. -/
theorem of_events {db : Database} (h : t.Owned J) (hevents : db.events.OwnedBy J)
    (hsettings : db.settings = t.db.settings) : Owned { t with db := db } J :=
  ⟨hevents, h.issued, h.once, h.lease.of_settings hsettings⟩

theorem start (h : t.Owned J) (batch : UInt64) : (start t.db batch).Owned J := by
  obtain ⟨hevents, -, hnext, hcovers⟩ := start_spec h.lease batch
  exact ⟨hevents ▸ h.events, fun p hp => Nat.lt_of_lt_of_le (h.issued p hp) hnext, h.once,
    hcovers⟩

theorem release (h : t.Owned J) : t.release.Owned J :=
  ⟨h.events, h.issued, h.once, Lease.covers_release h.lease⟩

theorem save (h : t.Owned J) (now : UInt64) (e : Event) :
    (t.step (.save now e)).Owned (J ++ (t.stored? (.save now e)).toList) := by
  rcases save_cases h.lease now e with
    ⟨hstep, hstored⟩ | ⟨lease, db, hevents, -, hnext, hcovers, hstep, hstored⟩
  · rw [hstep, hstored, Option.toList_none, List.append_nil]
    exact h
  · have hnew : ∀ p ∈ J, p.1 ≠ t.lease.next := by
      rintro p hp heq
      have := h.issued p hp
      rw [heq] at this
      exact Nat.lt_irrefl _ this
    have hissued : ∀ p ∈ J, p.1.toNat < lease.next.toNat := fun p hp => by
      have := h.issued p hp
      omega
    rw [hstep, hstored]
    refine ⟨Database.ownedBy_saveAs (hevents.symm ▸ h.events) hnew now e, ?_, ?_, hcovers⟩
    · intro p hp
      rcases List.mem_append.mp hp with hp | hp
      · exact hissued p hp
      · obtain ⟨-, heq⟩ := Option.ite_none_right_eq_some.mp (Option.mem_toList.mp hp)
        obtain rfl := Option.some.inj heq
        show t.lease.next.toNat < lease.next.toNat
        omega
    · rw [List.map_append, List.nodup_append]
      refine ⟨h.once, ?_, fun s hs s' hs' heq => ?_⟩
      · split <;> simp
      · obtain ⟨p, hp, rfl⟩ := List.mem_map.mp hs
        obtain ⟨p', hp', rfl⟩ := List.mem_map.mp hs'
        obtain ⟨-, hnext'⟩ := Option.ite_none_right_eq_some.mp (Option.mem_toList.mp hp')
        obtain rfl := Option.some.inj hnext'
        exact hnew p hp heq

/-- Nothing was stored. -/
theorem append_toList (h : t.Owned J) {stored : Option (Serial × Event)} (hnone : stored = none) :
    t.Owned (J ++ stored.toList) := by
  rw [hnone, Option.toList_none, List.append_nil]
  exact h

/-- **One transaction.** -/
theorem step (h : t.Owned J) (x : Transaction) :
    (t.step x).Owned (J ++ (t.stored? x).toList) := by
  cases x with
  | save now e => exact h.save now e
  | delete e =>
    refine append_toList ?_ rfl
    rw [Tier.step, Database.delete]
    split
    · exact h
    · rename_i found _
      have hevents := h.events.removeRecord e found.serial
      exact h.of_events hevents rfl
  | touch batch now =>
    have htouch : (t.step (.touch batch now)).Owned J :=
      h.of_events (h.events.touchOrDrop batch now) rfl
    exact htouch.append_toList rfl
  | sweepRecords victims demote =>
    exact (h.of_events (Database.ownedBy_sweepRecords h.events victims demote)
      (EventTier.tables_sweep t.db victims demote).2).append_toList rfl
  | sweepIndices victims =>
    exact (h.of_events (Database.ownedBy_sweepIndices h.events victims)
      (IndexTier.settings_sweep t.db victims)).append_toList rfl
  | release => exact h.release.append_toList rfl
  | reopen batch => exact (h.release.start batch).append_toList rfl
  | crash batch => exact (h.start batch).append_toList rfl

/-- **A run of transactions.** -/
theorem run (h : t.Owned J) (xs : List Transaction) : (t.run xs).Owned (J ++ t.journal xs) := by
  induction xs generalizing t J with
  | nil => rwa [journal, List.append_nil]
  | cons x xs ih =>
    have hrest := ih (h.step x)
    rwa [List.append_assoc] at hrest

end Owned
end Tier

/-- **The keys of every archive that can be reached** are those of events that it was given. -/
theorem Archive.Reached.owned {es : List Event} {a : Archive} (ha : Reached es a) :
    ∃ J, a.tier.Owned J ∧ ∀ p ∈ J, p.2 ∈ es := by
  obtain ⟨batch, xs, hrun, hes⟩ := ha.exists_run
  refine ⟨(Tier.fresh batch).journal xs, ?_, fun p hp => hes _ (Tier.mem_of_mem_journal hp)⟩
  rw [hrun]
  exact (Tier.owned_fresh batch).run xs

/-! ### Deleting -/

namespace Keyspace
variable {k : Keyspace} {J : List (Serial × Event)} {e d : Event} {s : Serial} {v key : Bytes}

/-- Removing a record leaves the keys that storing the event would not write. -/
theorem isSome_get?_removeRecord : ((k.removeRecord d s).get? key).isSome ↔
    key ∉ Key.ofRecord d s ∧ (k.get? key).isSome := by
  rw [removeRecord, SortedMap.get?_eraseAll, ← Key.ofRecord]
  split <;> simp [*]

/-- The keys of other serials are none of those that are removed. -/
theorem get?_removeRecord_of_ne (k : Keyspace) (d : Event) (hkey : Key.serial? key ≠ some s) :
    (k.removeRecord d s).get? key = k.get? key := by
  rw [removeRecord, SortedMap.get?_eraseAll, ← Key.ofRecord]
  exact if_neg fun hmem => hkey (Key.serial?_of_mem_ofRecord hmem)

namespace OwnedBy

/-- Of the serial of a record, the index keys of its event are left that are none of the event
that is removed. -/
theorem removeRecord_left (h : k.OwnedBy J) (hJ : (J.map (·.1)).Nodup) (he : (s, e) ∈ J)
    (hv : k.record? s = some v) (hid : e.id = d.id) (hkey : Key.serial? key = some s) :
    ((k.removeRecord d s).get? key).isSome ↔ key ∈ Key.index e s ∧ key ∉ Key.index d s := by
  rw [isSome_get?_removeRecord, Key.mem_ofRecord, not_or, not_or]
  constructor
  · rintro ⟨⟨hevent, hindex, hcounter⟩, hthere⟩
    refine ⟨?_, hindex⟩
    obtain ⟨⟨s', e'⟩, hp, hmem⟩ := h.owner key hthere
    obtain rfl := Option.some.inj ((Key.serial?_of_mem_ofRecord hmem).symm.trans hkey)
    obtain ⟨-, rfl⟩ := Prod.mk.inj (List.inj_on_of_nodup_map hJ hp he rfl)
    rcases Key.mem_ofRecord.mp hmem with rfl | hmem | rfl
    · exact absurd rfl hevent
    · exact hmem
    · exact absurd (by rw [hid]) hcounter
  · rintro ⟨hmem, hindex⟩
    obtain ⟨hevent, hcounter⟩ := Key.ne_of_mem_index hmem d.id s
    exact ⟨⟨hevent, hindex, hcounter⟩, (h.record _ he v hv).2 key hmem⟩

end OwnedBy
end Keyspace

namespace Archive

/-- **What deleting leaves**, on any open archive that can be reached, whatever events it was
given.  If a record begins with the identifier of the given event, whole or demoted, deleting
finds one, and it was stored for some event of that identifier.  Nothing of other serials changes,
and nothing is queued.  Of the serial itself the index keys of the stored event are left that are
none of the given one: so nothing is left if all of them are, and that is so if the given event
agrees with the stored one in author, kind and time and has all of its tags. -/
theorem delete_leaves {es : List Event} {a : Archive} (ha : Reached es a)
    (hopen : a.isClosed = false) (d : Event) {s : Serial} {v : Bytes}
    (hv : a.db.events.record? s = some v) (hid : StoredValue.idBytes? v = some d.id.bytes) :
    ∃ found e, a.db.events.locate d.id = some found ∧ e ∈ es ∧ e.id = d.id ∧
      (a.delete d).1 = .ok .deleted ∧
      (∀ key, Key.serial? key ≠ some found.serial →
        (a.delete d).2.db.events.get? key = a.db.events.get? key) ∧
      (a.delete d).2.db.settings = a.db.settings ∧ (a.delete d).2.db.purge = a.db.purge ∧
      (∀ key, Key.serial? key = some found.serial →
        (((a.delete d).2.db.events.get? key).isSome ↔
          key ∈ Key.index e found.serial ∧ key ∉ Key.index d found.serial)) ∧
      ((∀ key, Key.serial? key = some found.serial →
          (a.delete d).2.db.events.get? key = none) ↔
        ∀ key ∈ Key.index e found.serial, key ∈ Key.index d found.serial) ∧
      (d.pubkey = e.pubkey → d.kind = e.kind → d.createdAt = e.createdAt →
        (∀ t ∈ e.tags, t ∈ d.tags) → ∀ key, Key.serial? key = some found.serial →
          (a.delete d).2.db.events.get? key = none) := by
  obtain ⟨J, howned, hJ⟩ := ha.owned
  have hevents : a.db.events.OwnedBy J := howned.events
  -- the record has the key of its identifier, so one is found
  obtain ⟨e₀, he₀⟩ := hevents.exists_owner hv
  have hkey : (a.db.events.get? (Key.id d.id s)).isSome := by
    rw [← hevents.id_eq_of_record he₀ hv hid]
    exact (hevents.record _ he₀ v hv).2 _ (Key.mem_index_iff.mpr (.inl rfl))
  obtain ⟨found, hfound⟩ :=
    Option.isSome_iff_exists.mp (Keyspace.isSome_locate hkey hv hid)
  obtain ⟨w, hw, hwid, -⟩ := Keyspace.exists_record_of_locate hfound
  obtain ⟨e, he⟩ := hevents.exists_owner hw
  have hsame : e.id = d.id := hevents.id_eq_of_record he hw hwid
  have hdelete : a.db.delete d = (.deleted,
      { a.db with events := a.db.events.removeRecord d found.serial }) := by
    rw [Database.delete, hfound]
  have hanswer : (a.delete d).1 = .ok .deleted := by
    rw [delete_eq hopen, hdelete]
  have hdb : (a.delete d).2.db =
      { a.db with events := a.db.events.removeRecord d found.serial } := by
    rw [delete_eq hopen]
    exact congrArg Prod.snd hdelete
  have hleft : ∀ key, Key.serial? key = some found.serial →
      (((a.db.events.removeRecord d found.serial).get? key).isSome ↔
        key ∈ Key.index e found.serial ∧ key ∉ Key.index d found.serial) :=
    fun key hserial => hevents.removeRecord_left howned.once he hw hsame hserial
  have hnothing : (∀ key, Key.serial? key = some found.serial →
      (a.db.events.removeRecord d found.serial).get? key = none) ↔
        ∀ key ∈ Key.index e found.serial, key ∈ Key.index d found.serial := by
    constructor
    · intro hnone key hmem
      have hserial := Key.serial?_of_mem_index hmem
      by_contra hnot
      have hsome := (hleft key hserial).mpr ⟨hmem, hnot⟩
      rw [hnone key hserial] at hsome
      cases hsome
    · intro hsub key hserial
      rw [← Option.not_isSome_iff_eq_none, hleft key hserial]
      exact fun hboth => hboth.2 (hsub key hboth.1)
  rw [hdb]
  dsimp only
  exact ⟨found, e, hfound, hJ _ he, hsame, hanswer,
    fun key hne => Keyspace.get?_removeRecord_of_ne _ d hne, rfl, rfl, hleft, hnothing,
    fun hauthor hkind htime htags => hnothing.mpr fun key hmem =>
      Key.index_subset_of_agrees hsame hauthor hkind htime htags hmem⟩

/-- A note is deleted by an event of its identifier with one more tag and another text. -/
theorem delete_leaves_nothing :
    let e : Event := .uniform 1 7 100 1 [⟨["t", "x"]⟩]
    let d : Event := { e with tags := [⟨["p", "y"]⟩, ⟨["t", "x"]⟩], content := "text" }
    let a := fresh.saveAll 5 [e]
    ∃ found, Reached [e] a ∧ a.db.events.locate d.id = some found ∧
      (a.delete d).1 = .ok .deleted ∧
      ∀ key, Key.serial? key = some found.serial →
        (a.delete d).2.db.events.get? key = none := by
  intro e d a
  have ha : Reached [e] a := Reached.fresh.saveAll 5 [e]
  have hv : a.db.events.record? 0 = some (StoredValue.encode e) := by decide +kernel
  obtain ⟨found, e', hfound, he', -, hdeleted, -, -, -, -, -, hnothing⟩ :=
    delete_leaves ha (by decide +kernel) d hv (by decide +kernel)
  obtain rfl := List.mem_singleton.mp he'
  exact ⟨found, ha, hfound, hdeleted, hnothing rfl rfl rfl (by decide +kernel)⟩

/-- A note on a subject is deleted by an event of its identifier without tags.  Its tag key is
left, and its serial is not queued. -/
theorem delete_leaves_tag_key :
    let e : Event := .uniform 1 7 100 1 [⟨["t", "x"]⟩]
    let d : Event := { e with tags := [] }
    let a := fresh.saveAll 5 [e]
    let key := Key.timed (TagValue.classify "x").stem 100 0
    Reached [e] a ∧ a.db.events.locate d.id = some ⟨0, false⟩ ∧
      (a.delete d).1.toOption = some .deleted ∧
      Key.serial? key = some 0 ∧ ((a.delete d).2.db.events.get? key).isSome ∧
      (a.delete d).2.db.purge.contains 0 = false := by
  intro e d a key
  exact ⟨Reached.fresh.saveAll 5 [e], by decide +kernel, by decide +kernel, by decide +kernel,
    by decide +kernel, by decide +kernel⟩

end Archive
end EventArchive
