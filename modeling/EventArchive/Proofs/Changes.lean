import EventArchive.Proofs.Ledger

/-! # What the operations change

Each operation on records rewrites the holding of one serial: a demoted event
becomes whole, a new one appears, a whole one is demoted, any of them
disappears.  The two sweeps and the noting of accesses change the ledger at the
serials they name.
-/
namespace EventArchive

/-- A key of another serial is none of the keys of this one. -/
theorem Key.none_of_serial?_ne {key : Bytes} {s : Serial} (hs : Key.serial? key ≠ some s) :
    key ≠ Key.event s ∧ (∀ i, key ≠ Key.counter i s) ∧ ∀ e, key ∉ Key.index e s := by
  refine ⟨?_, fun i => ?_, fun e hm => hs (Key.serial?_of_mem_index hm)⟩
  · rintro rfl
    exact hs (Key.serial?_event s)
  · rintro rfl
    exact hs (Key.serial?_counter i s)

namespace Database

/-- What is left after some serials were cleared. -/
theorem get?_purgeSerials (db : Database) (D : SortedMap Serial Unit)
    (key : Bytes) : (db.purgeSerials D).2.events.get? key =
      if ∃ s, Key.serial? key = some s ∧ D.contains s = true ∧
        (key = Key.event s ∨ ∃ l, Key.layout? key = some l ∧ l.isSecondary = true)
      then none else db.events.get? key := by
  have hrecord : key ∈ (D.keys.filter fun s => (db.events.record? s).isSome).map Key.event ↔
      ∃ s, D.contains s = true ∧ (db.events.record? s).isSome ∧ key = Key.event s := by
    simp only [List.mem_map, List.mem_filter, SortedMap.mem_keys, SortedMap.contains, and_assoc,
      eq_comm (a := key)]
  have hindex : key ∈ (db.events.secondary.filter fun e =>
        (Key.serial? e.1).any D.contains).map (·.1) ↔
      ((db.events.get? key).isSome ∧ ∃ l, Key.layout? key = some l ∧ l.isSecondary = true) ∧
        ∃ s, Key.serial? key = some s ∧ D.contains s = true := by
    simp [Keyspace.mem_secondary, Option.isSome_iff_exists, Option.any_eq_true]
  rw [Database.purgeSerials]
  simp only [SortedMap.get?_eraseAll, hrecord, hindex]
  cases hv : db.events.get? key with
  | none => simp only [ite_self]
  | some v =>
    rw [← ite_or]
    refine if_congr ⟨?_, ?_⟩ rfl rfl
    · rintro (⟨⟨-, hsec⟩, s, hs, hd⟩ | ⟨s, hd, -, rfl⟩)
      · exact ⟨s, hs, hd, .inr hsec⟩
      · exact ⟨s, Key.serial?_event s, hd, .inl rfl⟩
    · rintro ⟨s, hs, hd, rfl | hsec⟩
      · refine .inr ⟨s, hd, ?_, rfl⟩
        rw [Keyspace.record?, hv]
        rfl
      · exact .inl ⟨⟨rfl, hsec⟩, s, hs, hd⟩

end Database

namespace Keyspace.Renders
variable {k : Keyspace} {L : Ledger} {s : Serial} {e : Event}

/-! ### Records -/

/-- Writing the record of a demoted event makes it whole. -/
theorem putRecord (hr : k.Renders L) (hs : L s = some (.demoted e)) (now : UInt64) :
    (k.putRecord now e s).Renders (Function.update L s (some (.live e now))) := by
  refine hr.update s _ (fun key hkey => ?_) fun key hkey => ?_
  · obtain ⟨hevent, hcounter, -⟩ := Key.none_of_serial?_ne hkey
    simp [Keyspace.putRecord, hevent, hcounter]
  · have hold := hr.get?_own hkey
    rw [hs, Option.bind_some] at hold
    rw [Option.bind_some]
    simp only [Keyspace.putRecord, SortedMap.get?_insert, hold, Holding.value?, Holding.record?,
      Holding.counter?, Holding.event, Holding.keys]
    grind [Key.event_ne_counter]

/-- Writing a new record under an unused serial. -/
theorem insertRecord (hr : k.Renders L) (hs : L s = none) (now : UInt64) (e : Event) :
    (k.insertRecord now e s).Renders (Function.update L s (some (.live e now))) := by
  refine hr.update s _ (fun key hkey => ?_) fun key hkey => ?_
  · obtain ⟨hevent, hcounter, hindex⟩ := Key.none_of_serial?_ne hkey
    simp [Keyspace.insertRecord, Keyspace.putRecord, hevent, hcounter, hindex]
  · -- the serial had no entry, so what was written is all there is
    have hold := hr.get?_own hkey
    rw [hs, Option.bind_none] at hold
    rw [Option.bind_some]
    simp only [Keyspace.insertRecord, Keyspace.putRecord, SortedMap.get?_insert,
      SortedMap.get?_insertAll, hold, Holding.value?, Holding.record?, Holding.counter?,
      Holding.event, Holding.keys]
    grind [Key.event_ne_counter]

/-- Removing the record of an event leaves nothing of it. -/
theorem removeRecord {h : Holding} (hr : k.Renders L) (hs : L s = some h) :
    (k.removeRecord h.event s).Renders (Function.update L s none) := by
  refine hr.update s _ (fun key hkey => ?_) fun key hkey => ?_
  · obtain ⟨hevent, hcounter, hindex⟩ := Key.none_of_serial?_ne hkey
    simp [Keyspace.removeRecord, hevent, hcounter, hindex]
  · have hold := hr.get?_own hkey
    rw [hs, Option.bind_some] at hold
    -- the keys that are erased include those of any holding of the event
    have hkeys := @Holding.mem_index_of_mem_keys h s key
    simp only [Keyspace.removeRecord, SortedMap.get?_eraseAll, hold, Holding.value?,
      Option.bind_none, List.mem_cons, List.mem_append, List.not_mem_nil, or_false]
    grind

/-- Demoting a whole record. -/
theorem demoteRecord {t : UInt64} (hr : k.Renders L) (hs : L s = some (.live e t)) :
    (k.demoteRecord e.id s).Renders (Function.update L s (some (.demoted e))) := by
  refine hr.update s _ (fun key hkey => ?_) fun key hkey => ?_
  · obtain ⟨hevent, hcounter, -⟩ := Key.none_of_serial?_ne hkey
    simp [Keyspace.demoteRecord, hevent, hcounter]
  · have hold := hr.get?_own hkey
    rw [hs, Option.bind_some] at hold
    rw [Option.bind_some]
    simp only [Keyspace.demoteRecord, SortedMap.get?_insert, SortedMap.get?_erase, hold,
      Holding.value?, Holding.record?, Holding.counter?, Holding.event, Holding.keys]
    grind [Key.event_ne_counter]

/-- Removing the keys of a demoted event that need no tags leaves those of its tags, although
the author and the time come from the slot and from an index key. -/
theorem eraseUntagged {p : PublicKey} (hr : k.Renders L) (hs : L s = some (.demoted e))
    (hp : e.pubkey.head8 = p.head8) :
    Renders (k.eraseAll (Key.event s ::
        Key.untagged e.id p e.kind (timeOfClamped (clampTime e.createdAt)) s))
      (Function.update L s (some (.queued e))) := by
  have hsame : Key.untagged e.id p e.kind (timeOfClamped (clampTime e.createdAt)) s =
      Key.untagged e.id e.pubkey e.kind e.createdAt s :=
    Key.untagged_congr hp.symm (clampTime_timeOfClamped_clampTime e.createdAt)
  -- keys hold no more of the author and the time than is known, so these are the event's own
  rw [hsame]
  refine hr.update s _ (fun key hkey => ?_) fun key hkey => ?_
  · obtain ⟨hevent, -, hindex⟩ := Key.none_of_serial?_ne hkey
    have huntagged := mt (Key.mem_index.mpr ∘ Or.inl) (hindex e)
    simp [hevent, huntagged]
  · have hold := hr.get?_own hkey
    rw [hs, Option.bind_some] at hold
    have htagged : key ∈ Key.tagged e s →
        key ∉ Key.untagged e.id e.pubkey e.kind e.createdAt s :=
      fun h => Key.not_mem_untagged_of_mem_tagged h s
    have hcounter : Key.counter e.id s ∉ Key.tagged e s := fun h =>
      Key.counter_not_mem_index e.id s s e (Key.mem_index.mpr (.inr h))
    simp only [SortedMap.get?_eraseAll, hold, Holding.value?, Holding.record?, Option.bind_some,
      Holding.counter?, Holding.event, Holding.keys, List.mem_cons, Key.mem_index]
    grind

/-! ### Sweeps of the indices -/

/-- Removing every record and index key of some serials, none of them of a whole event, leaves
nothing of these serials. -/
theorem purgeSerials {db : Database} (hr : db.events.Renders L) {D : SortedMap Serial Unit}
    (hD : ∀ s, D.contains s = true → ∀ e t, L s ≠ some (.live e t)) :
    (db.purgeSerials D).2.events.Renders fun s => if D.contains s then none else L s := by
  intro key
  rw [Database.get?_purgeSerials, hr key]
  cases hs : Key.serial? key with
  | none => simp [Ledger.value?, hs]
  | some s =>
    rw [Ledger.value?_of_serial? hs, Ledger.value?_of_serial? hs]
    by_cases hd : D.contains s = true
    · rw [if_pos hd, Option.bind_none, ite_eq_left_iff]
      intro hkeep
      rw [Option.eq_none_iff_forall_ne_some]
      intro v hv
      obtain ⟨h, hh, hv⟩ := Option.bind_eq_some_iff.mp hv
      refine hkeep ⟨s, rfl, hd, ?_⟩
      -- without a counter, an entry is a record or an index key, and both are removed
      rcases Holding.value?_eq_some_iff.mp hv with ⟨hevent, -⟩ | ⟨-, hcounter⟩ | ⟨hm, -⟩
      · exact .inl hevent
      · cases h with
        | live e t => exact absurd hh (hD s hd e t)
        | demoted e => cases hcounter
        | queued e => cases hcounter
      · exact .inr (Key.layout?_of_mem_index (Holding.mem_index_of_mem_keys hm))
    · rw [if_neg hd, if_neg]
      rintro ⟨s', hs', hd', -⟩
      exact hd (Option.some.inj hs' ▸ hd')

end Keyspace.Renders

/-! ### Accesses -/

/-- A holding after an access was noted: the counter of a whole event moves forward. -/
def Holding.note (at_ : UInt64) (a : Access) (s : Serial) : Holding → Holding
  | .live e t =>
    if a.serial = s ∧ a.id.head8 = e.id.head8 ∧ t < at_ then .live e at_ else .live e t
  | .demoted e => .demoted e
  | .queued e => .queued e

/-- A ledger after an access was noted. -/
def Ledger.note (at_ : UInt64) (L : Ledger) (a : Access) : Ledger :=
  fun s => (L s).map (Holding.note at_ a s)

@[simp] theorem Holding.note_event (at_ : UInt64) (a : Access) (s : Serial) (h : Holding) :
    (h.note at_ a s).event = h.event := by
  cases h with
  | live e t =>
    rw [note]
    split_ifs <;> rfl
  | demoted e => rfl
  | queued e => rfl

@[simp] theorem Holding.note_stub? (at_ : UInt64) (a : Access) (s : Serial) (h : Holding) :
    (h.note at_ a s).stub? = h.stub? := by
  cases h with
  | live e t =>
    rw [note]
    split_ifs <;> rfl
  | demoted e => rfl
  | queued e => rfl

/-- An access that finds no counter to move changes nothing. -/
theorem Ledger.note_eq_self {L : Ledger} {at_ : UInt64} {a : Access}
    (h : ∀ e t, L a.serial = some (.live e t) → a.id.head8 = e.id.head8 → at_ ≤ t) :
    L.note at_ a = L := by
  funext s
  rw [note]
  cases hs : L s with
  | none => rfl
  | some held =>
    cases held with
    | live e t =>
      rw [Option.map_some, Holding.note, if_neg]
      rintro ⟨rfl, hid, hlt⟩
      exact absurd (h e t hs hid) (UInt64.not_le.mpr hlt)
    | demoted e => rfl
    | queued e => rfl

/-- An access that moves a counter changes its record alone. -/
theorem Ledger.note_eq_update {L : Ledger} {at_ : UInt64} {a : Access} {e : Event} {t : UInt64}
    (hs : L a.serial = some (.live e t)) (hid : a.id.head8 = e.id.head8) (hlt : t < at_) :
    L.note at_ a = Function.update L a.serial (some (.live e at_)) := by
  funext s
  rw [note]
  by_cases heq : s = a.serial
  · subst heq
    rw [Function.update_self, hs, Option.map_some, Holding.note, if_pos ⟨rfl, hid, hlt⟩]
  · rw [Function.update_of_ne heq]
    cases L s with
    | none => rfl
    | some held =>
      cases held with
      | live e' t' => rw [Option.map_some, Holding.note, if_neg fun h => heq h.1.symm]
      | demoted e => rfl
      | queued e => rfl

namespace Keyspace.Renders
variable {k : Keyspace} {L : Ledger}

/-- Moving the counter of a whole record. -/
theorem insertCounter {s : Serial} {e : Event} {t : UInt64} (hr : k.Renders L)
    (hs : L s = some (.live e t)) (at_ : UInt64) :
    Renders (k.insert (Key.counter e.id s)
        (Counter.ofSize at_ (StoredValue.encode e).length).encode)
      (Function.update L s (some (.live e at_))) := by
  refine hr.update s _ (fun key hkey => ?_) fun key hkey => ?_
  · simp [(Key.none_of_serial?_ne hkey).2.1]
  · have hold := hr.get?_own hkey
    rw [hs, Option.bind_some] at hold
    rw [Option.bind_some]
    simp only [SortedMap.get?_insert, hold, Holding.value?, Holding.record?, Holding.counter?,
      Holding.event, Holding.keys]
    grind [Key.event_ne_counter]

/-- Noting an access does not fail, since every counter is one that was written. -/
theorem touchOne (hr : k.Renders L) (at_ : UInt64) (n : Nat) (a : Access) :
    ∃ n' k', Keyspace.touchOne at_ (n, k) a = .ok (n', k') ∧ k'.Renders (L.note at_ a) := by
  have hget := hr.get?_own (Key.serial?_counter a.id a.serial)
  simp only [Holding.value?_counter] at hget
  rw [Keyspace.touchOne]
  cases hv : k.get? (Key.counter a.id a.serial) with
  | none =>
    refine ⟨n, k, rfl, ?_⟩
    rwa [Ledger.note_eq_self]
    intro e t hs hid
    rw [hv, hs, Option.bind_some, Holding.event, if_pos hid] at hget
    cases hget
  | some v =>
    rw [hv] at hget
    obtain ⟨held, hs, hcounter⟩ := Option.bind_eq_some_iff.mp hget.symm
    obtain ⟨hid, hcounter⟩ := Option.ite_none_right_eq_some.mp hcounter
    cases held with
    | live e t =>
      obtain rfl := Option.some.inj hcounter
      have hkey : Key.counter a.id a.serial = Key.counter e.id a.serial := Key.counter_inj.mpr hid
      simp only [Counter.decode_encode, Bind.bind, Except.bind, Counter.ofSize]
      split
      · rename_i hle
        refine ⟨n, k, rfl, ?_⟩
        rwa [Ledger.note_eq_self]
        intro e' t' hs' _
        rw [hs] at hs'
        cases hs'
        exact hle
      · rename_i hlt
        refine ⟨n + 1, _, rfl, ?_⟩
        rw [Ledger.note_eq_update hs hid (UInt64.not_le.mp hlt), hkey]
        exact hr.insertCounter hs at_
    | demoted e => cases hcounter
    | queued e => cases hcounter

/-- A batch is its accesses one after the other. -/
theorem touch (hr : k.Renders L) (batch : List Access) (at_ : UInt64) :
    ∃ n k', k.touch batch at_ = .ok (n, k') ∧
      k'.Renders (batch.foldl (Ledger.note at_) L) := by
  have hfold : ∀ (batch : List Access) (n : Nat) (k : Keyspace) (L : Ledger), k.Renders L →
      ∃ n' k', batch.foldlM (Keyspace.touchOne at_) (n, k) = .ok (n', k') ∧
        k'.Renders (batch.foldl (Ledger.note at_) L) := by
    intro batch
    induction batch with
    | nil => exact fun n k L hr => ⟨n, k, rfl, hr⟩
    | cons a batch ih =>
      intro n k L hr
      obtain ⟨n', k', ha, hr'⟩ := hr.touchOne at_ n a
      obtain ⟨n'', k'', hrest, hr''⟩ := ih n' k' _ hr'
      refine ⟨n'', k'', ?_, hr''⟩
      rw [List.foldlM_cons, ha]
      exact hrest
  obtain ⟨n, k', hok, hr'⟩ := hfold batch 0 k L hr
  exact ⟨n, k', by rw [Keyspace.touch, hok], hr'⟩

theorem touchOrDrop (hr : k.Renders L) (batch : List Access) (at_ : UInt64) :
    (k.touchOrDrop batch at_).Renders (batch.foldl (Ledger.note at_) L) := by
  obtain ⟨n, k', hok, hr'⟩ := hr.touch batch at_
  rw [Keyspace.touchOrDrop, hok]
  exact hr'

end Keyspace.Renders
end EventArchive
