import EventArchive.Proofs.Plans
import EventArchive.Proofs.QueryExact
import EventArchive.Proofs.Sweeps

/-! # What a collection counts

The census of whole records reads them in one pass and their counters in another, and
that of demoted records their identifiers in one and all index keys in another.  Each
record is joined to what belongs to it: a whole one to its own last access and size
(`EventTier.mem_census_live`), a demoted one to the time in its keys and the bytes of
those keys (`IndexTier.mem_census`), and none is counted twice.
-/
namespace EventArchive

theorem Keyspace.Renders.recordKeys {k : Keyspace} {L : Ledger} (hr : k.Renders L) :
    k.RecordKeys := by
  intro key v hmem
  obtain ⟨s, -, -, hkey, -⟩ := hr.mem_ofLayout_event.mp hmem
  exact ⟨s, hkey⟩

/-! ### Whole records -/

namespace EventTier

variable {k : Keyspace} {L : Ledger} {s : Serial} {t : UInt64} (hr : k.Renders L)
include hr

/-- The counters are those of the whole records. -/
theorem mem_lastAccesses : (s, t) ∈ lastAccesses k ↔ ∃ e, L s = some (.live e t) := by
  rw [lastAccesses, List.mem_filterMap]
  constructor
  · rintro ⟨⟨key, v⟩, hmem, hnote⟩
    obtain ⟨hv, hl⟩ := Keyspace.mem_ofLayout.mp hmem
    obtain ⟨s', hserial, hnote⟩ := Option.bind_eq_some_iff.mp hnote
    rw [hr.get?_own hserial] at hv
    obtain ⟨h, hL, hval⟩ := Option.bind_eq_some_iff.mp hv
    rcases Holding.value?_eq_some_iff.mp hval with ⟨rfl, -⟩ | ⟨rfl, hcounter⟩ | ⟨hm, -⟩
    · rw [Key.layout?_event] at hl
      cases hl
    · cases h with
      | live e t' =>
        cases hcounter
        dsimp only at hnote
        rw [Counter.decode_encode] at hnote
        cases hnote
        exact ⟨e, hL⟩
      | demoted e => cases hcounter
      | queued e => cases hcounter
    · obtain ⟨l, hl', hsec⟩ := Key.layout?_of_mem_index (Holding.mem_index_of_mem_keys hm)
      obtain rfl := Option.some.inj (hl.symm.trans hl')
      cases hsec
  · rintro ⟨e, hL⟩
    refine ⟨(Key.counter e.id s, (Counter.ofSize t (StoredValue.encode e).length).encode), ?_, ?_⟩
    · refine Keyspace.mem_ofLayout.mpr ⟨?_, Key.layout?_counter _ _⟩
      rw [hr.get?_own (Key.serial?_counter _ _), hL, Option.bind_some, Holding.value?_counter]
      exact if_pos rfl
    · dsimp only
      rw [Key.serial?_counter, Option.bind_eq_bind, Option.bind_some, Counter.decode_encode]
      rfl

/-- Every whole record finds its own last access. -/
theorem lastAccess_eq {e : Event} (hL : L s = some (.live e t)) :
    lastAccess (lastAccesses k) s = t := by
  rw [lastAccess]
  cases hfind : (lastAccesses k).reverse.find? (·.1 == s) with
  | none =>
    have hnone := List.find?_eq_none.mp hfind (s, t)
      (List.mem_reverse.mpr ((mem_lastAccesses hr).mpr ⟨e, hL⟩))
    simp at hnone
  | some note =>
    obtain ⟨s', t'⟩ := note
    obtain rfl : s' = s := by simpa using List.find?_some hfind
    obtain ⟨e', hL'⟩ :=
      (mem_lastAccesses hr).mp (List.mem_reverse.mp (List.mem_of_find?_eq_some hfind))
    rw [hL] at hL'
    cases hL'
    rfl

/-- The census counts every whole record with its last access and its size. -/
theorem mem_census_live {entry : Entry} : entry ∈ (census k).live ↔
    ∃ e, L entry.serial = some (.live e entry.lastAccess) ∧
      entry.size = (Key.event entry.serial).length + (StoredValue.encode e).length := by
  rw [census]
  dsimp only
  rw [List.mem_map]
  constructor
  · rintro ⟨⟨s, key, v⟩, hmem, rfl⟩
    obtain ⟨hmem, hwhole⟩ := List.mem_filter.mp hmem
    obtain ⟨⟨key', v'⟩, hmem, hserial⟩ := List.mem_filterMap.mp hmem
    obtain ⟨s', h, hL, rfl, hrec⟩ := hr.mem_ofLayout_event.mp hmem
    rw [Key.serial?_event] at hserial
    cases hserial
    cases h with
    | live e t =>
      cases hrec
      refine ⟨e, ?_, rfl⟩
      dsimp only
      rw [lastAccess_eq hr hL]
      exact hL
    | demoted e =>
      cases hrec
      rw [StoredValue.isStub_id] at hwhole
      cases hwhole
    | queued e => cases hrec
  · rintro ⟨e, hL, hsize⟩
    refine ⟨(entry.serial, Key.event entry.serial, StoredValue.encode e), ?_, ?_⟩
    · refine List.mem_filter.mpr ⟨List.mem_filterMap.mpr
        ⟨(Key.event entry.serial, StoredValue.encode e), ?_, ?_⟩, ?_⟩
      · exact hr.mem_ofLayout_event.mpr ⟨entry.serial, _, hL, rfl, rfl⟩
      · rw [Key.serial?_event]
        rfl
      · rw [StoredValue.isStub_encode]
        rfl
    · rw [lastAccess_eq hr hL, ← hsize]

end EventTier

/-! ### Demoted records -/

namespace IndexTier

section
variable {k : Keyspace} {L : Ledger} {s : Serial} {e : Event} (hr : k.Renders L)
include hr

theorem mem_demotedSerials : s ∈ demotedSerials k ↔ ∃ e, L s = some (.demoted e) := by
  rw [mem_demotedSerials_iff hr.recordKeys, Keyspace.isDemoted, Option.any_eq_true]
  constructor
  · rintro ⟨v, hv, hstub⟩
    obtain ⟨h, hL, hrec⟩ := hr.record?_eq_some_iff.mp hv
    cases h with
    | live e t =>
      cases hrec
      rw [StoredValue.isStub_encode] at hstub
      cases hstub
    | demoted e => exact ⟨e, hL⟩
    | queued e => cases hrec
  · rintro ⟨e, hL⟩
    exact ⟨e.id.bytes, hr.record?_eq_some_iff.mpr ⟨_, hL, rfl⟩, StoredValue.isStub_id e.id⟩

/-- The index keys of a demoted record are those of its event. -/
theorem mem_keysOf (hL : L s = some (.demoted e)) {key : Bytes} :
    key ∈ keysOf k s ↔ key ∈ Key.index e s := by
  rw [keysOf, List.mem_filter, List.mem_map, beq_iff_eq]
  constructor
  · rintro ⟨⟨⟨key, v⟩, hmem, rfl⟩, hserial⟩
    obtain ⟨hv, l, hl, hsec⟩ := Keyspace.mem_secondary.mp hmem
    obtain ⟨s', h, hL', hserial', hkey⟩ := hr.exists_mem_keys hv hl hsec
    obtain rfl := Option.some.inj (hserial.symm.trans hserial')
    obtain rfl := Option.some.inj (hL.symm.trans hL')
    exact hkey
  · intro hkey
    have hv := hr.get?_of_mem_keys (h := .demoted e) hL hkey
    exact ⟨⟨(key, []), Keyspace.mem_secondary.mpr ⟨hv, Key.layout?_of_mem_index hkey⟩, rfl⟩,
      Key.serial?_of_mem_index hkey⟩

theorem keysOf_perm (hL : L s = some (.demoted e)) :
    (keysOf k s).Perm (distinct (Key.index e s)) := by
  have hnodup : (keysOf k s).Nodup := by
    refine List.Nodup.filter _ ?_
    rw [List.Nodup, List.pairwise_map]
    refine (k.range_sorted _ _).imp fun {a b} hlt heq => ?_
    rw [heq] at hlt
    exact SortedMap.not_compare_self_lt _ hlt
  refine (List.perm_ext_iff_of_nodup hnodup (nodup_distinct _)).mpr fun key => ?_
  rw [mem_keysOf hr hL, mem_distinct]

/-- Every demoted record is counted with its own time and the bytes of its own keys. -/
theorem entry_eq (hL : L s = some (.demoted e)) : entry k s =
    ⟨s, clampTime e.createdAt, ((distinct (Key.index e s)).map List.length).sum⟩ := by
  have hbytes : (keysOf k s).flatten.length = ((distinct (Key.index e s)).map List.length).sum := by
    rw [List.length_flatten]
    exact ((keysOf_perm hr hL).map _).sum_eq
  -- of its keys one is in order of time, and every one with a time has the same
  have hkey : Key.timed Key.createdAtStem e.createdAt s ∈
      (keysOf k s).filter fun key => Key.layout? key == some .createdAt := by
    refine List.mem_filter.mpr ⟨(mem_keysOf hr hL).mpr ?_, ?_⟩
    · exact Key.mem_index.mpr (.inl (Key.mem_untagged.mpr (by simp)))
    · rw [Key.layout?_timed Key.layout?_createdAtStem, beq_iff_eq]
  have htimes : ∀ key ∈ (keysOf k s).filter fun key => Key.layout? key == some .createdAt,
      (Key.timestamp? key).getD 0 = clampTime e.createdAt := by
    intro key hmem
    obtain ⟨hmem, hl⟩ := List.mem_filter.mp hmem
    obtain ⟨stem, rfl⟩ := Key.exists_timed_of_mem_index ((mem_keysOf hr hL).mp hmem)
      (by rw [beq_iff_eq.mp hl]; nofun)
    rw [Key.timestamp?_timed, Option.getD_some]
  rw [entry, hbytes, List.map_congr_left htimes, List.getLast?_map]
  cases hlast : ((keysOf k s).filter fun key => Key.layout? key == some .createdAt).getLast? with
  | none =>
    rw [List.getLast?_eq_none_iff.mp hlast] at hkey
    cases hkey
  | some key => rfl

/-- The census counts every demoted record. -/
theorem mem_census {entry : Entry} : entry ∈ census k ↔
    ∃ e, L entry.serial = some (.demoted e) ∧ entry.createdAt = clampTime e.createdAt ∧
      entry.bytes = ((distinct (Key.index e entry.serial)).map List.length).sum := by
  rw [census, List.mem_map]
  constructor
  · rintro ⟨s, hs, rfl⟩
    obtain ⟨e, hL⟩ := (mem_demotedSerials hr).mp (mem_distinct.mp hs)
    rw [entry_eq hr hL]
    exact ⟨e, hL, rfl, rfl⟩
  · rintro ⟨e, hL, htime, hbytes⟩
    refine ⟨entry.serial, mem_distinct.mpr ((mem_demotedSerials hr).mpr ⟨e, hL⟩), ?_⟩
    rw [entry_eq hr hL, ← htime, ← hbytes]

end

/-- No demoted record is counted twice. -/
theorem census_nodup (k : Keyspace) : ((census k).map (·.serial)).Nodup := by
  rw [census, List.map_map]
  have hserial : (fun e : Entry => e.serial) ∘ entry k = id := rfl
  rw [hserial, List.map_id]
  exact nodup_distinct _

end IndexTier

end EventArchive
