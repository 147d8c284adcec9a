import EventArchive.Collection.Cycle
import EventArchive.Proofs.RecordForms

/-! # What the sweeps free

The bytes of whole records are those of the keys and values that are longer than
a demoted one, and the bytes of demoted records those of the index keys that lead
to one.  Each sweep takes from its own measure exactly what its victims have, and
leaves the other entries as they are: the sweep of records turns its victims into
demoted records or removes them, and the sweep of indices touches no whole record,
since what is queued has no record.
-/
namespace EventArchive

/-! ### What is measured -/

namespace Keyspace

/-- The entries of whole records. -/
def wholeRecords (k : Keyspace) : List (Bytes × Bytes) :=
  (k.ofLayout .event).filter fun e => ! StoredValue.isStub e.2

/-- Bytes of the keys and values of whole records. -/
def wholeBytes (k : Keyspace) : Nat := (k.wholeRecords.map fun e => e.1.length + e.2.length).sum

/-- Whether a serial has a demoted record. -/
def isDemoted (k : Keyspace) (s : Serial) : Bool := (k.record? s).any StoredValue.isStub

/-- The index entries of demoted records. -/
def demotedEntries (k : Keyspace) : List (Bytes × Bytes) :=
  k.secondary.filter fun e => (Key.serial? e.1).any k.isDemoted

/-- Bytes of the index keys of demoted records. -/
def demotedBytes (k : Keyspace) : Nat := (k.demotedEntries.map fun e => e.1.length).sum

/-- Every record stands under the key of its serial. -/
def RecordKeys (k : Keyspace) : Prop :=
  ∀ key v, (key, v) ∈ k.ofLayout .event → ∃ s, key = Key.event s

variable {k : Keyspace} {key v : Bytes} {s : Serial}

theorem mem_wholeRecords : (key, v) ∈ k.wholeRecords ↔
    k.get? key = some v ∧ Key.layout? key = some .event ∧ StoredValue.isStub v = false := by
  rw [wholeRecords, List.mem_filter, mem_ofLayout, Bool.not_eq_true', and_assoc]

theorem mem_demotedEntries : (key, v) ∈ k.demotedEntries ↔
    k.get? key = some v ∧ (∃ l, Key.layout? key = some l ∧ l.isSecondary = true) ∧
      ∃ s, Key.serial? key = some s ∧ k.isDemoted s = true := by
  rw [demotedEntries, List.mem_filter, mem_secondary, Option.any_eq_true, and_assoc]

/-- The whole records of one key space are those of another one that pass a test. -/
theorem wholeRecords_ext {k' : Keyspace} {p : Bytes × Bytes → Bool}
    (h : ∀ key v, (key, v) ∈ k'.wholeRecords ↔ (key, v) ∈ k.wholeRecords ∧ p (key, v) = true) :
    k'.wholeRecords = k.wholeRecords.filter p := by
  refine SortedMap.entries_ext ((k'.range_sorted _ _).filter _)
    (((k.range_sorted _ _).filter _).filter _) fun e => ?_
  rw [List.mem_filter]
  exact h e.1 e.2

theorem demotedEntries_ext {k' : Keyspace} {p : Bytes × Bytes → Bool}
    (h : ∀ key v, (key, v) ∈ k'.demotedEntries ↔ (key, v) ∈ k.demotedEntries ∧ p (key, v) = true) :
    k'.demotedEntries = k.demotedEntries.filter p := by
  refine SortedMap.entries_ext ((k'.range_sorted _ _).filter _)
    (((k.range_sorted _ _).filter _).filter _) fun e => ?_
  rw [List.mem_filter]
  exact h e.1 e.2

end Keyspace

/-- The serial in a key of a record. -/
def Key.serialOf (key : Bytes) : Serial := (serial? key).getD 0

@[simp] theorem Key.serialOf_event (s : Serial) : serialOf (event s) = s := by
  rw [serialOf, serial?_event, Option.getD_some]

namespace Database.Sound
variable {db : Database} {n : Nat} {key v : Bytes} {s : Serial}

theorem recordKeys (h : db.Sound n) : db.events.RecordKeys := by
  intro key v hmem
  obtain ⟨hv, hl⟩ := Keyspace.mem_ofLayout.mp hmem
  obtain ⟨s, hkey, -⟩ := h.records key v hv hl
  exact ⟨s, hkey⟩

/-- The serial of a record is in its key. -/
theorem serial?_eq (h : db.Sound n) (hv : db.events.get? key = some v)
    (hl : Key.layout? key = some .event) : Key.serial? key = some (Key.serialOf key) := by
  obtain ⟨s, rfl, -, -⟩ := h.records key v hv hl
  rw [Key.serial?_event, Key.serialOf_event]

theorem mem_wholeRecords (h : db.Sound n) : (key, v) ∈ db.events.wholeRecords ↔
    ∃ s, key = Key.event s ∧ db.events.record? s = some v ∧ StoredValue.isStub v = false := by
  rw [Keyspace.mem_wholeRecords]
  constructor
  · rintro ⟨hv, hl, hwhole⟩
    obtain ⟨s, rfl, -, -⟩ := h.records key v hv hl
    exact ⟨s, rfl, hv, hwhole⟩
  · rintro ⟨s, rfl, hv, hwhole⟩
    exact ⟨hv, Key.layout?_event s, hwhole⟩

/-! ### The censuses measure this -/

/-- The census lists the whole records with their sizes. -/
theorem census_live (h : db.Sound n) : (EventTier.census db.events).live =
    db.events.wholeRecords.map fun e => ⟨Key.serialOf e.1, e.1.length + e.2.length,
      EventTier.lastAccess (EventTier.lastAccesses db.events) (Key.serialOf e.1)⟩ := by
  have hserials : (db.events.ofLayout .event).filterMap
        (fun e => (Key.serial? e.1).map fun s => (s, e)) =
      (db.events.ofLayout .event).map fun e => (Key.serialOf e.1, e) := by
    refine List.filterMap_eq_map_iff_forall_eq_some.mpr fun e he => ?_
    obtain ⟨hv, hl⟩ := Keyspace.mem_ofLayout.mp he
    rw [h.serial?_eq hv hl, Option.map_some]
  rw [EventTier.census]
  dsimp only
  rw [hserials, List.filter_map, List.map_map]
  rfl

theorem census_total (h : db.Sound n) :
    (EventTier.census db.events).total = db.events.wholeBytes := by
  rw [EventTier.Census.total, h.census_live, List.map_map]
  rfl

end Database.Sound

section
variable {k : Keyspace} {s : Serial} (h : k.RecordKeys)
include h

/-- No whole record is counted twice. -/
theorem EventTier.census_live_nodup : ((census k).live.map (·.serial)).Nodup := by
  rw [census]
  dsimp only
  rw [List.map_map, List.Nodup, List.pairwise_map]
  refine List.Pairwise.filter _ ?_
  rw [List.pairwise_filterMap]
  refine (k.range_sorted _ _).imp_of_mem fun {a b} ha hb hlt r hr r' hr' heq => ?_
  obtain ⟨s, ha⟩ := h a.1 a.2 ha
  obtain ⟨s', hb⟩ := h b.1 b.2 hb
  rw [ha, Key.serial?_event] at hr
  rw [hb, Key.serial?_event] at hr'
  cases hr
  cases hr'
  obtain rfl : s = s' := heq
  rw [ha, hb] at hlt
  exact SortedMap.not_compare_self_lt _ hlt

theorem IndexTier.mem_demotedSerials_iff : s ∈ demotedSerials k ↔ k.isDemoted s = true := by
  rw [demotedSerials, List.mem_filterMap, Keyspace.isDemoted, Option.any_eq_true]
  constructor
  · rintro ⟨⟨key, v⟩, hmem, hserial⟩
    obtain ⟨hstub, hserial⟩ := Option.ite_none_right_eq_some.mp hserial
    obtain ⟨s', rfl⟩ := h key v hmem
    rw [Key.serial?_event] at hserial
    cases hserial
    exact ⟨v, (Keyspace.mem_ofLayout.mp hmem).1, hstub⟩
  · rintro ⟨v, hv, hstub⟩
    refine ⟨(Key.event s, v), Keyspace.mem_ofLayout.mpr ⟨hv, Key.layout?_event s⟩, ?_⟩
    rw [if_pos hstub, Key.serial?_event]

end

/-- A serial is at most one of a list without repetitions. -/
theorem sum_map_ite_eq {ss : List Serial} (hnodup : ss.Nodup) (o : Option Serial) (n : Nat) :
    (ss.map fun s => if o = some s then n else 0).sum = if o.any (· ∈ ss) then n else 0 := by
  cases o with
  | none => simp
  | some s' =>
    simp only [Option.some.injEq, Option.any_some, decide_eq_true_eq]
    induction ss with
    | nil => simp
    | cons s ss ih =>
      obtain ⟨hs, hss⟩ := List.nodup_cons.mp hnodup
      rw [List.map_cons, List.sum_cons, ih hss]
      by_cases heq : s' = s
      · subst heq
        simp [hs]
      · simp [heq]

/-- The keys of several serials take what the keys of each of them take. -/
theorem IndexTier.sum_keysOf (k : Keyspace) {ss : List Serial} (hnodup : ss.Nodup) :
    (ss.map fun s => ((keysOf k s).map List.length).sum).sum =
      ((k.secondary.filter fun e => (Key.serial? e.1).any (· ∈ ss)).map
        fun e => e.1.length).sum := by
  have hkeys : ∀ s, ((keysOf k s).map List.length).sum =
      ((k.secondary.filter fun e => Key.serial? e.1 == some s).map fun e => e.1.length).sum := by
    intro s
    rw [keysOf, List.filter_map, List.map_map]
    rfl
  simp only [hkeys]
  induction k.secondary with
  | nil => simp
  | cons e rest ih =>
    have hsplit : ∀ s, (((e :: rest).filter fun e => Key.serial? e.1 == some s).map
          fun e => e.1.length).sum =
        (if Key.serial? e.1 = some s then e.1.length else 0) +
          ((rest.filter fun e => Key.serial? e.1 == some s).map fun e => e.1.length).sum := by
      intro s
      by_cases heq : Key.serial? e.1 = some s <;> simp [heq]
    simp only [hsplit]
    rw [List.sum_map_add, sum_map_ite_eq hnodup, ih]
    by_cases hany : (Key.serial? e.1).any (· ∈ ss) = true <;> simp [hany]

namespace Database.Sound
variable {db : Database} {n : Nat} {s : Serial}

/-- The demoted records that pass a test take the bytes of the index keys that lead to them. -/
theorem sum_census (h : db.Sound n) (test : Serial → Bool) :
    (((IndexTier.census db.events).filter fun e => test e.serial).map (·.bytes)).sum =
      ((db.events.demotedEntries.filter fun e => (Key.serial? e.1).any test).map
        fun e => e.1.length).sum := by
  have hnodup := (nodup_distinct (IndexTier.demotedSerials db.events)).filter test
  have hsum := IndexTier.sum_keysOf db.events hnodup
  simp only [← List.length_flatten] at hsum
  rw [IndexTier.census, List.filter_map, List.map_map, Keyspace.demotedEntries, List.filter_filter]
  refine hsum.trans ?_
  congr 2
  refine List.filter_congr fun e _ => ?_
  cases Key.serial? e.1 with
  | none => rfl
  | some s =>
    rw [Option.any_some, Option.any_some, Option.any_some, Bool.eq_iff_iff, decide_eq_true_eq,
      List.mem_filter, mem_distinct, IndexTier.mem_demotedSerials_iff h.recordKeys,
      Bool.and_eq_true, and_comm]

theorem index_total (h : db.Sound n) :
    IndexTier.total (IndexTier.census db.events) = db.events.demotedBytes := by
  have hsum := h.sum_census fun _ => true
  have hall : ∀ e ∈ db.events.demotedEntries, (Key.serial? e.1).any (fun _ => true) = true := by
    intro e he
    obtain ⟨-, -, s, hs, -⟩ := Keyspace.mem_demotedEntries.mp he
    rw [hs]
    rfl
  rw [List.filter_eq_self.mpr fun _ _ => rfl, List.filter_eq_self.mpr hall] at hsum
  exact hsum

end Database.Sound

/-! ### Sweeping records -/

namespace EventTier
variable {db : Database} {n : Nat} {s : Serial} {c : Swept}

/-- A victim that is whole is no longer, it is counted, and all other records stay. -/
theorem sweepOne_whole (h : db.Sound n) {v : Bytes} (hv : db.events.record? s = some v)
    (hwhole : StoredValue.isStub v = false) (demote : Bool) :
    (sweepOne demote (c, db) s).1.demoted + (sweepOne demote (c, db) s).1.deleted =
        c.demoted + c.deleted + 1 ∧
      (sweepOne demote (c, db) s).2.purge = db.purge ∧
      (∀ v', (sweepOne demote (c, db) s).2.events.record? s = some v' →
        StoredValue.isStub v' = true) ∧
      ∀ s', s' ≠ s → (sweepOne demote (c, db) s).2.events.record? s' = db.events.record? s' := by
  obtain ⟨e, he⟩ := (h.readable hv).resolve_left (by rw [hwhole]; exact Bool.false_ne_true)
  simp only [sweepOne, hv, Option.map_some, he]
  have hne : ∀ {s'}, s' ≠ s → Key.event s' ≠ Key.event s := fun h heq => h (Key.event_inj heq)
  cases demote with
  | true =>
    refine ⟨by simp only [if_true]; omega, rfl, fun v' hv' => ?_, fun s' hs' => ?_⟩
    · rw [if_pos rfl, Keyspace.record?, Keyspace.get?_demoteRecord (Key.layout?_event s),
        if_pos rfl] at hv'
      cases hv'
      exact StoredValue.isStub_id e.id
    · rw [if_pos rfl, Keyspace.record?, Keyspace.get?_demoteRecord (Key.layout?_event s'),
        if_neg (hne hs')]
      rfl
  | false =>
    refine ⟨by simp only [Bool.false_eq_true, if_false]; omega, rfl, fun v' hv' => ?_,
      fun s' hs' => ?_⟩
    · rw [if_neg Bool.false_ne_true, Keyspace.record?,
        Keyspace.get?_removeRecord (Key.layout?_event s), if_pos rfl] at hv'
      cases hv'
    · rw [if_neg Bool.false_ne_true, Keyspace.record?,
        Keyspace.get?_removeRecord (Key.layout?_event s'), if_neg (hne hs')]
      rfl

/-- What a sweep of whole records does: every victim is counted and is whole no longer, and all
other records stay. -/
structure Sweeps (db : Database) (victims : List Serial) (c : Swept) (r : Swept × Database) :
    Prop where
  count : r.1.demoted + r.1.deleted = c.demoted + c.deleted + victims.length
  purge : r.2.purge = db.purge
  swept : ∀ s ∈ victims, ∀ v, r.2.events.record? s = some v → StoredValue.isStub v = true
  others : ∀ s, s ∉ victims → r.2.events.record? s = db.events.record? s

theorem sweeps_foldl {victims : List Serial} (h : db.Sound n) (hnodup : victims.Nodup)
    (hwhole : ∀ s ∈ victims, ∃ v, db.events.record? s = some v ∧ StoredValue.isStub v = false)
    (demote : Bool) (c : Swept) :
    Sweeps db victims c (victims.foldl (sweepOne demote) (c, db)) := by
  induction victims generalizing db c with
  | nil => exact ⟨rfl, rfl, nofun, fun _ _ => rfl⟩
  | cons s victims ih =>
    obtain ⟨hs, hnodup⟩ := List.nodup_cons.mp hnodup
    obtain ⟨v, hv, hv'⟩ := hwhole s List.mem_cons_self
    obtain ⟨hcount, hpurge, hvictim, hothers⟩ := sweepOne_whole (c := c) h hv hv' demote
    have hrest := ih (h.sweepOne demote c s) hnodup (fun s' hs' => by
      -- the other victims are still there
      rw [hothers s' fun heq => hs (heq ▸ hs')]
      exact hwhole s' (List.mem_cons_of_mem _ hs')) (sweepOne demote (c, db) s).1
    refine ⟨?_, hrest.purge.trans hpurge, fun s' hs' v' hv' => ?_, fun s' hs' => ?_⟩
    · rw [List.length_cons]
      exact hrest.count.trans (by omega)
    · by_cases hmem : s' ∈ victims
      · exact hrest.swept s' hmem v' hv'
      · obtain rfl := (List.mem_cons.mp hs').resolve_right hmem
        exact hvictim v' ((hrest.others s' hs).symm.trans hv')
    · rw [List.mem_cons, not_or] at hs'
      exact (hrest.others s' hs'.2).trans (hothers s' hs'.1)

/-- **A sweep of records** leaves the whole records that are no victims. -/
theorem wholeRecords_sweep {victims : List Serial} (h : db.Sound n) {r : Swept × Database}
    (hr : r.2.Sound n) (hsweeps : Sweeps db victims c r) : r.2.events.wholeRecords =
      db.events.wholeRecords.filter fun e => decide (Key.serialOf e.1 ∉ victims) := by
  refine Keyspace.wholeRecords_ext fun key v => ?_
  rw [hr.mem_wholeRecords, h.mem_wholeRecords]
  constructor
  · rintro ⟨s, rfl, hv, hwhole⟩
    have hs : s ∉ victims := fun hs => by
      rw [hsweeps.swept s hs v hv] at hwhole
      cases hwhole
    exact ⟨⟨s, rfl, hsweeps.others s hs ▸ hv, hwhole⟩, by simpa using hs⟩
  · rintro ⟨⟨s, rfl, hv, hwhole⟩, hs⟩
    rw [Key.serialOf_event, decide_eq_true_eq] at hs
    exact ⟨s, rfl, (hsweeps.others s hs).trans hv, hwhole⟩

end EventTier

/-! ### Sweeping indices -/

namespace IndexTier
variable {db : Database} {n : Nat} {s : Serial} {victims : List Serial}

/-- What is doomed loses its record and its index keys, everything else stays. -/
theorem get?_sweep (db : Database) (victims : List Serial) (key : Bytes) :
    (sweep db victims).2.events.get? key =
      if ∃ s, Key.serial? key = some s ∧ (doomed db victims).contains s = true ∧
        (key = Key.event s ∨ ∃ l, Key.layout? key = some l ∧ l.isSecondary = true)
      then none else db.events.get? key := by
  rw [sweep]
  dsimp only
  split
  · rename_i hempty
    rw [if_neg]
    rintro ⟨s, -, hs, -⟩
    rw [SortedMap.contains, SortedMap.isEmpty_iff.mp hempty s] at hs
    cases hs
  · exact Database.get?_purgeSerials db _ key

/-- A sweep of indices leaves nothing queued. -/
theorem purge_sweep (db : Database) (victims : List Serial) :
    (sweep db victims).2.purge = ∅ := by
  rw [sweep]
  dsimp only
  split
  · rename_i hempty
    refine SortedMap.ext_get? fun s => ?_
    rw [SortedMap.get?_empty]
    cases hs : db.purge.get? s with
    | none => rfl
    | some u =>
      -- what is queued is doomed, and nothing is
      have hdoomed := (contains_doomed db victims s).mpr
        (.inr (by rw [SortedMap.contains, hs]; rfl))
      rw [SortedMap.contains, SortedMap.isEmpty_iff.mp hempty s] at hdoomed
      cases hdoomed
  · rfl

theorem record?_sweep (db : Database) (victims : List Serial) (s : Serial) :
    (sweep db victims).2.events.record? s =
      if (doomed db victims).contains s = true then none else db.events.record? s := by
  rw [Keyspace.record?, get?_sweep, Key.serial?_event]
  refine if_congr ⟨?_, fun h => ⟨s, rfl, h, .inl rfl⟩⟩ rfl rfl
  rintro ⟨s', heq, hs', -⟩
  rwa [Option.some.inj heq]

/-- A serial with a record is doomed if it is a victim and demoted. -/
theorem contains_doomed_of_record? (h : db.Sound n) (hs : (db.events.record? s).isSome) :
    (doomed db victims).contains s = true ↔ s ∈ victims ∧ db.events.isDemoted s = true := by
  rw [contains_doomed, h.not_queued hs, Keyspace.isDemoted]
  simp

theorem isDemoted_sweep (h : db.Sound n) (s : Serial) :
    (sweep db victims).2.events.isDemoted s = true ↔
      db.events.isDemoted s = true ∧ s ∉ victims := by
  rw [Keyspace.isDemoted, record?_sweep]
  cases hrec : (db.events.record? s).isSome with
  | false =>
    rw [Option.isSome_eq_false_iff, Option.isNone_iff_eq_none] at hrec
    simp [Keyspace.isDemoted, hrec]
  | true =>
    rw [Keyspace.isDemoted]
    simp only [contains_doomed_of_record? h hrec, Keyspace.isDemoted]
    split_ifs with hdoomed
    · simp [hdoomed.1]
    · rw [not_and'] at hdoomed
      exact ⟨fun hd => ⟨hd, hdoomed hd⟩, fun hd => hd.1⟩

/-- **A sweep of indices** leaves the whole records. -/
theorem wholeRecords_sweep (h : db.Sound n) (victims : List Serial) :
    (sweep db victims).2.events.wholeRecords = db.events.wholeRecords := by
  have hall : ∀ e ∈ db.events.wholeRecords, (fun _ : Bytes × Bytes => true) e = true :=
    fun _ _ => rfl
  rw [← List.filter_eq_self.mpr hall]
  refine Keyspace.wholeRecords_ext fun key v => ?_
  rw [(h.sweepIndices victims).mem_wholeRecords, h.mem_wholeRecords, and_iff_left rfl]
  refine exists_congr fun s => and_congr_right fun _ => and_congr_left fun hwhole => ?_
  rw [record?_sweep]
  constructor
  · exact fun hv => (Option.ite_none_left_eq_some.mp hv).2
  · intro hv
    rw [if_neg, hv]
    have hs : (db.events.record? s).isSome := by
      rw [hv]
      rfl
    rw [contains_doomed_of_record? h hs, Keyspace.isDemoted, hv, Option.any_some, hwhole]
    simp

/-- **A sweep of indices** leaves the index entries of demoted records that are no victims. -/
theorem demotedEntries_sweep (h : db.Sound n) (victims : List Serial) :
    (sweep db victims).2.events.demotedEntries =
      db.events.demotedEntries.filter fun e => (Key.serial? e.1).any (decide <| · ∉ victims) := by
  refine Keyspace.demotedEntries_ext fun key v => ?_
  rw [Keyspace.mem_demotedEntries, Keyspace.mem_demotedEntries, get?_sweep]
  simp only [isDemoted_sweep h, Option.any_eq_true, decide_eq_true_eq]
  constructor
  · rintro ⟨hv, hl, s, hs, hdemoted, hvictim⟩
    exact ⟨⟨(Option.ite_none_left_eq_some.mp hv).2, hl, s, hs, hdemoted⟩, s, hs, hvictim⟩
  · rintro ⟨⟨hv, hl, s, hs, hdemoted⟩, s', hs', hvictim⟩
    obtain rfl := Option.some.inj (hs.symm.trans hs')
    refine ⟨?_, hl, s, hs, hdemoted, hvictim⟩
    rw [if_neg, hv]
    rintro ⟨s', hs', hdoomed, -⟩
    obtain rfl := Option.some.inj (hs.symm.trans hs')
    have hrec : (db.events.record? s).isSome := by
      rw [Keyspace.isDemoted, Option.any_eq_true] at hdemoted
      obtain ⟨v', hv', -⟩ := hdemoted
      rw [hv']
      rfl
    exact hvictim ((contains_doomed_of_record? h hrec).mp hdoomed).1

end IndexTier
end EventArchive
