import EventArchive.Proofs.ScanHits

/-! # What a scan finds of a ledger

A key of a scan leads to the holding under its serial.  Of a whole event the scan
delivers the event, of a demoted one the identifier with the time of the key, and
of tag keys that wait for a sweep nothing.  So the hits of a scan are the records
that have a key in its range, and pass what the plan leaves to be checked.
-/
namespace EventArchive

namespace Holding

/-- What a query delivers of a holding, if it passes the rest of the filter. -/
def found? (residual : Option Filter) : Holding → Option Record
  | live e _ => if residual.all (·.isMatch e) then some (.full e) else none
  | demoted e =>
    if residual.all (·.isStubMatch e.id) then
      some (.stub e.id (timeOfClamped (clampTime e.createdAt)))
    else none
  | queued _ => none

/-- What a query shows of a holding that a key of some time leads to. -/
def hit? (residual : Option Filter) (time : Option UInt64) (s : Serial) : Holding → Option Hit
  | live e _ =>
    if residual.all (·.isMatch e) then some ⟨s, e.createdAt, .full e⟩ else none
  | demoted e =>
    let createdAt := (time.map timeOfClamped).getD 0
    if residual.all (·.isStubMatch e.id) then
      some ⟨s, createdAt, .stub e.id createdAt⟩ else none
  | queued _ => none

variable {h : Holding} {residual : Option Filter} {r : Record} {s : Serial} {hit : Hit}

theorem found?_cases (hr : h.found? residual = some r) : (∃ e t, h = live e t ∧ r = .full e) ∨
    ∃ e, h = demoted e ∧ r = .stub e.id (timeOfClamped (clampTime e.createdAt)) := by
  cases h with
  | live e t =>
    obtain ⟨-, hr⟩ := Option.ite_none_right_eq_some.mp hr
    exact .inl ⟨e, t, rfl, (Option.some.inj hr).symm⟩
  | demoted e =>
    obtain ⟨-, hr⟩ := Option.ite_none_right_eq_some.mp hr
    exact .inr ⟨e, rfl, (Option.some.inj hr).symm⟩
  | queued e => cases hr

theorem isSome_stub?_of_found? (hr : h.found? residual = some r) : h.stub?.isSome := by
  obtain ⟨e, t, rfl, -⟩ | ⟨e, rfl, -⟩ := found?_cases hr <;> rfl

/-- What is delivered has the time that the keys hold. -/
theorem clampTime_createdAt_of_found? (hr : h.found? residual = some r) :
    clampTime r.createdAt = clampTime h.event.createdAt := by
  obtain ⟨e, t, rfl, rfl⟩ | ⟨e, rfl, rfl⟩ := found?_cases hr
  · rfl
  · exact clampTime_timeOfClamped_clampTime e.createdAt

/-- What is delivered is not of a negative time, unless a whole event is. -/
theorem createdAt_nonneg_of_found? (hr : h.found? residual = some r)
    (htime : ∀ e t, h = .live e t → 0 ≤ e.createdAt) : 0 ≤ r.createdAt := by
  obtain ⟨e, t, rfl, rfl⟩ | ⟨e, rfl, rfl⟩ := found?_cases hr
  · exact htime e t rfl
  · exact timeOfClamped_nonneg _

theorem id_of_found? (hr : h.found? residual = some r) : r.id = h.event.id := by
  obtain ⟨e, t, rfl, rfl⟩ | ⟨e, rfl, rfl⟩ := found?_cases hr <;> rfl

/-- A key with the time of the event leads to what is delivered. -/
theorem hit?_timed (h : Holding) (residual : Option Filter) (s : Serial) :
    h.hit? residual (some (clampTime h.event.createdAt)) s =
      (h.found? residual).map fun r => ⟨s, r.createdAt, r⟩ := by
  cases h with
  | live e t =>
    rw [hit?, found?]
    split <;> rfl
  | demoted e =>
    rw [hit?, found?]
    split <;> rfl
  | queued e => rfl

end Holding

/-- An index key of an event with a time in it ends in the time of the event. -/
theorem Key.exists_timed_of_mem_index {e : Event} {s : Serial} {key : Bytes}
    (h : key ∈ Key.index e s) (hid : Key.layout? key ≠ some .id) :
    ∃ stem, key = Key.timed stem e.createdAt s := by
  rcases Key.mem_index_iff.mp h with rfl | ⟨l, stem, -, rfl⟩ | h
  · exact absurd (Key.layout?_id _ _) hid
  · exact ⟨stem, rfl⟩
  · obtain ⟨v, -, rfl⟩ := Key.mem_tagged.mp h
    exact ⟨_, rfl⟩

/-- Times are in the order of the numbers in their keys, where all times before 1970 are alike. -/
theorem clampTime_le_clampTime_iff {t t' : Int64} :
    clampTime t ≤ clampTime t' ↔ t ≤ t' ∨ (t ≤ 0 ∧ t' ≤ 0) := by
  have hzero : (0 : Int64).toInt = 0 := rfl
  rw [UInt64.le_iff_toNat_le, clampTime_toNat, clampTime_toNat]
  simp only [Int64.le_iff_toInt_le, hzero]
  omega

/-- Up to a time that is not negative, times are in the order of the numbers in their keys. -/
theorem clampTime_le_iff {t t' : Int64} (h' : 0 ≤ t') : clampTime t ≤ clampTime t' ↔ t ≤ t' := by
  rw [clampTime_le_clampTime_iff, or_iff_left_iff_imp]
  rintro ⟨ht, -⟩
  exact Int64.le_trans ht h'

namespace Scan
variable {s : Scan} {k : Keyspace} {L : Ledger} {residual : Option Filter} {since : UInt64}

/-- What a key of a serial leads to. -/
theorem resolve_eq_hit? {h : Holding} {ser : Serial} {key : Bytes} (hr : k.Renders L)
    (hL : L ser = some h) (hfits : h.event.Sized) (hser : Key.serial? key = some ser)
    (time : Option UInt64) : resolve k residual time key = h.hit? residual time ser := by
  simp only [resolve, hser, Option.bind_eq_bind, Option.bind_some, hr.record?, hL]
  cases h with
  | live e t =>
    simp only [Holding.record?, Option.bind_some]
    rw [StoredValue.decode_encode (e := e) hfits]
    rfl
  | demoted e =>
    simp only [Holding.record?, Option.bind_some, StoredValue.decode_id]
    rfl
  | queued e => rfl

theorem resolve_eq {h : Holding} {ser : Serial} {stem : Bytes} (hr : k.Renders L)
    (hL : L ser = some h) (hfits : h.event.Sized) :
    resolve k residual (some (clampTime h.event.createdAt))
        (Key.timed stem h.event.createdAt ser) =
      (h.found? residual).map fun r => ⟨ser, r.createdAt, r⟩ := by
  rw [resolve_eq_hit? hr hL hfits (Key.serial?_timed ..), Holding.hit?_timed]

/-- A scan of an index whose keys hold a time. -/
structure Timed (s : Scan) : Prop where
  untimed : s.untimed = false
  layout : ∃ l, Key.layout? s.stem = some l ∧ l.isSecondary = true ∧ l ≠ .id

/-- An event under a serial has a key in the range of a scan, not too late and not too old. -/
def Reaches (s : Scan) (since : UInt64) (e : Event) (ser : Serial) : Prop :=
  Key.timed s.stem e.createdAt ser ∈ Key.index e ser ∧
    since ≤ clampTime e.createdAt ∧ clampTime e.createdAt ≤ s.till

theorem Timed.layout?_stamped (hs : s.Timed) (t : UInt64) (ser : Serial) :
    ∃ l, Key.layout? (Key.stamped s.stem t ser) = some l ∧ l.isSecondary = true ∧ l ≠ .id := by
  obtain ⟨l, hl, hsec⟩ := hs.layout
  refine ⟨l, ?_, hsec⟩
  cases hstem : s.stem with
  | nil =>
    rw [hstem] at hl
    cases hl
  | cons b rest =>
    rw [hstem] at hl
    exact hl

variable {key : Bytes} {hit : Hit}

/-- A hit comes from a record that has its key in the range of the scan. -/
theorem exists_of_hit? (hr : k.Renders L) (hfits : ∀ ser h, L ser = some h → h.event.Sized)
    (hs : s.Timed) (hmem : key ∈ s.keysBelow k s.upper)
    (hhit : s.hit? k residual key = some hit) :
    ∃ h r, L hit.serial = some h ∧ h.found? residual = some r ∧
      hit = ⟨hit.serial, r.createdAt, r⟩ ∧ key = Key.timed s.stem h.event.createdAt hit.serial ∧
      key ∈ Key.index h.event hit.serial ∧ clampTime h.event.createdAt ≤ s.till := by
  obtain ⟨t, ser, rfl, htill, v, hv⟩ :=
    (mem_keysBelow_upper hs.untimed).mp ⟨hmem, owns_of_hit? hhit⟩
  obtain ⟨l, hl, hsec, hne⟩ := hs.layout?_stamped t ser
  -- the holding behind the key is the one of its serial, and the key is one of its own
  obtain ⟨ser', h, hL, hserial, hm⟩ := hr.exists_mem_keys hv hl hsec
  rw [Key.serial?_stamped] at hserial
  obtain rfl := Option.some.inj hserial
  have hindex := Holding.mem_index_of_mem_keys hm
  obtain ⟨stem, hkey⟩ := Key.exists_timed_of_mem_index hindex
    (by rw [hl]; exact fun h => hne (Option.some.inj h))
  rw [Key.timed_eq_stamped] at hkey
  obtain ⟨rfl, rfl, -⟩ := Key.stamped_inj hkey
  rw [hit?_stamped hs.untimed, ← Key.timed_eq_stamped, resolve_eq hr hL (hfits _ h hL)] at hhit
  obtain ⟨r, hr', rfl⟩ := Option.map_eq_some_iff.mp hhit
  exact ⟨h, r, hL, hr', rfl, (Key.timed_eq_stamped ..).symm, hindex, htill⟩

/-- **The hits of a scan** are the records that have a key in its range, are recent enough, and
pass the rest of the filter. -/
theorem mem_onePass (hr : k.Renders L) (hfits : ∀ ser h, L ser = some h → h.event.Sized)
    (hs : s.Timed) : hit ∈ s.onePass k residual since ↔
      ∃ h r, L hit.serial = some h ∧ h.found? residual = some r ∧
        hit = ⟨hit.serial, r.createdAt, r⟩ ∧ s.Reaches since h.event hit.serial := by
  rw [onePass_eq_filter, List.mem_filterMap]
  constructor
  · rintro ⟨key, hkey, hhit⟩
    obtain ⟨hmem, hpast⟩ := List.mem_filter.mp hkey
    obtain ⟨h, r, hL, hr', heq, rfl, hm, htill⟩ := exists_of_hit? hr hfits hs hmem hhit
    rw [Key.timed_eq_stamped, isPast_stamped hs.untimed, Bool.not_eq_true',
      decide_eq_false_iff_not] at hpast
    exact ⟨h, r, hL, hr', heq, hm, UInt64.not_lt.mp hpast, htill⟩
  · rintro ⟨h, r, hL, hr', heq, hm, hsince, htill⟩
    have hv := hr.get?_of_mem_index hL (Holding.isSome_stub?_of_found? hr') hm
    refine ⟨Key.timed s.stem h.event.createdAt hit.serial, List.mem_filter.mpr ⟨?_, ?_⟩, ?_⟩
    · rw [Key.timed_eq_stamped] at hv ⊢
      exact ((mem_keysBelow_upper hs.untimed).mpr ⟨_, _, rfl, htill, [], hv⟩).1
    · rw [Key.timed_eq_stamped, isPast_stamped hs.untimed, Bool.not_eq_true',
        decide_eq_false_iff_not]
      exact UInt64.not_lt.mpr hsince
    · rw [Key.timed_eq_stamped, hit?_stamped hs.untimed, ← Key.timed_eq_stamped,
        resolve_eq hr hL (hfits _ h hL), hr', heq]
      rfl

section
variable (hr : k.Renders L) (hfits : ∀ ser h, L ser = some h → h.event.Sized)
  (htimes : ∀ ser e t, L ser = some (.live e t) → 0 ≤ e.createdAt) (hs : s.Timed)
include hr hfits htimes hs

/-- The hits of a scan come in descending order of their keys. -/
theorem onePass_descending : (s.onePass k residual since).Pairwise fun a b =>
    0 ≤ a.createdAt ∧ compare (Key.timed s.stem b.createdAt b.serial)
      (Key.timed s.stem a.createdAt a.serial) = .lt := by
  rw [onePass_eq_filter, List.pairwise_filterMap]
  have hsorted := (s.keysBelow_sorted k s.upper).filter (!s.isPast since ·)
  refine hsorted.imp_of_mem fun {a b} ha hb hlt x hx y hy => ?_
  obtain ⟨h, r, hL, hr', heq, rfl, -⟩ :=
    exists_of_hit? hr hfits hs (List.mem_filter.mp ha).1 hx
  obtain ⟨h', r', hL', hr'', heq', rfl, -⟩ :=
    exists_of_hit? hr hfits hs (List.mem_filter.mp hb).1 hy
  have hx : clampTime x.createdAt = clampTime h.event.createdAt := by
    rw [heq]
    exact Holding.clampTime_createdAt_of_found? hr'
  have hy : clampTime y.createdAt = clampTime h'.event.createdAt := by
    rw [heq']
    exact Holding.clampTime_createdAt_of_found? hr''
  refine ⟨?_, ?_⟩
  · rw [heq]
    exact Holding.createdAt_nonneg_of_found? hr' fun e t hlive => htimes _ e t (hlive ▸ hL)
  · rw [Key.timed_eq_stamped, Key.timed_eq_stamped] at hlt ⊢
    rwa [hx, hy]

/-- **The hits of a scan come newest first**, if no time is negative. -/
theorem onePass_sorted :
    (s.onePass k residual since).Pairwise fun a b => b.createdAt ≤ a.createdAt := by
  refine (onePass_descending hr hfits htimes hs).imp fun {a b} ⟨htime, hlt⟩ => ?_
  rw [Key.timed_eq_stamped, Key.timed_eq_stamped] at hlt
  exact (clampTime_le_iff htime).mp (Key.le_of_compare_stamped hlt)

/-- **Of one time a scan delivers first what was saved last.** -/
theorem onePass_ties : (s.onePass k residual since).Pairwise fun a b =>
    a.createdAt = b.createdAt → b.serial < a.serial := by
  refine (onePass_descending hr hfits htimes hs).imp fun {a b} ⟨_, hlt⟩ heq => ?_
  rw [heq, Key.timed_eq_stamped, Key.timed_eq_stamped] at hlt
  exact Key.lt_of_compare_stamped hlt

end

end Scan
end EventArchive
