import EventArchive.Proofs.Meets
import EventArchive.Proofs.QueryExact

/-! # Demoted records are still found

Demoting a record leaves its index keys, so every scan meets what it met before
(`Plan.meets_demote`).  A demoted record passes wherever the whole one did, as less
of it is checked.  So a query finds what it found before: the records that were
demoted with their identifiers, and in an index with times with their times, all
others as they were (`Archive.query_sweep`).
-/
namespace EventArchive

/-! ### Ledgers -/

/-- A holding after its record was demoted. -/
def Holding.demote : Holding → Holding
  | live e _ => demoted e
  | demoted e => demoted e
  | queued e => queued e

@[simp] theorem Holding.demote_event (h : Holding) : h.demote.event = h.event := by
  cases h <;> rfl

theorem Holding.isSome_stub?_demote (h : Holding) : h.demote.stub?.isSome = h.stub?.isSome := by
  cases h <;> rfl

/-- A ledger after the records of some serials were demoted. -/
def Ledger.demote (L : Ledger) (victims : List Serial) : Ledger :=
  fun s => if s ∈ victims then (L s).map Holding.demote else L s

/-- Demoting is sweeping, where every record can be read. -/
theorem Ledger.swept_eq_demote {L : Ledger} (hfits : ∀ s h, L s = some h → h.event.Sized)
    (victims : List Serial) : L.swept victims true = L.demote victims := by
  funext s
  rw [swept, demote]
  split
  · cases hL : L s with
    | none => rfl
    | some h =>
      cases h with
      | live e t =>
        rw [Option.bind_some, Holding.swept, StoredValue.decode_encode (e := e) (hfits s _ hL)]
        rfl
      | demoted e => rfl
      | queued e => rfl
  · rfl

theorem Ledger.demote_eq_some_iff {L : Ledger} {victims : List Serial} {s : Serial} {h' : Holding} :
    L.demote victims s = some h' ↔
      ∃ h, L s = some h ∧ h' = if s ∈ victims then h.demote else h := by
  rw [demote]
  split
  · simp [eq_comm]
  · simp

theorem Ledger.demote_within (L : Ledger) (victims : List Serial) :
    (L.demote victims).Within L := by
  intro s h' hL'
  obtain ⟨h, hL, rfl⟩ := demote_eq_some_iff.mp hL'
  refine ⟨h, hL, ?_⟩
  split
  · rw [h.demote_event, h.isSome_stub?_demote]
    exact ⟨rfl, id⟩
  · exact ⟨rfl, id⟩

theorem Ledger.Within.sized {L' L : Ledger} (hw : L'.Within L)
    (hfits : ∀ s h, L s = some h → h.event.Sized) : ∀ s h, L' s = some h → h.event.Sized := by
  intro s h' hL'
  obtain ⟨h, hL, he, -⟩ := hw s h' hL'
  rw [← he]
  exact hfits s h hL

/-- Demoting changes what is held under a serial only where a whole record is demoted. -/
theorem Ledger.demote_cases (L : Ledger) (victims : List Serial) (s : Serial) :
    L.demote victims s = L s ∨
      ∃ e t, s ∈ victims ∧ L s = some (.live e t) ∧ L.demote victims s = some (.demoted e) := by
  rw [demote]
  split
  · rename_i hs
    cases L s with
    | none => exact .inl rfl
    | some h =>
      cases h with
      | live e t => exact .inr ⟨e, t, hs, rfl, rfl⟩
      | demoted e => exact .inl rfl
      | queued e => exact .inl rfl
  · exact .inl rfl

/-- What is whole after demoting was whole before. -/
theorem Ledger.live_of_demote {L : Ledger} {victims : List Serial} {s : Serial} {e : Event}
    {t : UInt64} (hL' : L.demote victims s = some (.live e t)) : L s = some (.live e t) := by
  rcases L.demote_cases victims s with hsame | ⟨e', t', -, -, hdemoted⟩
  · rwa [hsame] at hL'
  · rw [hdemoted] at hL'
    cases hL'

/-- Two ledgers that call for the same index keys. -/
def Ledger.SameKeys (L' L : Ledger) : Prop :=
  ∀ s, (L' s).map (·.keys s) = (L s).map (·.keys s)

theorem Ledger.SameKeys.trans {L'' L' L : Ledger} (h₁ : L''.SameKeys L') (h₂ : L'.SameKeys L) :
    L''.SameKeys L := fun s => (h₁ s).trans (h₂ s)

theorem Ledger.sameKeys_demote (L : Ledger) (victims : List Serial) :
    (L.demote victims).SameKeys L := by
  intro s
  rcases L.demote_cases victims s with hsame | ⟨e, t, -, hlive, hdemoted⟩
  · rw [hsame]
  · rw [hlive, hdemoted]
    rfl

namespace Keyspace.Renders
variable {db : Database} {L : Ledger}

/-- A sweep that demotes does this to the ledger. -/
theorem sweep_demote (hr : db.events.Renders L) (hfits : ∀ s h, L s = some h → h.event.Sized)
    (victims : List Serial) :
    (EventTier.sweep db victims true).2.events.Renders (L.demote victims) := by
  rw [← Ledger.swept_eq_demote hfits victims]
  exact hr.sweep victims true

/-- Ledgers that call for the same index keys have the same index. -/
theorem get?_of_sameKeys {k k' : Keyspace} {L' : Ledger} {key : Bytes} {l : Layout}
    (hr : k.Renders L) (hr' : k'.Renders L') (hsame : L'.SameKeys L)
    (hl : Key.layout? key = some l) (hsec : l.isSecondary = true) : k'.get? key = k.get? key := by
  have hvalue : ∀ s (h : Holding), h.value? s key = if key ∈ h.keys s then some [] else none := by
    intro s h
    have hevent : key ≠ Key.event s := by
      rintro rfl
      rw [Key.layout?_event] at hl
      cases hl
      cases hsec
    have hcounter : key ≠ Key.counter h.event.id s := by
      rintro rfl
      rw [Key.layout?_counter] at hl
      cases hl
      cases hsec
    rw [Holding.value?, if_neg hevent, if_neg hcounter]
  have hkeys : ∀ (L : Ledger) s, ((L s).bind fun h => h.value? s key) =
      ((L s).map (·.keys s)).bind fun keys => if key ∈ keys then some [] else none := by
    intro L s
    rw [Option.bind_map]
    exact Option.bind_congr fun h _ => hvalue s h
  rw [hr key, hr' key, Ledger.value?, Ledger.value?]
  refine Option.bind_congr fun s _ => ?_
  rw [hkeys, hkeys, hsame s]

/-- Demoting leaves the index. -/
theorem get?_demote {k k' : Keyspace} {victims : List Serial} {key : Bytes} {l : Layout}
    (hr : k.Renders L) (hr' : k'.Renders (L.demote victims)) (hl : Key.layout? key = some l)
    (hsec : l.isSecondary = true) : k'.get? key = k.get? key :=
  get?_of_sameKeys hr hr' (L.sameKeys_demote victims) hl hsec

end Keyspace.Renders

/-! ### What scans meet -/

namespace Scan
variable {s : Scan} {k k' : Keyspace} {L : Ledger} {victims : List Serial}

/-- A scan looks at the same keys as before. -/
theorem keysBelow_demote (hs : s.Indexed) (hr : k.Renders L)
    (hr' : k'.Renders (L.demote victims)) : s.keysBelow k' s.upper = s.keysBelow k s.upper := by
  have hmem : ∀ {k₁ k₂ : Keyspace}, (∀ key l, Key.layout? key = some l → l.isSecondary = true →
      k₁.get? key = k₂.get? key) → ∀ key, key ∈ s.keysBelow k₁ s.upper →
      key ∈ s.keysBelow k₂ s.upper := by
    intro k₁ k₂ hsame key hkey
    obtain ⟨l, hl, hsec, -⟩ := hs.layout? hkey
    rw [mem_keysBelow] at hkey ⊢
    rwa [← hsame key l hl hsec]
  -- both are in descending order
  have hperm : (s.keysBelow k' s.upper).Perm (s.keysBelow k s.upper) := by
    have hnodup : ∀ k : Keyspace, (s.keysBelow k s.upper).Nodup := fun k =>
      (s.keysBelow_sorted k s.upper).imp fun {a b} hlt heq => by
        rw [heq] at hlt
        exact SortedMap.not_compare_self_lt _ hlt
    refine (List.perm_ext_iff_of_nodup (hnodup k') (hnodup k)).mpr fun key => ⟨?_, ?_⟩
    · exact hmem (fun key l hl hsec => hr.get?_demote hr' hl hsec) key
    · exact hmem (fun key l hl hsec => (hr.get?_demote hr' hl hsec).symm) key
  refine hperm.eq_of_pairwise (fun a b _ _ hab hba => ?_) (s.keysBelow_sorted k' s.upper)
    (s.keysBelow_sorted k s.upper)
  exact absurd (Std.TransCmp.lt_trans hab hba) (SortedMap.not_compare_self_lt _)

end Scan

/-- A plan meets the same serials as before. -/
theorem Plan.meets_demote {p : Plan} {k k' : Keyspace} {L : Ledger} {victims : List Serial}
    (hp : p.Uniform) (hr : k.Renders L) (hr' : k'.Renders (L.demote victims)) (ser : Serial) :
    p.Meets k' ser ↔ p.Meets k ser := by
  refine exists_congr fun s => and_congr_right fun hs => ?_
  rw [Scan.keysMet, Scan.keysMet, Scan.keysBelow_demote (hp.indexed s hs) hr hr']

/-! ### What keys lead to -/

namespace Holding
variable {h : Holding} {residual : Option Filter} {time : Option UInt64} {s : Serial} {x y : Hit}

/-- An event that passes a filter passes it without its contents. -/
theorem isStubMatch_of_isMatch {e : Event} (hpass : residual.all (·.isMatch e) = true) :
    residual.all (·.isStubMatch e.id) = true := by
  cases residual with
  | none => rfl
  | some f =>
    simp only [Option.all_some, Filter.isMatch, Bool.and_eq_true] at hpass
    exact hpass.1.1.1.1.1

/-- What was found is found after its record was demoted. -/
theorem exists_hit?_demote (hx : h.hit? residual time s = some x) :
    ∃ y, h.demote.hit? residual time s = some y := by
  obtain ⟨e, t, rfl, hpass, -⟩ | ⟨e, _, rfl, -⟩ := hit?_cases hx
  · exact ⟨_, if_pos (isStubMatch_of_isMatch hpass)⟩
  · exact ⟨x, hx⟩

/-- What is found of a demoted record is its identifier. -/
theorem record_of_hit?_demoted {e : Event} (hy : (demoted e).hit? residual time s = some y) :
    y.record = .stub e.id ((time.map timeOfClamped).getD 0) := by
  obtain ⟨_, _, heq, -⟩ | ⟨e', _, heq, rfl, rfl⟩ := hit?_cases hy
  · cases heq
  · cases heq
    rfl

/-- What is found of a whole record is its event. -/
theorem record_of_hit?_live {e : Event} {t : UInt64}
    (hx : (live e t).hit? residual time s = some x) : x.record = .full e := by
  obtain ⟨e', t', heq, -, rfl⟩ | ⟨_, _, heq, -⟩ := hit?_cases hx
  · cases heq
    rfl
  · cases heq

/-- Only a whole record is found as one. -/
theorem eq_live_of_hit? {e : Event} (hx : h.hit? residual time s = some x)
    (hfull : x.record = .full e) : ∃ t, h = .live e t := by
  obtain ⟨e', t, rfl, -, rfl⟩ | ⟨e', _, rfl, -, rfl⟩ := hit?_cases hx
  · cases hfull
    exact ⟨t, rfl⟩
  · cases hfull

end Holding

/-! ### Plans -/

namespace Plan
variable {p : Plan} {k k' : Keyspace} {L : Ledger} {victims : List Serial} {pageSize : Nat}
variable {x y : Hit} {e : Event} {t : UInt64} {s : Serial}

/-- The time with which a plan finds an event that was demoted. -/
def stampFor (p : Plan) (e : Event) : Int64 := ((p.timeFor e).map timeOfClamped).getD 0

/-- Keys with times keep the time of what is demoted, if it is not negative. -/
theorem stampFor_eq {e : Event} (htimed : ∀ s ∈ p.scans, s.untimed = false)
    (htime : 0 ≤ e.createdAt) : p.stampFor e = e.createdAt := by
  have hany : p.scans.any (·.untimed) = false := by
    rw [List.any_eq_false]
    intro s hs huntimed
    rw [htimed s hs] at huntimed
    cases huntimed
  rw [stampFor, timeFor, hany]
  exact timeOfClamped_clampTime htime

theorem Uniform.timed (hp : p.Uniform) (htimed : ∀ s ∈ p.scans, s.untimed = false) :
    ∀ s ∈ p.scans, s.Timed := by
  intro s hs
  rcases hp.times with h | huntimed
  · exact h s hs
  · cases (htimed s hs).symm.trans (huntimed s hs)

section
variable (hr : k.Renders L) (hfits : ∀ s h, L s = some h → h.event.Sized) (hp : p.Uniform)
include hr hfits hp

/-- Records that are found have different identifiers. -/
theorem found_ids_nodup (hu : L.Unique) (pageSize : Nat) :
    ((p.found k pageSize).map (·.record.id)).Nodup := by
  have hserials := List.pairwise_map.mp (found_nodup p k pageSize)
  refine List.pairwise_map.mpr (hserials.imp_of_mem fun {a b} ha hb hne heq => hne ?_)
  obtain ⟨-, h, hL, hhit⟩ := (mem_found_iff_meets hr hfits hp).mp ha
  obtain ⟨-, h', hL', hhit'⟩ := (mem_found_iff_meets hr hfits hp).mp hb
  rw [Holding.id_of_hit? hhit, Holding.id_of_hit? hhit'] at heq
  exact hu _ _ h h' hL hL' (Holding.isSome_stub?_of_hit? hhit)
    (Holding.isSome_stub?_of_hit? hhit') heq

/-- A plan finds no more than it counts. -/
theorem length_found_le_count (pageSize : Nat) : (p.found k pageSize).length ≤ p.count k := by
  rw [← List.length_map (·.serial), count]
  refine (List.subperm_of_subset (found_nodup p k pageSize) fun ser hser => ?_).length_le
  obtain ⟨x, hx, rfl⟩ := List.mem_map.mp hser
  obtain ⟨hmeets, h, hL, hhit⟩ := (mem_found_iff_meets hr hfits hp).mp hx
  rw [mem_distinct, mem_counted_iff_meets hr hfits hp]
  exact ⟨hmeets, .inr ⟨h, x, hL, hhit⟩⟩

variable (hr' : k'.Renders (L.demote victims))
include hr'

/-- What a plan finds after records were demoted. -/
theorem mem_found_demote : y ∈ p.found k' pageSize ↔
    p.Meets k y.serial ∧ ∃ h, L.demote victims y.serial = some h ∧
      h.hit? p.residual (p.timeFor h.event) y.serial = some y := by
  rw [mem_found_iff_meets hr' ((L.demote_within victims).sized hfits) hp, meets_demote hp hr hr']

/-- The records that were not demoted are found as before. -/
theorem mem_found_demote_of_eq (hsame : L.demote victims x.serial = L x.serial) :
    x ∈ p.found k' pageSize ↔ x ∈ p.found k pageSize := by
  rw [mem_found_demote hr hfits hp hr', mem_found_iff_meets hr hfits hp, hsame]

/-- What was found of a record that was demoted is found as its identifier. -/
theorem exists_found_demote (hx : x ∈ p.found k pageSize) (hL : L x.serial = some (.live e t))
    (hdemoted : L.demote victims x.serial = some (.demoted e)) :
    ∃ y ∈ p.found k' pageSize, y.record = .stub e.id (p.stampFor e) := by
  obtain ⟨hmeets, h, hL', hhit⟩ := (mem_found_iff_meets hr hfits hp).mp hx
  obtain rfl := Option.some.inj (hL.symm.trans hL')
  obtain ⟨y, hy⟩ := Holding.exists_hit?_demote hhit
  have hserial : y.serial = x.serial := Holding.serial_of_hit? hy
  refine ⟨y, ?_, Holding.record_of_hit?_demoted hy⟩
  rw [mem_found_demote hr hfits hp hr', hserial]
  exact ⟨hmeets, .demoted e, hdemoted, hy⟩

/-- A plan counts no fewer records after some were demoted. -/
theorem count_le_count_demote : p.count k ≤ p.count k' := by
  rw [count, count]
  refine (List.subperm_of_subset (nodup_distinct _) fun ser hser => ?_).length_le
  rw [mem_distinct, mem_counted_iff_meets hr hfits hp] at hser
  rw [mem_distinct, mem_counted_iff_meets hr' ((L.demote_within victims).sized hfits) hp,
    meets_demote hp hr hr']
  refine ⟨hser.1, hser.2.imp_right ?_⟩
  rintro ⟨h, x, hL, hhit⟩
  rcases L.demote_cases victims ser with hsame | ⟨e, t, -, hlive, hdemoted⟩
  · exact ⟨h, x, hsame.trans hL, hhit⟩
  · obtain rfl := Option.some.inj (hlive.symm.trans hL)
    obtain ⟨y, hy⟩ := Holding.exists_hit?_demote hhit
    exact ⟨.demoted e, y, hdemoted, hy⟩

end
end Plan

/-! ### Queries -/

/-- The whole events among the records of some serials. -/
def Keyspace.eventsAt (k : Keyspace) (serials : List Serial) : List Event :=
  serials.filterMap fun s => (k.record? s).bind StoredValue.event?

theorem Keyspace.Renders.mem_eventsAt {k : Keyspace} {L : Ledger} {serials : List Serial}
    {e : Event} (hr : k.Renders L) (hfits : ∀ s h, L s = some h → h.event.Sized) :
    e ∈ k.eventsAt serials ↔ ∃ s ∈ serials, ∃ t, L s = some (.live e t) := by
  rw [eventsAt, List.mem_filterMap]
  refine exists_congr fun s => and_congr_right fun _ => ?_
  rw [hr.record? s]
  cases hL : L s with
  | none => simp
  | some h =>
    cases hrec : h.record? with
    | none =>
      rw [Option.bind_some, hrec]
      rw [Holding.record?_eq_none_iff] at hrec
      refine iff_of_false nofun ?_
      rintro ⟨t, heq⟩
      cases heq
      cases hrec
    | some v =>
      rw [Option.bind_some, hrec, Option.bind_some, event?_of_record? (hfits s h hL) hrec]
      simp

/-- A query after some whole records were demoted, and the same query before: the records that
were demoted are found with their identifiers, and all others as they were. -/
structure Reading.Retains (after before : Reading Record) (demoted : List Event) : Prop where
  outcome : before.outcome = .complete ∧ after.outcome = .complete
  once : (after.records.map Record.id).Nodup
  found : ∀ r ∈ before.records, r.id ∈ after.records.map Record.id
  unchanged : ∀ r ∈ before.records, r.id ∉ demoted.map Event.id → r ∈ after.records
  whole : ∀ e, .full e ∈ after.records → .full e ∈ before.records ∧ e ∉ demoted
  stub : ∀ e ∈ demoted, .full e ∈ before.records → ∃ t, .stub e.id t ∈ after.records
  added : ∀ r ∈ after.records, r ∉ before.records → ∃ e ∈ demoted, ∃ t, r = .stub e.id t

namespace Plan
variable {f : Filter} {p : Plan} {k k' : Keyspace} {L : Ledger} {victims : List Serial}
  {pageSize : Nat}

/-- The reading of everything that a plan finds. -/
def reading (p : Plan) (k : Keyspace) (pageSize : Nat) : Reading Record :=
  ⟨(p.found k pageSize).map Hit.record, [], .complete⟩

section
variable (hr : k.Renders L) (hfits : ∀ s h, L s = some h → h.event.Sized) (hu : L.Unique)
  (hp : p.Uniform) (hr' : k'.Renders (L.demote victims))
include hr hfits hu hp hr'

omit hp hr' in
/-- A whole event at one of the serials is demoted. -/
theorem demoted_of_mem_eventsAt {e : Event} {s : Serial} {t : UInt64}
    (he : e ∈ k.eventsAt victims) (hL : L s = some (.live e t)) :
    L.demote victims s = some (.demoted e) := by
  obtain ⟨s', hs', t', hL'⟩ := (hr.mem_eventsAt hfits).mp he
  obtain rfl : s' = s := hu s' s _ _ hL' hL rfl rfl rfl
  rw [Ledger.demote, if_pos hs', hL]
  rfl

/-- What was found is found as it was, or it was whole and is found with its identifier. -/
theorem found_demote_cases {x : Hit} (hx : x ∈ p.found k pageSize) :
    (x ∈ p.found k' pageSize ∧ ∀ e ∈ k.eventsAt victims, x.record ≠ .full e) ∨
      ∃ e ∈ k.eventsAt victims, x.record = .full e ∧
        ∃ y ∈ p.found k' pageSize, y.record = .stub e.id (p.stampFor e) := by
  obtain ⟨-, h, hL, hhit⟩ := (mem_found_iff_meets hr hfits hp).mp hx
  rcases L.demote_cases victims x.serial with hsame | ⟨e, t, hs, hlive, hdemoted⟩
  · refine .inl ⟨(mem_found_demote_of_eq hr hfits hp hr' hsame).mpr hx, fun e he hfull => ?_⟩
    obtain ⟨t, rfl⟩ := Holding.eq_live_of_hit? hhit hfull
    have hdemoted := demoted_of_mem_eventsAt hr hfits hu he hL
    rw [hsame, hL] at hdemoted
    cases hdemoted
  · obtain rfl := Option.some.inj (hlive.symm.trans hL)
    exact .inr ⟨e, (hr.mem_eventsAt hfits).mpr ⟨_, hs, t, hlive⟩, Holding.record_of_hit?_live hhit,
      exists_found_demote hr hfits hp hr' hx hlive hdemoted⟩

/-- What is found was found before, or it is the identifier of something that was demoted. -/
theorem found_of_found_demote {y : Hit} (hy : y ∈ p.found k' pageSize) :
    (y ∈ p.found k pageSize ∧ ∀ e ∈ k.eventsAt victims, y.record ≠ .full e) ∨
      ∃ e ∈ k.eventsAt victims, ∃ t, y.record = .stub e.id t := by
  obtain ⟨-, h', hL', hhit⟩ := (mem_found_demote hr hfits hp hr').mp hy
  rcases L.demote_cases victims y.serial with hsame | ⟨e, t, hs, hlive, hdemoted⟩
  · refine .inl ⟨(mem_found_demote_of_eq hr hfits hp hr' hsame).mp hy, fun e he hfull => ?_⟩
    obtain ⟨t, rfl⟩ := Holding.eq_live_of_hit? hhit hfull
    have hdemoted := demoted_of_mem_eventsAt hr hfits hu he (Ledger.live_of_demote hL')
    cases hL'.symm.trans hdemoted
  · obtain rfl := Option.some.inj (hdemoted.symm.trans hL')
    exact .inr ⟨e, (hr.mem_eventsAt hfits).mpr ⟨_, hs, t, hlive⟩, _,
      Holding.record_of_hit?_demoted hhit⟩

theorem stub_mem_reading_demote {e : Event} (he : e ∈ k.eventsAt victims)
    (hfull : .full e ∈ (p.reading k pageSize).records) :
    .stub e.id (p.stampFor e) ∈ (p.reading k' pageSize).records := by
  obtain ⟨x, hx, hrecord⟩ := List.mem_map.mp hfull
  rcases found_demote_cases hr hfits hu hp hr' hx with ⟨-, hne⟩ | ⟨e', -, hrecord', y, hy, hstub⟩
  · exact absurd hrecord (hne e he)
  · obtain rfl := Record.full.inj (hrecord.symm.trans hrecord')
    exact List.mem_map.mpr ⟨y, hy, hstub⟩

/-- **What a plan finds after records were demoted.** -/
theorem retains_demote (pageSize : Nat) :
    (p.reading k' pageSize).Retains (p.reading k pageSize) (k.eventsAt victims) where
  outcome := ⟨rfl, rfl⟩
  once := by
    have hw := L.demote_within victims
    rw [reading, List.map_map]
    exact found_ids_nodup hr' (hw.sized hfits) hp (hw.unique hu) pageSize
  found r hr₀ := by
    obtain ⟨x, hx, rfl⟩ := List.mem_map.mp hr₀
    rw [reading, List.map_map]
    rcases found_demote_cases hr hfits hu hp hr' hx with ⟨hx', -⟩ | ⟨e, -, hrecord, y, hy, hstub⟩
    · exact List.mem_map_of_mem (f := fun x : Hit => x.record.id) hx'
    · refine List.mem_map.mpr ⟨y, hy, ?_⟩
      rw [Function.comp_apply, hrecord, hstub]
      rfl
  unchanged r hr₀ hout := by
    obtain ⟨x, hx, rfl⟩ := List.mem_map.mp hr₀
    rcases found_demote_cases hr hfits hu hp hr' hx with ⟨hx', -⟩ | ⟨e, he, hrecord, -⟩
    · exact List.mem_map_of_mem hx'
    · rw [hrecord] at hout
      exact absurd (List.mem_map_of_mem he) hout
  whole e hfull := by
    obtain ⟨y, hy, hrecord⟩ := List.mem_map.mp hfull
    rcases found_of_found_demote hr hfits hu hp hr' hy with ⟨hy', hne⟩ | ⟨e', -, t, hstub⟩
    · exact ⟨List.mem_map.mpr ⟨y, hy', hrecord⟩, fun he => hne e he hrecord⟩
    · cases hrecord.symm.trans hstub
  stub e he hfull := ⟨_, stub_mem_reading_demote hr hfits hu hp hr' he hfull⟩
  added r hr₀ hnew := by
    obtain ⟨y, hy, rfl⟩ := List.mem_map.mp hr₀
    rcases found_of_found_demote hr hfits hu hp hr' hy with ⟨hy', -⟩ | h
    · exact absurd (List.mem_map_of_mem hy') hnew
    · exact h

omit hu in
/-- Records that were demoted do not come out of order. -/
theorem reading_demote_sorted (htimed : ∀ s ∈ p.scans, s.untimed = false)
    (htimes : ∀ e ∈ k.storedEvents, 0 ≤ e.createdAt) (pageSize : Nat) :
    (p.reading k' pageSize).records.Pairwise fun x y => y.createdAt ≤ x.createdAt := by
  have hlive : ∀ s e t, L.demote victims s = some (.live e t) → 0 ≤ e.createdAt := by
    intro s e t hL'
    exact htimes e ((hr.mem_storedEvents hfits).mpr ⟨s, t, Ledger.live_of_demote hL'⟩)
  have hfits' := (L.demote_within victims).sized hfits
  have htime : ∀ x ∈ p.found k' pageSize, x.record.createdAt = x.createdAt := by
    intro x hx
    obtain ⟨h, r, -, -, heq, -⟩ := (mem_found hr' hfits' (hp.timed htimed)).mp hx
    rw [heq]
  have hsorted : NewestFirst (p.found k' pageSize) :=
    found_sorted hr' hfits' hlive (hp.timed htimed)
  refine List.pairwise_map.mpr (hsorted.imp_of_mem fun {x y} hx hy hle => ?_)
  rwa [htime x hx, htime y hy]

end
end Plan

/-- A query whose limit leaves nothing out delivers everything that its plan finds. -/
theorem Archive.query_eq_reading {a : Archive} {f : Filter} {p : Plan} (hopen : a.isClosed = false)
    (hplan : Plan.ofFilter f = .ok p) (now : Int64)
    (hle : (p.found a.db.events a.config.scanPageSize.toNat).length ≤
      (a.config.effectiveLimit f.limit).toNat) :
    (a.query now f false).1 = .ok (p.reading a.db.events a.config.scanPageSize.toNat) := by
  rw [query_eq hopen hplan, Plan.hits_eq_take, List.take_of_length_le hle]
  rfl

namespace Archive

/-- An archive after the records of some serials were demoted. -/
def demote (a : Archive) (victims : List Serial) : Archive :=
  a.withTier (a.tier.step (.sweepRecords victims true))

/-- **Demoted records are still found.**  Whichever whole records of an open archive are demoted,
a query for which there is a plan counts no fewer records than before.  If its limit leaves none
of them out, it delivers every identifier that it delivered before: of what was demoted the
identifiers alone, of everything else the same records.  From an index with times, and if no whole
record is of a negative time, what was demoted comes with its time, and all in order. -/
theorem query_demote {es : List Event} {a : Archive} (ha : Reached es a) (hid : Identified es)
    (hfits : ∀ e ∈ es, e.Sized) (hopen : a.isClosed = false) (victims : List Serial) (f : Filter)
    {plan : Plan} (hplan : Plan.ofFilter f = .ok plan) (now now' : Int64) :
    ∃ n n', a.count f false = .ok n ∧ (a.demote victims).count f false = .ok n' ∧ n ≤ n' ∧
      (n' ≤ (a.config.effectiveLimit f.limit).toNat →
        ∃ before after, (a.query now f false).1 = .ok before ∧
          ((a.demote victims).query now' f false).1 = .ok after ∧
          after.Retains before (a.db.events.eventsAt victims) ∧
          ((∀ s ∈ plan.scans, s.untimed = false) →
            (∀ e ∈ a.db.events.storedEvents, 0 ≤ e.createdAt) →
            (∀ e ∈ a.db.events.eventsAt victims, .full e ∈ before.records →
              .stub e.id e.createdAt ∈ after.records) ∧
            after.records.Pairwise fun x y => y.createdAt ≤ x.createdAt)) := by
  obtain ⟨L, J, hf, hmem⟩ := ha.exists_follows hid
  have hr : a.db.events.Renders L := hf.db.events
  have hsized : ∀ s h, L s = some h → h.event.Sized := fun s h hL => hfits _ (hmem s h hL)
  have hr' : (a.demote victims).db.events.Renders (L.demote victims) :=
    hr.sweep_demote hsized victims
  have hp : plan.Uniform := Plan.uniform_of_ofFilter hplan
  let limit := (a.config.effectiveLimit f.limit).toNat
  let pageSize := a.config.scanPageSize.toNat
  have hcount : plan.count a.db.events ≤ plan.count (a.demote victims).db.events :=
    Plan.count_le_count_demote hr hsized hp hr'
  refine ⟨_, _, count_eq hopen hplan, count_eq hopen hplan, hcount, fun hlimit => ?_⟩
  -- the limit leaves nothing out, neither before nor after
  have huncut : (plan.found a.db.events pageSize).length ≤ limit :=
    (Plan.length_found_le_count hr hsized hp pageSize).trans (hcount.trans hlimit)
  have huncut' : (plan.found (a.demote victims).db.events pageSize).length ≤ limit :=
    (Plan.length_found_le_count hr' ((L.demote_within victims).sized hsized) hp pageSize).trans
      hlimit
  have hopen' : (a.demote victims).isClosed = false := hopen
  refine ⟨_, _, query_eq_reading hopen hplan now huncut, query_eq_reading hopen' hplan now' huncut',
    Plan.retains_demote hr hsized hf.unique hp hr' pageSize, fun htimed htimes => ⟨?_, ?_⟩⟩
  · intro e he hfull
    obtain ⟨s, -, t, hL⟩ := (hr.mem_eventsAt hsized).mp he
    have htime := htimes e ((hr.mem_storedEvents hsized).mpr ⟨s, t, hL⟩)
    rw [← Plan.stampFor_eq htimed htime]
    exact Plan.stub_mem_reading_demote hr hsized hf.unique hp hr' he hfull
  · exact Plan.reading_demote_sorted hr hsized hp hr' htimed htimes pageSize

/-- Of three notes two are asked for, by their author, and one of them is demoted. -/
theorem query_demote_author :
    let es : List Event := [.uniform 1 7 10 1 [], .uniform 2 7 20 1 [], .uniform 3 8 30 1 []]
    let a := fresh.saveAll 5 es
    let f := Filter.any.withAuthors [⟨List.replicate 32 7, rfl⟩]
    ∃ before after, Reached es a ∧ (a.query 9 f false).1 = .ok before ∧
      ((a.demote [1]).query 9 f false).1 = .ok after ∧
      before.records = [.full (.uniform 2 7 20 1 []), .full (.uniform 1 7 10 1 [])] ∧
      after.records = [.stub (Event.uniform 2 7 20 1 []).id 20, .full (.uniform 1 7 10 1 [])] ∧
      after.Retains before [.uniform 2 7 20 1 []] := by
  intro es a f
  have ha : Reached es a := Reached.fresh.saveAll 5 es
  have hplan : Plan.ofFilter f = .ok (Plan.choose f) := rfl
  have hdemoted : a.db.events.eventsAt [1] = [.uniform 2 7 20 1 []] := by decide +kernel
  obtain ⟨n, n', -, hcount, -, hfound⟩ := query_demote ha (by decide +kernel) (by decide +kernel)
    (by decide +kernel) [1] f hplan 9 9
  have hn : ((a.demote [1]).count f false).toOption = some 2 := by decide +kernel
  rw [hcount] at hn
  obtain rfl : n' = 2 := Option.some.inj hn
  obtain ⟨before, after, hbefore, hafter, hretains, -⟩ := hfound (by decide +kernel)
  have hread : (a.query 9 f false).1.toOption.map (·.records) =
      some [.full (.uniform 2 7 20 1 []), .full (.uniform 1 7 10 1 [])] := by decide +kernel
  have hread' : ((a.demote [1]).query 9 f false).1.toOption.map (·.records) =
      some [.stub (Event.uniform 2 7 20 1 []).id 20, .full (.uniform 1 7 10 1 [])] := by
    decide +kernel
  rw [hbefore] at hread
  rw [hafter] at hread'
  rw [hdemoted] at hretains
  exact ⟨before, after, ha, hbefore, hafter, Option.some.inj hread, Option.some.inj hread',
    hretains⟩

end Archive
end EventArchive
