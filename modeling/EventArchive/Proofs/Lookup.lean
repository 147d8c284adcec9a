import EventArchive.Proofs.Changes

/-! # What the indices find

The key space of a ledger is searched through its indices, which hold only the
beginnings of identifiers and of authors.  Finding an event by its identifier
gives the one record of it; finding the versions of a slot gives the whole
records of the slot and, if the slot has no identifier, the demoted records of
its kind and of authors with the same first eight bytes.
-/
namespace EventArchive

/-! ### Keys and holdings -/

namespace Keyspace.Renders
variable {k : Keyspace} {L : Ledger} {s : Serial} {h : Holding} {key v : Bytes}

theorem get?_of_mem_keys (hr : k.Renders L) (hs : L s = some h) (hm : key ∈ h.keys s) :
    k.get? key = some [] := by
  rw [hr.get?_own (Key.serial?_of_mem_index (Holding.mem_index_of_mem_keys hm)), hs,
    Option.bind_some]
  exact Holding.value?_eq_some_iff.mpr (.inr (.inr ⟨hm, rfl⟩))

/-- A key of an index is one of the keys of the holding under its serial. -/
theorem exists_mem_keys {l : Layout} (hr : k.Renders L) (hv : k.get? key = some v)
    (hl : Key.layout? key = some l) (hsec : l.isSecondary = true) :
    ∃ s h, L s = some h ∧ Key.serial? key = some s ∧ key ∈ h.keys s := by
  rw [hr key] at hv
  obtain ⟨s, h, hs, hval⟩ := Ledger.value?_eq_some_iff.mp hv
  refine ⟨s, h, hs, Holding.serial?_of_value? hval, ?_⟩
  rcases Holding.value?_eq_some_iff.mp hval with ⟨rfl, -⟩ | ⟨rfl, -⟩ | ⟨hm, -⟩
  · rw [Key.layout?_event] at hl
    cases hl
    cases hsec
  · rw [Key.layout?_counter] at hl
    cases hl
    cases hsec
  · exact hm

/-- A key of an index that needs no tags is one of a record. -/
theorem exists_mem_index {l : Layout} (hr : k.Renders L) (hv : k.get? key = some v)
    (hl : Key.layout? key = some l) (hsec : l.isSecondary = true) (htag : l.isTag = false) :
    ∃ s h, L s = some h ∧ h.stub?.isSome ∧ Key.serial? key = some s ∧
      key ∈ Key.index h.event s := by
  obtain ⟨s, h, hs, hserial, hm⟩ := hr.exists_mem_keys hv hl hsec
  refine ⟨s, h, hs, ?_, hserial, Holding.mem_index_of_mem_keys hm⟩
  cases h with
  | live e t => rfl
  | demoted e => rfl
  | queued e =>
    obtain ⟨l', hl', htag'⟩ := Key.layout?_of_mem_tagged hm
    rw [hl] at hl'
    cases hl'
    rw [htag] at htag'
    cases htag'

/-- A record has all index keys of its event. -/
theorem get?_of_mem_index (hr : k.Renders L) (hs : L s = some h) (hheld : h.stub?.isSome)
    (hm : key ∈ Key.index h.event s) : k.get? key = some [] := by
  refine hr.get?_of_mem_keys hs ?_
  cases h with
  | live e t => exact hm
  | demoted e => exact hm
  | queued e => cases hheld

end Keyspace.Renders

/-! ### Finding an event -/

namespace Keyspace
variable {k : Keyspace} {s : Serial} {i : EventId} {v : Bytes}

/-- What is found by its identifier is a record that begins with it. -/
theorem exists_record_of_locate {found : Located} (h : k.locate i = some found) :
    ∃ v, k.record? found.serial = some v ∧ StoredValue.idBytes? v = some i.bytes ∧
      StoredValue.isStub v = found.stub := by
  obtain ⟨entry, -, hat⟩ := List.exists_of_findSome?_eq_some h
  simp only [locateAt] at hat
  split at hat
  · cases hat
  · simp only [Option.bind_eq_bind, Option.bind_eq_some_iff, Option.ite_none_right_eq_some] at hat
    obtain ⟨s, -, v, hv, hid, hfound⟩ := hat
    cases hfound
    exact ⟨v, hv, hid, rfl⟩

/-- A record that begins with an identifier is found if it has the key of it. -/
theorem isSome_locate (hkey : (k.get? (Key.id i s)).isSome) (hv : k.record? s = some v)
    (hid : StoredValue.idBytes? v = some i.bytes) : (k.locate i).isSome := by
  obtain ⟨entry, hentry⟩ := Option.isSome_iff_exists.mp hkey
  have hmem : (Key.id i s, entry) ∈
      k.rangeThrough (Key.idStem i) (Key.idStem i ++ List.replicate 8 0xff) := by
    rw [SortedMap.mem_rangeThrough, Bytes.exists_append_of_through]
    exact ⟨hentry, _, Key.id_eq _ _,
      Bytes.isLE_compare_replicate (Nat.le_of_eq (Bytes.length_bigEndian _ _))⟩
  have hlen : (Key.id i s).length = (Key.idStem i).length + 8 := by
    rw [Key.id_eq, List.length_append, Bytes.length_bigEndian]
  have hat : k.locateAt i (Key.id i s) = some ⟨s, StoredValue.isStub v⟩ := by
    simp [locateAt, hlen, hv, hid]
  rw [locate, List.findSome?_isSome_iff]
  exact ⟨_, hmem, by rw [hat]; rfl⟩

end Keyspace

namespace Keyspace.Renders
variable {k : Keyspace} {L : Ledger}

/-- **Finding an event by its identifier** gives the record of it. -/
theorem locate_eq_some_iff (hr : k.Renders L) (hu : L.Unique) {i : EventId} {found : Located} :
    k.locate i = some found ↔
      ∃ h, L found.serial = some h ∧ h.event.id = i ∧ h.stub? = some found.stub := by
  have hsound : ∀ {found}, k.locate i = some found →
      ∃ h, L found.serial = some h ∧ h.event.id = i ∧ h.stub? = some found.stub := by
    intro found hfound
    obtain ⟨v, hv, hid, hstub⟩ := exists_record_of_locate hfound
    obtain ⟨h, hL, hrec⟩ := hr.record?_eq_some_iff.mp hv
    rw [Holding.idBytes?_of_record? hrec] at hid
    refine ⟨h, hL, FixedBytes.ext_bytes (Option.some.inj hid), ?_⟩
    rw [Holding.stub?_of_record? hrec, hstub]
  refine ⟨hsound, ?_⟩
  rintro ⟨h, hL, rfl, hstub⟩
  have hheld : h.stub?.isSome := by rw [hstub]; rfl
  obtain ⟨v, hrec⟩ := Option.ne_none_iff_exists'.mp fun hnone => by
    rw [Holding.record?_eq_none_iff.mp hnone] at hstub
    cases hstub
  have hkey : k.get? (Key.id h.event.id found.serial) = some [] :=
    hr.get?_of_mem_index hL hheld (Key.mem_index_iff.mpr (.inl rfl))
  have hsome : (k.locate h.event.id).isSome :=
    isSome_locate (by rw [hkey]; rfl) (hr.record?_eq_some_iff.mpr ⟨h, hL, hrec⟩)
      (Holding.idBytes?_of_record? hrec)
  obtain ⟨found', hfound'⟩ := Option.isSome_iff_exists.mp hsome
  obtain ⟨h', hL', hid', hstub'⟩ := hsound hfound'
  -- what the search ends with is a record of the same event, and there is only one
  have hserial := hu _ _ h' h hL' hL (by rw [hstub']; rfl) hheld hid'
  rw [hserial, hL] at hL'
  cases hL'
  rw [hstub] at hstub'
  rw [hfound']
  cases found
  cases found'
  simp_all

theorem locate_eq_none_iff (hr : k.Renders L) (hu : L.Unique) {i : EventId} :
    k.locate i = none ↔ ∀ s h, L s = some h → h.stub?.isSome → h.event.id ≠ i := by
  rw [Option.eq_none_iff_forall_ne_some]
  constructor
  · intro hnone s h hL hheld hid
    obtain ⟨stub, hstub⟩ := Option.isSome_iff_exists.mp hheld
    exact hnone ⟨s, stub⟩ ((hr.locate_eq_some_iff hu).mpr ⟨h, hL, hid, hstub⟩)
  · intro hall found hfound
    obtain ⟨h, hL, hid, hstub⟩ := (hr.locate_eq_some_iff hu).mp hfound
    exact hall _ h hL (by rw [hstub]; rfl) hid

end Keyspace.Renders

/-! ### Finding the versions of a slot -/

theorem Event.slot?_eq_some {e : Event} {slot : Slot} (h : e.slot? = some slot) :
    slot.pubkey = e.pubkey ∧ slot.kind = e.kind := by
  rw [Event.slot?] at h
  cases hret : e.kind.retention with
  | replaceable =>
    rw [hret] at h
    cases h
    exact ⟨rfl, rfl⟩
  | parameterized =>
    rw [hret] at h
    obtain ⟨d, -, rfl⟩ := Option.map_eq_some_iff.mp h
    exact ⟨rfl, rfl⟩
  | regular =>
    rw [hret] at h
    cases h
  | ephemeral =>
    rw [hret] at h
    cases h

theorem Event.slot?_of_replaceable {e : Event} (hkind : e.kind.retention = .replaceable) :
    e.slot? = some ⟨e.pubkey, e.kind, none⟩ := by
  rw [slot?, hkind]

namespace Holding

/-- What a search shows of a holding. -/
def shown? : Holding → Option Record
  | live e _ => some (.full e)
  | demoted e => some (.stub e.id (timeOfClamped (clampTime e.createdAt)))
  | queued _ => none

/-- Whether a holding is found among the versions of a slot: a whole event by its own slot, a
demoted one by what the keys hold of its author, and its kind. -/
def CompetesFor (slot : Slot) : Holding → Prop
  | live e _ => e.slot? = some slot
  | demoted e =>
    slot.identifier = none ∧ e.pubkey.head8 = slot.pubkey.head8 ∧ e.kind = slot.kind
  | queued _ => False

variable {h : Holding} {slot : Slot}

/-- What is shown of a record is old enough exactly if its event is. -/
theorem yieldsTo_eq {e : Event} {p : Prior} (hshown : h.shown? = some p.record)
    (htime : 0 ≤ h.event.createdAt) : p.yieldsTo e = h.event.isOlderThan e := by
  cases h with
  | live e' access =>
    rw [Prior.yieldsTo, ← Option.some.inj hshown]
    rfl
  | demoted e' =>
    rw [Prior.yieldsTo, ← Option.some.inj hshown]
    show isOlder (timeOfClamped (clampTime e'.createdAt)) e'.id _ _ = _
    rw [timeOfClamped_clampTime (t := e'.createdAt) htime]
    rfl
  | queued e' => cases hshown

theorem CompetesFor.isSome_stub? (hc : h.CompetesFor slot) : h.stub?.isSome := by
  cases h with
  | live e t => rfl
  | demoted e => rfl
  | queued e => exact hc.elim

theorem CompetesFor.head8_eq (hc : h.CompetesFor slot) :
    h.event.pubkey.head8 = slot.pubkey.head8 ∧ h.event.kind = slot.kind := by
  cases h with
  | live e t =>
    obtain ⟨hp, hk⟩ := Event.slot?_eq_some hc
    rw [hp, hk]
    exact ⟨rfl, rfl⟩
  | demoted e => exact hc.2
  | queued e => exact hc.elim

end Holding

namespace Keyspace.Renders
variable {k : Keyspace} {L : Ledger} {s : Serial} {h : Holding} {key v : Bytes} {slot : Slot}

/-- A key that is looked at for a slot is that of a record of its kind and of an author with the
same first eight bytes. -/
theorem eq_of_mem_slot (hr : k.Renders L)
    (hmem : (key, v) ∈ k.rangeThrough (Key.pubkeyKindStem slot.pubkey slot.kind)
      (Key.pubkeyKindStem slot.pubkey slot.kind ++ List.replicate 16 0xff)) :
    ∃ s h, L s = some h ∧ h.stub?.isSome ∧
      h.event.pubkey.head8 = slot.pubkey.head8 ∧ h.event.kind = slot.kind ∧
      key = Key.timed (Key.pubkeyKindStem slot.pubkey slot.kind) h.event.createdAt s := by
  rw [SortedMap.mem_rangeThrough, Bytes.exists_append_of_through] at hmem
  obtain ⟨hv, r, hkey, -⟩ := hmem
  have hl : Key.layout? key = some .pubkeyKind := by
    rw [hkey, Key.pubkeyKindStem_eq]
    exact Key.layout?_cons .pubkeyKind _
  obtain ⟨s, h, hL, hheld, -, hm⟩ := hr.exists_mem_index hv hl rfl rfl
  have heq := Key.eq_timed_of_mem_index hm hl rfl
  have hstem : Key.pubkeyKindStem h.event.pubkey h.event.kind =
      Key.pubkeyKindStem slot.pubkey slot.kind := by
    rw [Key.timed_eq, hkey] at heq
    refine (List.append_inj heq ?_).1.symm
    rw [Key.length_pubkeyKindStem, Key.length_pubkeyKindStem]
  rw [hstem] at heq
  obtain ⟨hhead, hkind⟩ := Key.pubkeyKindStem_inj.mp hstem
  exact ⟨s, h, hL, hheld, hhead, hkind, heq⟩

/-- What is found behind a key of a slot is a version of it, as it is shown. -/
theorem priorAt_sound {p : Prior} (hr : k.Renders L) (hL : L s = some h)
    (hhead : h.event.pubkey.head8 = slot.pubkey.head8) (hkind : h.event.kind = slot.kind)
    (hp : k.priorAt slot (Key.timed (Key.pubkeyKindStem slot.pubkey slot.kind)
      h.event.createdAt s) = some p) :
    p.serial = s ∧ h.CompetesFor slot ∧ h.shown? = some p.record := by
  simp only [Keyspace.priorAt, Key.serial?_timed, Key.timestamp?_timed, Option.bind_eq_bind,
    Option.bind_some, hr.record?, hL] at hp
  cases h with
  | live e t =>
    simp only [Holding.record?, Option.bind_some] at hp
    cases hd : StoredValue.decode (StoredValue.encode e) with
    | error err =>
      rw [hd] at hp
      cases hp
    | ok value =>
      obtain rfl := StoredValue.eq_full_of_decode_encode hd
      rw [hd] at hp
      obtain ⟨hslot, hp⟩ := Option.ite_none_right_eq_some.mp hp
      cases hp
      exact ⟨rfl, hslot, rfl⟩
  | demoted e =>
    simp only [Holding.record?, Option.bind_some, StoredValue.decode_id] at hp
    split at hp
    · cases hp
    · rename_i hident
      cases hp
      exact ⟨rfl, ⟨Option.not_isSome_iff_eq_none.mp hident, hhead, hkind⟩, rfl⟩
  | queued e => cases hp

/-- A version of a slot is found behind its key, if what was written can be read. -/
theorem priorAt_total (hr : k.Renders L) (hL : L s = some h) (hc : h.CompetesFor slot)
    (hfits : h.event.Sized) :
    ∃ p, k.priorAt slot (Key.timed (Key.pubkeyKindStem slot.pubkey slot.kind)
      h.event.createdAt s) = some p := by
  simp only [Keyspace.priorAt, Key.serial?_timed, Key.timestamp?_timed, Option.bind_eq_bind,
    Option.bind_some, hr.record?, hL]
  cases h with
  | live e t =>
    simp only [Holding.record?, Option.bind_some]
    rw [StoredValue.decode_encode (e := e) hfits]
    exact ⟨_, if_pos hc⟩
  | demoted e =>
    simp only [Holding.record?, Option.bind_some, StoredValue.decode_id, hc.1]
    exact ⟨_, rfl⟩
  | queued e => exact hc.elim

/-- What is found for a slot is a version of it, as it is shown. -/
theorem priors_sound {p : Prior} (hr : k.Renders L) (hp : p ∈ k.priors slot) :
    ∃ h, L p.serial = some h ∧ h.CompetesFor slot ∧ h.shown? = some p.record := by
  obtain ⟨⟨key, v⟩, hmem, hp⟩ := List.mem_filterMap.mp hp
  obtain ⟨-, hp⟩ := Option.ite_none_right_eq_some.mp hp
  obtain ⟨s, h, hL, -, hhead, hkind, rfl⟩ := hr.eq_of_mem_slot hmem
  obtain ⟨rfl, hc, hshown⟩ := hr.priorAt_sound hL hhead hkind hp
  exact ⟨h, hL, hc, hshown⟩

/-- Every version of a slot is found, if what was written can be read. -/
theorem priors_total (hr : k.Renders L) (hL : L s = some h) (hc : h.CompetesFor slot)
    (hfits : h.event.Sized) : ∃ p ∈ k.priors slot, p.serial = s := by
  obtain ⟨p, hp⟩ := hr.priorAt_total hL hc hfits
  obtain ⟨hhead, hkind⟩ := hc.head8_eq
  have hstem : Key.pubkeyKindStem h.event.pubkey h.event.kind =
      Key.pubkeyKindStem slot.pubkey slot.kind := Key.pubkeyKindStem_inj.mpr ⟨hhead, hkind⟩
  refine ⟨p, ?_, (hr.priorAt_sound hL hhead hkind hp).1⟩
  have hkey := hr.get?_of_mem_index hL hc.isSome_stub?
    (Key.mem_index_iff.mpr (.inr (.inl ⟨.pubkeyKind, _, rfl, rfl⟩)))
  rw [hstem] at hkey
  refine List.mem_filterMap.mpr
    ⟨(Key.timed (Key.pubkeyKindStem slot.pubkey slot.kind) h.event.createdAt s, []), ?_, ?_⟩
  · rw [SortedMap.mem_rangeThrough, Bytes.exists_append_of_through]
    refine ⟨hkey, _, Key.timed_eq _ _ _, Bytes.isLE_compare_replicate ?_⟩
    simp [Bytes.length_bigEndian]
  · rw [if_pos (by simp [Key.timed_eq, Bytes.length_bigEndian]), hp]

/-- A version of a slot is found once. -/
theorem priors_nodup (hr : k.Renders L) (slot : Slot) :
    ((k.priors slot).map (·.serial)).Nodup := by
  rw [List.Nodup, List.pairwise_map, Keyspace.priors, List.pairwise_filterMap]
  have hsorted : (k.rangeThrough (Key.pubkeyKindStem slot.pubkey slot.kind)
      (Key.pubkeyKindStem slot.pubkey slot.kind ++ List.replicate 16 0xff)).Pairwise
        (fun a b => compare a.1 b.1 = .lt) := k.sorted.filter _
  refine hsorted.imp_of_mem fun {a b} ha hb hlt p hp p' hp' heq => ?_
  obtain ⟨-, hp⟩ := Option.ite_none_right_eq_some.mp hp
  obtain ⟨-, hp'⟩ := Option.ite_none_right_eq_some.mp hp'
  obtain ⟨s, h, hL, -, hhead, hkind, hkey⟩ := hr.eq_of_mem_slot ha
  obtain ⟨s', h', hL', -, hhead', hkind', hkey'⟩ := hr.eq_of_mem_slot hb
  rw [hkey] at hp
  rw [hkey'] at hp'
  obtain rfl := (hr.priorAt_sound hL hhead hkind hp).1
  obtain rfl := (hr.priorAt_sound hL' hhead' hkind' hp').1
  -- one serial has one holding, and with it one key for the slot
  rw [← heq, hL] at hL'
  cases hL'
  rw [hkey, hkey', ← heq] at hlt
  exact SortedMap.not_compare_self_lt _ hlt

end Keyspace.Renders

/-! ### Finding the rivals of an event -/

/-- Whether a holding is found among the versions of the slot of an event. -/
def Holding.RivalOf (e : Event) (h : Holding) : Prop :=
  ∃ slot, e.slot? = some slot ∧ h.CompetesFor slot

theorem Holding.RivalOf.isSome_stub? {e : Event} {h : Holding} (hrival : h.RivalOf e) :
    h.stub?.isSome := by
  obtain ⟨slot, -, hc⟩ := hrival
  exact hc.isSome_stub?

/-- A rival is of the same kind, and as far as keys tell of the same author. -/
theorem Holding.RivalOf.head8_eq {e : Event} {h : Holding} (hrival : h.RivalOf e) :
    h.event.pubkey.head8 = e.pubkey.head8 ∧ h.event.kind = e.kind := by
  obtain ⟨slot, hslot, hc⟩ := hrival
  obtain ⟨hp, hk⟩ := Event.slot?_eq_some hslot
  obtain ⟨hhead, hkind⟩ := hc.head8_eq
  exact ⟨hp ▸ hhead, hkind.trans hk⟩

/-- For a replaceable kind the rivals are the records of the author and kind, if no other author
begins with the same bytes. -/
theorem Holding.rivalOf_replaceable_iff {e : Event} {h : Holding}
    (hkind : e.kind.retention = .replaceable) (hheld : h.stub?.isSome)
    (hauthor : h.event.pubkey.head8 = e.pubkey.head8 → h.event.pubkey = e.pubkey) :
    h.RivalOf e ↔ h.event.pubkey = e.pubkey ∧ h.event.kind = e.kind := by
  constructor
  · intro hrival
    obtain ⟨hhead, hk⟩ := hrival.head8_eq
    exact ⟨hauthor hhead, hk⟩
  · rintro ⟨hpubkey, hk⟩
    refine ⟨_, Event.slot?_of_replaceable hkind, ?_⟩
    cases h with
    | live e' access =>
      have hslot' := Event.slot?_of_replaceable (e := e') (hk ▸ hkind)
      exact hslot'.trans (congrArg some (Slot.mk.injEq .. ▸ ⟨hpubkey, hk, rfl⟩))
    | demoted e' => exact ⟨rfl, congrArg FixedBytes.head8 hpubkey, hk⟩
    | queued e' => cases hheld

namespace Keyspace.Renders
variable {k : Keyspace} {L : Ledger} {s : Serial} {h : Holding} {e : Event}

theorem rivals_sound {p : Prior} (hr : k.Renders L) (hp : p ∈ k.rivals e) :
    ∃ h, L p.serial = some h ∧ h.RivalOf e ∧ h.shown? = some p.record := by
  rw [Keyspace.rivals] at hp
  cases hslot : e.slot? with
  | none =>
    rw [hslot] at hp
    cases hp
  | some slot =>
    rw [hslot] at hp
    obtain ⟨h, hL, hc, hshown⟩ := hr.priors_sound hp
    exact ⟨h, hL, ⟨slot, hslot, hc⟩, hshown⟩

theorem rivals_total (hr : k.Renders L) (hL : L s = some h) (hc : h.RivalOf e)
    (hfits : h.event.Sized) : ∃ p ∈ k.rivals e, p.serial = s := by
  obtain ⟨slot, hslot, hc⟩ := hc
  rw [Keyspace.rivals, hslot]
  exact hr.priors_total hL hc hfits

/-- A rival is found, and is shown as old as it is. -/
theorem exists_rival (hr : k.Renders L) (hL : L s = some h) (hc : h.RivalOf e)
    (hfits : h.event.Sized) (htime : 0 ≤ h.event.createdAt) :
    ∃ p ∈ k.rivals e, p.serial = s ∧ p.yieldsTo e = h.event.isOlderThan e := by
  obtain ⟨p, hp, hserial⟩ := hr.rivals_total hL hc hfits
  obtain ⟨h', hL', -, hshown⟩ := hr.rivals_sound hp
  rw [hserial, hL] at hL'
  cases hL'
  exact ⟨p, hp, hserial, Holding.yieldsTo_eq hshown htime⟩

theorem rivals_nodup (hr : k.Renders L) (e : Event) : ((k.rivals e).map (·.serial)).Nodup := by
  rw [Keyspace.rivals]
  split
  · exact hr.priors_nodup _
  · exact List.nodup_nil

end Keyspace.Renders
end EventArchive
