import EventArchive.Proofs.Ownership

/-! # The contents of a tier

Seen from outside, a tier is a map from identifiers to events, each whole or
demoted (`Contents`).  Keys hold the beginnings of identifiers and of authors and
times that are not negative, so the map is what the store makes of its keys only
for events that these tell apart (`Separable`).  For them saving and deleting
are what they should be on the map: which versions of a slot an event displaces,
and whether it is stored at all, depends on the events alone.
-/
namespace EventArchive

/-- Another serial can be given out: the lease or the space of serials has room for it. -/
def Lease.HasRoom (l : Lease) : Prop := l.next < l.limit ∨ l.next.toNat + l.batch.toNat < 2 ^ 64

instance (l : Lease) : Decidable l.HasRoom :=
  inferInstanceAs (Decidable (l.next < l.limit ∨ l.next.toNat + l.batch.toNat < 2 ^ 64))

theorem Lease.issue_ne_error {l : Lease} (hroom : l.HasRoom) (db : Database)
    (err : ArchiveError) : l.issue db ≠ .error err := by
  intro herror
  rcases l.issue_cases db with ⟨-, hok⟩ | ⟨-, -, hok⟩ | ⟨hused, hfull, -⟩
  · cases hok.symm.trans herror
  · cases hok.symm.trans herror
  · rcases hroom with hlt | hlt
    · exact UInt64.not_le.mpr hlt hused
    · exact absurd hlt (Nat.not_lt.mpr hfull)

theorem Kind.retention_eq_ephemeral_iff (k : Kind) :
    k.retention = .ephemeral ↔ 20000 ≤ k.code.toNat ∧ k.code.toNat < 30000 := by
  rw [Kind.retention]
  split_ifs <;> simp <;> omega

/-! ### Contents -/

/-- What a tier has of an event. -/
structure Entry where
  serial : Serial
  event : Event
  demoted : Bool
  deriving DecidableEq

/-- The events of a tier by their identifiers. -/
abbrev Contents := EventId → Option Entry

namespace Entry

/-- Whether an entry is an earlier version for an event: one of the same author and kind if the
kind is replaceable; a whole one of the same identifier as well if the kind is parameterized and
the event has an identifier. -/
def isPriorOf (e : Event) (x : Entry) : Bool :=
  match e.kind.retention with
  | .replaceable => x.event.pubkey == e.pubkey && x.event.kind == e.kind
  | .parameterized =>
    e.identifier?.isSome && !x.demoted && x.event.pubkey == e.pubkey && x.event.kind == e.kind
      && x.event.identifier? == e.identifier?
  | .regular | .ephemeral => false

end Entry

namespace Contents

/-- An entry that competes with an event. -/
def Prior (C : Contents) (e : Event) (x : Entry) : Prop :=
  (∃ i, C i = some x) ∧ x.isPriorOf e = true

/-- **What saving an event means** for the contents of a tier, if a new event takes the serial
`s`. -/
structure Saves (C : Contents) (e : Event) (s : Serial) (o : SaveOutcome) (C' : Contents) :
    Prop where
  ephemeral : o = .ephemeral ↔ 20000 ≤ e.kind.code.toNat ∧ e.kind.code.toNat < 30000
  duplicate : o = .duplicate ↔ o ≠ .ephemeral ∧ ∃ x, C e.id = some x ∧ x.demoted = false
  revived : o = .revived ↔ o ≠ .ephemeral ∧ ∃ x, C e.id = some x ∧ x.demoted = true
  superseded : o = .superseded ↔
    o ≠ .ephemeral ∧ C e.id = none ∧ ∃ x, C.Prior e x ∧ x.event.isOlderThan e = false
  stored : o = .stored ↔
    o ≠ .ephemeral ∧ C e.id = none ∧ ∀ x, C.Prior e x → x.event.isOlderThan e = true
  after_stored : o = .stored → C' = fun i =>
    if i = e.id then some ⟨s, e, false⟩ else (C i).filter fun x => !x.isPriorOf e
  after_revived : o = .revived → ∃ s', C e.id = some ⟨s', e, true⟩ ∧
    C' = Function.update C e.id (some ⟨s', e, false⟩)
  unchanged : o ≠ .stored → o ≠ .revived → C' = C

/-- The case in which saving an event has an outcome. -/
def Case (C : Contents) (e : Event) : SaveOutcome → Prop
  | .ephemeral => e.kind.retention = .ephemeral
  | .duplicate => e.kind.retention ≠ .ephemeral ∧ ∃ x, C e.id = some x ∧ x.demoted = false
  | .revived => e.kind.retention ≠ .ephemeral ∧ ∃ x, C e.id = some x ∧ x.demoted = true
  | .superseded => e.kind.retention ≠ .ephemeral ∧ C e.id = none ∧
    ∃ x, C.Prior e x ∧ x.event.isOlderThan e = false
  | .stored => e.kind.retention ≠ .ephemeral ∧ C e.id = none ∧
    ∀ x, C.Prior e x → x.event.isOlderThan e = true

/-- No two cases hold at once. -/
theorem Case.unique {C : Contents} {e : Event} {o o' : SaveOutcome} (h : C.Case e o)
    (h' : C.Case e o') : o = o' := by
  cases o <;> cases o' <;> first | rfl | (exfalso; simp only [Case] at h h'; grind)

/-- The case decides the outcome. -/
theorem Saves.of_case {C C' : Contents} {e : Event} {s : Serial} {o : SaveOutcome}
    (hcase : C.Case e o)
    (hstored : o = .stored → C' = fun i =>
      if i = e.id then some ⟨s, e, false⟩ else (C i).filter fun x => !x.isPriorOf e)
    (hrevived : o = .revived → ∃ s', C e.id = some ⟨s', e, true⟩ ∧
      C' = Function.update C e.id (some ⟨s', e, false⟩))
    (hsame : o ≠ .stored → o ≠ .revived → C' = C) : C.Saves e s o C' := by
  have hiff : ∀ o', o = o' ↔ C.Case e o' := fun o' =>
    ⟨fun heq => heq ▸ hcase, fun h => hcase.unique h⟩
  have hkind : o ≠ .ephemeral ↔ e.kind.retention ≠ .ephemeral := not_congr (hiff .ephemeral)
  refine ⟨?_, ?_, ?_, ?_, ?_, hstored, hrevived, hsame⟩
  · rw [hiff, ← Kind.retention_eq_ephemeral_iff]
    exact Iff.rfl
  · rw [hkind, hiff]
    exact Iff.rfl
  · rw [hkind, hiff]
    exact Iff.rfl
  · rw [hkind, hiff]
    exact Iff.rfl
  · rw [hkind, hiff]
    exact Iff.rfl

/-- **What deleting an event means** for the contents of a tier. -/
structure Deletes (C : Contents) (e : Event) (o : DeleteOutcome) (C' : Contents) : Prop where
  deleted : o = .deleted ↔ (C e.id).isSome
  after : C' = Function.update C e.id none

end Contents

/-! ### The contents of a ledger -/

namespace Tier

/-- The contents of a tier: of the events that were stored, those of which there is a record. -/
def contents (t : Tier) (journal : List (Serial × Event)) : Contents := fun i =>
  journal.findSome? fun p =>
    if p.2.id = i then
      (t.db.events.record? p.1).map fun v => ⟨p.1, p.2, StoredValue.isStub v⟩
    else none

/-- The contents after some transactions on a new tier. -/
def contentsAfter (batch : UInt64) (xs : List Transaction) : Contents :=
  ((fresh batch).run xs).contents ((fresh batch).journal xs)

namespace Follows
variable {t : Tier} {L : Ledger} {J : List (Serial × Event)} {i : EventId} {x : Entry}

/-- The entries of a tier are the records of its ledger. -/
theorem contents_eq_some_iff (hf : t.Follows L J) : t.contents J i = some x ↔
    ∃ h, L x.serial = some h ∧ h.event = x.event ∧ h.stub? = some x.demoted ∧ x.event.id = i := by
  have hsound : ∀ {x}, t.contents J i = some x →
      ∃ h, L x.serial = some h ∧ h.event = x.event ∧ h.stub? = some x.demoted ∧
        x.event.id = i := by
    intro x hx
    obtain ⟨⟨s, e⟩, hp, hx⟩ := List.exists_of_findSome?_eq_some hx
    obtain ⟨hid, hx⟩ := Option.ite_none_right_eq_some.mp hx
    obtain ⟨v, hv, rfl⟩ := Option.map_eq_some_iff.mp hx
    obtain ⟨h, hL, hrec⟩ := hf.db.events.record?_eq_some_iff.mp hv
    exact ⟨h, hL, hf.event_eq hL hp, Holding.stub?_of_record? hrec, hid⟩
  refine ⟨hsound, ?_⟩
  rintro ⟨h, hL, he, hstub, rfl⟩
  have hheld : h.stub?.isSome := by rw [hstub]; rfl
  obtain ⟨v, hrec⟩ : ∃ v, h.record? = some v := by
    cases hrec : h.record? with
    | none =>
      rw [Holding.record?_eq_none_iff.mp hrec] at hstub
      cases hstub
    | some v => exact ⟨v, rfl⟩
  -- the record is among those that are looked at, so one is found, and there is no other
  have hsome : (t.contents J x.event.id).isSome := by
    rw [contents, List.findSome?_isSome_iff]
    refine ⟨(x.serial, x.event), he ▸ hf.stored _ h hL, ?_⟩
    rw [if_pos rfl, hf.db.events.record?_eq_some_iff.mpr ⟨h, hL, hrec⟩]
    rfl
  obtain ⟨x', hx'⟩ := Option.isSome_iff_exists.mp hsome
  obtain ⟨h', hL', he', hstub', hid'⟩ := hsound hx'
  have hserial : x'.serial = x.serial := by
    refine hf.unique _ _ h' h hL' hL (by rw [hstub']; rfl) hheld ?_
    rw [he', he, hid']
  rw [hserial, hL] at hL'
  cases hL'
  rw [hstub] at hstub'
  rw [hx', Option.some.injEq]
  cases x
  cases x'
  simp_all

theorem contents_eq_none_iff (hf : t.Follows L J) : t.contents J i = none ↔
    ∀ s h, L s = some h → h.stub?.isSome → h.event.id ≠ i := by
  rw [Option.eq_none_iff_forall_ne_some]
  constructor
  · intro hnone s h hL hheld hid
    obtain ⟨stub, hstub⟩ := Option.isSome_iff_exists.mp hheld
    exact hnone ⟨s, h.event, stub⟩ (hf.contents_eq_some_iff.mpr ⟨h, hL, rfl, hstub, hid⟩)
  · intro hall x hx
    obtain ⟨h, hL, he, hstub, hid⟩ := hf.contents_eq_some_iff.mp hx
    exact hall _ h hL (by rw [hstub]; rfl) (by rw [he, hid])

/-- Tiers with one ledger have the same contents. -/
theorem contents_eq {t' : Tier} {J' : List (Serial × Event)} (hf : t.Follows L J)
    (hf' : t'.Follows L J') : t'.contents J' = t.contents J := by
  funext i
  refine Option.ext fun x => ?_
  rw [hf'.contents_eq_some_iff, hf.contents_eq_some_iff]

end Follows
end Tier

/-! ### Events that keys tell apart -/

/-- Events that keys and records tell apart: identifiers name events, the beginning of a public key
names an author, no time is before 1970, and all lengths can be written. -/
structure Separable (es : List Event) : Prop where
  identified : Identified es
  authors : ∀ a ∈ es, ∀ b ∈ es, a.pubkey.head8 = b.pubkey.head8 → a.pubkey = b.pubkey
  times : ∀ a ∈ es, 0 ≤ a.createdAt
  sized : ∀ a ∈ es, a.Sized

instance (es : List Event) : Decidable (Separable es) :=
  decidable_of_iff (Identified es ∧
      (∀ a ∈ es, ∀ b ∈ es, a.pubkey.head8 = b.pubkey.head8 → a.pubkey = b.pubkey) ∧
      (∀ a ∈ es, 0 ≤ a.createdAt) ∧ ∀ a ∈ es, a.Sized)
    ⟨fun h => ⟨h.1, h.2.1, h.2.2.1, h.2.2.2⟩,
      fun h => ⟨h.identified, h.authors, h.times, h.sized⟩⟩

theorem Event.slot?_of_parameterized {e : Event} (hkind : e.kind.retention = .parameterized) :
    e.slot? = e.identifier?.map fun d => ⟨e.pubkey, e.kind, some d⟩ := by
  rw [slot?, hkind]

namespace Tier.Follows
variable {t : Tier} {L : Ledger} {J : List (Serial × Event)} {e : Event} {x : Entry}
  {h : Holding}

/-- A holding is found as a rival exactly if its entry is an earlier version. -/
theorem isPriorOf_iff (he : h.event = x.event) (hstub : h.stub? = some x.demoted)
    (hauthor : h.event.pubkey.head8 = e.pubkey.head8 → h.event.pubkey = e.pubkey) :
    x.isPriorOf e = true ↔ h.RivalOf e := by
  rw [Entry.isPriorOf, ← he]
  cases hkind : e.kind.retention with
  | replaceable =>
    have hheld : h.stub?.isSome := by rw [hstub]; rfl
    simp only [Bool.and_eq_true, beq_iff_eq, Holding.rivalOf_replaceable_iff hkind hheld hauthor]
  | parameterized =>
    have hslot := Event.slot?_of_parameterized hkind
    simp only [Bool.and_eq_true, beq_iff_eq, Bool.not_eq_true', Holding.RivalOf, hslot,
      Option.map_eq_some_iff]
    cases h with
    | live e' access =>
      constructor
      · rintro ⟨⟨⟨⟨hident, -⟩, hpubkey⟩, hk⟩, hsame⟩
        obtain ⟨d, hd⟩ := Option.isSome_iff_exists.mp hident
        refine ⟨_, ⟨d, hd, rfl⟩, ?_⟩
        show e'.slot? = _
        rw [Event.slot?_of_parameterized (e := e') (hk ▸ hkind)]
        refine Option.map_eq_some_iff.mpr ⟨d, hsame.trans hd, ?_⟩
        exact Slot.mk.injEq .. ▸ ⟨hpubkey, hk, rfl⟩
      · rintro ⟨slot, ⟨d, hd, rfl⟩, hc⟩
        obtain ⟨hpubkey, hk⟩ := Event.slot?_eq_some hc
        have hc' : e'.slot? = some ⟨e.pubkey, e.kind, some d⟩ := hc
        rw [Event.slot?_of_parameterized (e := e') (hk ▸ hkind)] at hc'
        obtain ⟨d', hd', hslot'⟩ := Option.map_eq_some_iff.mp hc'
        obtain rfl : d' = d := Option.some.inj (congrArg Slot.identifier hslot')
        have hwhole : x.demoted = false := (Option.some.inj hstub).symm
        exact ⟨⟨⟨⟨by rw [hd]; rfl, hwhole⟩, hpubkey.symm⟩, hk.symm⟩, hd'.trans hd.symm⟩
    | demoted e' =>
      have hdemoted : x.demoted = true := (Option.some.inj hstub).symm
      constructor
      · rintro ⟨⟨⟨⟨-, hwhole⟩, -⟩, -⟩, -⟩
        rw [hdemoted] at hwhole
        cases hwhole
      · rintro ⟨slot, ⟨d, hd, rfl⟩, hnone, -⟩
        cases hnone
    | queued e' => cases hstub
  | regular => simp [Holding.RivalOf, Event.slot?, hkind]
  | ephemeral => simp [Holding.RivalOf, Event.slot?, hkind]

section Save
variable {es : List Event} {t' : Tier} {L' : Ledger} {J' : List (Serial × Event)}
  {o : SaveOutcome} {now : UInt64}

/-- The rivals that are found are the earlier versions. -/
theorem prior_iff (hf : t.Follows L J) (hsep : Separable es) (hJ : ∀ p ∈ J, p.2 ∈ es)
    (he : e ∈ es) : (t.contents J).Prior e x ↔
      ∃ h, L x.serial = some h ∧ h.event = x.event ∧ h.stub? = some x.demoted ∧ h.RivalOf e := by
  have hauthor : ∀ {s h}, L s = some h → h.event.pubkey.head8 = e.pubkey.head8 →
      h.event.pubkey = e.pubkey := fun hL =>
    hsep.authors _ (hJ _ (hf.stored _ _ hL)) _ he
  constructor
  · rintro ⟨⟨i, hx⟩, hprior⟩
    obtain ⟨h, hL, heq, hstub, -⟩ := hf.contents_eq_some_iff.mp hx
    exact ⟨h, hL, heq, hstub, (isPriorOf_iff heq hstub (hauthor hL)).mp hprior⟩
  · rintro ⟨h, hL, heq, hstub, hrival⟩
    exact ⟨⟨_, hf.contents_eq_some_iff.mpr ⟨h, hL, heq, hstub, rfl⟩⟩,
      (isPriorOf_iff heq hstub (hauthor hL)).mpr hrival⟩

/-- A rival that is found is the record of an earlier version of the same age. -/
theorem exists_prior (hf : t.Follows L J) (hsep : Separable es) (hJ : ∀ p ∈ J, p.2 ∈ es)
    (he : e ∈ es) {p : Prior} (hp : p ∈ t.db.events.rivals e) :
    ∃ x, (t.contents J).Prior e x ∧ p.yieldsTo e = x.event.isOlderThan e := by
  obtain ⟨h, hL, hrival, hshown⟩ := hf.db.events.rivals_sound hp
  obtain ⟨stub, hstub⟩ := Option.isSome_iff_exists.mp hrival.isSome_stub?
  refine ⟨⟨p.serial, h.event, stub⟩, (hf.prior_iff hsep hJ he).mpr ⟨h, hL, rfl, hstub, hrival⟩, ?_⟩
  exact Holding.yieldsTo_eq hshown (hsep.times _ (hJ _ (hf.stored _ _ hL)))

/-- An earlier version is found as a rival of the same age. -/
theorem exists_rival (hf : t.Follows L J) (hsep : Separable es) (hJ : ∀ p ∈ J, p.2 ∈ es)
    (he : e ∈ es) (hx : (t.contents J).Prior e x) :
    ∃ p ∈ t.db.events.rivals e, p.serial = x.serial ∧
      p.yieldsTo e = x.event.isOlderThan e := by
  obtain ⟨h, hL, heq, hstub, hrival⟩ := (hf.prior_iff hsep hJ he).mp hx
  have hmem := hJ _ (hf.stored _ _ hL)
  rw [← heq]
  exact hf.db.events.exists_rival hL hrival (hsep.sized _ hmem) (hsep.times _ hmem)

/-- Storing an event displaces exactly the earlier versions. -/
theorem contents_stored (hf : t.Follows L J) (hsep : Separable es) (hJ : ∀ p ∈ J, p.2 ∈ es)
    (he : e ∈ es) (hnew : ∀ s h, L s = some h → h.stub?.isSome → h.event.id ≠ e.id)
    (hf' : t'.Follows (Function.update
      (L.displace ((t.db.events.rivals e).map (·.serial))) t.lease.next (some (.live e now))) J') :
    t'.contents J' = fun i => if i = e.id then some ⟨t.lease.next, e, false⟩
      else (t.contents J i).filter fun x => !x.isPriorOf e := by
  funext i
  refine Option.ext fun x => ?_
  rw [hf'.contents_eq_some_iff]
  by_cases hi : i = e.id
  · rw [if_pos hi, Option.some.injEq]
    constructor
    · rintro ⟨h, hL, heq, hstub, hid⟩
      by_cases hs : x.serial = t.lease.next
      · rw [hs, Function.update_self] at hL
        cases hL
        cases x
        simp_all [Holding.event, Holding.stub?]
      · rw [Function.update_of_ne hs] at hL
        have hheld : h.stub?.isSome := by rw [hstub]; rfl
        obtain ⟨hL, -⟩ := (Ledger.displace_eq_some_iff hheld).mp hL
        exact absurd (by rw [heq, hid, hi]) (hnew _ h hL hheld)
    · rintro rfl
      exact ⟨.live e now, Function.update_self .., rfl, rfl, hi.symm⟩
  · rw [if_neg hi, Option.filter_eq_some_iff, hf.contents_eq_some_iff]
    constructor
    · rintro ⟨h, hL, heq, hstub, hid⟩
      by_cases hs : x.serial = t.lease.next
      · rw [hs, Function.update_self] at hL
        cases hL
        exact absurd (by rw [← hid, ← heq]; rfl) hi
      · rw [Function.update_of_ne hs] at hL
        have hheld : h.stub?.isSome := by rw [hstub]; rfl
        obtain ⟨hL, hnot⟩ := (Ledger.displace_eq_some_iff hheld).mp hL
        refine ⟨⟨h, hL, heq, hstub, hid⟩, ?_⟩
        rw [Bool.not_eq_true', Bool.eq_false_iff]
        intro hprior
        have hx : (t.contents J).Prior e x :=
          ⟨⟨i, hf.contents_eq_some_iff.mpr ⟨h, hL, heq, hstub, hid⟩⟩, hprior⟩
        obtain ⟨p, hp, hserial, -⟩ := hf.exists_rival hsep hJ he hx
        exact hnot (hserial ▸ List.mem_map_of_mem hp)
    · rintro ⟨⟨h, hL, heq, hstub, hid⟩, hprior⟩
      refine ⟨h, ?_, heq, hstub, hid⟩
      have hs : x.serial ≠ t.lease.next := by
        intro hs
        rw [hs, hf.next_free] at hL
        cases hL
      rw [Function.update_of_ne hs, Ledger.displace, if_neg, hL]
      intro hmem
      obtain ⟨p, hp, hserial⟩ := List.mem_map.mp hmem
      obtain ⟨h', hL', hrival, -⟩ := hf.db.events.rivals_sound hp
      rw [hserial, hL] at hL'
      cases hL'
      have hx := (hf.prior_iff hsep hJ he).mpr ⟨h, hL, heq, hstub, hrival⟩
      rw [hx.2] at hprior
      cases hprior

/-- Making a demoted event whole changes its entry alone. -/
theorem contents_revived {s : Serial} (hf : t.Follows L J) (hL : L s = some (.demoted e))
    (hf' : t'.Follows (Function.update L s (some (.live e now))) J') :
    t'.contents J' = Function.update (t.contents J) e.id (some ⟨s, e, false⟩) := by
  funext i
  refine Option.ext fun x => ?_
  rw [hf'.contents_eq_some_iff]
  by_cases hi : i = e.id
  · rw [hi, Function.update_self, Option.some.injEq]
    constructor
    · rintro ⟨h, hL', heq, hstub, hid⟩
      by_cases hs : x.serial = s
      · rw [hs, Function.update_self] at hL'
        cases hL'
        cases x
        simp_all [Holding.event, Holding.stub?]
      · rw [Function.update_of_ne hs] at hL'
        refine absurd ?_ hs
        exact hf.unique _ _ h _ hL' hL (by rw [hstub]; rfl) rfl (by rw [heq, hid]; rfl)
    · rintro rfl
      exact ⟨.live e now, Function.update_self .., rfl, rfl, rfl⟩
  · rw [Function.update_of_ne hi, hf.contents_eq_some_iff]
    refine exists_congr fun h => and_congr_left fun hrest => ?_
    obtain ⟨heq, hstub, hid⟩ := hrest
    by_cases hs : x.serial = s
    · rw [hs, Function.update_self, hL]
      constructor
      · intro hlive
        cases hlive
        exact absurd (by rw [← hid, ← heq]; rfl) hi
      · intro hdemoted
        cases hdemoted
        exact absurd (by rw [← hid, ← heq]; rfl) hi
    · rw [Function.update_of_ne hs]

/-- **Saving, on the contents.** -/
theorem saves (hf : t.Follows L J) (hsep : Separable es) (hJ : ∀ p ∈ J, p.2 ∈ es) (he : e ∈ es)
    (hsaved : L.Saved (t.db.events.rivals e) now e t.lease.next o L')
    (hf' : t'.Follows L' J') : (t.contents J).Saves e t.lease.next o (t'.contents J') := by
  have hheld : ∀ {s h}, L s = some h → ∀ d, h.stub? = some d → h.event.id = e.id →
      t.contents J e.id = some ⟨s, h.event, d⟩ := fun {s h} hL d hstub hid =>
    hf.contents_eq_some_iff.mpr ⟨h, hL, rfl, hstub, hid⟩
  cases hsaved with
  | ephemeral hkind =>
    exact .of_case hkind nofun nofun fun _ _ => hf.contents_eq hf'
  | duplicate hkind hL hid =>
    exact .of_case ⟨hkind, _, hheld hL false rfl hid, rfl⟩ nofun nofun
      fun _ _ => hf.contents_eq hf'
  | @revived s hkind hL =>
    have hx : t.contents J e.id = some ⟨s, e, true⟩ := hheld hL true rfl rfl
    exact .of_case ⟨hkind, _, hx, rfl⟩ nofun (fun _ => ⟨s, hx, hf.contents_revived hL hf'⟩)
      fun _ hrevived => absurd rfl hrevived
  | superseded hkind hnew hp hstays =>
    -- the rival that stays is an earlier version that is not older
    obtain ⟨x, hprior, hage⟩ := hf.exists_prior hsep hJ he hp
    exact .of_case ⟨hkind, hf.contents_eq_none_iff.mpr hnew, x, hprior, hage.symm.trans hstays⟩
      nofun nofun fun _ _ => hf.contents_eq hf'
  | stored hkind hnew hyield =>
    have holder : ∀ x, (t.contents J).Prior e x → x.event.isOlderThan e = true := by
      intro x hprior
      obtain ⟨p, hp, -, hage⟩ := hf.exists_rival hsep hJ he hprior
      rw [← hage]
      exact hyield p hp
    exact .of_case ⟨hkind, hf.contents_eq_none_iff.mpr hnew, holder⟩
      (fun _ => hf.contents_stored hsep hJ he hnew hf') nofun fun hstored => absurd rfl hstored

end Save

/-- Removing a record removes its entry alone. -/
theorem contents_removed {t' : Tier} {J' : List (Serial × Event)} {s : Serial}
    (hf : t.Follows L J) (hL : L s = some h) (hheld : h.stub?.isSome)
    (hf' : t'.Follows (Function.update L s none) J') :
    t'.contents J' = Function.update (t.contents J) h.event.id none := by
  funext i
  refine Option.ext fun x => ?_
  rw [hf'.contents_eq_some_iff]
  by_cases hi : i = h.event.id
  · rw [hi, Function.update_self]
    refine ⟨?_, nofun⟩
    rintro ⟨h', hL', heq, hstub, hid⟩
    by_cases hs : x.serial = s
    · rw [hs, Function.update_self] at hL'
      cases hL'
    · rw [Function.update_of_ne hs] at hL'
      refine absurd ?_ hs
      exact hf.unique _ _ h' h hL' hL (by rw [hstub]; rfl) hheld (by rw [heq, hid])
  · rw [Function.update_of_ne hi, hf.contents_eq_some_iff]
    refine exists_congr fun h' => and_congr_left fun ⟨heq, hstub, hid⟩ => ?_
    by_cases hs : x.serial = s
    · rw [hs, Function.update_self, hL]
      refine ⟨nofun, fun hsame => ?_⟩
      cases hsame
      exact absurd (by rw [← hid, ← heq]) hi
    · rw [Function.update_of_ne hs]

/-- **Deleting, on the contents.** -/
theorem deletes (hf : t.Follows L J) (hid : ∀ p ∈ J, p.2.id = e.id → p.2 = e) :
    (t.contents J).Deletes e (t.db.delete e).1 ((t.step (.delete e)).contents J) := by
  rcases hf.delete hid with ⟨s, h, hL, hheld, rfl, hdeleted, hf'⟩ | ⟨hnew, hdelete⟩
  · obtain ⟨stub, hstub⟩ := Option.isSome_iff_exists.mp hheld
    have hx : t.contents J h.event.id = some ⟨s, h.event, stub⟩ :=
      hf.contents_eq_some_iff.mpr ⟨h, hL, rfl, hstub, rfl⟩
    refine ⟨?_, hf.contents_removed hL hheld hf'⟩
    rw [hdeleted, hx]
    simp
  · have hx := hf.contents_eq_none_iff.mpr hnew
    have hstep : t.step (.delete e) = t := by rw [Tier.step, hdelete]
    refine ⟨?_, ?_⟩
    · rw [hdelete, hx]
      simp
    · rw [hstep, ← hx, Function.update_eq_self]

end Tier.Follows

/-! ### Saving and deleting -/

namespace Tier

/-- **Saving and deleting change the contents as they should.**  After any run of transactions
whose events keys tell apart, and while a serial can be given out, saving an event returns what
the contents call for and changes them accordingly, and an event that is not taken in leaves the
tables as they were; deleting an event removes it and nothing else. -/
theorem contents_refine (batch : UInt64) (xs : List Transaction) (now : UInt64) (e : Event)
    (hsep : Separable (e :: xs.filterMap (·.event?)))
    (hroom : ((fresh batch).run xs).lease.HasRoom) :
    let t := (fresh batch).run xs
    let C := contentsAfter batch xs
    (∃ o, (t.db.save t.lease now e).1 = .ok o ∧
      C.Saves e t.lease.next o (contentsAfter batch (xs ++ [.save now e])) ∧
      (o ≠ .stored → o ≠ .revived →
        (t.step (.save now e)).db.events = t.db.events ∧
        (t.step (.save now e)).db.purge = t.db.purge)) ∧
    C.Deletes e (t.db.delete e).1 (contentsAfter batch (xs ++ [.delete e])) ∧
      ((t.db.delete e).1 = .notFound → (t.db.delete e).2 = t.db) := by
  intro t C
  have hids : Identified (xs.filterMap (·.event?)) := fun a ha b hb =>
    hsep.identified a (List.mem_cons_of_mem _ ha) b (List.mem_cons_of_mem _ hb)
  obtain ⟨L, hf⟩ := exists_follows batch hids
  have hJ : ∀ p ∈ (fresh batch).journal xs, p.2 ∈ e :: xs.filterMap (·.event?) := fun p hp =>
    List.mem_cons_of_mem _ (mem_of_mem_journal hp)
  have hid : ∀ p ∈ (fresh batch).journal xs, p.2.id = e.id → p.2 = e := fun p hp =>
    hsep.identified _ (hJ p hp) _ List.mem_cons_self
  refine ⟨?_, ?_, ?_⟩
  · rcases hf.save hid now with ⟨err, -, hissue⟩ | ⟨o, L', hok, hsaved, hf'⟩
    · exact absurd hissue (Lease.issue_ne_error hroom _ err)
    · refine ⟨o, hok, ?_, fun hstored hrevived => ?_⟩
      · rw [contentsAfter, run_append_singleton, journal_append_singleton]
        exact hf.saves hsep hJ List.mem_cons_self hsaved hf'
      · -- what is not taken in leaves the ledger, and with it the tables
        cases hsaved with
        | ephemeral => exact hf.db.tables_eq hf'.db
        | duplicate => exact hf.db.tables_eq hf'.db
        | superseded => exact hf.db.tables_eq hf'.db
        | revived => exact absurd rfl hrevived
        | stored => exact absurd rfl hstored
  · rw [contentsAfter, run_append_singleton, journal_append_singleton]
    exact (List.append_nil ((fresh batch).journal xs)).symm ▸ hf.deletes hid
  · intro hnot
    rcases hf.delete hid with ⟨s, h, -, -, -, hdeleted, -⟩ | ⟨-, hdelete⟩
    · rw [hdeleted] at hnot
      cases hnot
    · rw [hdelete]

/-- A newer profile is stored in the place of a demoted one, which is gone afterwards. -/
theorem contents_refine_displacing :
    let profile : Event := .uniform 1 7 10 0 [⟨["t", "x"]⟩]
    let xs : List Transaction :=
      [.save 1 profile, .save 2 (.uniform 3 8 10 1 []), .sweepRecords [0] true]
    let e : Event := .uniform 2 7 20 0 []
    let t := (fresh 8).run xs
    Separable (e :: xs.filterMap (·.event?)) ∧ t.lease.HasRoom ∧
      (contentsAfter 8 xs).Saves e t.lease.next .stored (contentsAfter 8 (xs ++ [.save 3 e])) ∧
      (contentsAfter 8 xs).Deletes e .notFound (contentsAfter 8 (xs ++ [.delete e])) ∧
      contentsAfter 8 xs profile.id = some ⟨0, profile, true⟩ ∧
      contentsAfter 8 (xs ++ [.save 3 e]) profile.id = none ∧
      contentsAfter 8 (xs ++ [.save 3 e]) e.id = some ⟨t.lease.next, e, false⟩ := by
  intro profile xs e t
  have hsep : Separable (e :: xs.filterMap (·.event?)) := by decide +kernel
  have hroom : t.lease.HasRoom := by decide +kernel
  have hstored : (t.db.save t.lease 3 e).1.toOption = some .stored := by decide +kernel
  have hnot : (t.db.delete e).1 = .notFound := by decide +kernel
  have hdemoted : contentsAfter 8 xs profile.id = some ⟨0, profile, true⟩ := by decide +kernel
  obtain ⟨⟨o, hok, hsaves, -⟩, hdeletes, -⟩ := contents_refine 8 xs 3 e hsep hroom
  rw [hok] at hstored
  obtain rfl : o = .stored := Option.some.inj hstored
  have hafter := congrFun (hsaves.after_stored rfl)
  refine ⟨hsep, hroom, hsaves, hnot ▸ hdeletes, hdemoted, ?_, ?_⟩
  · have hne : profile.id ≠ e.id := by decide
    have hprior : (Entry.mk 0 profile true).isPriorOf e = true := by decide
    rw [hafter, if_neg hne, hdemoted, Option.filter_some, hprior]
    rfl
  · exact (hafter e.id).trans (if_pos rfl)

end Tier
end EventArchive
