import EventArchive.Proofs.QueryExact

/-! # The whole versions of a slot

A slot is an author, a kind and, if the kind is parameterized, an identifier.
An event that is stored displaces every whole record of its slot, so right
afterwards it is the only one.  An event that is there as a demoted record is
made whole without a look at its slot.  Another version, a newer or an older one,
may be whole at that time: a demoted record of a parameterized kind does not show
its identifier, so neither version has displaced the other or kept it out.  An
event that becomes whole next to another version **resurfaces**
(`Tier.resurfaces`), and nothing else adds a second whole version to a slot.
-/
namespace EventArchive

/-! ### Whole versions -/

namespace Keyspace

/-- The whole records of a slot. -/
def liveVersions (k : Keyspace) (slot : Slot) : List Event :=
  k.storedEvents.filter fun e => e.slot? = some slot

namespace Renders
variable {k k' : Keyspace} {L L' : Ledger} {slot : Slot} {e : Event}

theorem mem_liveVersions (hr : k.Renders L) (hfits : ∀ s h, L s = some h → h.event.Sized) :
    e ∈ k.liveVersions slot ↔ (∃ s t, L s = some (.live e t)) ∧ e.slot? = some slot := by
  rw [liveVersions, List.mem_filter, hr.mem_storedEvents hfits, decide_eq_true_eq]

/-- A slot has no more whole versions than events that may be among them. -/
theorem length_liveVersions_le {es : List Event} (hr : k.Renders L) (hu : L.Unique)
    (hfits : ∀ s h, L s = some h → h.event.Sized)
    (hmem : ∀ s e t, L s = some (.live e t) → e.slot? = some slot → e ∈ es) :
    (k.liveVersions slot).length ≤ es.length := by
  have hnodup : (k.liveVersions slot).Nodup := (hr.storedEvents_nodup hu hfits).filter _
  refine (List.subperm_of_subset hnodup fun e he => ?_).length_le
  obtain ⟨⟨s, t, hL⟩, hslot⟩ := (hr.mem_liveVersions hfits).mp he
  exact hmem s e t hL hslot

end Renders
end Keyspace

/-! ### Versions that resurface -/

namespace Tier

/-- Whether a transaction makes a demoted version of a slot whole next to another one. -/
def resurfaces (t : Tier) (slot : Slot) : Transaction → Bool
  | .save now e =>
    match (t.db.save t.lease now e).1 with
    | .ok .revived => e.slot? = some slot ∧ t.db.events.liveVersions slot ≠ []
    | _ => false
  | _ => false

/-- How many of some transactions do so. -/
def resurfacings (t : Tier) (slot : Slot) : List Transaction → Nat
  | [] => 0
  | x :: xs => (if t.resurfaces slot x then 1 else 0) + (t.step x).resurfacings slot xs

namespace Follows
variable {t t' : Tier} {L L' : Ledger} {J J' : List (Serial × Event)} {es : List Event}
  {slot : Slot} {e : Event} {now : UInt64}

/-- What makes nothing whole adds no version. -/
theorem length_liveVersions_of_fades (hf : t.Follows L J) (hJ : ∀ p ∈ J, p.2.Sized)
    (hf' : t'.Follows L' J') (hJ' : ∀ p ∈ J', p.2.Sized) (hfades : L'.Fades L) :
    (t'.db.events.liveVersions slot).length ≤ (t.db.events.liveVersions slot).length := by
  refine hf'.db.events.length_liveVersions_le hf'.unique (hf'.sized hJ') ?_
  intro s e access hL' hslot
  exact (hf.db.events.mem_liveVersions (hf.sized hJ)).mpr ⟨⟨s, hfades s e access hL'⟩, hslot⟩

/-- **An event that is stored is the only whole version of its slot.** -/
theorem eq_of_live_of_stored {s s' : Serial} {e' : Event} {access : UInt64}
    (hf : t.Follows L J) (hJ : ∀ p ∈ J, p.2.Sized)
    (hsaved : L.Saved (t.db.events.rivals e) now e s .stored L')
    (hslot : e.slot? = some slot) (hL' : L' s' = some (.live e' access))
    (hslot' : e'.slot? = some slot) : e' = e := by
  cases hsaved with
  | stored =>
    by_cases hs : s' = s
    · rw [hs, Function.update_self] at hL'
      cases hL'
      rfl
    · -- any other one was a rival, so it was found and displaced
      rw [Function.update_of_ne hs] at hL'
      obtain ⟨hL, hkept⟩ := (Ledger.displace_eq_some_iff rfl).mp hL'
      have hrival : (Holding.live e' access).RivalOf e := ⟨slot, hslot, hslot'⟩
      obtain ⟨p, hp, hserial⟩ := hf.db.events.rivals_total hL hrival (hf.sized hJ _ _ hL)
      exact absurd (hserial ▸ List.mem_map_of_mem hp) hkept

/-- Right after an event was stored its slot has no other whole version. -/
theorem liveVersions_of_stored (hf : t.Follows L J) (hJ : ∀ p ∈ J, p.2.Sized) {s : Serial}
    (hsaved : L.Saved (t.db.events.rivals e) now e s .stored L') (hslot : e.slot? = some slot)
    (hf' : t'.Follows L' J') (hJ' : ∀ p ∈ J', p.2.Sized) :
    t'.db.events.liveVersions slot = [e] := by
  have hnodup : (t'.db.events.liveVersions slot).Nodup :=
    (hf'.db.events.storedEvents_nodup hf'.unique (hf'.sized hJ')).filter _
  refine List.perm_singleton.mp ((List.perm_ext_iff_of_nodup hnodup (List.nodup_singleton e)).mpr
    fun e' => ?_)
  rw [hf'.db.events.mem_liveVersions (hf'.sized hJ'), List.mem_singleton]
  constructor
  · rintro ⟨⟨s', access, hL'⟩, hslot'⟩
    exact hf.eq_of_live_of_stored hJ hsaved hslot hL' hslot'
  · rintro rfl
    cases hsaved with
    | stored => exact ⟨⟨s, now, Function.update_self ..⟩, hslot⟩

/-- What is whole after an event was saved was whole before, or is the event. -/
theorem live_cases_of_saved {s s' : Serial} {o : SaveOutcome} {rivals : List Prior} {e' : Event}
    {access : UInt64} (hsaved : L.Saved rivals now e s o L')
    (hL' : L' s' = some (.live e' access)) :
    (∃ t, L s' = some (.live e' t)) ∨ (e' = e ∧ (o = .stored ∨ o = .revived)) := by
  cases hsaved with
  | ephemeral => exact .inl ⟨access, hL'⟩
  | duplicate => exact .inl ⟨access, hL'⟩
  | superseded => exact .inl ⟨access, hL'⟩
  | @revived r _ hL =>
    by_cases hs : s' = r
    · rw [hs, Function.update_self] at hL'
      cases hL'
      exact .inr ⟨rfl, .inr rfl⟩
    · rw [Function.update_of_ne hs] at hL'
      exact .inl ⟨access, hL'⟩
  | stored =>
    by_cases hs : s' = s
    · rw [hs, Function.update_self] at hL'
      cases hL'
      exact .inr ⟨rfl, .inl rfl⟩
    · rw [Function.update_of_ne hs] at hL'
      exact .inl (Ledger.Fades.displace L _ s' e' access hL')

/-- **Saving** adds a version only where there was none, or where one resurfaces. -/
theorem length_liveVersions_save {o : SaveOutcome} (hf : t.Follows L J)
    (hJ : ∀ p ∈ J, p.2.Sized) (hok : (t.db.save t.lease now e).1 = .ok o)
    (hsaved : L.Saved (t.db.events.rivals e) now e t.lease.next o L')
    (hf' : t'.Follows L' J') (hJ' : ∀ p ∈ J', p.2.Sized) :
    (t'.db.events.liveVersions slot).length ≤
      max 1 (t.db.events.liveVersions slot).length +
        if t.resurfaces slot (.save now e) then 1 else 0 := by
  have hbound : ∀ es : List Event, _ → (t'.db.events.liveVersions slot).length ≤ es.length :=
    fun es => hf'.db.events.length_liveVersions_le hf'.unique (hf'.sized hJ')
  have hlive : ∀ {s e' access}, L s = some (.live e' access) → e'.slot? = some slot →
      e' ∈ t.db.events.liveVersions slot := fun {s e' access} hL hslot =>
    (hf.db.events.mem_liveVersions (hf.sized hJ)).mpr ⟨⟨s, access, hL⟩, hslot⟩
  by_cases hadds : e.slot? = some slot ∧ (o = .stored ∨ o = .revived)
  · obtain ⟨hslot, rfl | rfl⟩ := hadds
    · have hone : (t'.db.events.liveVersions slot).length ≤ 1 :=
        hbound [e] fun s' e' access hL' hslot' => List.mem_singleton.mpr
          (hf.eq_of_live_of_stored hJ hsaved hslot hL' hslot')
      omega
    · have hmore := hbound (e :: t.db.events.liveVersions slot) fun s' e' access hL' hslot' => by
        rcases live_cases_of_saved hsaved hL' with ⟨access', hL⟩ | ⟨rfl, -⟩
        · exact List.mem_cons_of_mem _ (hlive hL hslot')
        · exact List.mem_cons_self
      rw [List.length_cons] at hmore
      by_cases hnone : t.db.events.liveVersions slot = []
      · rw [hnone, List.length_nil] at hmore
        omega
      · have hresurfaces : t.resurfaces slot (.save now e) = true := by
          rw [resurfaces, hok]
          exact decide_eq_true ⟨hslot, hnone⟩
        rw [if_pos hresurfaces]
        omega
  · -- nothing becomes whole, or an event that is no version does
    have hsame := hbound (t.db.events.liveVersions slot) fun s' e' access hL' hslot' => by
      rcases live_cases_of_saved hsaved hL' with ⟨access', hL⟩ | ⟨rfl, ho⟩
      · exact hlive hL hslot'
      · exact absurd ⟨hslot', ho⟩ hadds
    omega

/-- **One transaction** adds at most one whole version to a slot that has one, and only if one
resurfaces. -/
theorem length_liveVersions_step {x : Transaction} (hf : t.Follows L J) (slot : Slot)
    (hes : Identified es) (hfits : ∀ e ∈ es, e.Sized) (hJ : ∀ p ∈ J, p.2 ∈ es)
    (hx : ∀ e, x.event? = some e → e ∈ es) :
    ∃ L', (t.step x).Follows L' (J ++ (t.stored? x).toList) ∧
      ((t.step x).db.events.liveVersions slot).length ≤
        max 1 (t.db.events.liveVersions slot).length + if t.resurfaces slot x then 1 else 0 := by
  have hsized : ∀ p ∈ J, p.2.Sized := fun p hp => hfits _ (hJ p hp)
  have hid : ∀ e, x.event? = some e → ∀ p ∈ J, p.2.id = e.id → p.2 = e := fun e he p hp =>
    hes _ (hJ p hp) _ (hx e he)
  have hsized' : ∀ p ∈ J ++ (t.stored? x).toList, p.2.Sized :=
    forall_mem_append_stored hsized fun a ha => hfits a (hx a ha)
  rcases hf.step_cases x hid with ⟨now, e, o, L', rfl, hok, hsaved, hf'⟩ | ⟨L', hf', -, -, hfades⟩
  · exact ⟨L', hf', hf.length_liveVersions_save hsized hok hsaved hf' hsized'⟩
  · refine ⟨L', hf', ?_⟩
    have hle : ((t.step x).db.events.liveVersions slot).length ≤
        (t.db.events.liveVersions slot).length :=
      hf.length_liveVersions_of_fades hsized hf' hsized' hfades
    omega

/-- **A run of transactions** adds no more whole versions than resurface. -/
theorem length_liveVersions_run {xs : List Transaction} (hf : t.Follows L J)
    (hes : Identified es) (hfits : ∀ e ∈ es, e.Sized) (hJ : ∀ p ∈ J, p.2 ∈ es)
    (hxs : ∀ e ∈ xs.filterMap (·.event?), e ∈ es) :
    ((t.run xs).db.events.liveVersions slot).length ≤
      max 1 (t.db.events.liveVersions slot).length + t.resurfacings slot xs := by
  induction xs generalizing t L J with
  | nil => exact Nat.le_max_right _ _
  | cons x xs ih =>
    rw [List.forall_mem_filterMap, List.forall_mem_cons, ← List.forall_mem_filterMap] at hxs
    obtain ⟨hx, hxs⟩ := hxs
    obtain ⟨L', hf', hstep⟩ := hf.length_liveVersions_step slot hes hfits hJ hx
    have hJ' : ∀ p ∈ J ++ (t.stored? x).toList, p.2 ∈ es := forall_mem_append_stored hJ hx
    have hrest := ih hf' hJ' hxs
    rw [resurfacings]
    show (((t.step x).run xs).db.events.liveVersions slot).length ≤ _
    omega

end Follows

/-- **A slot has one whole version, and one more for each that resurfaced.**  After any run of
transactions on a new database, in whatever order it saves, deletes and sweeps, at most one record
of an author, a kind and an identifier is whole, unless a demoted event was saved again while
another version of it, a newer or an older one, was whole.  An event that is stored is the only
whole version right afterwards. -/
theorem liveVersions_bounded (batch : UInt64) {xs : List Transaction}
    (hid : Identified (xs.filterMap (·.event?))) (hfits : ∀ e ∈ xs.filterMap (·.event?), e.Sized)
    (slot : Slot) :
    let t := (fresh batch).run xs
    (t.db.events.liveVersions slot).length ≤ 1 + (fresh batch).resurfacings slot xs ∧
    ∀ now e, e.slot? = some slot → Identified (e :: xs.filterMap (·.event?)) → e.Sized →
      (t.db.save t.lease now e).1 = .ok .stored →
        (t.step (.save now e)).db.events.liveVersions slot = [e] := by
  intro t
  have hJ : ∀ p ∈ (fresh batch).journal xs, p.2 ∈ xs.filterMap (·.event?) := fun p hp =>
    mem_of_mem_journal hp
  refine ⟨?_, ?_⟩
  · exact (follows_fresh batch).length_liveVersions_run hid hfits nofun fun e he => he
  · intro now e hslot hid' hsized hstored
    obtain ⟨L, hf⟩ := exists_follows batch hid
    have hsized' : ∀ p ∈ (fresh batch).journal xs, p.2.Sized := fun p hp => hfits _ (hJ p hp)
    have hsame : ∀ p ∈ (fresh batch).journal xs, p.2.id = e.id → p.2 = e := fun p hp =>
      hid' _ (List.mem_cons_of_mem _ (hJ p hp)) _ List.mem_cons_self
    rcases hf.save hsame now with ⟨err, hsave, -⟩ | ⟨o, L', hok, hsaved, hf'⟩
    · rw [hsave] at hstored
      cases hstored
    · obtain rfl : o = .stored := by
        rw [hok] at hstored
        exact Except.ok.inj hstored
      refine hf.liveVersions_of_stored hsized' hsaved hslot hf' ?_
      apply forall_mem_append_stored hsized'
      rintro a ha
      obtain rfl := Option.some.inj ha
      exact hsized

/-- A version is demoted, a newer one is saved, and the demoted one is saved once more: both are
whole. -/
theorem liveVersions_resurfaced :
    let old : Event := .uniform 1 7 10 30000 [⟨["d", "x"]⟩]
    let new : Event := .uniform 2 7 20 30000 [⟨["d", "x"]⟩]
    let xs : List Transaction :=
      [.save 1 old, .sweepRecords [0] true, .save 2 new, .save 3 old]
    Identified (xs.filterMap (·.event?)) ∧ (∀ e ∈ xs.filterMap (·.event?), e.Sized) ∧
      ((fresh 8).run xs).db.events.liveVersions ⟨new.pubkey, new.kind, some "x"⟩ = [old, new] := by
  decide +kernel

/-- The bound is reached where a version resurfaces, and a third version that is stored is alone
again. -/
theorem liveVersions_bounded_resurfaced :
    let old : Event := .uniform 1 7 10 30000 [⟨["d", "x"]⟩]
    let new : Event := .uniform 2 7 20 30000 [⟨["d", "x"]⟩]
    let newest : Event := .uniform 3 7 30 30000 [⟨["d", "x"]⟩]
    let slot : Slot := ⟨new.pubkey, new.kind, some "x"⟩
    let xs : List Transaction :=
      [.save 1 old, .sweepRecords [0] true, .save 2 new, .save 3 old]
    (fresh 8).resurfacings slot xs = 1 ∧
      (((fresh 8).run xs).db.events.liveVersions slot).length ≤
        1 + (fresh 8).resurfacings slot xs ∧
      (((fresh 8).run xs).step (.save 4 newest)).db.events.liveVersions slot = [newest] := by
  intro old new newest slot xs
  have hid : Identified (newest :: xs.filterMap (·.event?)) := by decide +kernel
  have hfits : ∀ e ∈ newest :: xs.filterMap (·.event?), e.Sized := by decide +kernel
  have hcount : (fresh 8).resurfacings slot xs = 1 := by decide +kernel
  have hslot : newest.slot? = some slot := by decide +kernel
  have hok : (((fresh 8).run xs).db.save ((fresh 8).run xs).lease 4 newest).1.toOption =
      some .stored := by decide +kernel
  obtain ⟨hbound, hstored⟩ := liveVersions_bounded 8
    (fun a ha b hb => hid a (List.mem_cons_of_mem _ ha) b (List.mem_cons_of_mem _ hb))
    (fun e he => hfits e (List.mem_cons_of_mem _ he)) slot
  refine ⟨hcount, hbound, hstored 4 newest hslot hid (hfits _ List.mem_cons_self) ?_⟩
  generalize (((fresh 8).run xs).db.save ((fresh 8).run xs).lease 4 newest).1 = outcome at hok ⊢
  cases outcome with
  | error err => cases hok
  | ok o => exact congrArg Except.ok (Option.some.inj hok)

end Tier
end EventArchive
