import EventArchive.Proofs.AuthorIsolation
import EventArchive.Proofs.TieredRuns

/-! # What a tiered archive keeps

The local tier may demote an event and forget it altogether, and may get it back
by a revival or a poll.  The secondary tier keeps it whole: an event of a regular
kind is displaced by no other one, so it goes only when it is deleted
(`Ongoing.stored_run`).  A query for its identifier finds it there, and whatever
the local tier has of it, whole or demoted, leads to the same event, which is
delivered once (`TieredArchive.query_stored`).
-/
namespace EventArchive

/-- A regular event competes for no slot, so no other one displaces it. -/
theorem Holding.RivalOf.retention_ne_regular {h : Holding} {e : Event} (hrival : h.RivalOf e) :
    h.event.kind.retention ≠ .regular := by
  obtain ⟨slot, hslot, -⟩ := id hrival
  rw [hrival.head8_eq.2]
  intro hkind
  rw [Event.slot?, hkind] at hslot
  cases hslot

/-! ### One tier -/

namespace Tier.Follows
variable {t : Tier} {L L' : Ledger} {J : List (Serial × Event)} {e e' : Event} {o : SaveOutcome}
  {now : UInt64} {s : Serial}

/-- **A regular event is whole after it was saved**, whatever the outcome. -/
theorem live_of_saved (hf : t.Follows L J) (hid : ∀ p ∈ J, p.2.id = e.id → p.2 = e)
    (hkind : e.kind.retention = .regular)
    (hsaved : L.Saved (t.db.events.rivals e) now e s o L') :
    ∃ s' access, L' s' = some (.live e access) := by
  cases hsaved with
  | ephemeral hephemeral =>
    rw [hkind] at hephemeral
    cases hephemeral
  | @duplicate s' e' access _ hL hsame =>
    obtain rfl : e' = e := hid _ (hf.stored s' _ hL) hsame
    exact ⟨s', access, hL⟩
  | @revived s' _ hL => exact ⟨s', now, Function.update_self ..⟩
  | superseded _ _ hp _ =>
    obtain ⟨h, -, hrival, -⟩ := hf.db.events.rivals_sound hp
    exact absurd (hrival.head8_eq.2 ▸ hkind) hrival.retention_ne_regular
  | stored => exact ⟨s, now, Function.update_self ..⟩

/-- A regular event that is whole stays so when an event is saved. -/
theorem live_save (hf : t.Follows L J) (hid : ∀ p ∈ J, p.2.id = e'.id → p.2 = e')
    (hkind : e.kind.retention = .regular) {access : UInt64} (hL : L s = some (.live e access))
    (now : UInt64) : ∃ L', (t.step (.save now e')).Follows L'
        (J ++ (t.stored? (.save now e')).toList) ∧
      ∃ s access, L' s = some (.live e access) := by
  rcases hf.save hid now with ⟨err, hsave, -⟩ | ⟨o, L', -, hsaved, hf'⟩
  · have hstep : t.step (.save now e') = t := by rw [Tier.step, hsave]
    have hstored : t.stored? (.save now e') = none := by rw [Tier.stored?, hsave]
    rw [hstep, hstored]
    exact ⟨L, hf.append_toList rfl, s, access, hL⟩
  · refine ⟨L', hf', ?_⟩
    by_cases heq : e' = e
    · subst heq
      exact hf.live_of_saved hid hkind hsaved
    · refine ⟨s, access,
        (hsaved.eq_of_not_rival hL ?_ (fun h => heq h.symm) fun p hp => ?_).trans hL⟩
      · rintro rfl
        rw [hf.next_free] at hL
        cases hL
      · exact hf.serial_ne_of_rival hL (fun hrival => hrival.retention_ne_regular hkind) hp

/-- An event that is whole stays so when another one is deleted. -/
theorem live_delete (hf : t.Follows L J) (hid : ∀ p ∈ J, p.2.id = e'.id → p.2 = e')
    (hne : e' ≠ e) {access : UInt64} (hL : L s = some (.live e access)) :
    ∃ L', (t.step (.delete e')).Follows L' J ∧ ∃ s access, L' s = some (.live e access) := by
  rcases hf.delete hid with ⟨s', h, hL', -, heq, -, hf'⟩ | ⟨-, hdelete⟩
  · refine ⟨_, hf', s, access, (Function.update_of_ne ?_ _ _).trans hL⟩
    rintro rfl
    rw [hL] at hL'
    cases hL'
    exact hne heq.symm
  · have hstep : t.step (.delete e') = t := by rw [Tier.step, hdelete]
    rw [hstep]
    exact ⟨L, hf, s, access, hL⟩

end Tier.Follows

namespace Archive.Serves
variable {a : Archive} {es : List Event} {e e' : Event}

section
variable (h : a.Serves es) (hid : Identified es) (hfits : ∀ e ∈ es, e.Sized)
include h hfits

/-- What a tier has whole are the live entries of the ledger that it follows. -/
theorem exists_live (he : e ∈ a.db.events.storedEvents) : ∃ L J, a.tier.Follows L J ∧
    (∀ p ∈ J, p.2 ∈ es) ∧ ∃ s access, L s = some (.live e access) := by
  obtain ⟨L, J, hf, hJ⟩ := h.follows
  have hr : a.db.events.Renders L := hf.db.events
  exact ⟨L, J, hf, hJ, (hr.mem_storedEvents (hf.sized fun p hp => hfits _ (hJ p hp))).mp he⟩

end

/-- An event that is whole in the ledger of a tier is stored. -/
theorem stored_of_live {L : Ledger} {J : List (Serial × Event)} (hf : a.tier.Follows L J)
    (hJ : ∀ p ∈ J, p.2.Sized) (hlive : ∃ s access, L s = some (.live e access)) :
    e ∈ a.db.events.storedEvents :=
  (Keyspace.Renders.mem_storedEvents hf.db.events (hf.sized hJ)).mpr hlive

section
variable (h : a.Serves es) (hid : Identified es) (hfits : ∀ e ∈ es, e.Sized)
include h hid hfits

omit hfits in
/-- A save that goes through does to the ledger what its outcome says. -/
theorem exists_saved (he : e ∈ es) {now : Int64} {o : SaveOutcome}
    (hok : (a.save now e).1 = .ok o) : ∃ L J L' J', a.tier.Follows L J ∧ (∀ p ∈ J, p.2 ∈ es) ∧
      L.Saved (a.db.events.rivals e) (clampTime now) e a.lease.next o L' ∧
      (a.save now e).2.tier.Follows L' J' ∧ ∀ p ∈ J', p.2 ∈ es := by
  rw [save_eq h.isOpen] at hok ⊢
  obtain ⟨L, J, hf, hJ⟩ := h.follows
  have hsame : ∀ p ∈ J, p.2.id = e.id → p.2 = e := fun p hp => hid _ (hJ p hp) _ he
  rcases hf.save hsame (clampTime now) with ⟨err, hsave, -⟩ | ⟨o', L', hsave, hsaved, hf'⟩
  · have hsave : a.db.save a.lease (clampTime now) e = (.error err, a.lease, a.db) := hsave
    rw [hsave] at hok
    cases hok
  · have hsave : (a.db.save a.lease (clampTime now) e).1 = .ok o' := hsave
    obtain rfl := Except.ok.inj (hsave.symm.trans hok)
    refine ⟨L, J, L', _, hf, hJ, hsaved, hf', Tier.forall_mem_append_stored hJ fun a ha => ?_⟩
    obtain rfl := Option.some.inj ha
    exact he

/-- **A regular event that was saved is stored.** -/
theorem stored_of_save (hkind : e.kind.retention = .regular) (he : e ∈ es) {now : Int64}
    {o : SaveOutcome} (hok : (a.save now e).1 = .ok o) :
    e ∈ (a.save now e).2.db.events.storedEvents := by
  obtain ⟨L, J, L', J', hf, hJ, hsaved, hf', hJ'⟩ := h.exists_saved hid he hok
  refine stored_of_live hf' (fun p hp => hfits _ (hJ' p hp)) ?_
  exact hf.live_of_saved (fun p hp => hid _ (hJ p hp) _ he) hkind hsaved

section
variable (he : e ∈ a.db.events.storedEvents)
include he

/-- A regular event stays stored when an event is saved. -/
theorem stored_save (hkind : e.kind.retention = .regular) (he' : e' ∈ es) (now : Int64) :
    e ∈ (a.save now e').2.db.events.storedEvents := by
  obtain ⟨L, J, hf, hJ, s, access, hL⟩ := h.exists_live hfits he
  have hsame : ∀ p ∈ J, p.2.id = e'.id → p.2 = e' := fun p hp => hid _ (hJ p hp) _ he'
  obtain ⟨L', hf', hlive⟩ := hf.live_save hsame hkind hL (clampTime now)
  rw [save_eq h.isOpen]
  refine stored_of_live (a := a.withTier _) hf' ?_ hlive
  apply Tier.forall_mem_append_stored fun p hp => hfits _ (hJ p hp)
  intro a ha
  obtain rfl := Option.some.inj ha
  exact hfits _ he'

/-- An event stays stored when another one is deleted. -/
theorem stored_delete (he' : e' ∈ es) (hne : e' ≠ e) :
    e ∈ (a.delete e').2.db.events.storedEvents := by
  obtain ⟨L, J, hf, hJ, s, access, hL⟩ := h.exists_live hfits he
  have hsame : ∀ p ∈ J, p.2.id = e'.id → p.2 = e' := fun p hp => hid _ (hJ p hp) _ he'
  obtain ⟨L', hf', hlive⟩ := hf.live_delete hsame hne hL
  rw [delete_eq h.isOpen]
  exact stored_of_live (a := a.withTier _) hf' (fun p hp => hfits _ (hJ p hp)) hlive

omit hid in
/-- An event stays stored when accesses are noted. -/
theorem stored_noteAccesses (now : Int64) (hits : List Hit) :
    e ∈ (a.noteAccesses now hits).db.events.storedEvents := by
  obtain ⟨L, J, hf, hJ, s, access, hL⟩ := h.exists_live hfits he
  obtain ⟨L', hf', hsame⟩ := follows_noteAccesses hf now hits
  obtain ⟨access', hL'⟩ := hsame.symm.fades s e access hL
  exact stored_of_live hf' (fun p hp => hfits _ (hJ p hp)) ⟨s, access', hL'⟩

end
end
end Archive.Serves

/-! ### Both tiers -/

namespace Ongoing
variable {o : Ongoing} {es : List Event} {e : Event} {x : Action}

/-- **One action** leaves a regular event in the secondary tier, unless it deletes it. -/
theorem stored_step (h : o.Healthy es) (hid : Identified es) (hfits : ∀ e ∈ es, e.Sized)
    (hkind : e.kind.retention = .regular) (hx : ∀ a, x.event? = some a → a ∈ es)
    (hne : x ≠ .delete e) (he : e ∈ o.archive.secondary.db.events.storedEvents) :
    e ∈ (o.step x).archive.secondary.db.events.storedEvents := by
  rcases secondary_step h.link x with ⟨now, e', rfl, heq⟩ | ⟨e', rfl, heq⟩ | ⟨now, hits, heq⟩
  · rw [heq]
    exact h.secondary.stored_save hid hfits he hkind (hx e' rfl) now
  · rw [heq]
    exact h.secondary.stored_delete hid hfits he (hx e' rfl) fun h => hne (congrArg _ h)
  · rw [heq]
    exact h.secondary.stored_noteAccesses hfits he now hits

/-- **A run of actions** leaves a regular event in the secondary tier, unless it deletes it. -/
theorem stored_run {xs : List Action} (h : o.Healthy es) (hid : Identified es)
    (hfits : ∀ e ∈ es, e.Sized) (hkind : e.kind.retention = .regular)
    (hxs : ∀ a ∈ xs.filterMap Action.event?, a ∈ es) (hkept : .delete e ∉ xs)
    (he : e ∈ o.archive.secondary.db.events.storedEvents) :
    e ∈ (o.run xs).archive.secondary.db.events.storedEvents := by
  induction xs generalizing o with
  | nil => exact he
  | cons x xs ih =>
    rw [List.forall_mem_filterMap, List.forall_mem_cons, ← List.forall_mem_filterMap] at hxs
    obtain ⟨hx, hxs⟩ := hxs
    obtain ⟨hne, hkept⟩ := not_or.mp fun hmem => hkept (List.mem_cons.mpr hmem)
    exact ih (h.step hid hfits hx) hxs hkept
      (stored_step h hid hfits hkind hx (Ne.symm hne) he)

end Ongoing

/-! ### Queries for an identifier -/

namespace Archive.Serves
variable {a : Archive} {es : List Event} {e : Event} {i : EventId}

/-- A query for an identifier finds no more than one record, and it is of that identifier. -/
theorem feed_withIds (h : a.Serves es) (hfits : ∀ e ∈ es, e.Sized) (i : EventId) :
    ∃ hits : List Hit, a.feed (Filter.any.withIds [i]) false = .ok (.ofQuery hits) ∧
      hits.length ≤ 1 ∧ ∀ hit ∈ hits,
        (∃ e ∈ es, e.id = i ∧ hit.record = .full e) ∨ hit.record = .stub i 0 := by
  obtain ⟨L, J, hf, hJ⟩ := h.follows
  have hr : a.db.events.Renders L := hf.db.events
  have hsized := hf.sized fun p hp => hfits _ (hJ p hp)
  refine ⟨_, feed_eq h.isOpen (Plan.ofFilter_withIds i), ?_, fun hit hhit => ?_⟩
  · exact (List.length_take_le' _ _).trans (Plan.length_found_ofId_le hr hf.unique hsized i _)
  · obtain ⟨held, hL, hid, ⟨e, t, rfl, heq⟩ | ⟨e, -, heq⟩⟩ :=
      (Plan.mem_found_ofId hr hsized).mp (List.mem_of_mem_take hhit)
    · exact .inl ⟨e, hJ _ (hf.stored _ _ hL), hid, congrArg Hit.record heq⟩
    · exact .inr (congrArg Hit.record heq)

/-- A query for the identifier of an event that is whole finds the event. -/
theorem feed_of_stored (h : a.Serves es) (hfits : ∀ e ∈ es, e.Sized)
    (he : e ∈ a.db.events.storedEvents) : ∃ s, a.feed (Filter.any.withIds [e.id]) false =
      .ok (.ofQuery [⟨s, e.createdAt, .full e⟩]) := by
  obtain ⟨L, J, hf, hJ, s, access, hL⟩ := h.exists_live hfits he
  have hr : a.db.events.Renders L := hf.db.events
  have hsized := hf.sized fun p hp => hfits _ (hJ p hp)
  refine ⟨s, ?_⟩
  rw [feed_eq h.isOpen (Plan.ofFilter_withIds e.id), Plan.hits_eq_take,
    Plan.found_ofId_of_live hr hf.unique hsized hL, List.take_of_length_le]
  exact effectiveLimit_pos h.limit _

end Archive.Serves

namespace TieredArchive
variable {t : TieredArchive} {es : List Event} {e : Event}

/-- **A query for the identifier of an event that the secondary tier has** delivers the event and
nothing else, whatever the local tier has of it. -/
theorem query_stored (hlink : t.link = .undisturbed) (hprimary : t.primary.Serves es)
    (hsecondary : t.secondary.Serves es) (hid : Identified es) (hfits : ∀ e ∈ es, e.Sized)
    (he : e ∈ t.secondary.db.events.storedEvents) (order : Nat → Nat) (now : Int64) :
    (t.query order now (Filter.any.withIds [e.id]) false).1 = .ok ⟨[.full e], [], .complete⟩ := by
  let lookup := fun i => (Link.undisturbed.fetch t.secondary i).1
  let f := Filter.any.withIds [e.id]
  have hmem : e ∈ es := hsecondary.mem_of_stored hfits he
  obtain ⟨p, hp, hlength, hrecords⟩ := hprimary.feed_withIds hfits e.id
  obtain ⟨s, hs⟩ := hsecondary.feed_of_stored hfits he
  have hlookup : lookup e.id = .found e := (hsecondary.fetch_eq_found_iff hfits).mpr ⟨he, rfl⟩
  -- what the local tier has of the event is the event itself, or leads to it
  have hall : ∀ r ∈ p.map Hit.record, ∀ e', TierMerge.offered? f lookup r = some e' → e' = e := by
    intro r hr e' he'
    obtain ⟨hit, hhit, rfl⟩ := List.mem_map.mp hr
    rcases hrecords hit hhit with ⟨a, ha, hsame, hrecord⟩ | hrecord
    · rw [hrecord] at he'
      rw [← Option.some.inj he']
      exact hid _ ha _ hmem hsame
    · rw [hrecord] at he'
      exact Lookup.found.inj ((TierMerge.found_of_brought? he').symm.trans hlookup)
  have hrun : (TierMerge.run f lookup order (t.limitFor f) (p.map Hit.record)
      [Record.full e]).records = [.full e] :=
    TierMerge.run_of_one hall order (Archive.effectiveLimit_pos hprimary.limit _)
  rw [query_short hlink hp hs hlength (Nat.le_refl _) (Link.fetch_ne_failed hsecondary.isOpen)]
  exact congrArg (fun records => Except.ok (Reading.mk records [] QueryOutcome.complete)) hrun

/-- **A tiered archive loses no event that it accepted.**  After any run of actions on two tiers
that were reached in any way, an event of a regular kind is saved, with the outcome that it was
stored.  Then anything may happen, but that the event is deleted: the local tier may demote it,
forget it and get it back.  A query for the identifier delivers the whole event, once and nothing
else, and completes. -/
theorem query_retained {primary secondary : Archive} {es es' : List Event} {xs ys : List Action}
    {e : Event} {now : Int64} (hprimary : Archive.Reached es primary)
    (hsecondary : Archive.Reached es' secondary) (hopen : primary.isClosed = false)
    (hopen' : secondary.isClosed = false)
    (hid : Identified (es ++ es' ++ (xs ++ .save now e :: ys).filterMap Action.event?))
    (hfits : ∀ a ∈ es ++ es' ++ (xs ++ .save now e :: ys).filterMap Action.event?, a.Sized)
    (hkind : e.kind.retention = .regular)
    (hstored : (((Ongoing.join primary secondary).run xs).archive.save now e).1 = .ok .stored)
    (hkept : .delete e ∉ ys) (order : Nat → Nat) (now' : Int64) :
    (((Ongoing.join primary secondary).run (xs ++ .save now e :: ys)).archive.query order now'
      (Filter.any.withIds [e.id]) false).1 = .ok ⟨[.full e], [], .complete⟩ := by
  let all := es ++ es' ++ (xs ++ .save now e :: ys).filterMap Action.event?
  have hjoined : (Ongoing.join primary secondary).Healthy all := by
    apply Ongoing.Healthy.join
    · exact hprimary.serves hopen
        (fun a ha => List.mem_append_left _ (List.mem_append_left _ ha)) hid
    · exact hsecondary.serves hopen'
        (fun a ha => List.mem_append_left _ (List.mem_append_right _ ha)) hid
  have hgiven : ∀ a ∈ (xs ++ .save now e :: ys).filterMap Action.event?, a ∈ all := fun a ha =>
    List.mem_append_right _ ha
  rw [List.filterMap_append] at hgiven
  have hbefore := hjoined.run hid hfits fun a ha => hgiven a (List.mem_append_left _ ha)
  have he : e ∈ all := hgiven e (List.mem_append_right _ List.mem_cons_self)
  have hsaved := hbefore.step (x := .save now e) hid hfits fun a ha => by
    obtain rfl := Option.some.inj ha
    exact he
  -- the save went through in the secondary tier as well, whatever it was to it
  have hkept' : e ∈ (((Ongoing.join primary secondary).run xs).step
      (.save now e)).archive.secondary.db.events.storedEvents := by
    rw [save_undisturbed hbefore.link] at hstored
    rw [Ongoing.step, save_undisturbed hbefore.link]
    cases hsecond : (((Ongoing.join primary secondary).run xs).archive.secondary.save now e).1 with
    | ok o => exact hbefore.secondary.stored_of_save hid hfits hkind he hsecond
    | error err =>
      rw [hsecond] at hstored
      cases hfirst : (((Ongoing.join primary secondary).run xs).archive.primary.save now e).1 with
      | ok o =>
        rw [hfirst] at hstored
        cases hstored
      | error err' =>
        rw [hfirst] at hstored
        cases hstored
  have hrest : ∀ a ∈ ys.filterMap Action.event?, a ∈ all := fun a ha =>
    hgiven a (List.mem_append_right _ (List.mem_cons_of_mem _ ha))
  have hafter := hsaved.run hid hfits hrest
  have hend := Ongoing.stored_run hsaved hid hfits hkind hrest hkept hkept'
  rw [Ongoing.run_append]
  exact query_stored hafter.link hafter.primary hafter.secondary hid hfits hend order now'

/-- A note is demoted, revived by a query and demoted again. -/
theorem query_retained_demoted :
    let config : Config := { Config.standard with collection := ⟨2000, 1, 7, 300, 86, 92⟩ }
    let t := Tier.fresh config.serialBatch
    let primary : Archive := ⟨config, t.db, t.lease, false, false, none⟩
    let e : Event := .uniform 1 7 10 1 [⟨["t", "x"]⟩]
    let f := Filter.any.withIds [e.id]
    let xs : List Action := [.save 1 (.uniform 2 7 20 1 []), .delete (.uniform 2 7 20 1 [])]
    let ys : List Action :=
      [.collect, .ask TierMerge.firstBegun 3 f none false, .revive 4 0, .collect]
    let o := (Ongoing.join primary .fresh).run (xs ++ .save 2 e :: ys)
    o.archive.primary.db.events.storedEvents = [] ∧
      (o.archive.query TierMerge.firstBegun 5 f false).1 = .ok ⟨[.full e], [], .complete⟩ := by
  intro config t primary e f xs ys o
  have hstart : Archive.start config .empty = .ok primary := rfl
  have hid : Identified ([] ++ [] ++ (xs ++ Action.save 2 e :: ys).filterMap Action.event?) := by
    decide +kernel
  have hfits : ∀ a ∈ [] ++ [] ++ (xs ++ Action.save 2 e :: ys).filterMap Action.event?,
      a.Sized := by decide +kernel
  have hsaved : (((Ongoing.join primary .fresh).run xs).archive.save 2 e).1.toOption =
      some .stored := by decide +kernel
  have hkept : Action.delete e ∉ ys := by simp [ys]
  have hquery := @query_retained primary .fresh [] [] xs ys e 2 (.start hstart) .fresh rfl rfl hid
    hfits rfl
  refine ⟨by decide +kernel, hquery ?_ hkept TierMerge.firstBegun 5⟩
  generalize (((Ongoing.join primary .fresh).run xs).archive.save 2 e).1 = outcome at hsaved ⊢
  cases outcome with
  | error err => cases hsaved
  | ok o => exact congrArg Except.ok (Option.some.inj hsaved)

end TieredArchive
end EventArchive
