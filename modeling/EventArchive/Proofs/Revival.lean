import EventArchive.Proofs.Contents
import EventArchive.Proofs.TieredLimits
import EventArchive.Proofs.TieredRetention

/-! # Demoted records are revived

Saving an event of which a demoted record is held makes it whole again under its
serial, and leaves its index keys (`Ledger.revive`).  A query does this with all
that its lookups brought.  So what is delivered of an event that the local tier
sent demoted becomes whole in the local tier if its lookup has completed
(`TieredArchive.query_revives`).  The event may also come in the stream of the
secondary tier, and then the limit may be reached before.
-/
namespace EventArchive

/-! ### Ledgers -/

/-- A holding after some events were saved that are demoted. -/
def Holding.revive (now : UInt64) (events : List Event) : Holding → Holding
  | demoted e => if e ∈ events then live e now else demoted e
  | live e t => live e t
  | queued e => queued e

namespace Holding
variable {now : UInt64} {events : List Event} {e : Event} {h : Holding}

theorem revive_cons (h : Holding) : h.revive now (e :: events) =
    (h.revive now [e]).revive now events := by
  cases h with
  | live e' t => rfl
  | demoted e' =>
    by_cases heq : e' = e
    · simp [revive, heq]
    · simp [revive, heq]
  | queued e' => rfl

theorem event_revive (h : Holding) : (h.revive now events).event = h.event := by
  cases h with
  | demoted e =>
    rw [revive]
    split <;> rfl
  | _ => rfl

theorem isSome_stub?_revive (h : Holding) :
    (h.revive now events).stub?.isSome = h.stub?.isSome := by
  cases h with
  | demoted e =>
    rw [revive]
    split <;> rfl
  | _ => rfl

theorem keys_revive (h : Holding) (s : Serial) : (h.revive now events).keys s = h.keys s := by
  cases h with
  | demoted e =>
    rw [revive]
    split <;> rfl
  | _ => rfl

end Holding

namespace Ledger
variable {L L' : Ledger} {now : UInt64} {events : List Event} {e : Event} {s : Serial}

/-- A ledger after some events were saved that are demoted. -/
def revive (L : Ledger) (now : UInt64) (events : List Event) : Ledger :=
  fun s => (L s).map (·.revive now events)

theorem revive_nil : L.revive now [] = L := by
  funext s
  have hnil : ∀ h : Holding, h.revive now [] = h := fun h => by cases h <;> rfl
  rw [revive, funext hnil]
  exact Option.map_id'

theorem revive_cons : L.revive now (e :: events) = (L.revive now [e]).revive now events := by
  funext s
  rw [revive, revive, revive, Option.map_map]
  exact congrArg (fun f => (L s).map f) (funext fun h => h.revive_cons)

theorem sameKeys_revive : (L.revive now events).SameKeys L := by
  intro s
  rw [revive, Option.map_map]
  exact congrArg (fun f => (L s).map f) (funext fun h => h.keys_revive s)

/-- Access times make no difference to the index. -/
theorem SameForms.sameKeys (hsame : L'.SameForms L) : L'.SameKeys L := by
  intro s
  have hkeys : ∀ h : Holding, h.keys s =
      if h.stub?.isSome then Key.index h.event s else Key.tagged h.event s := fun h => by
    cases h <;> rfl
  have hs := congrArg (Option.map fun form : Event × Option Bool =>
    if form.2.isSome then Key.index form.1 s else Key.tagged form.1 s) (hsame s)
  rw [Option.map_map, Option.map_map] at hs
  rw [funext hkeys]
  exact hs

theorem Holds.revive (h : L.Holds s e) : (L.revive now events).Holds s e := by
  obtain ⟨held, hL, hheld, rfl⟩ := h
  refine ⟨held.revive now events, by rw [Ledger.revive, hL]; rfl, ?_, held.event_revive⟩
  rwa [held.isSome_stub?_revive]

/-- The one record of an event that is demoted becomes whole. -/
theorem revive_of_demoted (hu : L.Unique) (hL : L s = some (.demoted e)) :
    L.revive now [e] = Function.update L s (some (.live e now)) := by
  funext s'
  by_cases heq : s' = s
  · subst heq
    rw [Function.update_self, revive, hL]
    simp [Holding.revive]
  · rw [Function.update_of_ne heq, revive]
    cases hL' : L s' with
    | none => rfl
    | some h =>
      cases h with
      | demoted e' =>
        have hne : e' ≠ e := fun h => heq (hu s' s _ _ hL' hL rfl rfl (congrArg Event.id h))
        simp [Holding.revive, hne]
      | live e' t => rfl
      | queued e' => rfl

/-- An event that is whole is not demoted as well. -/
theorem revive_of_live (hu : L.Unique) {t : UInt64} (hL : L s = some (.live e t)) :
    L.revive now [e] = L := by
  funext s'
  rw [revive]
  cases hL' : L s' with
  | none => rfl
  | some h =>
    cases h with
    | demoted e' =>
      have hne : e' ≠ e := by
        rintro rfl
        obtain rfl := hu s' s _ _ hL' hL rfl rfl rfl
        cases hL'.symm.trans hL
      simp [Holding.revive, hne]
    | live e' t => rfl
    | queued e' => rfl

end Ledger

/-! ### One tier -/

/-- A lease that is sure to give out so many serials. -/
def Lease.HasRoomFor (l : Lease) (n : Nat) : Prop := l.next.toNat + n + l.batch.toNat ≤ 2 ^ 64

instance (l : Lease) (n : Nat) : Decidable (l.HasRoomFor n) :=
  inferInstanceAs (Decidable (l.next.toNat + n + l.batch.toNat ≤ 2 ^ 64))

theorem Lease.batch_of_issue {l l' : Lease} {db db' : Database} {s : Serial}
    (h : l.issue db = .ok (s, l', db')) : l'.batch = l.batch := by
  rcases l.issue_cases db with ⟨-, hok⟩ | ⟨-, -, hok⟩ | ⟨-, -, herror⟩
  · cases h.symm.trans hok
    rfl
  · cases h.symm.trans hok
    rfl
  · cases h.symm.trans herror

namespace Tier
variable {t : Tier} {L : Ledger} {J : List (Serial × Event)} {e : Event} {n : Nat}

/-- A save takes one serial at most. -/
theorem lease_save (hf : t.Follows L J) (now : UInt64) (e : Event)
    (hroom : t.lease.HasRoomFor (n + 1)) : (t.step (.save now e)).lease.HasRoomFor n := by
  have hkept : t.lease.HasRoomFor n := by
    rw [Lease.HasRoomFor] at hroom ⊢
    omega
  rw [step, Database.save]
  split_ifs
  · exact hkept
  · exact hkept
  · cases hissue : t.lease.issue t.db with
    | error err => exact hkept
    | ok issued =>
      obtain ⟨s, lease, db⟩ := issued
      have hbatch := Lease.batch_of_issue hissue
      obtain ⟨-, hnext, -⟩ := Lease.issue_eq_ok hf.lease hissue
      show lease.HasRoomFor n
      rw [Lease.HasRoomFor] at hroom ⊢
      rw [hbatch, hnext]
      omega

namespace Follows
variable (hf : t.Follows L J) (hid : Identified (J.map (·.2)))
  (hkinds : ∀ p ∈ J, p.2.kind.retention ≠ .ephemeral)
include hf hid hkinds

/-- **Saving an event of which there is a record** makes it whole, if it was demoted, and changes
nothing else. -/
theorem save_held (hheld : ∃ s, L.Holds s e) (hroom : t.lease.HasRoomFor 1) (now : UInt64) :
    (t.step (.save now e)).Follows (L.revive now [e]) J := by
  obtain ⟨s, h, hL, hstub, rfl⟩ := hheld
  have hmem := hf.stored s h hL
  have hsame : ∀ p ∈ J, p.2.id = h.event.id → p.2 = h.event := fun p hp =>
    hid _ (List.mem_map_of_mem hp) _ (List.mem_map_of_mem hmem)
  have hissue : t.lease.HasRoom := .inr (by rw [Lease.HasRoomFor] at hroom; omega)
  rcases hf.save hsame now with ⟨err, -, hissue'⟩ | ⟨o, L', hok, hsaved, hf'⟩
  · exact absurd hissue' (Lease.issue_ne_error hissue _ err)
  · have hstored : o ≠ .stored → t.stored? (.save now h.event) = none := by
      intro hne
      rw [stored?, hok]
      cases o <;> first | rfl | exact absurd rfl hne
    cases hsaved with
    | ephemeral hkind => exact absurd hkind (hkinds _ hmem)
    | @duplicate s' e' access _ hL' hid' =>
      obtain rfl : e' = h.event := hsame _ (hf.stored s' _ hL') hid'
      rw [hstored (by decide), Option.toList_none, List.append_nil] at hf'
      rwa [Ledger.revive_of_live hf.unique hL']
    | revived _ hL' =>
      rw [hstored (by decide), Option.toList_none, List.append_nil] at hf'
      rwa [Ledger.revive_of_demoted hf.unique hL']
    | superseded _ hnew => exact absurd rfl (hnew s h hL hstub)
    | stored _ hnew => exact absurd rfl (hnew s h hL hstub)

end Follows
end Tier

namespace Archive
variable {a : Archive} {L : Ledger} {J : List (Serial × Event)} {events : List Event}

/-- **Saving events of which there are records** makes those whole that are demoted, and changes
nothing else. -/
theorem follows_revive (hopen : a.isClosed = false) (hf : a.tier.Follows L J)
    (hid : Identified (J.map (·.2))) (hkinds : ∀ p ∈ J, p.2.kind.retention ≠ .ephemeral)
    (hheld : ∀ e ∈ events, ∃ s, L.Holds s e) (hroom : a.lease.HasRoomFor events.length)
    (now : Int64) :
    (a.saveAll now events).tier.Follows (L.revive (clampTime now) events) J := by
  induction events generalizing a L with
  | nil =>
    rw [Ledger.revive_nil]
    exact hf
  | cons e events ih =>
    have hone : a.tier.lease.HasRoomFor 1 := by
      rw [Lease.HasRoomFor, List.length_cons] at hroom
      show a.lease.HasRoomFor 1
      rw [Lease.HasRoomFor]
      omega
    have hsaved := hf.save_held hid hkinds (hheld e List.mem_cons_self) hone (clampTime now)
    have hrest := Tier.lease_save hf (clampTime now) e hroom
    have hstep : (a.save now e).2 = a.withTier (a.tier.step (.save (clampTime now) e)) := by
      rw [save_eq hopen]
    rw [Ledger.revive_cons, saveAll, List.foldl_cons, hstep]
    refine ih (a := a.withTier _) hopen hsaved (fun e' he' => ?_) hrest
    obtain ⟨s, hs⟩ := hheld e' (List.mem_cons_of_mem _ he')
    exact ⟨s, hs.revive⟩

/-- **An archive has an event whole again**: under the serial under which it was demoted, with the
same index, and a query for its identifier delivers it. -/
structure Revives (a a' : Archive) (s : Serial) (e : Event) : Prop where
  demoted : a.db.events.locate e.id = some ⟨s, true⟩
  whole : a'.db.events.locate e.id = some ⟨s, false⟩
  index : ∀ key l, Key.layout? key = some l → l.isSecondary = true →
    a'.db.events.get? key = a.db.events.get? key
  found : ∀ now, (a'.query now (Filter.any.withIds [e.id]) false).1 = .ok ⟨[.full e], [], .complete⟩

/-- An event is whole again if it is so in the ledger, and no other index keys are called for. -/
theorem Revives.of_live {a' : Archive} {es : List Event} {L' : Ledger} {s : Serial} {e : Event}
    {access : UInt64} (hf : a.tier.Follows L J) (hf' : a'.tier.Follows L' J)
    (hJ : ∀ p ∈ J, p.2.Sized) (hserves : a'.Serves es) (hfits : ∀ e ∈ es, e.Sized)
    (hsame : L'.SameKeys L) (hL : L s = some (.demoted e)) (hL' : L' s = some (.live e access)) :
    a.Revives a' s e where
  demoted := (hf.db.events.locate_eq_some_iff hf.unique).mpr ⟨_, hL, rfl, rfl⟩
  whole := (hf'.db.events.locate_eq_some_iff hf'.unique).mpr ⟨_, hL', rfl, rfl⟩
  index _ _ hl hsec := Keyspace.Renders.get?_of_sameKeys hf.db.events hf'.db.events hsame hl hsec
  found now := by
    have hstored : e ∈ a'.db.events.storedEvents := Serves.stored_of_live hf' hJ ⟨s, access, hL'⟩
    obtain ⟨s', hfeed⟩ := hserves.feed_of_stored hfits hstored
    rw [query, hfeed]
    rfl

end Archive

/-! ### Queries -/

/-- Of events with different identifiers none is dropped. -/
theorem mem_distinctBy_id {events : List Event} {e : Event} (hid : Identified events) :
    e ∈ distinctBy Event.id [] events ↔ e ∈ events := by
  refine ⟨fun he => (distinctBy_sublist Event.id [] events).subset he, fun he => ?_⟩
  obtain ⟨d, hd, hsame⟩ := List.mem_map.mp
    ((mem_map_distinctBy Event.id).mpr ⟨List.mem_map_of_mem he, List.not_mem_nil⟩)
  rwa [← hid d ((distinctBy_sublist Event.id [] events).subset hd) e he hsame]

namespace TieredArchive
variable {t : TieredArchive} {es : List Event} {L : Ledger} {f : Filter} {sent sent' : Feed Hit}
  {e : Event} {i : EventId} {r : Record} {order : Nat → Nat}

/-- **What a query does to the local tier:** it notes accesses, and saves what lookups brought. -/
theorem query_primary (hlink : t.link = .undisturbed) (hsent : t.primary.feed f false = .ok sent)
    (hsent' : t.secondary.feed f false = .ok sent') (order : Nat → Nat) (now : Int64) : ∃ hits,
    (t.query order now f false).2.primary = (t.primary.noteAccesses now hits).saveAll now
      (distinctBy Event.id [] (t.mergeOf f order sent sent').fetched) := by
  rw [query, feeds_undisturbed hlink hsent hsent']
  exact ⟨_, rfl⟩

/-- **Two tiers that are asked**: the local one holds a ledger of known events, the secondary one
answers over a link that is not disturbed, and this is what they send. -/
structure Asks (t : TieredArchive) (es : List Event) (L : Ledger) (f : Filter)
    (sent sent' : Feed Hit) : Prop where
  link : t.link = .undisturbed
  renders : t.primary.db.events.Renders L
  unique : L.Unique
  known : ∀ s h, L s = some h → h.event ∈ es
  secondary : t.secondary.Serves es
  identified : Identified es
  sized : ∀ e ∈ es, e.Sized
  sent : t.primary.feed f false = .ok sent
  sent' : t.secondary.feed f false = .ok sent'

namespace Asks
variable (h : t.Asks es L f sent sent')
include h

theorem fits (s : Serial) (held : Holding) (hL : L s = some held) : held.event.Sized :=
  h.sized _ (h.known s held hL)

/-- A lookup finds a known event of the identifier. -/
theorem known_of_found (hfound : (t.link.fetch t.secondary i).1 = .found e) :
    e ∈ es ∧ e.id = i := by
  rw [h.link] at hfound
  exact h.secondary.known_of_found h.sized hfound

/-- A demoted record that the local tier sends is one that it holds. -/
theorem demoted_of_sent (hr : r ∈ sent.records.map Hit.record) (hstub : r.isStub = true) :
    ∃ s e, L s = some (.demoted e) ∧ e.id = r.id := by
  obtain ⟨hit, hhit, rfl⟩ := List.mem_map.mp hr
  obtain ⟨e, hL, hi⟩ := Archive.demoted_of_feed h.renders h.fits h.sent hhit hstub
  exact ⟨hit.serial, e, hL, hi⟩

/-- A whole record that the local tier sends is one that it holds. -/
theorem live_of_sent (he : .full e ∈ sent.records.map Hit.record) :
    ∃ s access, L s = some (.live e access) := by
  obtain ⟨hit, hhit, hrecord⟩ := List.mem_map.mp he
  obtain ⟨access, hL⟩ := Archive.live_of_feed h.renders h.fits h.sent hhit hrecord
  exact ⟨hit.serial, access, hL⟩

/-- Whole records of the secondary tier are found by lookups. -/
theorem found_of_sent (he : .full e ∈ sent'.records.map Hit.record) :
    (t.link.fetch t.secondary e.id).1 = .found e := by
  obtain ⟨hit, hhit, hrecord⟩ := List.mem_map.mp he
  rw [h.link, h.secondary.fetch_eq_found_iff h.sized]
  exact ⟨h.secondary.stored_of_feed h.sized h.sent' hhit hrecord, rfl⟩

/-- **What lookups bring is demoted in the local tier.** -/
theorem demoted_of_fetched (he : e ∈ (t.mergeOf f order sent sent').fetched) :
    e ∈ es ∧ ∃ s, L s = some (.demoted e) := by
  obtain ⟨r, hr, hstub, hfound⟩ := (TierMerge.tracks_run ..).fetched e he
  obtain ⟨s, e', hL, hi⟩ := h.demoted_of_sent hr hstub
  obtain ⟨hmem, hi'⟩ := h.known_of_found hfound
  obtain rfl : e' = e := h.identified e' (h.known _ _ hL) e hmem (hi.trans hi'.symm)
  exact ⟨hmem, s, hL⟩

/-- Lookups bring no more events than the local tier sends records. -/
theorem length_fetched_le :
    (distinctBy Event.id [] (t.mergeOf f order sent sent').fetched).length ≤
      sent.records.length := by
  have hsub : ∀ i ∈ (distinctBy Event.id [] (t.mergeOf f order sent sent').fetched).map Event.id,
      i ∈ sent.records.map fun hit => hit.record.id := by
    intro i hi
    obtain ⟨e, he, rfl⟩ := List.mem_map.mp ((mem_map_distinctBy Event.id).mp hi).1
    obtain ⟨r, hr, -, hfound⟩ := (TierMerge.tracks_run ..).fetched e he
    obtain ⟨hit, hhit, rfl⟩ := List.mem_map.mp hr
    exact List.mem_map.mpr ⟨hit, hhit, (h.known_of_found hfound).2.symm⟩
  have hle := (List.subperm_of_subset (nodup_map_distinctBy Event.id [] _) hsub).length_le
  rwa [List.length_map, List.length_map] at hle

/-- What is delivered whole is whole in one of the tiers. -/
theorem delivered_cases (he : .full e ∈ (t.mergeOf f order sent sent').delivered) :
    (∃ s access, L s = some (.live e access)) ∨ (t.link.fetch t.secondary e.id).1 = .found e := by
  have htracks := TierMerge.tracks_run f (fun i => (t.link.fetch t.secondary i).1) order
    (t.limitFor f) (sent.records.map Hit.record) (sent'.records.map Hit.record)
  obtain ⟨hsent, -⟩ | hsent | ⟨e', hfetched, heq⟩ := htracks.sources _ (.inr he)
  · exact .inl (h.live_of_sent hsent)
  · exact .inr (h.found_of_sent hsent)
  · obtain rfl := Record.full.inj heq
    obtain ⟨r, -, -, hfound⟩ := htracks.fetched e hfetched
    rw [(h.known_of_found hfound).2]
    exact .inr hfound

theorem length_sent_le : sent.records.length ≤ t.limitFor f := by
  obtain ⟨p, -, hread, -⟩ := Archive.exists_plan_of_feed h.sent
  rw [hread rfl]
  show (p.hits _ _ _).length ≤ _
  rw [Plan.hits_eq_take]
  exact List.length_take_le _ _

/-- **What is delivered of an event that the local tier sends demoted** is what a lookup of it
finds. -/
theorem found_of_delivered (hr : r ∈ sent.records.map Hit.record) (hstub : r.isStub = true)
    (hsame : r.id = e.id) (he : .full e ∈ (t.mergeOf f order sent sent').delivered) :
    (t.link.fetch t.secondary e.id).1 = .found e ∧ .full e ∉ sent.records.map Hit.record := by
  obtain ⟨s, e', hL, hi⟩ := h.demoted_of_sent hr hstub
  -- the event is not whole as well
  have hnot : ∀ s' access, L s' ≠ some (.live e access) := by
    intro s' access hlive
    obtain rfl := h.unique s s' _ _ hL hlive rfl rfl (hi.trans hsame)
    cases hL.symm.trans hlive
  refine ⟨(h.delivered_cases he).resolve_left ?_, fun hsent => ?_⟩
  · rintro ⟨s', access, hlive⟩
    exact hnot s' access hlive
  · obtain ⟨s', access, hlive⟩ := h.live_of_sent hsent
    exact hnot s' access hlive

/-- What is delivered of an event that the local tier sends demoted is fetched if an older record is
delivered from an index with times. -/
theorem fetched_of_older (hserves : t.primary.Serves es) (hids : f.ids = [])
    (htimes : ∀ e ∈ es, 0 ≤ e.createdAt)
    (hwhole : ∀ r ∈ sent'.records.map Hit.record, r.isStub = false)
    (hr : r ∈ sent.records.map Hit.record) (hstub : r.isStub = true)
    (hfound : (t.link.fetch t.secondary r.id).1 = .found e) {d : Record}
    (hd : d ∈ (t.mergeOf f order sent sent').delivered) (holder : d.createdAt < e.createdAt) :
    e ∈ (t.mergeOf f order sent sent').fetched := by
  have hstreams := hserves.streams_of_feed h.sized hids htimes h.sent
  have hstreams' := h.secondary.streams_of_feed h.sized hids htimes h.sent'
  have hlookup : ∀ i e, (t.link.fetch t.secondary i).1 = .found e → e ∈ es ∧ e.id = i :=
    fun i e => h.known_of_found
  have hconsistent := Streams.consistent (f := f) h.identified hlookup hstreams hstreams'
  have hsame : (sent'.records.map Hit.record).map (Record.known es) =
      sent'.records.map Hit.record :=
    (List.map_congr_left fun r hr => (Record.keepsPlaces_known es).of_whole (hwhole r hr)).trans
      (List.map_id _)
  rw [hsame] at hconsistent
  -- the record that is looked up shows the time of the event
  obtain ⟨e', he', hshows⟩ := hstreams.known r hr
  obtain ⟨hmem, hi⟩ := h.known_of_found hfound
  obtain rfl : e' = e := h.identified e' he' e hmem (hshows.id.symm.trans hi.symm)
  rw [← hshows.createdAt] at holder
  exact TierMerge.fetched_of_older hconsistent hstreams.sorted hstreams'.sorted hd holder hr hstub
    hfound

/-- **What the lookups of a query brought is whole again in the local tier.** -/
theorem revives_of_fetched {J : List (Serial × Event)} {s : Serial}
    (hf : t.primary.tier.Follows L J) (hJ : ∀ p ∈ J, p.2 ∈ es ∧ p.2.kind.retention ≠ .ephemeral)
    (hserves : t.primary.Serves es) (hroom : t.primary.lease.HasRoomFor (t.limitFor f))
    (hL : L s = some (.demoted e)) (he : e ∈ (t.mergeOf f order sent sent').fetched) (now : Int64) :
    t.primary.Revives (t.query order now f false).2.primary s e := by
  obtain ⟨hits, hafter⟩ := query_primary h.link h.sent h.sent' order now
  let brought := distinctBy Event.id [] (t.mergeOf f order sent sent').fetched
  have hbrought : ∀ d ∈ brought, d ∈ es ∧ ∃ s, L s = some (.demoted d) := fun d hd =>
    h.demoted_of_fetched ((distinctBy_sublist Event.id _ _).subset hd)
  obtain ⟨L₁, hf₁, hforms⟩ := Archive.follows_noteAccesses hf now hits
  have hheld : ∀ d ∈ brought, ∃ s, L₁.Holds s d := by
    intro d hd
    obtain ⟨-, s, hdemoted⟩ := hbrought d hd
    exact ⟨s, hforms.keeps s d ⟨_, hdemoted, rfl, rfl⟩⟩
  have hidJ : Identified (J.map (·.2)) := by
    intro a ha b hb
    obtain ⟨p, hp, rfl⟩ := List.mem_map.mp ha
    obtain ⟨q, hq, rfl⟩ := List.mem_map.mp hb
    exact h.identified _ (hJ p hp).1 _ (hJ q hq).1
  have hroom₁ : (t.primary.noteAccesses now hits).lease.HasRoomFor brought.length := by
    have hle : brought.length ≤ t.limitFor f := h.length_fetched_le.trans h.length_sent_le
    show t.primary.lease.HasRoomFor brought.length
    rw [Lease.HasRoomFor] at hroom ⊢
    omega
  have hserves₁ := hserves.noteAccesses h.identified now hits
  have hf₂ := Archive.follows_revive hserves₁.isOpen hf₁ hidJ (fun p hp => (hJ p hp).2) hheld hroom₁
    now
  have hserves₂ := hserves₁.saveAll h.identified now fun d hd => (hbrought d hd).1
  -- the record is demoted until it is saved again
  have hL₁ : L₁ s = some (.demoted e) := by
    obtain ⟨held, hheld, hevent, hstub⟩ := hforms.symm.exists_of_eq_some hL
    cases held with
    | demoted e' => rw [hheld, show e' = e from hevent]
    | live e' access => cases hstub
    | queued e' => cases hstub
  have hL₂ : (L₁.revive (clampTime now) brought) s = some (.live e (clampTime now)) := by
    have hmem : e ∈ brought := (mem_distinctBy_id fun a ha b hb =>
      h.identified a (h.demoted_of_fetched ha).1 b (h.demoted_of_fetched hb).1).mpr he
    rw [Ledger.revive, hL₁]
    exact congrArg some (if_pos hmem)
  rw [hafter]
  exact .of_live hf hf₂ (fun p hp => h.sized _ (hJ p hp).1) hserves₂ h.sized
    (Ledger.sameKeys_revive.trans hforms.sameKeys) hL hL₂

end Asks

/-- **A delivered record that is demoted is revived, if its lookup has completed.**  Two reachable
tiers are asked, and the secondary one sends whole records.  If an event is delivered of which the
local tier sent a demoted record, the local tier then has the event whole again under its serial,
with the index as it was, and delivers it.  The lookup has completed if the limit was not reached,
if the secondary tier did not send the event, or if an older record was delivered from an index
with times. -/
theorem query_revives {es' : List Event} {reading : Reading Record} {hit : Hit} {now : Int64}
    (hlink : t.link = .undisturbed) (hprimary : Archive.Reached es t.primary)
    (hsecondary : Archive.Reached es' t.secondary) (hopen : t.primary.isClosed = false)
    (hopen' : t.secondary.isClosed = false) (hid : Identified (es ++ es'))
    (hfits : ∀ e ∈ es ++ es', e.Sized) (hroom : t.primary.lease.HasRoomFor (t.limitFor f))
    (hsent : t.primary.feed f false = .ok sent) (hsent' : t.secondary.feed f false = .ok sent')
    (hwhole : ∀ hit ∈ sent'.records, hit.record.isStub = false)
    (hread : (t.query order now f false).1 = .ok reading) (hhit : hit ∈ sent.records)
    (hstub : hit.record.isStub = true) (hsame : hit.record.id = e.id)
    (he : .full e ∈ reading.records)
    (hcompleted : reading.records.length < t.limitFor f ∨
      .full e ∉ sent'.records.map Hit.record ∨
      f.ids = [] ∧ (∀ e ∈ es ++ es', 0 ≤ e.createdAt) ∧
        ∃ r ∈ reading.records, r.createdAt < e.createdAt) :
    t.primary.Revives (t.query order now f false).2.primary hit.serial e := by
  have hserves := hprimary.serves hopen (fun e => List.mem_append_left _) hid
  have hserves' := hsecondary.serves hopen' (fun e => List.mem_append_right _) hid
  obtain ⟨L, J, hf, hJ⟩ := hprimary.exists_journal (fun e => List.mem_append_left _) hid
  have hasks : t.Asks (es ++ es') L f sent sent' := ⟨hlink, hf.db.events, hf.unique,
    fun s h hL => (hJ _ (hf.stored s h hL)).1, hserves', hid, hfits, hsent, hsent'⟩
  have hwhole : ∀ r ∈ sent'.records.map Hit.record, r.isStub = false :=
    List.forall_mem_map.mpr hwhole
  have hr : hit.record ∈ sent.records.map Hit.record := List.mem_map_of_mem hhit
  obtain ⟨reading', hread', hrecords⟩ := query_records hlink hsent hsent' order now
  obtain rfl := Except.ok.inj (hread.symm.trans hread')
  have hdelivered : ∀ r, r ∈ reading.records ↔ r ∈ (t.mergeOf f order sent sent').delivered := by
    intro r
    rw [hrecords, TierMerge.records, List.mem_reverse]
  have hin := (hdelivered _).mp he
  obtain ⟨hfound, hnot⟩ := hasks.found_of_delivered hr hstub hsame hin
  have hfound' : (t.link.fetch t.secondary hit.record.id).1 = .found e := by rwa [hsame]
  have hfetched : e ∈ (t.mergeOf f order sent sent').fetched := by
    rcases hcompleted with hlt | hnot' | ⟨hids, htimes, d, hd, holder⟩
    · rw [hrecords, TierMerge.records, List.length_reverse] at hlt
      exact TierMerge.fetched_of_room hlt hr hstub hfound'
    · exact (TierMerge.tracks_run ..).fetched_of_not_sent hin hnot hnot'
    · exact hasks.fetched_of_older hserves hids htimes hwhole hr hstub hfound'
        ((hdelivered d).mp hd) holder
  obtain ⟨e', hL, hi⟩ := Archive.demoted_of_feed hf.db.events hasks.fits hsent hhit hstub
  obtain rfl : e' = e := hid e' (hJ _ (hf.stored _ _ hL)).1 e (hasks.known_of_found hfound).1
    (hi.trans hsame)
  exact hasks.revives_of_fetched hf hJ hserves hroom hL hfetched now

/-- A demoted note is asked for by its identifier, and comes in the stream of the secondary tier.
The merge goes on until the lookup has completed, and the note is revived. -/
theorem query_revives_note :
    let e : Event := .uniform 1 7 100 1 []
    let demoted := (Archive.demoting.save 5 e).2.collect.2
    let t : TieredArchive := .join demoted (Archive.fresh.saveAll 5 [e]) .undisturbed
    let f := Filter.any.withIds [e.id]
    ∃ reading, (t.query TierMerge.firstBegun 9 f false).1 = .ok reading ∧
      reading.records = [.full e] ∧ t.primary.db.events.storedEvents = [] ∧
      t.primary.Revives (t.query TierMerge.firstBegun 9 f false).2.primary 0 e := by
  intro e demoted t f
  have hdemoted : Archive.Reached [e] demoted := (Archive.Reached.demoting.save 5 e).collect
  have hprimary := hdemoted.withDemotion true
  have hsecondary := Archive.Reached.fresh.saveAll 5 [e]
  have hplan : Plan.ofFilter f = .ok (.ofId e.id) := Plan.ofFilter_withIds e.id
  have hopen : t.primary.isClosed = false := by decide +kernel
  have hopen' : t.secondary.isClosed = false := by decide +kernel
  have hsent := Archive.feed_eq hopen hplan
  have hsent' := Archive.feed_eq hopen' hplan
  obtain ⟨reading, hread, -⟩ := query_records (t := t) rfl hsent hsent' TierMerge.firstBegun 9
  have hrecords : (t.query TierMerge.firstBegun 9 f false).1.toOption.map (·.records) =
      some [.full e] := by decide +kernel
  rw [hread] at hrecords
  have hrecords : reading.records = [.full e] := Option.some.inj hrecords
  have hlimit : 1 < t.limitFor f := by decide +kernel
  have hstub : (⟨0, 0, .stub e.id 0⟩ : Hit).record.isStub = true := rfl
  have hrevives := query_revives (e := e) (t := t) rfl hprimary hsecondary hopen hopen'
    (by decide +kernel) (by decide +kernel) (by decide +kernel) hsent hsent' (by decide +kernel)
    hread (by decide +kernel) hstub rfl (by rw [hrecords]; exact List.mem_cons_self)
    (.inl (by rw [hrecords]; exact hlimit))
  exact ⟨reading, hread, hrecords, by decide +kernel, hrevives⟩

/-- If one record may be delivered, the note reaches the limit before its lookup has completed: it
is delivered, and stays demoted. -/
theorem query_unrevived :
    let e : Event := .uniform 1 7 100 1 []
    let demoted := (Archive.demoting.save 5 e).2.collect.2
    let t : TieredArchive := .join demoted (Archive.fresh.saveAll 5 [e]) .undisturbed
    let f := (Filter.any.withIds [e.id]).withLimit 1
    let after := (t.query TierMerge.firstBegun 9 f false).2.primary
    Archive.Reached [e] t.primary ∧ Archive.Reached [e] t.secondary ∧
      (t.primary.feed f false).toOption.map (·.records.map Hit.record) = some [.stub e.id 0] ∧
      (t.query TierMerge.firstBegun 9 f false).1.toOption.map (·.records) = some [.full e] ∧
      after.db.events.locate e.id = some ⟨0, true⟩ ∧
      (after.query 10 (Filter.any.withIds [e.id]) false).1.toOption.map (·.records) =
        some [.stub e.id 0] := by
  intro e demoted t f after
  have hdemoted : Archive.Reached [e] demoted := (Archive.Reached.demoting.save 5 e).collect
  exact ⟨hdemoted.withDemotion true, Archive.Reached.fresh.saveAll 5 [e], by decide +kernel,
    by decide +kernel, by decide +kernel, by decide +kernel⟩

end TieredArchive
end EventArchive
