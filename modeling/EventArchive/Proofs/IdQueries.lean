import EventArchive.Proofs.Meets
import EventArchive.Tiered.Link

/-! # Queries for an identifier

The plan for some identifiers is a scan for each of the keys that begin with its
first eight bytes, and the rest of the identifier is checked against the record, as
is the rest of the filter if the record is whole (`Plan.mem_found_of_ids`).  So the
plan for one identifier finds the record of it, if there is one
(`Plan.mem_found_ofId`).  These keys hold no time: a demoted record is shown with
the time zero.

A lookup of the secondary tier is such a query with the limit one.  Over an
undisturbed link it finds the event if the tier has a whole record of it, and
does not fail (`Link.fetch_eq_found_iff`, `Link.fetch_ne_failed`).
-/
namespace EventArchive

/-! ### The plan for an identifier -/

/-- The scan of the keys of an identifier. -/
def Scan.ofId (i : EventId) : Scan := ⟨.id, Key.idStem i, true, maxUInt64⟩

/-- The plan for an identifier. -/
def Plan.ofId (i : EventId) : Plan := ⟨[.ofId i], some (Filter.any.withIds [i]), 0⟩

namespace Scan
variable {k : Keyspace} {i : EventId} {s : Serial} {since : UInt64}

theorem owns_id (i : EventId) (s : Serial) : (ofId i).owns (Key.id i s) = true := by
  have hlength : (Key.id i s).length = (Key.idStem i).length + 8 := by
    rw [Key.id_eq, List.length_append, Bytes.length_bigEndian]
  rw [owns, hlength]
  show ((Key.idStem i).length + 8 == (Key.idStem i).length + 0 + 8) = true
  rw [Nat.add_zero, beq_self_eq_true]

/-- Keys without a time are in no window, so the scan goes through all of them. -/
theorem mem_keysMet_ofId (hget : k.get? (Key.id i s) = some []) :
    Key.id i s ∈ (ofId i).keysMet k since := by
  have hpast : ∀ key, (ofId i).isPast since key = false := by
    intro key
    show ((ofId i).owns key && (none : Option UInt64).any (· < since)) = false
    rw [Option.any_none, Bool.and_false]
  have hall : (ofId i).keysMet k since = (ofId i).keysBelow k (ofId i).upper := by
    unfold keysMet
    apply List.takeWhile_eq_self_iff.mpr
    intro key _
    rw [hpast key]
    rfl
  rw [hall, mem_keysBelow]
  refine ⟨⟨[], hget⟩, ?_, ?_⟩
  · rw [Key.id_eq]
    exact Bytes.isLE_compare_append _ _
  · -- the keys go on with eight bytes, and the bound with seventeen high ones
    show compare (Key.id i s) (Key.idStem i ++ List.replicate 17 0xff) = .lt
    rw [Key.id_eq, Bytes.compare_append_left]
    apply Bytes.compare_replicate_lt
    rw [Bytes.length_bigEndian]
    omega

end Scan

namespace Plan
variable {k : Keyspace} {L : Ledger} {i : EventId} {hit : Hit} {h : Holding} {s : Serial}
  {pageSize : Nat} {e : Event} {t : UInt64}

theorem ofFilter_withIds (i : EventId) : ofFilter (Filter.any.withIds [i]) = .ok (.ofId i) := rfl

theorem ofFilter_lookupFilter (i : EventId) : ofFilter (Link.lookupFilter i) = .ok (.ofId i) := rfl

/-- A record is met under the key of its identifier, by every plan that scans for it. -/
theorem meets_of_ofId_mem {p : Plan} (hr : k.Renders L) (hL : L s = some h)
    (hheld : h.stub?.isSome) (hscan : Scan.ofId h.event.id ∈ p.scans) : p.Meets k s := by
  have hindex : Key.id h.event.id s ∈ Key.index h.event s := Key.mem_index_iff.mpr (.inl rfl)
  exact ⟨.ofId h.event.id, hscan, Key.id h.event.id s,
    Scan.mem_keysMet_ofId (hr.get?_of_mem_index hL hheld hindex), Scan.owns_id h.event.id s,
    Key.serial?_id h.event.id s⟩

theorem isMatch_withIds_iff : (Filter.any.withIds [i]).isMatch e = true ↔ e.id = i := by
  show ((Filter.accepts [i] e.id && true && true && true && true && true) = true) ↔ _
  simp [Filter.accepts]

/-- The plan for a filter with identifiers. -/
theorem choose_of_ids {f : Filter} (hids : f.ids ≠ []) :
    choose f = ⟨idScans f, some { f with limit := none }, sinceOf f⟩ := by
  simp [choose, hids, sinceOf]

/-- The keys of identifiers hold no time. -/
theorem timeFor_of_ids {f : Filter} (hids : f.ids ≠ []) (e : Event) :
    (choose f).timeFor e = none := by
  obtain ⟨i, hi⟩ := List.exists_mem_of_ne_nil _ hids
  have huntimed : (choose f).scans.any (·.untimed) = true := by
    rw [choose_of_ids hids, List.any_eq_true]
    exact ⟨.ofId i, mem_idScans.mpr ⟨i, hi, rfl⟩, rfl⟩
  rw [timeFor, if_pos huntimed]

/-- A filter with identifiers matches events of these alone. -/
theorem id_mem_of_isMatch {f : Filter} (hids : f.ids ≠ []) (hmatch : f.isMatch e = true) :
    e.id ∈ f.ids := by
  simp only [Filter.isMatch, Bool.and_eq_true] at hmatch
  exact (accepts_iff.mp hmatch.1.1.1.1.1).resolve_left hids

/-- A demoted record is checked for its identifier alone. -/
theorem isStubMatch_iff {f : Filter} (hids : f.ids ≠ []) : f.isStubMatch i = true ↔ i ∈ f.ids := by
  rw [Filter.isStubMatch, accepts_iff, or_iff_right hids]

/-- **The plan for some identifiers finds the records of them**: of the whole ones those that match
the filter, and all the demoted ones. -/
theorem mem_found_of_ids {f : Filter} {p : Plan} (hr : k.Renders L)
    (hfits : ∀ s h, L s = some h → h.event.Sized) (hplan : ofFilter f = .ok p)
    (hids : f.ids ≠ []) (hpossible : isImpossible f = false) :
    hit ∈ p.found k pageSize ↔ ∃ h, L hit.serial = some h ∧
      ((∃ e t, h = .live e t ∧ f.isMatch e = true ∧ hit = ⟨hit.serial, e.createdAt, .full e⟩) ∨
        ∃ e, h = .demoted e ∧ e.id ∈ f.ids ∧ hit = ⟨hit.serial, 0, .stub e.id 0⟩) := by
  have hp : p = choose f := by
    rw [eq_of_ofFilter hplan, hpossible, if_neg Bool.false_ne_true]
  rw [mem_found_iff_meets hr hfits (uniform_of_ofFilter hplan), hp]
  have hmeets : ∀ {h : Holding}, L hit.serial = some h → h.stub?.isSome → h.event.id ∈ f.ids →
      (choose f).Meets k hit.serial := by
    intro h hL hheld hid
    apply meets_of_ofId_mem hr hL hheld
    rw [choose_of_ids hids]
    exact mem_idScans.mpr ⟨_, hid, rfl⟩
  constructor
  · rintro ⟨-, h, hL, hhit⟩
    rw [timeFor_of_ids hids, choose_of_ids hids] at hhit
    cases h with
    | live e t =>
      obtain ⟨hmatch, hhit⟩ := Option.ite_none_right_eq_some.mp hhit
      exact ⟨_, hL, .inl ⟨e, t, rfl, hmatch, (Option.some.inj hhit).symm⟩⟩
    | demoted e =>
      obtain ⟨hmatch, hhit⟩ := Option.ite_none_right_eq_some.mp hhit
      have hid : e.id ∈ f.ids := (isStubMatch_iff hids).mp hmatch
      exact ⟨_, hL, .inr ⟨e, rfl, hid, (Option.some.inj hhit).symm⟩⟩
    | queued e => cases hhit
  · rintro ⟨h, hL, ⟨e, t, rfl, hmatch, hhit⟩ | ⟨e, rfl, hid, hhit⟩⟩
    · refine ⟨hmeets hL rfl (id_mem_of_isMatch hids hmatch), _, hL, ?_⟩
      rw [hhit, choose_of_ids hids]
      exact if_pos hmatch
    · refine ⟨hmeets hL rfl hid, _, hL, ?_⟩
      rw [hhit, timeFor_of_ids hids, choose_of_ids hids]
      exact if_pos ((isStubMatch_iff hids).mpr hid)

/-- **The plan for an identifier finds the record of it**, and nothing else. -/
theorem mem_found_ofId (hr : k.Renders L) (hfits : ∀ s h, L s = some h → h.event.Sized) :
    hit ∈ (ofId i).found k pageSize ↔ ∃ h, L hit.serial = some h ∧ h.event.id = i ∧
      ((∃ e t, h = .live e t ∧ hit = ⟨hit.serial, e.createdAt, .full e⟩) ∨
        ∃ e, h = .demoted e ∧ hit = ⟨hit.serial, 0, .stub i 0⟩) := by
  rw [mem_found_of_ids hr hfits (ofFilter_withIds i) (List.cons_ne_nil _ _) rfl]
  refine exists_congr fun h => and_congr_right fun _ => ?_
  constructor
  · rintro (⟨e, t, rfl, hmatch, hhit⟩ | ⟨e, rfl, hid, hhit⟩)
    · exact ⟨isMatch_withIds_iff.mp hmatch, .inl ⟨e, t, rfl, hhit⟩⟩
    · obtain rfl := List.mem_singleton.mp hid
      exact ⟨rfl, .inr ⟨e, rfl, hhit⟩⟩
  · rintro ⟨hid, ⟨e, t, rfl, hhit⟩ | ⟨e, rfl, hhit⟩⟩
    · exact .inl ⟨e, t, rfl, isMatch_withIds_iff.mpr hid, hhit⟩
    · obtain rfl : e.id = i := hid
      exact .inr ⟨e, rfl, List.mem_singleton_self _, hhit⟩

section
variable (hr : k.Renders L) (hu : L.Unique) (hfits : ∀ s h, L s = some h → h.event.Sized)
include hr hu hfits

/-- There is at most one record of an identifier. -/
theorem length_found_ofId_le (i : EventId) (pageSize : Nat) :
    ((ofId i).found k pageSize).length ≤ 1 := by
  have hserial : ∀ x ∈ (ofId i).found k pageSize, ∃ h, L x.serial = some h ∧ h.stub?.isSome ∧
      h.event.id = i := by
    intro x hx
    obtain ⟨h, hL, hid, ⟨e, t, rfl, -⟩ | ⟨e, rfl, -⟩⟩ := (mem_found_ofId hr hfits).mp hx
    · exact ⟨_, hL, rfl, hid⟩
    · exact ⟨_, hL, rfl, hid⟩
  have hnodup := found_nodup (ofId i) k pageSize
  generalize (ofId i).found k pageSize = found at hserial hnodup
  rcases found with _ | ⟨x, _ | ⟨y, rest⟩⟩
  · exact Nat.zero_le _
  · exact Nat.le_refl _
  · obtain ⟨h, hL, hheld, hid⟩ := hserial x List.mem_cons_self
    obtain ⟨h', hL', hheld', hid'⟩ := hserial y (List.mem_cons_of_mem _ List.mem_cons_self)
    have heq : x.serial = y.serial := hu _ _ h h' hL hL' hheld hheld' (hid.trans hid'.symm)
    exact absurd (heq ▸ List.mem_cons_self) (List.nodup_cons.mp hnodup).1

/-- A whole record of an identifier is all that is found for it. -/
theorem found_ofId_of_live (hL : L s = some (.live e t)) (pageSize : Nat) :
    (ofId e.id).found k pageSize = [⟨s, e.createdAt, .full e⟩] := by
  have hmem : (⟨s, e.createdAt, .full e⟩ : Hit) ∈ (ofId e.id).found k pageSize :=
    (mem_found_ofId hr hfits).mpr ⟨_, hL, rfl, .inl ⟨e, t, rfl, rfl⟩⟩
  have hle := length_found_ofId_le hr hu hfits e.id pageSize
  cases hfound : (ofId e.id).found k pageSize with
  | nil =>
    rw [hfound] at hmem
    cases hmem
  | cons x rest =>
    rw [hfound, List.length_cons] at hle
    have hnil : rest = [] := List.length_eq_zero_iff.mp (by omega)
    rw [hfound, hnil] at hmem
    rw [hnil, List.mem_singleton.mp hmem]

end
end Plan

/-! ### What is sent of an archive -/

namespace Archive
variable {a : Archive} {L : Ledger} {f : Filter} {feed : Feed Hit} {hit : Hit} {e : Event}
  {cancelled : Bool}

/-- What a query may deliver is something, where the most is not nothing. -/
theorem effectiveLimit_pos {c : Config} (hlimit : c.maxLimit ≠ 0) (requested : Option UInt64) :
    0 < (c.effectiveLimit requested).toNat := by
  have hpos : ∀ n : UInt64, n ≠ 0 → 0 < n.toNat := fun n hn =>
    Nat.pos_of_ne_zero fun h => hn (UInt64.toNat_inj.mp h)
  cases requested with
  | none => exact hpos _ hlimit
  | some n =>
    show 0 < (if n = 0 then c.maxLimit else if n ≤ c.maxLimit then n else c.maxLimit).toNat
    by_cases hn : n = 0
    · rw [if_pos hn]
      exact hpos _ hlimit
    · rw [if_neg hn]
      by_cases hle : n ≤ c.maxLimit
      · rw [if_pos hle]
        exact hpos _ hn
      · rw [if_neg hle]
        exact hpos _ hlimit

/-- A query is answered if there is a plan for it. -/
theorem exists_plan_of_feed (hfeed : a.feed f cancelled = .ok feed) :
    ∃ p, Plan.ofFilter f = .ok p ∧ (cancelled = false → feed = .ofQuery
      (p.hits a.db.events (a.config.effectiveLimit f.limit).toNat a.config.scanPageSize.toNat)) ∧
      (cancelled = true → feed.records = []) := by
  rw [Archive.feed] at hfeed
  cases hopen : a.ensureOpen with
  | error err =>
    rw [hopen] at hfeed
    cases hfeed
  | ok u =>
    cases hplan : Plan.ofFilter f with
    | error err =>
      rw [hopen, hplan] at hfeed
      cases hfeed
    | ok p =>
      rw [hopen, hplan] at hfeed
      cases cancelled with
      | true =>
        cases hfeed
        exact ⟨p, rfl, fun h => absurd h.symm Bool.false_ne_true, fun _ => rfl⟩
      | false =>
        cases hfeed
        exact ⟨p, rfl, fun _ => rfl, fun h => absurd h Bool.false_ne_true⟩

section
variable (hr : a.db.events.Renders L) (hfits : ∀ s h, L s = some h → h.event.Sized)
  (hfeed : a.feed f cancelled = .ok feed) (hhit : hit ∈ feed.records)
include hr hfits hfeed hhit

/-- What a tier sends, it holds. -/
theorem exists_held_of_feed : ∃ h residual time, L hit.serial = some h ∧
    h.hit? residual time hit.serial = some hit := by
  obtain ⟨p, hplan, hread, hcancelled⟩ := exists_plan_of_feed hfeed
  cases cancelled with
  | true =>
    rw [hcancelled rfl] at hhit
    cases hhit
  | false =>
    obtain rfl := hread rfl
    have hmem : hit ∈ p.found a.db.events a.config.scanPageSize.toNat := List.mem_of_mem_take hhit
    obtain ⟨-, h, hL, hh⟩ :=
      (Plan.mem_found_iff_meets hr hfits (Plan.uniform_of_ofFilter hplan)).mp hmem
    exact ⟨h, _, _, hL, hh⟩

/-- **The whole records that a tier sends are its own.** -/
theorem live_of_feed (hrecord : hit.record = .full e) : ∃ t, L hit.serial = some (.live e t) := by
  obtain ⟨h, residual, time, hL, hh⟩ := exists_held_of_feed hr hfits hfeed hhit
  obtain ⟨e', t, rfl, -, heq⟩ | ⟨e', _, -, -, heq⟩ := Holding.hit?_cases hh
  · rw [heq] at hrecord
    cases hrecord
    exact ⟨t, hL⟩
  · rw [heq] at hrecord
    cases hrecord

/-- **The demoted records that a tier sends are its own.** -/
theorem demoted_of_feed (hstub : hit.record.isStub = true) :
    ∃ e, L hit.serial = some (.demoted e) ∧ e.id = hit.record.id := by
  obtain ⟨h, residual, time, hL, hh⟩ := exists_held_of_feed hr hfits hfeed hhit
  obtain ⟨e, t, rfl, -, heq⟩ | ⟨e, _, rfl, -, heq⟩ := Holding.hit?_cases hh
  · rw [heq] at hstub
    cases hstub
  · refine ⟨e, hL, ?_⟩
    rw [heq]
    rfl

end

end Archive

/-! ### Lookups -/

namespace Link
variable {a : Archive} {L : Ledger} {i : EventId} {e : Event}

theorem send_undisturbed (a : Archive) (f : Filter) (cancelled : Bool) :
    undisturbed.send a f cancelled = .answer ((a.feed f cancelled).map (Delivery.plain a)) := by
  have hfault : undisturbed.faultFor f = none := by
    rw [faultFor]
    split <;> rfl
  rw [send, hfault]

/-- A lookup finds the first whole record of the identifier that is sent. -/
theorem fetch_of_feed {feed : Feed Hit} (hfeed : a.feed (lookupFilter i) false = .ok feed) :
    (undisturbed.fetch a i).1 =
      match ((feed.records.map Hit.record).find? (isPayload i)).bind Record.event? with
      | some e => .found e
      | none => .absent := by
  have hsent : (Delivery.plain a feed).feed.records = feed.records.map Hit.record := rfl
  rw [fetch, send_undisturbed, hfeed]
  simp only [Except.map, hsent]
  cases ((feed.records.map Hit.record).find? (isPayload i)).bind Record.event? with
  | none => rfl
  | some e => rfl

section
variable (hopen : a.isClosed = false)
include hopen

/-- A lookup in an open tier does not fail. -/
theorem fetch_ne_failed (i : EventId) : (undisturbed.fetch a i).1 ≠ .failed := by
  rw [fetch_of_feed (Archive.feed_eq hopen (Plan.ofFilter_lookupFilter i))]
  split <;> nofun

variable (hlimit : a.config.maxLimit ≠ 0) (hr : a.db.events.Renders L) (hu : L.Unique)
  (hfits : ∀ s h, L s = some h → h.event.Sized)
include hlimit hr hu hfits

/-- **A lookup finds the events of which there are whole records**, and no others. -/
theorem fetch_eq_found_iff : (undisturbed.fetch a i).1 = .found e ↔
    (∃ s t, L s = some (.live e t)) ∧ e.id = i := by
  have hfeed := Archive.feed_eq hopen (Plan.ofFilter_lookupFilter i)
  constructor
  · intro hfound
    rw [fetch_of_feed hfeed] at hfound
    split at hfound
    · rename_i e' hsome
      obtain rfl := Lookup.found.inj hfound
      obtain ⟨r, hr', he⟩ := Option.bind_eq_some_iff.mp hsome
      obtain ⟨hit, hhit, rfl⟩ := List.mem_map.mp (List.mem_of_find?_eq_some hr')
      have hpayload := List.find?_some hr'
      have hrecord : hit.record = .full e' := by
        cases hrec : hit.record with
        | full d =>
          rw [hrec] at he
          exact congrArg Record.full (Option.some.inj he)
        | stub j t =>
          rw [hrec] at he
          cases he
      obtain ⟨t, hL⟩ := Archive.live_of_feed hr hfits hfeed hhit hrecord
      refine ⟨⟨_, t, hL⟩, ?_⟩
      rw [isPayload, hrecord, Bool.and_eq_true, beq_iff_eq] at hpayload
      exact hpayload.2
    · cases hfound
  · rintro ⟨⟨s, t, hL⟩, rfl⟩
    have hone : 0 < (a.config.effectiveLimit (lookupFilter e.id).limit).toNat :=
      Archive.effectiveLimit_pos hlimit _
    obtain ⟨n, hn⟩ := Nat.exists_eq_succ_of_ne_zero (Nat.ne_of_gt hone)
    rw [fetch_of_feed hfeed]
    show (match ((((Plan.ofId e.id).hits _ _ _).map Hit.record).find? (isPayload e.id)).bind
      Record.event? with
      | some e => Lookup.found e
      | none => .absent) = _
    rw [Plan.hits_eq_take, Plan.found_ofId_of_live hr hu hfits hL, hn]
    simp [isPayload, Record.isStub, Record.id, Record.event?]

end
end Link
end EventArchive
