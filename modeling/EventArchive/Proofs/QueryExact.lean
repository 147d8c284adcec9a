import EventArchive.Proofs.Plans
import EventArchive.Proofs.QueryHits
import EventArchive.Proofs.Reachable

/-! # Queries are exact

A query without identifiers delivers the newest of the stored events that match,
as many as it may, and each once (`NewestOf`).  Its plan finds the records that
match and no others, and orders them by time, so cutting the list to the limit
leaves out older ones alone.  The records have to be whole: of a demoted one not
enough is left to check the rest of a filter.
-/
namespace EventArchive

/-! ### The newest of some events -/

/-- **The newest of the listed events that satisfy a test**, at most `n` of them. -/
structure NewestOf (stored : List Event) (test : Event → Bool) (n : Nat) (l : List Event) :
    Prop where
  nodup : l.Nodup
  sound : ∀ e ∈ l, e ∈ stored ∧ test e = true
  sorted : l.Pairwise fun a b => b.createdAt ≤ a.createdAt
  length : l.length = min n (stored.filter test).length
  /-- What is left out is not newer than the last one. -/
  missing : ∀ e ∈ stored, test e = true → e ∉ l → ∀ last, l.getLast? = some last →
    e.createdAt ≤ last.createdAt

/-- A list of all that satisfy a test is cut to as many as there are. -/
theorem length_take_of_mem_iff {stored l : List Event} {test : Event → Bool}
    (hstored : stored.Nodup) (hnodup : l.Nodup)
    (hmem : ∀ e, e ∈ l ↔ e ∈ stored ∧ test e = true) (n : Nat) :
    (l.take n).length = min n (stored.filter test).length := by
  have hperm : l.Perm (stored.filter test) := by
    refine (List.perm_ext_iff_of_nodup hnodup (hstored.filter _)).mpr fun e => ?_
    rw [hmem, List.mem_filter]
  rw [List.length_take, hperm.length_eq]

/-- The beginning of a list of all that satisfy a test, newest first. -/
theorem NewestOf.take {stored l : List Event} {test : Event → Bool} (hstored : stored.Nodup)
    (hnodup : l.Nodup) (hmem : ∀ e, e ∈ l ↔ e ∈ stored ∧ test e = true)
    (hsorted : l.Pairwise fun a b => b.createdAt ≤ a.createdAt) (n : Nat) :
    NewestOf stored test n (l.take n) := by
  refine ⟨hnodup.take, fun e he => (hmem e).mp (List.mem_of_mem_take he), hsorted.take,
    length_take_of_mem_iff hstored hnodup hmem n, ?_⟩
  intro e he htest hout last hlast
  -- what the cut takes away comes after everything that it leaves
  have hdrop : e ∈ l.drop n := by
    have hin : e ∈ l.take n ++ l.drop n := by
      rw [List.take_append_drop]
      exact (hmem e).mpr ⟨he, htest⟩
    exact (List.mem_append.mp hin).resolve_left hout
  rw [← List.take_append_drop n l, List.pairwise_append] at hsorted
  exact hsorted.2.2 last (List.mem_of_getLast? hlast) e hdrop

/-! ### Stored events -/

/-- The event that a value holds, if it holds a whole one. -/
def StoredValue.event? (value : Bytes) : Option Event :=
  match decode value with
  | .ok (.full e) => some e
  | .ok (.stub _) => none
  | .error _ => none

namespace Keyspace

/-- The whole events of a key space, by their serials. -/
def storedEvents (k : Keyspace) : List Event :=
  (k.ofLayout .event).filterMap fun entry => StoredValue.event? entry.2

variable {k : Keyspace} {L : Ledger} {e : Event} {key v : Bytes}

/-- A record that fits is read as its event, if it is whole. -/
theorem event?_of_record? {h : Holding} (hfits : h.event.Sized) (hrec : h.record? = some v) :
    StoredValue.event? v = some e ↔ ∃ t, h = .live e t := by
  cases h with
  | live e' t =>
    cases hrec
    rw [StoredValue.event?, StoredValue.decode_encode (e := e') hfits]
    simp
  | demoted e' =>
    cases hrec
    rw [StoredValue.event?, StoredValue.decode_id]
    simp
  | queued e' => cases hrec

namespace Renders

/-- The keys of records are those of the serials that have one. -/
theorem mem_ofLayout_event (hr : k.Renders L) : (key, v) ∈ k.ofLayout .event ↔
    ∃ s h, L s = some h ∧ key = Key.event s ∧ h.record? = some v := by
  rw [mem_ofLayout]
  constructor
  · rintro ⟨hv, hl⟩
    rw [hr key] at hv
    obtain ⟨s, h, hL, hval⟩ := Ledger.value?_eq_some_iff.mp hv
    refine ⟨s, h, hL, ?_⟩
    rcases Holding.value?_eq_some_iff.mp hval with ⟨rfl, hrec⟩ | ⟨rfl, -⟩ | ⟨hm, -⟩
    · exact ⟨rfl, hrec⟩
    · rw [Key.layout?_counter] at hl
      cases hl
    · obtain ⟨l, hl', hsec⟩ := Key.layout?_of_mem_index (Holding.mem_index_of_mem_keys hm)
      rw [hl] at hl'
      cases hl'
      cases hsec
  · rintro ⟨s, h, hL, rfl, hrec⟩
    exact ⟨hr.record?_eq_some_iff.mpr ⟨h, hL, hrec⟩, Key.layout?_event s⟩

theorem mem_storedEvents (hr : k.Renders L) (hfits : ∀ s h, L s = some h → h.event.Sized) :
    e ∈ k.storedEvents ↔ ∃ s t, L s = some (.live e t) := by
  rw [storedEvents, List.mem_filterMap]
  constructor
  · rintro ⟨⟨key, v⟩, hmem, he⟩
    obtain ⟨s, h, hL, -, hrec⟩ := hr.mem_ofLayout_event.mp hmem
    obtain ⟨t, rfl⟩ := (event?_of_record? (hfits s h hL) hrec).mp he
    exact ⟨s, t, hL⟩
  · rintro ⟨s, t, hL⟩
    refine ⟨(Key.event s, StoredValue.encode e), ?_, ?_⟩
    · exact hr.mem_ofLayout_event.mpr ⟨s, _, hL, rfl, rfl⟩
    · exact (event?_of_record? (hfits s _ hL) rfl).mpr ⟨t, rfl⟩

/-- No event is stored twice. -/
theorem storedEvents_nodup (hr : k.Renders L) (hu : L.Unique)
    (hfits : ∀ s h, L s = some h → h.event.Sized) : k.storedEvents.Nodup := by
  rw [storedEvents, List.nodup_iff_pairwise_ne, List.pairwise_filterMap]
  refine (k.range_sorted _ _).imp_of_mem fun {a b} ha hb hlt e he e' he' heq => ?_
  subst heq
  obtain ⟨s, h, hL, hkey, hrec⟩ := hr.mem_ofLayout_event.mp ha
  obtain ⟨s', h', hL', hkey', hrec'⟩ := hr.mem_ofLayout_event.mp hb
  obtain ⟨t, rfl⟩ := (event?_of_record? (hfits s h hL) hrec).mp he
  obtain ⟨t', rfl⟩ := (event?_of_record? (hfits s' h' hL') hrec').mp he'
  obtain rfl := hu s s' _ _ hL hL' rfl rfl rfl
  rw [hkey, hkey'] at hlt
  exact SortedMap.not_compare_self_lt _ hlt

end Renders
end Keyspace

/-! ### What the plan of a filter finds -/

/-- A ledger of whole events, none of a negative time. -/
structure Ledger.Whole (L : Ledger) : Prop where
  live : ∀ s h, L s = some h → h.stub? ≠ some true
  times : ∀ s e t, L s = some (.live e t) → 0 ≤ e.createdAt

/-- A ledger is whole if the records of its key space are, and none is of a negative time. -/
theorem Keyspace.Renders.whole {k : Keyspace} {L : Ledger} (hr : k.Renders L)
    (hfits : ∀ s h, L s = some h → h.event.Sized)
    (hwhole : ∀ record ∈ k.ofLayout .event, StoredValue.isStub record.2 = false)
    (htimes : ∀ e ∈ k.storedEvents, 0 ≤ e.createdAt) : L.Whole where
  live s h hL hstub := by
    cases hrec : h.record? with
    | none =>
      rw [Holding.record?_eq_none_iff.mp hrec] at hstub
      cases hstub
    | some v =>
      rw [Holding.stub?_of_record? hrec] at hstub
      have hfalse := hwhole _ (hr.mem_ofLayout_event.mpr ⟨s, h, hL, rfl, hrec⟩)
      rw [Option.some.inj hstub] at hfalse
      cases hfalse
  times s e t hL := htimes e ((hr.mem_storedEvents hfits).mpr ⟨s, t, hL⟩)

namespace Plan
variable {f : Filter} {p : Plan} {k : Keyspace} {L : Ledger} {hit : Hit} {e : Event}
  {pageSize : Nat}

/-- A plan finds the whole records that match a filter, and nothing else. -/
def FindsMatches (p : Plan) (k : Keyspace) (L : Ledger) (f : Filter) (pageSize : Nat) : Prop :=
  ∀ hit, hit ∈ p.found k pageSize ↔ ∃ e t, L hit.serial = some (.live e t) ∧
    f.isMatch e = true ∧ hit = ⟨hit.serial, e.createdAt, .full e⟩

/-- **The plan of a filter finds the records that match**, and nothing else. -/
theorem findsMatches (hr : k.Renders L) (hfits : ∀ s h, L s = some h → h.event.Sized)
    (hw : L.Whole) (hplan : ofFilter f = .ok p) (hids : f.ids = []) (htags : f.TagsIndexed)
    (pageSize : Nat) : p.FindsMatches k L f pageSize := by
  intro hit
  rw [mem_found hr hfits fun s hs => timed_of_mem_scans hplan hids hs]
  constructor
  · rintro ⟨h, r, hL, hfound, heq, hreaches⟩
    cases h with
    | live e t =>
      obtain ⟨hpass, hr'⟩ := Option.ite_none_right_eq_some.mp hfound
      cases hr'
      have hmatch := (finds_iff hplan hids htags (hw.times _ e t hL)).mp ⟨hpass, hreaches⟩
      exact ⟨e, t, hL, hmatch, heq⟩
    | demoted e => exact absurd rfl (hw.live _ _ hL)
    | queued e => cases hfound
  · rintro ⟨e, t, hL, hmatch, heq⟩
    have hfinds : p.Finds e hit.serial :=
      (finds_iff hplan hids htags (hw.times _ e t hL)).mpr hmatch
    exact ⟨.live e t, .full e, hL, if_pos hfinds.passes, heq, hfinds.reached⟩

/-- The events that a plan finds, in the order in which they are delivered. -/
def foundEvents (p : Plan) (k : Keyspace) (pageSize : Nat) : List Event :=
  (p.found k pageSize).filterMap (·.record.event?)

section
variable (hfinds : p.FindsMatches k L f pageSize)
include hfinds

/-- Every hit is a whole event. -/
theorem map_record_found :
    (p.found k pageSize).map Hit.record = (p.foundEvents k pageSize).map .full := by
  rw [foundEvents, List.map_filterMap]
  refine (List.filterMap_eq_map_iff_forall_eq_some.mpr fun hit hmem => ?_).symm
  obtain ⟨e, t, -, -, heq⟩ := (hfinds hit).mp hmem
  rw [heq]
  rfl

theorem mem_foundEvents (hr : k.Renders L) (hfits : ∀ s h, L s = some h → h.event.Sized) :
    e ∈ p.foundEvents k pageSize ↔ e ∈ k.storedEvents ∧ f.isMatch e = true := by
  rw [foundEvents, List.mem_filterMap, hr.mem_storedEvents hfits]
  constructor
  · rintro ⟨hit, hmem, he⟩
    obtain ⟨e', t, hL, hmatch, heq⟩ := (hfinds hit).mp hmem
    rw [heq] at he
    obtain rfl : e' = e := Option.some.inj he
    exact ⟨⟨_, t, hL⟩, hmatch⟩
  · rintro ⟨⟨s, t, hL⟩, hmatch⟩
    refine ⟨⟨s, e.createdAt, .full e⟩, ?_, rfl⟩
    exact (hfinds _).mpr ⟨e, t, hL, hmatch, rfl⟩

theorem foundEvents_nodup (hu : L.Unique) : (p.foundEvents k pageSize).Nodup := by
  have hserials := List.pairwise_map.mp (found_nodup p k pageSize)
  rw [foundEvents, List.nodup_iff_pairwise_ne, List.pairwise_filterMap]
  refine hserials.imp_of_mem fun {a b} ha hb hne e he e' he' heq => ?_
  subst heq
  obtain ⟨e₁, t₁, hL₁, -, heq₁⟩ := (hfinds a).mp ha
  obtain ⟨e₂, t₂, hL₂, -, heq₂⟩ := (hfinds b).mp hb
  rw [heq₁] at he
  rw [heq₂] at he'
  obtain rfl : e₁ = e := Option.some.inj he
  obtain rfl : e₂ = e₁ := Option.some.inj he'
  -- one event has one record
  exact hne (hu _ _ _ _ hL₁ hL₂ rfl rfl rfl)

/-- The events come newest first if the hits do. -/
theorem foundEvents_sorted_iff :
    ((p.foundEvents k pageSize).Pairwise fun a b => b.createdAt ≤ a.createdAt) ↔
      NewestFirst (p.found k pageSize) := by
  have hwhole : ∀ a ∈ p.found k pageSize, ∃ e, a.record.event? = some e ∧
      e.createdAt = a.createdAt := by
    intro a ha
    obtain ⟨e, t, -, -, heq⟩ := (hfinds a).mp ha
    rw [heq]
    exact ⟨e, rfl, rfl⟩
  rw [foundEvents, List.pairwise_filterMap, NewestFirst]
  constructor
  · refine List.Pairwise.imp_of_mem fun {a b} ha hb hall => ?_
    obtain ⟨e, he, htime⟩ := hwhole a ha
    obtain ⟨e', he', htime'⟩ := hwhole b hb
    rw [← htime, ← htime']
    exact hall e he e' he'
  · refine List.Pairwise.imp_of_mem fun {a b} ha hb hle e he e' he' => ?_
    obtain ⟨_, hsame, htime⟩ := hwhole a ha
    obtain ⟨_, hsame', htime'⟩ := hwhole b hb
    obtain rfl := Option.some.inj (hsame.symm.trans he)
    obtain rfl := Option.some.inj (hsame'.symm.trans he')
    rwa [htime, htime']

end
end Plan

/-! ### Queries -/

/-- The reading of a query that is exact: the newest of the stored events that match, and no
more. -/
structure Reading.Exact (r : Reading Record) (stored : List Event) (f : Filter) (limit : Nat) :
    Prop where
  outcome : r.outcome = .complete
  whole : r.records = r.events.map .full
  newest : NewestOf stored f.isMatch limit r.events

/-- The events of whole records. -/
theorem Reading.events_whole (es : List Event) (rest : List Record) (outcome : QueryOutcome) :
    (Reading.mk (es.map .full) rest outcome).events = es := by
  rw [Reading.events, List.filterMap_map]
  exact List.filterMap_some

namespace Archive

/-- A query whose plan finds whole records delivers the first of these. -/
theorem query_eq_foundEvents {a : Archive} {L : Ledger} {f : Filter} {p : Plan}
    (hopen : a.isClosed = false) (hplan : Plan.ofFilter f = .ok p)
    (hfinds : p.FindsMatches a.db.events L f a.config.scanPageSize.toNat) (now : Int64) :
    (a.query now f false).1 = .ok ⟨((p.foundEvents a.db.events a.config.scanPageSize.toNat).take
      (a.config.effectiveLimit f.limit).toNat).map .full, [], .complete⟩ := by
  rw [query_eq hopen hplan, Plan.hits_eq_take, List.map_take, List.map_take,
    Plan.map_record_found hfinds]

/-- **Queries that use an index are exact.**  On an open archive whose records are all whole and
of times that are not negative, a query without identifiers for which there is a plan delivers
the newest of the stored events that match, as many as it may. -/
theorem query_exact {es : List Event} {a : Archive} (ha : Reached es a) (hid : Identified es)
    (hfits : ∀ e ∈ es, e.Sized) (hopen : a.isClosed = false)
    (hwhole : ∀ record ∈ a.db.events.ofLayout .event, StoredValue.isStub record.2 = false)
    (htimes : ∀ e ∈ a.db.events.storedEvents, 0 ≤ e.createdAt) (f : Filter)
    (hids : f.ids = []) (htags : f.TagsIndexed)
    (hplan : ∃ plan, Plan.ofFilter f = .ok plan) (now : Int64) :
    a.db.events.storedEvents.Nodup ∧ ∃ reading, (a.query now f false).1 = .ok reading ∧
      reading.Exact a.db.events.storedEvents f (a.config.effectiveLimit f.limit).toNat := by
  obtain ⟨L, J, hf, hmem⟩ := ha.exists_follows hid
  obtain ⟨plan, hplan⟩ := hplan
  have hr : a.db.events.Renders L := hf.db.events
  have hsized : ∀ s h, L s = some h → h.event.Sized := fun s h hL => hfits _ (hmem s h hL)
  have hw : L.Whole := hr.whole hsized hwhole htimes
  have hstored := hr.storedEvents_nodup hf.unique hsized
  refine ⟨hstored, ?_⟩
  let limit := (a.config.effectiveLimit f.limit).toNat
  let pageSize := a.config.scanPageSize.toNat
  have hfinds : plan.FindsMatches a.db.events L f pageSize :=
    Plan.findsMatches hr hsized hw hplan hids htags pageSize
  have hsorted := (Plan.foundEvents_sorted_iff hfinds).mpr
    (Plan.found_sorted hr hsized hw.times fun s hs => Plan.timed_of_mem_scans hplan hids hs)
  refine ⟨_, query_eq_foundEvents hopen hplan hfinds now, rfl, ?_, ?_⟩ <;>
    rw [Reading.events_whole]
  exact .take hstored (Plan.foundEvents_nodup hfinds hf.unique)
    (fun e => Plan.mem_foundEvents hfinds hr hsized) hsorted limit

/-- Two of three notes on a subject are asked for, and a fourth note is on another one. -/
theorem query_exact_tagged :
    let es : List Event := [.uniform 1 7 10 1 [⟨["t", "x"]⟩], .uniform 2 8 30 1 [⟨["t", "x"]⟩],
      .uniform 3 8 20 1 [⟨["t", "x"]⟩], .uniform 4 8 40 1 [⟨["t", "y"]⟩]]
    let a := fresh.saveAll 5 es
    let f := (Filter.any.withTag 't' ["x"]).withLimit 2
    ∃ reading, Reached es a ∧ f.TagsIndexed ∧ (a.query 9 f false).1 = .ok reading ∧
      reading.events.map Event.createdAt = [30, 20] ∧
      reading.Exact a.db.events.storedEvents f 2 := by
  intro es a f
  have ha : Reached es a := Reached.fresh.saveAll 5 es
  have htags : f.TagsIndexed := by decide +kernel
  have hplan : Plan.ofFilter f = .ok (Plan.choose f) := rfl
  obtain ⟨-, reading, hok, hexact⟩ := query_exact ha (by decide +kernel) (by decide +kernel)
    (by decide +kernel) (by decide +kernel) (by decide +kernel) f rfl htags ⟨_, hplan⟩ 9
  have hread : (a.query 9 f false).1.toOption.map (·.events.map Event.createdAt) =
      some [30, 20] := by decide +kernel
  rw [hok] at hread
  exact ⟨reading, ha, htags, hok, Option.some.inj hread, hexact⟩

end Archive
end EventArchive
