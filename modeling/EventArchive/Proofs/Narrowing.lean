import EventArchive.Proofs.CountAgrees
import EventArchive.Proofs.IdQueries

/-! # Narrowing a filter

A filter with a constraint more is answered from another index, and another part
of it is checked against the records.  What is delivered does not depend on that:
a whole record is found exactly if it matches and the index that is used holds it
(`Plan.mem_foundEvents_iff`), and every index but that of tags holds every record.
So the narrower query delivers what the broader one delivered, as far as it
matches, where the tag index is not used or holds the record
(`Archive.query_narrowed`).  The tag index leaves out long values and long names: a
query that is answered from it misses records that other indices lead to
(`Archive.query_narrowed_unindexed`).
-/
namespace EventArchive

namespace Filter

/-- **A filter that narrows another one**: it has the constraints of the other as they are, and may
constrain dimensions that the other leaves open. -/
structure Narrows (g f : Filter) : Prop where
  ids : f.ids = [] ∨ g.ids = f.ids
  kinds : f.kinds = [] ∨ g.kinds = f.kinds
  authors : f.authors = [] ∨ g.authors = f.authors
  tags : ∀ t ∈ f.tags.entries, t ∈ g.tags.entries
  since : f.since = none ∨ g.since = f.since
  till : f.till = none ∨ g.till = f.till

variable {f g : Filter} {e : Event}

theorem accepts_of_narrows {α : Type} [DecidableEq α] {accepted accepted' : List α} {x : α}
    (h : accepted = [] ∨ accepted' = accepted) (haccepts : accepts accepted' x = true) :
    accepts accepted x = true := by
  rcases h with rfl | rfl
  · rfl
  · exact haccepts

theorem all_of_narrows {α : Type} {o o' : Option α} {test : α → Bool}
    (h : o = none ∨ o' = o) (hall : o'.all test = true) : o.all test = true := by
  rcases h with rfl | rfl
  · rfl
  · exact hall

/-- What matches the narrower filter matches the broader one. -/
theorem Narrows.isMatch (h : g.Narrows f) (hmatch : g.isMatch e = true) : f.isMatch e = true := by
  simp only [Filter.isMatch, Bool.and_eq_true, List.all_eq_true] at hmatch ⊢
  obtain ⟨⟨⟨⟨⟨hids, hkinds⟩, hauthors⟩, htags⟩, hsince⟩, htill⟩ := hmatch
  refine ⟨⟨⟨⟨⟨?_, ?_⟩, ?_⟩, fun t ht => htags t (h.tags t ht)⟩, ?_⟩, ?_⟩
  · exact accepts_of_narrows h.ids hids
  · exact accepts_of_narrows h.kinds hkinds
  · exact accepts_of_narrows h.authors hauthors
  · exact all_of_narrows h.since hsince
  · exact all_of_narrows h.till htill

theorem indexes_of_ids (hids : f.ids ≠ []) (e : Event) : f.Indexes e :=
  fun hnone => absurd hnone hids

end Filter

/-! ### What a plan finds of whole records -/

namespace Plan
variable {f : Filter} {p : Plan} {k : Keyspace} {L : Ledger} {e : Event} {s : Serial}
  {t : UInt64} {pageSize : Nat}

section
variable (hr : k.Renders L) (hfits : ∀ s h, L s = some h → h.event.Sized)
  (htimes : ∀ s e t, L s = some (.live e t) → 0 ≤ e.createdAt) (hplan : ofFilter f = .ok p)
include hr hfits htimes hplan

/-- A plan without identifiers finds a whole record if the event matches and the index that is used
holds it. -/
theorem found_live_iff_of_timed (hids : f.ids = []) (hL : L s = some (.live e t)) :
    (⟨s, e.createdAt, .full e⟩ : Hit) ∈ p.found k pageSize ↔
      f.isMatch e = true ∧ f.Indexes e := by
  have hfinds : p.Finds e s ↔ f.isMatch e = true ∧ f.Indexes e :=
    finds_iff_indexes hplan hids (htimes s e t hL)
  rw [mem_found hr hfits fun s hs => timed_of_mem_scans hplan hids hs, ← hfinds]
  constructor
  · rintro ⟨h, r, hL', hfound, -, hreaches⟩
    obtain rfl := Option.some.inj (hL.symm.trans hL')
    obtain ⟨hpass, -⟩ := Option.ite_none_right_eq_some.mp hfound
    exact ⟨hpass, hreaches⟩
  · intro hfinds
    exact ⟨.live e t, .full e, hL, if_pos hfinds.passes, rfl, hfinds.reached⟩

/-- A plan for identifiers finds a whole record if the event matches. -/
theorem found_live_iff_of_ids (hids : f.ids ≠ []) (hL : L s = some (.live e t)) :
    (⟨s, e.createdAt, .full e⟩ : Hit) ∈ p.found k pageSize ↔ f.isMatch e = true := by
  cases hpossible : isImpossible f with
  | true =>
    rw [not_isMatch_of_isImpossible hpossible (htimes s e t hL),
      mem_found_iff_meets hr hfits (uniform_of_ofFilter hplan), eq_of_ofFilter hplan, hpossible,
      if_pos rfl]
    refine ⟨fun hfound => ?_, nofun⟩
    obtain ⟨⟨scan, hscan, -⟩, -⟩ := hfound
    cases hscan
  | false =>
    rw [mem_found_of_ids hr hfits hplan hids hpossible]
    constructor
    · rintro ⟨h, hL', ⟨e', t', rfl, hmatch, hhit⟩ | ⟨e', rfl, -, hhit⟩⟩
      · obtain ⟨rfl, -⟩ := Holding.live.inj (Option.some.inj (hL.symm.trans hL'))
        exact hmatch
      · cases hL.symm.trans hL'
    · intro hmatch
      exact ⟨_, hL, .inl ⟨e, t, rfl, hmatch, rfl⟩⟩

/-- **What a plan finds of whole records** are the events that match and that the index that is used
holds. -/
theorem mem_foundEvents_iff : e ∈ p.foundEvents k pageSize ↔
    e ∈ k.storedEvents ∧ f.isMatch e = true ∧ f.Indexes e := by
  have hlive : ∀ {s t}, L s = some (.live e t) →
      ((⟨s, e.createdAt, .full e⟩ : Hit) ∈ p.found k pageSize ↔
        f.isMatch e = true ∧ f.Indexes e) := by
    intro s t hL
    by_cases hids : f.ids = []
    · exact found_live_iff_of_timed hr hfits htimes hplan hids hL
    · rw [and_iff_left (Filter.indexes_of_ids hids e)]
      exact found_live_iff_of_ids hr hfits htimes hplan hids hL
  rw [foundEvents, List.mem_filterMap, hr.mem_storedEvents hfits]
  constructor
  · rintro ⟨x, hx, he⟩
    obtain ⟨-, h, hL, hhit⟩ :=
      (mem_found_iff_meets hr hfits (uniform_of_ofFilter hplan)).mp hx
    obtain ⟨e', t, rfl, -, heq⟩ | ⟨e', _, rfl, -, heq⟩ := Holding.hit?_cases hhit
    · rw [heq] at he hx
      obtain rfl : e' = e := Option.some.inj he
      exact ⟨⟨_, t, hL⟩, (hlive hL).mp hx⟩
    · rw [heq] at he
      cases he
  · rintro ⟨⟨s, t, hL⟩, hfinds⟩
    exact ⟨_, (hlive hL).mpr hfinds, rfl⟩

omit htimes in
/-- No event is found twice. -/
theorem foundEvents_ids_nodup (hu : L.Unique) (pageSize : Nat) :
    ((p.foundEvents k pageSize).map (·.id)).Nodup := by
  have hids := List.pairwise_map.mp
    (found_ids_nodup hr hfits (uniform_of_ofFilter hplan) hu pageSize)
  have hid : ∀ {x : Hit} {e : Event}, x.record.event? = some e → x.record.id = e.id := by
    intro x e he
    cases hrec : x.record with
    | full e' =>
      rw [hrec] at he
      exact congrArg Event.id (Option.some.inj he)
    | stub i createdAt =>
      rw [hrec] at he
      cases he
  rw [foundEvents, List.Nodup, List.pairwise_map, List.pairwise_filterMap]
  refine hids.imp fun {x y} hne e he e' he' heq => hne ?_
  rw [hid he, hid he', heq]

end
end Plan

/-! ### Queries -/

/-- The readings of a query and of one that narrows it. -/
structure Reading.Narrowed (narrow broad : Reading Record) (g f : Filter) : Prop where
  complete : narrow.outcome = .complete ∧ broad.outcome = .complete
  nodup : narrow.events.Nodup ∧ broad.events.Nodup
  /-- The narrower query delivers what the broader one delivers and what matches, as far as the
  indices that are used hold it. -/
  events : ∀ e, (e ∈ narrow.events ∧ f.Indexes e) ↔
    (e ∈ broad.events ∧ g.isMatch e = true ∧ g.Indexes e)
  /-- If the tag values of both filters are indexed, as far as the tag index is used, this is so
  without exception. -/
  indexed : (f.ids = [] → f.TagsIndexed) → (g.ids = [] → g.TagsIndexed) →
    ∀ e, e ∈ narrow.events ↔ e ∈ broad.events ∧ g.isMatch e = true

namespace Archive

/-- **Narrowing a filter adds nothing and loses nothing**, whichever index is then used: the whole
records that a query delivers are those of a broader query that match, if the limits leave none out.
Where a query is answered from the tag index, this is so of the events that the index holds. -/
theorem query_narrowed {es : List Event} {a : Archive} (ha : Reached es a) (hid : Identified es)
    (hfits : ∀ e ∈ es, e.Sized) (hopen : a.isClosed = false)
    (htimes : ∀ e ∈ a.db.events.storedEvents, 0 ≤ e.createdAt) {f g : Filter}
    (hnarrows : g.Narrows f) {plan plan' : Plan} (hplan : Plan.ofFilter f = .ok plan)
    (hplan' : Plan.ofFilter g = .ok plan') (now now' : Int64) :
    ∃ n n', a.count f false = .ok n ∧ a.count g false = .ok n' ∧
      (n ≤ (a.config.effectiveLimit f.limit).toNat →
        n' ≤ (a.config.effectiveLimit g.limit).toNat →
        ∃ broad narrow, (a.query now f false).1 = .ok broad ∧
          (a.query now' g false).1 = .ok narrow ∧ narrow.Narrowed broad g f) := by
  obtain ⟨L, J, hf, hmem⟩ := ha.exists_follows hid
  have hr : a.db.events.Renders L := hf.db.events
  have hsized : ∀ s h, L s = some h → h.event.Sized := fun s h hL => hfits _ (hmem s h hL)
  have hlive : ∀ s e t, L s = some (.live e t) → 0 ≤ e.createdAt := fun s e t hL =>
    htimes e ((hr.mem_storedEvents hsized).mpr ⟨s, t, hL⟩)
  let pageSize := a.config.scanPageSize.toNat
  refine ⟨_, _, count_eq hopen hplan, count_eq hopen hplan', fun hlimit hlimit' => ?_⟩
  rw [← Plan.length_found_eq_count hr hsized hplan pageSize] at hlimit
  rw [← Plan.length_found_eq_count hr hsized hplan' pageSize] at hlimit'
  refine ⟨_, _, query_eq_reading hopen hplan now hlimit,
    query_eq_reading hopen hplan' now' hlimit', ?_⟩
  have hevents : ∀ p : Plan, (p.reading a.db.events pageSize).events =
      p.foundEvents a.db.events pageSize := by
    intro p
    rw [Reading.events, Plan.reading, List.filterMap_map]
    rfl
  have hnodup : ∀ {f : Filter} {p : Plan}, Plan.ofFilter f = .ok p →
      (p.foundEvents a.db.events pageSize).Nodup := fun hplan =>
    (Plan.foundEvents_ids_nodup hr hsized hplan hf.unique pageSize).of_map _
  have hfound : ∀ e, (e ∈ plan'.foundEvents a.db.events pageSize ∧ f.Indexes e) ↔
      (e ∈ plan.foundEvents a.db.events pageSize ∧ g.isMatch e = true ∧ g.Indexes e) := by
    intro e
    rw [Plan.mem_foundEvents_iff hr hsized hlive hplan,
      Plan.mem_foundEvents_iff hr hsized hlive hplan']
    constructor
    · rintro ⟨⟨hstored, hmatch, hindexes'⟩, hindexes⟩
      exact ⟨⟨hstored, hnarrows.isMatch hmatch, hindexes⟩, hmatch, hindexes'⟩
    · rintro ⟨⟨hstored, -, hindexes⟩, hmatch, hindexes'⟩
      exact ⟨⟨hstored, hmatch, hindexes'⟩, hindexes⟩
  constructor
  · exact ⟨rfl, rfl⟩
  · rw [hevents, hevents]
    exact ⟨hnodup hplan', hnodup hplan⟩
  · rw [hevents, hevents]
    exact hfound
  · intro htags htags' e
    rw [hevents, hevents]
    constructor
    · intro he
      have hmatch : g.isMatch e = true :=
        ((Plan.mem_foundEvents_iff hr hsized hlive hplan').mp he).2.1
      have hindexes : f.Indexes e := fun hids =>
        Filter.indexes_of_isMatch (htags hids) (hnarrows.isMatch hmatch) hids
      exact ⟨((hfound e).mp ⟨he, hindexes⟩).1, hmatch⟩
    · rintro ⟨he, hmatch⟩
      have hindexes' : g.Indexes e := fun hids =>
        Filter.indexes_of_isMatch (htags' hids) hmatch hids
      exact ((hfound e).mpr ⟨he, hmatch, hindexes'⟩).1

/-- Of three notes on a subject, of which the last is demoted, those of one author are asked for
besides, so the author index is used instead of that of tags. -/
theorem query_narrowed_author :
    let es : List Event := [.uniform 1 7 10 1 [⟨["t", "x"]⟩], .uniform 2 8 20 1 [⟨["t", "x"]⟩],
      .uniform 3 7 30 1 [⟨["t", "x"]⟩]]
    let a := (fresh.saveAll 5 es).demote [2]
    let f := Filter.any.withTag 't' ["x"]
    let g := f.withAuthors [⟨List.replicate 32 7, rfl⟩]
    ∃ broad narrow, Reached es a ∧ g.Narrows f ∧ f.TagsIndexed ∧ g.TagsIndexed ∧
      (a.query 9 f false).1 = .ok broad ∧ (a.query 9 g false).1 = .ok narrow ∧
      broad.events.map Event.createdAt = [20, 10] ∧ narrow.events.map Event.createdAt = [10] ∧
      narrow.Narrowed broad g f := by
  intro es a f g
  have ha : Reached es a := (Reached.fresh.saveAll 5 es).work _ rfl
  have hplan : Plan.ofFilter f = .ok (Plan.choose f) := rfl
  have hplan' : Plan.ofFilter g = .ok (Plan.choose g) := rfl
  have hnarrows : g.Narrows f :=
    ⟨.inl rfl, .inl rfl, .inl rfl, fun _ => id, .inl rfl, .inl rfl⟩
  obtain ⟨n, n', hcount, hcount', hfound⟩ := query_narrowed ha (by decide +kernel)
    (by decide +kernel) (by decide +kernel) (by decide +kernel) hnarrows hplan hplan' 9 9
  have hn : (a.count f false).toOption = some 3 := by decide +kernel
  have hn' : (a.count g false).toOption = some 2 := by decide +kernel
  rw [hcount] at hn
  rw [hcount'] at hn'
  obtain rfl : n = 3 := Option.some.inj hn
  obtain rfl : n' = 2 := Option.some.inj hn'
  obtain ⟨broad, narrow, hbroad, hnarrow, hnarrowed⟩ :=
    hfound (by decide +kernel) (by decide +kernel)
  have hread : (a.query 9 f false).1.toOption.map (·.events.map Event.createdAt) =
      some [20, 10] := by decide +kernel
  have hread' : (a.query 9 g false).1.toOption.map (·.events.map Event.createdAt) =
      some [10] := by decide +kernel
  rw [hbroad] at hread
  rw [hnarrow] at hread'
  exact ⟨broad, narrow, ha, hnarrows, by decide +kernel, by decide +kernel, hbroad, hnarrow,
    Option.some.inj hread, Option.some.inj hread', hnarrowed⟩

/-- A note on a subject of more than a hundred bytes is found among the notes, not among those on
the subject, and again among those of its author on the subject. -/
theorem query_narrowed_unindexed :
    let subject := String.ofList (List.replicate 101 'x')
    let e : Event := .uniform 1 7 10 1 [⟨["t", subject]⟩]
    let a := fresh.saveAll 5 [e]
    let f := Filter.any.withKinds [⟨1⟩]
    let g := f.withTag 't' [subject]
    let h := g.withAuthors [⟨List.replicate 32 7, rfl⟩]
    Reached [e] a ∧ g.Narrows f ∧ h.Narrows g ∧ g.isMatch e = true ∧ h.isMatch e = true ∧
      (a.query 9 f false).1.toOption.map Reading.events = some [e] ∧
      (a.query 9 g false).1.toOption.map Reading.events = some [] ∧
      (a.query 9 h false).1.toOption.map Reading.events = some [e] := by
  intro subject e a f g h
  refine ⟨Reached.fresh.saveAll 5 [e], ?_, ?_, by decide +kernel, by decide +kernel,
    by decide +kernel, by decide +kernel, by decide +kernel⟩
  · exact ⟨.inl rfl, .inr rfl, .inl rfl, nofun, .inl rfl, .inl rfl⟩
  · exact ⟨.inl rfl, .inr rfl, .inl rfl, fun _ => id, .inl rfl, .inl rfl⟩

end Archive
end EventArchive
