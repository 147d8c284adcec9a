import EventArchive.Proofs.Reachable
import EventArchive.Proofs.TierLookups
import EventArchive.Tiered.Basic

/-! # How a tiered query says that it ended

What a tiered query delivers and how it says that it ended depend on what its
tiers answer: the streams of both, and the reply of the secondary tier to the
lookup of each identifier (`TierQuery`).  The replies may be any, and each one of
its own kind.

If its limit does not stop a query, it has read both streams to their end, and
all lookups have completed.  So it says that it is complete if and only if
neither stream says that something is missing and no lookup fails
(`TierQuery.complete_iff`).  A lookup fails if it gets no stream.  If it gets one
that ends before the event has come, the event counts as absent, and it makes no
difference whether the stream was complete, missed something, was cancelled or
stopped without a word.
-/
namespace EventArchive

/-! ### Outcomes -/

namespace QueryOutcome

/-- A stream that ends like this does not say that something is missing. -/
def IsEntire (o : QueryOutcome) : Prop := o = .complete ∨ o = .incomplete 0

/-- Number of parts of which a stream says that they failed. -/
def failures : QueryOutcome → Nat
  | .incomplete n => n
  | _ => 0

theorem isEntire_iff {o : QueryOutcome} :
    o.IsEntire ↔ o.failures = 0 ∧ o ≠ .aborted ∧ o ≠ .cancelled := by
  cases o <;> simp [IsEntire, failures]

theorem foldl_failures (step : Nat → QueryOutcome → Nat) (hstep : ∀ n o, step n o = n + o.failures)
    (outcomes : List QueryOutcome) (n : Nat) :
    outcomes.foldl step n = 0 ↔ n = 0 ∧ ∀ o ∈ outcomes, o.failures = 0 := by
  induction outcomes generalizing n with
  | nil => simp
  | cons o outcomes ih =>
    rw [List.foldl_cons, ih, hstep, Nat.add_eq_zero_iff, List.forall_mem_cons, and_assoc]

end QueryOutcome

/-- A merge that its limit does not stop is complete if and only if all streams are entire and no
lookup failed. -/
theorem mergedOutcome_eq_complete_iff {outcomes : List QueryOutcome} {failed : Nat} :
    mergedOutcome outcomes false failed = .complete ↔
      (∀ o ∈ outcomes, o.IsEntire) ∧ failed = 0 := by
  have hzero := QueryOutcome.foldl_failures (fun n o => match o with
    | .incomplete k => n + k
    | _ => n) (fun n o => by cases o <;> rfl) outcomes failed
  have hentire : (∀ o ∈ outcomes, o.IsEntire) ↔ (∀ o ∈ outcomes, o.failures = 0) ∧
      .aborted ∉ outcomes ∧ .cancelled ∉ outcomes := by
    simp only [QueryOutcome.isEntire_iff, forall_and, ne_eq, List.forall_mem_ne']
  rw [and_comm, hentire, ← and_assoc, ← hzero, mergedOutcome]
  split
  · rename_i hpos
    exact ⟨nofun, fun h => absurd h.1 (Nat.ne_of_gt hpos)⟩
  · rename_i hpos
    split
    · rename_i haborted
      exact ⟨nofun, fun h => absurd haborted h.2.1⟩
    · rename_i haborted
      split
      · rename_i hcancelled
        exact ⟨nofun, fun h => absurd hcancelled.1 h.2.2⟩
      · rename_i hcancelled
        exact ⟨fun _ => ⟨Nat.eq_zero_of_not_pos hpos, haborted,
          fun h => hcancelled ⟨h, Bool.false_ne_true⟩⟩, fun _ => rfl⟩

theorem Feed.outcomeAfter_length {α : Type} (feed : Feed α) (buffer : Nat) :
    feed.outcomeAfter feed.records.length buffer = feed.ended := by
  rw [outcomeAfter, isDone, if_pos]
  exact decide_eq_true (Nat.le_add_right _ _)

/-! ### What the tiers answer -/

/-- A query of two tiers: what is asked for, the streams of the tiers with the sizes of their
buffers, and the reply of the secondary tier to the lookup of each identifier. -/
structure TierQuery where
  filter : Filter
  limit : Nat
  primary : Feed Record
  secondary : Feed Record
  buffer : Nat
  secondaryBuffer : Nat
  reply : EventId → Reply Delivery

namespace TierQuery

/-- What a lookup makes of its reply.  How a stream ended does not count. -/
def lookup (q : TierQuery) (id : EventId) : Lookup :=
  match q.reply id with
  | .lost => .failed
  | .answer (.error _) => .failed
  | .answer (.ok d) =>
    match (d.feed.records.find? (Link.isPayload id)).bind Record.event? with
    | some e => .found e
    | none => .absent

/-- The merge of what the tiers answer. -/
def merge (q : TierQuery) (order : Nat → Nat) : TierMerge :=
  TierMerge.run q.filter q.lookup order q.limit q.primary.records q.secondary.records

/-- What is read of a query that is not cancelled. -/
def reading (q : TierQuery) (order : Nat → Nat) : Reading Record :=
  let m := q.merge order
  let outcomes := [
    q.primary.outcomeAfter (q.primary.records.length - m.primary.length) q.buffer,
    q.secondary.outcomeAfter (q.secondary.records.length - m.secondary.length) q.secondaryBuffer]
  ⟨m.records, [], mergedOutcome outcomes (q.limit ≤ m.delivered.length) m.failed⟩

variable {q : TierQuery} {order : Nat → Nat}

/-- A lookup fails if and only if it gets no stream. -/
theorem lookup_ne_failed_iff {id : EventId} :
    q.lookup id ≠ .failed ↔ ∃ d, q.reply id = .answer (.ok d) := by
  rw [lookup]
  rcases q.reply id with (err | d) | _
  · simp
  · dsimp only
    split <;> simp
  · simp

/-- **When a query says that it is complete** that its limit does not stop: neither stream says that
something is missing, and the lookup of every demoted record gets a stream, however that ends. -/
theorem complete_iff (hroom : (q.reading order).records.length < q.limit) :
    (q.reading order).outcome = .complete ↔
      q.primary.ended.IsEntire ∧ q.secondary.ended.IsEntire ∧
        ∀ r ∈ q.primary.records, r.isStub = true → ∃ d, q.reply r.id = .answer (.ok d) := by
  have hlt : (q.merge order).delivered.length < q.limit := by
    have hlength : (q.merge order).records.length = (q.merge order).delivered.length :=
      List.length_reverse
    rwa [← hlength]
  -- the streams have been read to their end
  obtain ⟨-, hstreams⟩ := TierMerge.run_stuck hlt
  have hprimary : (q.merge order).primary = [] := hstreams .primary
  have hsecondary : (q.merge order).secondary = [] := hstreams .secondary
  have hfailed : (q.merge order).failed = 0 ↔
      ∀ r ∈ q.primary.records, r.isStub = true → q.lookup r.id ≠ .failed :=
    TierMerge.failed_eq_zero_iff hlt
  rw [reading]
  dsimp only
  rw [hprimary, hsecondary, List.length_nil, Nat.sub_zero, Nat.sub_zero, Feed.outcomeAfter_length,
    Feed.outcomeAfter_length, decide_eq_false (Nat.not_le.mpr hlt), mergedOutcome_eq_complete_iff,
    hfailed]
  simp [lookup_ne_failed_iff, and_assoc]

end TierQuery

namespace TieredArchive
variable {t : TieredArchive} {f : Filter} {primary : Feed Hit} {secondary : Delivery}
  {order : Nat → Nat} {now : Int64}

/-- The query of both tiers for a filter, whose streams are known. -/
def asked (t : TieredArchive) (f : Filter) (primary : Feed Hit) (secondary : Delivery) :
    TierQuery where
  filter := f
  limit := t.limitFor f
  primary := primary.map Hit.record
  secondary := secondary.feed
  buffer := t.primary.buffer
  secondaryBuffer := t.secondary.buffer
  reply id := t.link.send t.secondary (Link.lookupFilter id) false

/-- A tiered archive asks its tiers a query for a filter, and gets their streams. -/
def Poses (t : TieredArchive) (f : Filter) (q : TierQuery) : Prop :=
  ∃ primary secondary, t.feeds f false = .ok (primary, some secondary) ∧
    q = t.asked f primary secondary

theorem lookup_asked (t : TieredArchive) (f : Filter) (primary : Feed Hit)
    (secondary : Delivery) :
    (t.asked f primary secondary).lookup = fun id => (t.link.fetch t.secondary id).1 := by
  funext id
  rw [TierQuery.lookup, asked, Link.fetch]
  dsimp only
  rcases t.link.send t.secondary (Link.lookupFilter id) false with (err | d) | _
  · rfl
  · dsimp only
    cases (d.feed.records.find? (Link.isPayload id)).bind Record.event? with
    | some e => rfl
    | none => rfl
  · rfl

theorem query_of_feeds (hfeeds : t.feeds f false = .ok (primary, some secondary)) :
    (t.query order now f false).1 = .ok ((t.asked f primary secondary).reading order) := by
  have hmerge : t.merge f order (t.limitFor f) primary secondary =
      (t.asked f primary secondary).merge order := by
    rw [TierQuery.merge, lookup_asked]
    rfl
  have houtcome : ∀ n buffer, (t.asked f primary secondary).primary.outcomeAfter n buffer =
      primary.outcomeAfter n buffer := by
    intro n buffer
    rw [asked, Feed.outcomeAfter, Feed.outcomeAfter, Feed.isDone, Feed.isDone, Feed.map,
      List.length_map]
  have hlength : (t.asked f primary secondary).primary.records.length = primary.records.length :=
    List.length_map _
  rw [query, hfeeds]
  dsimp only
  rw [if_neg Bool.false_ne_true, hmerge, mergedFeed, Feed.readAll, TierQuery.reading]
  dsimp only
  rw [houtcome, hlength]
  rfl

/-- **What a tiered archive reads** that is not cancelled is what is read of the query that it asks
its tiers; it reads nothing if it does not get their streams. -/
theorem query_eq_ok_iff {reading : Reading Record} : (t.query order now f false).1 = .ok reading ↔
    ∃ q, t.Poses f q ∧ reading = q.reading order := by
  constructor
  · intro hread
    rcases hfeeds : t.feeds f false with err | ⟨primary, _ | secondary⟩
    · rw [query, hfeeds] at hread
      cases hread
    · rw [query, hfeeds] at hread
      cases hread
    · rw [query_of_feeds hfeeds] at hread
      exact ⟨_, ⟨primary, secondary, hfeeds, rfl⟩, (Except.ok.inj hread).symm⟩
  · rintro ⟨q, ⟨primary, secondary, hfeeds, rfl⟩, rfl⟩
    exact query_of_feeds hfeeds

/-- **When a tiered query says that it is complete.**  Let the tiers answer what they may, and the
lookups complete in any order.  A query that its limit does not stop says so if and only if neither
stream says that something is missing, and the lookup of every demoted record of the local stream
gets a stream: how that ends makes no difference.  And that is what every tiered archive reads that
asks its tiers this query. -/
theorem query_complete_iff (q : TierQuery) (order : Nat → Nat)
    (hroom : (q.reading order).records.length < q.limit) :
    ((q.reading order).outcome = .complete ↔
      q.primary.ended.IsEntire ∧ q.secondary.ended.IsEntire ∧
        ∀ r ∈ q.primary.records, r.isStub = true → ∃ d, q.reply r.id = .answer (.ok d)) ∧
      ∀ (t : TieredArchive) (f : Filter) (now : Int64), t.Poses f q →
        (t.query order now f false).1 = .ok (q.reading order) :=
  ⟨TierQuery.complete_iff hroom, fun _ _ _ hposes => query_eq_ok_iff.mpr ⟨q, hposes, rfl⟩⟩

/-- A note is demoted, and the secondary tier refuses to look it up.  The note is delivered from the
stream of the secondary tier, but the query is not complete. -/
theorem query_complete_iff_refused :
    let e : Event := .uniform 1 7 100 1 []
    let demoted := (Archive.demoting.save 5 e).2.collect.2
    let link : Link := { Link.undisturbed with lookup := some .refused }
    let t : TieredArchive := .join demoted (Archive.fresh.saveAll 5 [e]) link
    let f := Filter.any.withKinds [e.kind]
    ∃ reading, (t.query TierMerge.firstBegun 9 f false).1 = .ok reading ∧
      reading.records = [.full e] ∧ reading.outcome ≠ .complete := by
  intro e demoted link t f
  have hrecords : (t.query TierMerge.firstBegun 9 f false).1.toOption.map (·.records) =
      some [.full e] := by decide +kernel
  cases hread : (t.query TierMerge.firstBegun 9 f false).1 with
  | error err =>
    rw [hread] at hrecords
    cases hrecords
  | ok reading =>
    rw [hread] at hrecords
    have hone : reading.records = [.full e] := Option.some.inj hrecords
    refine ⟨reading, rfl, hone, fun hcomplete => ?_⟩
    obtain ⟨q, ⟨primary, secondary, hfeeds, hq⟩, rfl⟩ := query_eq_ok_iff.mp hread
    have hsent : (t.feeds f false).toOption.map (·.1.records.map Hit.record) =
        some [.stub e.id 100] := by decide +kernel
    rw [hfeeds] at hsent
    have hlimit : 1 < t.limitFor f := by decide +kernel
    have hroom : (q.reading TierMerge.firstBegun).records.length < q.limit := by
      rw [hone, hq]
      exact hlimit
    obtain ⟨hiff, -⟩ := query_complete_iff q _ hroom
    obtain ⟨-, -, hlookups⟩ := hiff.mp hcomplete
    have hstub : q.primary.records = [.stub e.id 100] := by
      rw [hq]
      exact Option.some.inj hsent
    rw [hstub] at hlookups
    obtain ⟨d, hd⟩ := hlookups _ List.mem_cons_self rfl
    rw [hq] at hd
    cases hd

/-- Two notes are demoted, and the secondary tier delivers the newer one alone.  The stream of the
other one's lookup stops without a word.  That note is not delivered, and the query says that it is
complete. -/
theorem query_complete_after_abort :
    let e : Event := .uniform 1 7 100 1 []
    let late : Event := .uniform 2 7 50 1 []
    let demoted := ((Archive.demoting.save 5 e).2.collect.2.save 6 late).2.collect.2
    let narrow : Archive := { Archive.fresh with config := { Config.standard with maxLimit := 1 } }
    let link : Link := { Link.undisturbed with lookup := some .aborted }
    let t : TieredArchive := .join demoted (narrow.saveAll 5 [e, late]) link
    let f := Filter.any.withKinds [e.kind]
    Archive.Reached [e, late] t.primary ∧ t.secondary.db.events.storedEvents = [e, late] ∧
      (t.feeds f false).toOption.map (fun sent => (sent.1.records.map Hit.record, sent.1.ended,
        sent.2.map (·.feed.ended))) =
          some ([.stub e.id 100, .stub late.id 50], .complete, some .complete) ∧
      (∃ d, t.link.send t.secondary (Link.lookupFilter late.id) false = .answer (.ok d) ∧
        d.feed.records = [] ∧ d.feed.ended = .aborted) ∧
      (t.query TierMerge.firstBegun 9 f false).1.toOption.map (fun r => (r.records, r.outcome)) =
        some ([.full e], .complete) ∧
      1 < t.limitFor f := by
  intro e late demoted narrow link t f
  have hdemoted : Archive.Reached [e, late] demoted :=
    ((Archive.Reached.demoting.save 5 e).collect.save 6 late).collect
  exact ⟨hdemoted.withDemotion true, by decide +kernel, by decide +kernel, ⟨_, rfl, rfl, rfl⟩,
    by decide +kernel, by decide +kernel⟩

end TieredArchive
end EventArchive
