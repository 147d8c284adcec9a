import EventArchive.Proofs.Demotion
import EventArchive.Proofs.TierLookups
import EventArchive.Proofs.TierPlaces
import EventArchive.Proofs.TieredRuns

/-! # How the limit of a tiered query is filled

The limit cuts each stream before it cuts what is delivered.  A record that is
cut off makes room for as many others that are not older, so that alone loses
nothing: if all that is sent contributes an event, as many of them are delivered
(`Streams.filled_of_full`).

But the local tier sends its demoted records unchecked, and one that is looked
up in vain has taken room and contributes nothing.  So what the secondary tier
has whole is delivered, unless the limit is reached with records that are not
older; and of what the local tier alone has, this holds but for as many records
as there were lookups in vain (`TieredArchive.query_filled`).
-/
namespace EventArchive

/-! ### The first of some events -/

namespace FirstOf
variable {offered l S : List Event} {n : Nat} {e : Event} {t : Int64}

/-- Of the newest events as many are not older than a time as there are such events at all, if
there is room for them. -/
theorem le_countP (h : FirstOf (fun a b => b.createdAt ≤ a.createdAt) offered n l)
    (hnodup : S.Nodup) (hsub : ∀ x ∈ S, x ∈ offered) (ht : ∀ x ∈ S, t ≤ x.createdAt) :
    min n S.length ≤ l.countP (t ≤ ·.createdAt) := by
  by_cases hall : ∀ d ∈ l, t ≤ d.createdAt
  · have hcount : l.countP (t ≤ ·.createdAt) = l.length :=
      List.countP_eq_length.mpr fun d hd => decide_eq_true (hall d hd)
    have hle := (List.subperm_of_subset hnodup hsub).length_le
    rw [hcount, h.length]
    omega
  · -- an older event is delivered, so none of those that are not older is missing
    obtain ⟨d, hd⟩ := not_forall.mp hall
    obtain ⟨hd, hold⟩ := Classical.not_imp.mp hd
    have hin : ∀ x ∈ S, x ∈ l.filter (t ≤ ·.createdAt) := by
      intro x hx
      refine List.mem_filter.mpr ⟨?_, decide_eq_true (ht x hx)⟩
      by_contra hout
      exact hold (Int64.le_trans (ht x hx) (h.missing x (hsub x hx) hout d hd))
    have hle := (List.subperm_of_subset hnodup hin).length_le
    rw [← List.countP_eq_length_filter] at hle
    omega

/-- An event that is missing has been outrun by as many as there may be. -/
theorem mem_or_le_countP (h : FirstOf (fun a b => b.createdAt ≤ a.createdAt) offered n l)
    (he : e ∈ offered) : e ∈ l ∨ n ≤ l.countP (e.createdAt ≤ ·.createdAt) := by
  by_cases hin : e ∈ l
  · exact .inl hin
  · have hcount : l.countP (e.createdAt ≤ ·.createdAt) = l.length :=
      List.countP_eq_length.mpr fun d hd => decide_eq_true (h.missing e he hin d hd)
    have hlt : ¬ offered.length ≤ n := fun hle => hin (h.mem_of_length_le hle he)
    refine .inr ?_
    rw [hcount, h.length]
    omega

end FirstOf

/-! ### Streams of two tiers -/

theorem Record.shows_of_known {es : List Event} {r : Record} {e : Event}
    (h : known es r = .full e) : r.Shows e := by
  have hplace : Rank.of (.full e) = Rank.of r := h ▸ (keepsPlaces_known es).rank r
  cases r with
  | full e' => exact .inl h
  | stub i t =>
    obtain rfl : e.createdAt = t := congrArg Rank.createdAt hplace
    obtain rfl : e.id = i := congrArg Rank.id hplace
    exact .inr rfl

/-- Records that show events are as many of a time as the events. -/
theorem Record.countP_of_known {es l : List Event} {records : List Record}
    (h : records.map (known es) = l.map .full) (t : Int64) :
    records.countP (t ≤ ·.createdAt) = l.countP (t ≤ ·.createdAt) := by
  have hknown : (records.map (known es)).countP (t ≤ ·.createdAt) =
      records.countP (t ≤ ·.createdAt) := by
    rw [List.countP_map]
    refine List.countP_congr fun r _ => ?_
    rw [Function.comp, (keepsPlaces_known es).createdAt]
  rw [← hknown, h, List.countP_map]
  rfl

namespace Streams
variable {es : List Event} {records primary secondary : List Record} {f : Filter}
  {lookup : EventId → Lookup} {e : Event} {t : Int64}

/-- Number of the records that contribute nothing, since they are looked up in vain. -/
def vain (f : Filter) (lookup : EventId → Lookup) (records : List Record) : Nat :=
  records.countP fun r => (TierMerge.offered? f lookup r).isNone

section
variable (hid : Identified es) (hlookup : ∀ i e, lookup i = .found e → e ∈ es ∧ e.id = i)
include hid hlookup

/-- All that a stream sends contributes an event, but for what is looked up in vain. -/
theorem offered_of_stream (h : Streams es records) :
    (records.filterMap (TierMerge.offered? f lookup)).Nodup ∧
      (records.filterMap (TierMerge.offered? f lookup)).length + vain f lookup records =
        records.length := by
  constructor
  · rw [List.nodup_iff_pairwise_ne, List.pairwise_filterMap]
    refine (List.pairwise_map.mp h.ids).imp_of_mem fun {a b} ha hb hne x hx y hy hxy => hne ?_
    rw [(h.shows_of_offered hid hlookup ha hx).2.id, (h.shows_of_offered hid hlookup hb hy).2.id,
      hxy]
  · rw [List.length_filterMap_eq_countP, vain, List.length_eq_countP_add_countP
      (fun r => (TierMerge.offered? f lookup r).isSome)]
    simp only [Bool.not_eq_true, Option.isSome_eq_false_iff, Bool.decide_eq_true]

variable (hprimary : Streams es primary) (hsecondary : Streams es secondary)
  (order : Nat → Nat) (limit : Nat)
include hprimary hsecondary

/-- **What is delivered of two streams of known events** are the newest of them, as far as they may
be delivered. -/
theorem run_firstOf : ∃ l : List Event,
    (TierMerge.run f lookup order limit primary secondary).records.map (Record.known es) =
        l.map .full ∧
      FirstOf (fun a b => b.createdAt ≤ a.createdAt)
        (TierMerge.offers f lookup primary (secondary.map (Record.known es))) limit l := by
  have hg := Record.keepsPlaces_known es
  have h := consistent (f := f) hid hlookup hprimary hsecondary
  have hsorted :
      (secondary.map (Record.known es)).Pairwise fun a b => b.createdAt ≤ a.createdAt := by
    rw [List.pairwise_map]
    refine hsecondary.sorted.imp fun hle => ?_
    rwa [hg.createdAt, hg.createdAt]
  have hR := Rank.precedes_byAge.agrees_newest
  obtain ⟨-, hprogress, -⟩ := h.run_progress hR hprimary.sorted hsorted order limit
  have hfirst := h.run_firstOf hR hprimary.sorted hsorted order limit
  refine ⟨_, ?_, hfirst⟩
  rw [← hprogress.records_eq, TierMerge.run_exchange hg, TierMerge.records, TierMerge.records]
  exact List.map_reverse

/-- **What a stream contributes is delivered**, unless as many records as there may be are, none of
them older. -/
theorem shown_or_filled (hsent : (∃ r ∈ primary, TierMerge.offered? f lookup r = some e) ∨
      ∃ r ∈ secondary, e ∈ es ∧ r.Shows e) :
    let delivered := (TierMerge.run f lookup order limit primary secondary).records
    (∃ r ∈ delivered, r.Shows e) ∨ limit ≤ delivered.countP (e.createdAt ≤ ·.createdAt) := by
  intro delivered
  obtain ⟨l, hl, hfirst⟩ := run_firstOf (f := f) hid hlookup hprimary hsecondary order limit
  have hoffered : e ∈ TierMerge.offers f lookup primary (secondary.map (Record.known es)) := by
    rw [TierMerge.offers, mem_distinct, List.filterMap_append, List.mem_append, List.mem_filterMap,
      List.mem_filterMap]
    refine hsent.imp_right ?_
    rintro ⟨r, hr, he, hshows⟩
    exact ⟨.full e, List.mem_map.mpr ⟨r, hr, Record.known_eq hid he hshows⟩, rfl⟩
  refine (hfirst.mem_or_le_countP hoffered).imp (fun he => ?_) fun hfull => ?_
  · obtain ⟨r, hr, hknown⟩ := List.mem_map.mp (hl ▸ List.mem_map_of_mem he)
    exact ⟨r, hr, Record.shows_of_known hknown⟩
  · exact hfull.trans_eq (Record.countP_of_known hl _).symm

/-- A full stream that sends nothing older than a time fills what may be delivered with records
that are not older, but for what is looked up in vain. -/
theorem filled_of_full (h : Streams es records) (hfull : limit ≤ records.length)
    (hsub : ∀ e ∈ records.filterMap (TierMerge.offered? f lookup),
      e ∈ TierMerge.offers f lookup primary (secondary.map (Record.known es)))
    (htimes : ∀ r ∈ records, t ≤ r.createdAt) : limit ≤
      (TierMerge.run f lookup order limit primary secondary).records.countP (t ≤ ·.createdAt) +
        vain f lookup records := by
  obtain ⟨l, hl, hfirst⟩ := run_firstOf (f := f) hid hlookup hprimary hsecondary order limit
  obtain ⟨hnodup, hlength⟩ := offered_of_stream (f := f) hid hlookup h
  have hcount := hfirst.le_countP (t := t) hnodup hsub fun e he => by
    obtain ⟨r, hr, hoffered⟩ := List.mem_filterMap.mp he
    rw [← (h.shows_of_offered hid hlookup hr hoffered).2.createdAt]
    exact htimes r hr
  rw [Record.countP_of_known hl]
  omega

end

/-- What the cut leaves out is not newer than anything that it leaves, and it leaves as much as it
may. -/
theorem mem_take_or {r : Record} (h : Streams es records) (hr : r ∈ records) (n : Nat) :
    r ∈ records.take n ∨
      n ≤ (records.take n).length ∧ ∀ x ∈ records.take n, r.createdAt ≤ x.createdAt := by
  have hsorted := h.sorted
  rw [← List.take_append_drop n records] at hr hsorted
  refine (List.mem_append.mp hr).imp_right fun hdrop => ⟨?_, fun x hx => ?_⟩
  · have hpos := List.length_pos_of_mem hdrop
    rw [List.length_drop] at hpos
    rw [List.length_take]
    omega
  · exact (List.pairwise_append.mp hsorted).2.2 x hx r hdrop

/-- With known events in the place of demoted records a stream is still one of known events, and
nothing of it is looked up. -/
theorem map_known (hid : Identified es) (h : Streams es records) :
    Streams es (records.map (Record.known es)) where
  known r hr := by
    obtain ⟨sent, hsent, rfl⟩ := List.mem_map.mp hr
    obtain ⟨e, he, hshows⟩ := h.known sent hsent
    exact ⟨e, he, .inl (Record.known_eq hid he hshows)⟩
  sorted := by
    rw [List.pairwise_map]
    refine h.sorted.imp fun hle => ?_
    rwa [(Record.keepsPlaces_known es).createdAt, (Record.keepsPlaces_known es).createdAt]
  ids := by
    rw [List.map_map]
    refine (List.map_congr_left fun r _ => ?_) ▸ h.ids
    exact ((Record.keepsPlaces_known es).id r).symm

theorem vain_map_known (hid : Identified es) (h : Streams es records) :
    vain f lookup (records.map (Record.known es)) = 0 := by
  refine List.countP_eq_zero.mpr fun r hr => ?_
  obtain ⟨sent, hsent, rfl⟩ := List.mem_map.mp hr
  obtain ⟨e, he, hshows⟩ := h.known sent hsent
  rw [Record.known_eq hid he hshows]
  exact Bool.false_ne_true

section
variable (hid : Identified es) (hlookup : ∀ i e, lookup i = .found e → e ∈ es ∧ e.id = i)
  (hprimary : Streams es primary) (hsecondary : Streams es secondary) (order : Nat → Nat)
  (limit : Nat)
include hid hlookup hprimary hsecondary

/-- **What the secondary tier has** is delivered, unless the limit is reached with records that are
not older. -/
theorem secondary_filled {r : Record} (hr : r ∈ secondary) (he : e ∈ es) (hshows : r.Shows e) :
    let delivered := (TierMerge.run f lookup order limit (primary.take limit)
      (secondary.take limit)).records
    (∃ d ∈ delivered, d.Shows e) ∨ limit ≤ delivered.countP (e.createdAt ≤ ·.createdAt) := by
  have hprimary := hprimary.take limit
  have hcut := hsecondary.take limit
  rcases hsecondary.mem_take_or hr limit with hsent | ⟨hfull, htimes⟩
  · exact shown_or_filled hid hlookup hprimary hcut order limit (.inr ⟨r, hsent, he, hshows⟩)
  · have hfilled := filled_of_full (f := f) (t := e.createdAt) hid hlookup hprimary hcut order limit
      (hcut.map_known hid) (by rwa [List.length_map]) (fun x hx => ?_) fun x hx => ?_
    · rw [vain_map_known hid hcut] at hfilled
      exact .inr hfilled
    · rw [TierMerge.offers, mem_distinct, List.filterMap_append]
      exact List.mem_append_right _ hx
    · obtain ⟨sent, hsent, rfl⟩ := List.mem_map.mp hx
      rw [(Record.keepsPlaces_known es).createdAt, ← hshows.createdAt]
      exact htimes sent hsent

/-- No more is delivered than may be. -/
theorem length_records_le : (TierMerge.run f lookup order limit primary secondary).records.length ≤
    limit := by
  obtain ⟨l, hl, hfirst⟩ := run_firstOf (f := f) hid hlookup hprimary hsecondary order limit
  have hlength := congrArg List.length hl
  rw [List.length_map, List.length_map, hfirst.length] at hlength
  exact hlength.trans_le (Nat.min_le_left _ _)

/-- **What the secondary tier has whole** is delivered whole, unless the limit is reached and
nothing that is delivered is older. -/
theorem whole_filled (he : .full e ∈ secondary) (hknown : e ∈ es) :
    let delivered := (TierMerge.run f lookup order limit (primary.take limit)
      (secondary.take limit)).records
    .full e ∈ delivered ∨
      delivered.length = limit ∧ ∀ r ∈ delivered, e.createdAt ≤ r.createdAt := by
  intro delivered
  rcases secondary_filled (f := f) hid hlookup hprimary hsecondary order limit he hknown (.inl rfl)
    with ⟨d, hd, hshows⟩ | hfull
  · refine .inl ?_
    obtain rfl | rfl := hshows
    · exact hd
    · -- the tier does not send the event whole and demoted as well
      have hsent := (TierMerge.tracks_run ..).mem_secondary_of_delivered rfl
        (List.mem_reverse.mp hd)
      have heq := List.inj_on_of_nodup_map hsecondary.ids he (List.mem_of_mem_take hsent) rfl
      cases heq
  · have hle : delivered.length ≤ limit := length_records_le hid hlookup (hprimary.take limit)
      (hsecondary.take limit) order limit
    have hcount : delivered.countP (e.createdAt ≤ ·.createdAt) ≤ delivered.length :=
      List.countP_le_length
    have hfull : limit ≤ delivered.countP (e.createdAt ≤ ·.createdAt) := hfull
    have hall : delivered.countP (e.createdAt ≤ ·.createdAt) = delivered.length :=
      Nat.le_antisymm hcount (hle.trans hfull)
    refine .inr ⟨Nat.le_antisymm hle (hfull.trans hcount), fun r hr => ?_⟩
    exact of_decide_eq_true (List.countP_eq_length.mp hall r hr)

/-- **What the local tier has whole** is delivered, unless the limit is reached with records that
are not older and lookups in vain. -/
theorem primary_filled (he : .full e ∈ primary) :
    let delivered := (TierMerge.run f lookup order limit (primary.take limit)
      (secondary.take limit)).records
    (∃ d ∈ delivered, d.Shows e) ∨ limit ≤ delivered.countP (e.createdAt ≤ ·.createdAt) +
      vain f lookup (primary.take limit) := by
  have hcut := hprimary.take limit
  have hsecondary := hsecondary.take limit
  rcases hprimary.mem_take_or he limit with hsent | ⟨hfull, htimes⟩
  · refine (shown_or_filled hid hlookup hcut hsecondary order limit
      (.inl ⟨.full e, hsent, rfl⟩)).imp_right fun hle => ?_
    exact hle.trans (Nat.le_add_right _ _)
  · refine .inr (filled_of_full hid hlookup hcut hsecondary order limit hcut hfull (fun x hx => ?_)
      htimes)
    rw [TierMerge.offers, mem_distinct, List.filterMap_append]
    exact List.mem_append_left _ hx

end
end Streams

/-! ### Tiers -/

namespace Archive.Serves
variable {a : Archive} {es : List Event} {e : Event} {f : Filter} {p : Plan}

section
variable (h : a.Serves es) (hid : Identified es) (hfits : ∀ e ∈ es, e.Sized)
  (hplan : Plan.ofFilter f = .ok p) (hids : f.ids = [])
include h hfits hplan hids

/-- **A tier sends known events**, each whole or demoted, newest first and each once. -/
theorem streams (htimes : ∀ e ∈ es, 0 ≤ e.createdAt) (pageSize : Nat) :
    Streams es ((p.found a.db.events pageSize).map Hit.record) := by
  obtain ⟨L, J, hf, hJ⟩ := h.follows
  have hr : a.db.events.Renders L := hf.db.events
  have hsized := hf.sized fun q hq => hfits _ (hJ q hq)
  have htimed : ∀ s ∈ p.scans, s.Timed := fun s hs => Plan.timed_of_mem_scans hplan hids hs
  have hfound : ∀ hit ∈ p.found a.db.events pageSize, hit.createdAt = hit.record.createdAt ∧
      ∃ e ∈ es, hit.record.Shows e := by
    intro hit hhit
    obtain ⟨held, r, hL, hr', heq, -⟩ := (Plan.mem_found hr hsized htimed).mp hhit
    have hknown : held.event ∈ es := hJ _ (hf.stored _ _ hL)
    rw [heq]
    refine ⟨rfl, held.event, hknown, ?_⟩
    obtain ⟨e, t, rfl, rfl⟩ | ⟨e, rfl, rfl⟩ := Holding.found?_cases hr'
    · exact .inl rfl
    · refine .inr ?_
      rw [timeOfClamped_clampTime (htimes e hknown)]
      rfl
  refine ⟨fun r hr => ?_, ?_, ?_⟩
  · obtain ⟨hit, hhit, rfl⟩ := List.mem_map.mp hr
    exact (hfound hit hhit).2
  · have hsorted : NewestFirst (p.found a.db.events pageSize) :=
      Plan.found_sorted hr hsized (fun s e t hL => htimes e (hJ _ (hf.stored s _ hL))) htimed
    rw [List.pairwise_map]
    refine hsorted.imp_of_mem fun {x y} hx hy hle => ?_
    rwa [← (hfound x hx).1, ← (hfound y hy).1]
  · rw [List.map_map]
    exact Plan.found_ids_nodup hr hsized (Plan.uniform_of_ofFilter hplan) hf.unique pageSize

/-- The events that a tier has whole and that match are found. -/
theorem mem_found_of_stored (htags : f.TagsIndexed) (he : e ∈ a.db.events.storedEvents)
    (htime : 0 ≤ e.createdAt) (hmatch : f.isMatch e = true) (pageSize : Nat) :
    .full e ∈ (p.found a.db.events pageSize).map Hit.record := by
  obtain ⟨L, J, hf, hJ⟩ := h.follows
  have hr : a.db.events.Renders L := hf.db.events
  have hsized := hf.sized fun q hq => hfits _ (hJ q hq)
  obtain ⟨s, t, hL⟩ := (hr.mem_storedEvents hsized).mp he
  have hfinds : p.Finds e s := (Plan.finds_iff hplan hids htags htime).mpr hmatch
  refine List.mem_map.mpr ⟨⟨s, e.createdAt, .full e⟩, ?_, rfl⟩
  rw [Plan.mem_found hr hsized fun s hs => Plan.timed_of_mem_scans hplan hids hs]
  exact ⟨.live e t, .full e, hL, if_pos hfinds.passes, rfl, hfinds.reached⟩

end

/-- What a query sends of a tier are known events. -/
theorem streams_of_feed (h : a.Serves es) (hfits : ∀ e ∈ es, e.Sized) (hids : f.ids = [])
    (htimes : ∀ e ∈ es, 0 ≤ e.createdAt) {feed : Feed Hit} (hfeed : a.feed f false = .ok feed) :
    Streams es (feed.records.map Hit.record) := by
  obtain ⟨p, hplan, hread, -⟩ := exists_plan_of_feed hfeed
  have hstreams := h.streams hfits hplan hids htimes a.config.scanPageSize.toNat
  rw [hread rfl]
  show Streams es ((p.hits _ _ _).map Hit.record)
  rw [Plan.hits_eq_take, List.map_take]
  exact hstreams.take _

end Archive.Serves

/-! ### Tiered queries -/

namespace TieredArchive

/-- Number of the records that a query sends of the local tier and looks up in vain: the secondary
tier has no event of the identifier that satisfies the filter. -/
def vainLookups (t : TieredArchive) (f : Filter) : Nat :=
  match t.primary.feed f false with
  | .error _ => 0
  | .ok feed =>
    Streams.vain f (fun i => (t.link.fetch t.secondary i).1) (feed.records.map Hit.record)

/-- The merge of what two tiers send. -/
def mergeOf (t : TieredArchive) (f : Filter) (order : Nat → Nat) (p q : Feed Hit) : TierMerge :=
  TierMerge.run f (fun i => (t.link.fetch t.secondary i).1) order (t.limitFor f)
    (p.records.map Hit.record) (q.records.map Hit.record)

/-- A query over an undisturbed link delivers what its merge delivers. -/
theorem query_records {t : TieredArchive} {f : Filter} {p q : Feed Hit}
    (hlink : t.link = .undisturbed) (hprimary : t.primary.feed f false = .ok p)
    (hsecondary : t.secondary.feed f false = .ok q) (order : Nat → Nat) (now : Int64) :
    ∃ reading, (t.query order now f false).1 = .ok reading ∧
      reading.records = (t.mergeOf f order p q).records := by
  rw [query, feeds_undisturbed hlink hprimary hsecondary]
  exact ⟨_, rfl, rfl⟩

section
variable {t : TieredArchive} {es es' : List Event} (hlink : t.link = .undisturbed)
  (hprimary : Archive.Reached es t.primary) (hsecondary : Archive.Reached es' t.secondary)
  (hopen : t.primary.isClosed = false) (hopen' : t.secondary.isClosed = false)
  (hlimit : t.primary.config.maxLimit = t.secondary.config.maxLimit)
  (hid : Identified (es ++ es')) (hfits : ∀ e ∈ es ++ es', e.Sized)
  (htimes : ∀ e ∈ es ++ es', 0 ≤ e.createdAt) (f : Filter) (hids : f.ids = [])
  (htags : f.TagsIndexed) (hplan : ∃ plan, Plan.ofFilter f = .ok plan)
include hlink hprimary hsecondary hopen hopen' hlimit hid hfits htimes hids htags hplan

/-- **The limit is filled with what matches, but for lookups in vain.**  Two reachable tiers need
not have the same records.  What the secondary tier has whole and matches is delivered, unless the
limit is reached with records that are not older.  What the local tier has whole and matches is
delivered as well, unless the secondary tier has demoted it and that comes in its place, or the
records that are not older reach the limit together with those that were looked up in vain. -/
theorem query_filled (order : Nat → Nat) (now : Int64) :
    ∃ reading, (t.query order now f false).1 = .ok reading ∧
      (∀ e ∈ t.secondary.db.events.storedEvents, f.isMatch e = true →
        .full e ∈ reading.records ∨ reading.records.length = t.limitFor f ∧
          ∀ r ∈ reading.records, e.createdAt ≤ r.createdAt) ∧
      (∀ e ∈ t.primary.db.events.storedEvents, f.isMatch e = true →
        .full e ∈ reading.records ∨ .stub e.id e.createdAt ∈ reading.records ∨
          t.limitFor f ≤ reading.records.countP (e.createdAt ≤ ·.createdAt) + t.vainLookups f) ∧
      ∀ r ∈ reading.records, r.isStub = true → ∃ feed, t.secondary.feed f false = .ok feed ∧
        r ∈ feed.records.map Hit.record := by
  obtain ⟨plan, hplan⟩ := hplan
  have hserves := hprimary.serves hopen (fun e => List.mem_append_left _) hid
  have hserves' := hsecondary.serves hopen' (fun e => List.mem_append_right _) hid
  have hfeed := Archive.feed_eq hopen hplan
  have hfeed' := Archive.feed_eq hopen' hplan
  have hsame : (t.secondary.config.effectiveLimit f.limit).toNat = t.limitFor f := by
    simp only [limitFor, Config.effectiveLimit, hlimit]
  obtain ⟨reading, hread, hrecords⟩ := query_records hlink hfeed hfeed' order now
  have hstreams := hserves.streams hfits hplan hids htimes t.primary.config.scanPageSize.toNat
  have hstreams' := hserves'.streams hfits hplan hids htimes t.secondary.config.scanPageSize.toNat
  have hlookup : ∀ i e, (t.link.fetch t.secondary i).1 = .found e → e ∈ es ++ es' ∧ e.id = i := by
    intro i e hfound
    rw [hlink] at hfound
    exact hserves'.known_of_found hfits hfound
  simp only [mergeOf, Feed.ofQuery] at hrecords
  rw [Plan.hits_eq_take, Plan.hits_eq_take, hsame, List.map_take, List.map_take] at hrecords
  have hvain : t.vainLookups f = Streams.vain f (fun i => (t.link.fetch t.secondary i).1)
      ((((plan.found t.primary.db.events t.primary.config.scanPageSize.toNat)).map
        Hit.record).take (t.limitFor f)) := by
    rw [vainLookups, hfeed, ← List.map_take]
    rfl
  refine ⟨reading, hread, fun e he hmatch => ?_, fun e he hmatch => ?_, fun r hr hstub => ?_⟩
  · have hknown := hserves'.mem_of_stored hfits he
    have hsent := hserves'.mem_found_of_stored hfits hplan hids htags he (htimes e hknown) hmatch
      t.secondary.config.scanPageSize.toNat
    rw [hrecords]
    exact Streams.whole_filled hid hlookup hstreams hstreams' order (t.limitFor f) hsent hknown
  · have hknown := hserves.mem_of_stored hfits he
    have hsent := hserves.mem_found_of_stored hfits hplan hids htags he (htimes e hknown) hmatch
      t.primary.config.scanPageSize.toNat
    rw [hrecords, hvain]
    rcases Streams.primary_filled hid hlookup hstreams hstreams' order (t.limitFor f) hsent with
      ⟨d, hd, rfl | rfl⟩ | hfull
    · exact .inl hd
    · exact .inr (.inl hd)
    · exact .inr (.inr hfull)
  · rw [hrecords, TierMerge.records, List.mem_reverse] at hr
    refine ⟨_, hfeed', ?_⟩
    have hsent := (TierMerge.tracks_run ..).mem_secondary_of_delivered hstub hr
    rwa [← List.map_take, ← hsame, ← Plan.hits_eq_take] at hsent

end

/-- The local tier has demoted a note on no subject, and each tier has another note on the subject.
The lookup is in vain, and with room for two records both notes are delivered. -/
theorem query_filled_two :
    let other : Event := .uniform 1 7 100 1 []
    let near : Event := .uniform 2 7 50 1 [⟨["t", "x"]⟩]
    let far : Event := .uniform 3 7 30 1 [⟨["t", "x"]⟩]
    let demoted := (Archive.demoting.save 5 other).2.collect.2
    let t : TieredArchive :=
      .join (demoted.save 6 near).2 (Archive.fresh.saveAll 5 [other, far]) .undisturbed
    let f := ((Filter.any.withTag 't' ["x"]).withAuthors [other.pubkey]).withLimit 2
    ∃ reading, (t.query TierMerge.firstBegun 9 f false).1 = .ok reading ∧ t.vainLookups f = 1 ∧
      reading.records = [.full near, .full far] ∧
      ∀ e ∈ t.secondary.db.events.storedEvents, f.isMatch e = true → .full e ∈ reading.records ∨
        reading.records.length = t.limitFor f ∧
          ∀ r ∈ reading.records, e.createdAt ≤ r.createdAt := by
  intro other near far demoted t f
  have hdemoted : Archive.Reached [other] demoted := (Archive.Reached.demoting.save 5 other).collect
  have hprimary := (hdemoted.save 6 near).withDemotion true
  have hsecondary := Archive.Reached.fresh.saveAll 5 [other, far]
  have hplan : Plan.ofFilter f = .ok (Plan.choose f) := rfl
  obtain ⟨reading, hread, hstored, -⟩ := query_filled (t := t) rfl hprimary hsecondary
    (by decide +kernel) (by decide +kernel) (by decide +kernel) (by decide +kernel)
    (by decide +kernel) (by decide +kernel) f rfl (by decide +kernel) ⟨_, hplan⟩
    TierMerge.firstBegun 9
  have hrecords : (t.query TierMerge.firstBegun 9 f false).1.toOption.map (·.records) =
      some [.full near, .full far] := by decide +kernel
  rw [hread] at hrecords
  exact ⟨reading, hread, by decide +kernel, Option.some.inj hrecords, hstored⟩

/-- With room for one record, the demoted note takes it and is looked up in vain: nothing is
delivered, though the local tier has a whole record that matches. -/
theorem query_starved :
    let other : Event := .uniform 1 7 100 1 []
    let near : Event := .uniform 2 7 50 1 [⟨["t", "x"]⟩]
    let demoted := (Archive.demoting.save 5 other).2.collect.2
    let t : TieredArchive :=
      .join (demoted.save 6 near).2 (Archive.fresh.saveAll 5 [other]) .undisturbed
    let f := ((Filter.any.withTag 't' ["x"]).withAuthors [other.pubkey]).withLimit 1
    Archive.Reached [other, near] t.primary ∧ Archive.Reached [other] t.secondary ∧
      near ∈ t.primary.db.events.storedEvents ∧ f.isMatch near = true ∧ t.limitFor f = 1 ∧
      (t.query TierMerge.firstBegun 9 f false).1.toOption.map (·.records) = some [] := by
  intro other near demoted t f
  have hdemoted : Archive.Reached [other] demoted := (Archive.Reached.demoting.save 5 other).collect
  have hprimary := (hdemoted.save 6 near).withDemotion true
  have hsecondary := Archive.Reached.fresh.saveAll 5 [other]
  exact ⟨hprimary, hsecondary, by decide +kernel, by decide +kernel, by decide +kernel,
    by decide +kernel⟩

end TieredArchive
end EventArchive
