import EventArchive.Proofs.QueryExact
import EventArchive.Proofs.TierSteps

/-! # What a merge of two tiers delivers

Of the events that the streams of two tiers contribute, a merge delivers the
newest, as many as it may, and each once, whatever the order in which its lookups
complete (`TierMerge.run_newest`).  Along a run everything that has been delivered
comes before everything that is awaited (`TierMerge.Progress`), and a run ends
when the limit is reached or nothing is awaited any more.

Which one of two copies of an event is taken first depends on the shape of the
heap, and with it on the order of the lookups, and so does when its stream is
read on.  If the streams send records of one time by their identifiers, that
makes no difference.  If not, records of one time come in an order that depends
on the lookups.
-/
namespace EventArchive

/-! ### The first of some events -/

/-- **The first of some events in an order**, at most `n` of them. -/
structure FirstOf (R : Event → Event → Prop) (offered : List Event) (n : Nat) (l : List Event) :
    Prop where
  nodup : l.Nodup
  sound : ∀ e ∈ l, e ∈ offered
  sorted : l.Pairwise R
  length : l.length = min n offered.length
  missing : ∀ e ∈ offered, e ∉ l → ∀ d ∈ l, R d e

namespace FirstOf
variable {κ : Type} {R : Event → Event → Prop} {offered l l' : List Event} {n : Nat}

theorem newest (h : FirstOf (fun a b => b.createdAt ≤ a.createdAt) offered n l) :
    NewestOf offered (fun _ => true) n l where
  nodup := h.nodup
  sound e he := ⟨h.sound e he, rfl⟩
  sorted := h.sorted
  length := by rw [h.length, List.filter_true]
  missing e he _ hout last hlast := h.missing e he hout last (List.mem_of_getLast? hlast)

/-- If there is room for all events, none is missing. -/
theorem mem_of_length_le (h : FirstOf R offered n l) (hlen : offered.length ≤ n) {e : Event}
    (he : e ∈ offered) : e ∈ l := by
  have hperm : l.Perm offered := (List.subperm_of_subset h.nodup h.sound).perm_of_length_le (by
    rw [h.length, Nat.min_eq_right hlen])
  exact hperm.mem_iff.mpr he

/-- **The first events are those of the sorted list**, as far as their keys tell them apart. -/
theorem map_eq (h : FirstOf R offered n l) (key : Event → κ) (le : κ → κ → Bool)
    (hoffered : offered.Nodup) (hle : ∀ {a b}, R a b → le (key a) (key b) = true)
    (htrans : ∀ a b c, le a b = true → le b c = true → le a c = true)
    (htotal : ∀ a b, (le a b || le b a) = true)
    (hanti : ∀ a ∈ offered, ∀ b ∈ offered, le (key a) (key b) = true →
      le (key b) (key a) = true → key a = key b) :
    l.map key = ((offered.map key).mergeSort le).take n := by
  let rest := offered.filter (· ∉ l)
  have hrest : ∀ e ∈ rest, e ∈ offered ∧ e ∉ l := by
    intro e he
    simpa [rest] using he
  have hperm : (l ++ rest).Perm offered := by
    have hnodup : (l ++ rest).Nodup := by
      refine List.nodup_append.mpr ⟨h.nodup, hoffered.filter _, fun a ha b hb heq => ?_⟩
      exact (hrest b hb).2 (heq ▸ ha)
    refine (List.perm_ext_iff_of_nodup hnodup hoffered).mpr fun e => ?_
    rw [List.mem_append]
    constructor
    · rintro (he | he)
      · exact h.sound e he
      · exact (hrest e he).1
    · intro he
      by_cases hin : e ∈ l
      · exact .inl hin
      · exact .inr (by simp [rest, he, hin])
  -- what is missing comes behind, so the whole list is sorted
  have hsorted : (l.map key ++ (rest.map key).mergeSort le).Pairwise (le · · = true) := by
    refine List.pairwise_append.mpr ⟨List.pairwise_map.mpr (h.sorted.imp hle),
      List.pairwise_mergeSort htrans htotal _, fun a ha b hb => ?_⟩
    obtain ⟨d, hd, rfl⟩ := List.mem_map.mp ha
    obtain ⟨e, he, rfl⟩ := List.mem_map.mp ((List.mergeSort_perm _ _).mem_iff.mp hb)
    exact hle (h.missing e (hrest e he).1 (hrest e he).2 d hd)
  have hall : l.map key ++ (rest.map key).mergeSort le = (offered.map key).mergeSort le := by
    have hpermKeys : (l.map key ++ (rest.map key).mergeSort le).Perm (offered.map key) := by
      refine ((List.mergeSort_perm _ _).append_left _).trans ?_
      rw [← List.map_append]
      exact hperm.map key
    refine (hpermKeys.trans (List.mergeSort_perm _ _).symm).eq_of_pairwise (fun a b ha hb => ?_)
      hsorted (List.pairwise_mergeSort htrans htotal _)
    obtain ⟨x, hx, rfl⟩ := List.mem_map.mp (hpermKeys.mem_iff.mp ha)
    obtain ⟨y, hy, rfl⟩ := List.mem_map.mp ((List.mergeSort_perm _ _).mem_iff.mp hb)
    exact hanti x hx y hy
  have hlength := h.length
  rw [← hall]
  rcases Nat.le_total n offered.length with hle | hle
  · rw [Nat.min_eq_left hle] at hlength
    rw [List.take_left' (by rw [List.length_map, hlength])]
  · rw [Nat.min_eq_right hle] at hlength
    have hnil : rest = [] := by
      have hsum := hperm.length_eq
      rw [List.length_append, hlength] at hsum
      exact List.length_eq_zero_iff.mp (by omega)
    rw [hnil, List.map_nil, List.mergeSort_nil, List.append_nil, List.take_of_length_le]
    rwa [List.length_map, hlength]

end FirstOf

namespace TierMerge
variable {f : Filter} {lookup : EventId → Lookup} {R : Rank → Rank → Prop} {m m' : TierMerge}
  {order : Nat → Nat} {limit : Nat} {primary secondary : List Record} {e : Event}

/-! ### Along a run -/

/-- What has been delivered of certain events: whole records, each once, in order, all before what
is still awaited, and nothing is lost. -/
structure Progress (R : Rank → Rank → Prop) (f : Filter) (lookup : EventId → Lookup)
    (offered : Event → Prop) (m : TierMerge) : Prop where
  whole : ∀ r ∈ m.delivered, r.isStub = false
  ids : (m.delivered.map Record.id).Nodup
  sorted : m.delivered.Pairwise fun a b => R (Rank.of b) (Rank.of a)
  ahead : ∀ r ∈ m.delivered, ∀ e, m.Awaits f lookup e → R (Rank.of r) (Rank.of (.full e))
  accounted : ∀ e, offered e ↔ .full e ∈ m.delivered ∨ m.Awaits f lookup e

variable {offered : Event → Prop}

theorem exists_full {r : Record} (hr : r.isStub = false) : ∃ e, r = .full e := by
  cases r with
  | full e => exact ⟨e, rfl⟩
  | stub i t => cases hr

/-- What is no longer awaited has been delivered. -/
theorem Progress.of_awaits (h : m.Progress R f lookup offered)
    (hdelivered : m'.delivered = m.delivered)
    (hawaits : ∀ e, m'.Awaits f lookup e → m.Awaits f lookup e)
    (hkept : ∀ e, m.Awaits f lookup e → .full e ∈ m.delivered ∨ m'.Awaits f lookup e) :
    m'.Progress R f lookup offered := by
  refine ⟨?_, ?_, ?_, ?_, fun e => ?_⟩
  · rw [hdelivered]
    exact h.whole
  · rw [hdelivered]
    exact h.ids
  · rw [hdelivered]
    exact h.sorted
  · rw [hdelivered]
    exact fun r hr e he => h.ahead r hr e (hawaits e he)
  · rw [hdelivered, h.accounted]
    constructor
    · rintro (he | he)
      · exact .inl he
      · exact hkept e he
    · exact Or.imp_right (hawaits e)

/-- A record that comes before everything that is awaited is delivered next. -/
theorem Progress.deliver (h : m.Progress R f lookup offered)
    (hid : ∀ a b, offered a → offered b → a.id = b.id → a = b)
    (hawaits : ∀ x, m.Awaits f lookup x ↔ x = e ∨ m'.Awaits f lookup x)
    (hdelivered : m'.delivered = m.delivered)
    (hfirst : ∀ x, m.Awaits f lookup x → R (Rank.of (.full e)) (Rank.of (.full x))) :
    (m'.deliver (.full e)).Progress R f lookup offered := by
  have he : m.Awaits f lookup e := (hawaits e).mpr (.inl rfl)
  rcases m'.deliver_cases (.full e) with ⟨hseen, heq⟩ | ⟨hnew, heq⟩
  · -- the event itself has been delivered, as no other one has its identifier
    have hin : .full e ∈ m.delivered := by
      rw [hdelivered] at hseen
      obtain ⟨r, hr, hrid⟩ := List.mem_map.mp hseen
      obtain ⟨d, rfl⟩ := exists_full (h.whole r hr)
      rwa [← hid d e ((h.accounted d).mpr (.inl hr)) ((h.accounted e).mpr (.inr he)) hrid]
    rw [heq]
    refine h.of_awaits hdelivered (fun x hx => (hawaits x).mpr (.inr hx)) fun x hx => ?_
    rcases (hawaits x).mp hx with rfl | hx
    · exact .inl hin
    · exact .inr hx
  · rw [hdelivered] at hnew
    have hawaits' : ∀ x, (m'.deliver (.full e)).Awaits f lookup x ↔ m'.Awaits f lookup x :=
      fun x => awaits_deliver m' _
    have hdelivered' : (m'.deliver (.full e)).delivered = .full e :: m.delivered := by
      rw [heq, ← hdelivered]
    refine ⟨?_, ?_, ?_, ?_, fun x => ?_⟩
    · rw [hdelivered']
      exact List.forall_mem_cons.mpr ⟨rfl, h.whole⟩
    · rw [hdelivered', List.map_cons]
      exact List.nodup_cons.mpr ⟨hnew, h.ids⟩
    · rw [hdelivered']
      exact List.pairwise_cons.mpr ⟨fun r hr => h.ahead r hr e he, h.sorted⟩
    · rw [hdelivered']
      intro r hr x hx
      have hx : m.Awaits f lookup x := (hawaits x).mpr (.inr ((hawaits' x).mp hx))
      rcases List.mem_cons.mp hr with rfl | hr
      · exact hfirst x hx
      · exact h.ahead r hr x hx
    · rw [hdelivered', List.mem_cons, hawaits', h.accounted, hawaits, Record.full.injEq]
      tauto

/-- **Every step makes progress.** -/
theorem Progress.step (hR : Agrees Rank.precedes R)
    (hid : ∀ a b, offered a → offered b → a.id = b.id → a = b) (hs : m.Steady R lookup)
    (h : m.Progress R f lookup offered) (hstep : m.step? f lookup order = some m') :
    m'.Progress R f lookup offered := by
  obtain ⟨r, hr, rfl⟩ | ⟨c, ready, hwait, hpop, rfl⟩ := step?_cases hstep
  · exact h.of_awaits (m.complete_delivered r) (fun e => (awaits_complete hr).mp)
      fun e he => .inr ((awaits_complete hr).mpr he)
  · obtain ⟨e, he⟩ := exists_full (hs.sound.whole c ((mem_ready_iff hpop).mpr (.inl rfl)))
    have hawaits : ∀ x, m.Awaits f lookup x ↔
        x = e ∨ (pull { m with ready := ready } c.origin).Awaits f lookup x := by
      intro x
      rw [awaits_taken hpop, awaits_pull (hs.sound.taken hpop), he, Record.full.injEq, eq_comm]
    rw [he]
    refine h.deliver hid hawaits (pull_delivered _ _) fun x hx => ?_
    rw [← he]
    exact hs.sound.first hpop hR hs.fronted hwait hx

/-! ### From the start -/

/-- The streams of two tiers that agree with each other: the secondary one is of whole records, a
lookup brings the event of its identifier, with the time of the record that is looked up, and
events of one identifier are the same. -/
structure Consistent (f : Filter) (lookup : EventId → Lookup) (primary secondary : List Record) :
    Prop where
  secondary_whole : ∀ r ∈ secondary, r.isStub = false
  lookup_id : ∀ i e, lookup i = .found e → e.id = i
  lookup_time : ∀ i t e, .stub i t ∈ primary → lookup i = .found e → e.createdAt = t
  identified : Identified ((primary ++ secondary).filterMap (offered? f lookup))

/-- Lookups that find some events. -/
def lookupIn (es : List Event) (i : EventId) : Lookup :=
  match es.find? (·.id == i) with
  | some e => .found e
  | none => .absent

theorem Consistent.of_lookupIn {es : List Event}
    (hsecondary : ∀ r ∈ secondary, r.isStub = false)
    (htime : ∀ r ∈ primary, ∀ e ∈ es, e.id = r.id → e.createdAt = r.createdAt)
    (hid : Identified ((primary ++ secondary).filterMap (offered? f (lookupIn es)))) :
    Consistent f (lookupIn es) primary secondary := by
  have hfind : ∀ i e, lookupIn es i = .found e → e.id = i ∧ e ∈ es := by
    intro i e hfound
    rw [lookupIn] at hfound
    split at hfound
    · rename_i e' hsome
      obtain rfl := Lookup.found.inj hfound
      have hi := List.find?_some hsome
      exact ⟨beq_iff_eq.mp hi, List.mem_of_find?_eq_some hsome⟩
    · cases hfound
  refine ⟨hsecondary, fun i e hfound => (hfind i e hfound).1, fun i t e hstub hfound => ?_, hid⟩
  obtain ⟨hi, he⟩ := hfind i e hfound
  exact htime _ hstub e he hi

/-- The events that the streams of two tiers contribute, each once. -/
def offers (f : Filter) (lookup : EventId → Lookup) (primary secondary : List Record) :
    List Event :=
  distinct ((primary ++ secondary).filterMap (offered? f lookup))

/-- A merge that has read the first records of both streams. -/
def primed (primary secondary : List Record) : TierMerge :=
  ((start primary secondary).pull .primary).pull .secondary

/-- The records that have been read stand in front of the streams. -/
theorem fronted_primed (hprimary : primary.Pairwise fun a b => R (Rank.of a) (Rank.of b))
    (hsecondary : secondary.Pairwise fun a b => R (Rank.of a) (Rank.of b)) (o : Origin) :
    (primed primary secondary).Fronted R o := by
  cases o with
  | primary => exact fronted_pull_of_ne nofun (fronted_pull hprimary)
  | secondary =>
    have hother : Origin.secondary ≠ .primary := nofun
    refine fronted_pull ?_
    rw [stream_pull _ hother]
    exact hsecondary
  | lookup =>
    intro r hr
    cases hr

theorem mem_offers : e ∈ offers f lookup primary secondary ↔
    (start primary secondary).Awaits f lookup e := by
  have hbrings : ¬ Brings f lookup [] e := nofun
  have hholds : ¬ Holds Heap.empty e := nofun
  have hstreams : (∃ o, Sends f lookup ((start primary secondary).stream o) e) ↔
      Sends f lookup primary e ∨ Sends f lookup secondary e := by
    constructor
    · rintro ⟨o, hsends⟩
      cases o with
      | primary => exact .inl hsends
      | secondary => exact .inr hsends
      | lookup =>
        obtain ⟨r, hr, -⟩ := hsends
        cases hr
    · rintro (hsends | hsends)
      · exact ⟨.primary, hsends⟩
      · exact ⟨.secondary, hsends⟩
  rw [offers, mem_distinct, List.mem_filterMap, ← Sends, sends_append, Awaits, hstreams]
  dsimp only [start]
  tauto

/-- The streams of two tiers that agree with each other as far as an order tells: a lookup may bring
an event of another time than that of the record, as long as it comes no sooner. -/
structure Coherent (R : Rank → Rank → Prop) (f : Filter) (lookup : EventId → Lookup)
    (primary secondary : List Record) : Prop where
  secondary_whole : ∀ r ∈ secondary, r.isStub = false
  resolves : ∀ r ∈ primary, r.isStub = true → Resolves R lookup (Rank.of r)
  identified : Identified ((primary ++ secondary).filterMap (offered? f lookup))

theorem Consistent.coherent (h : Consistent f lookup primary secondary)
    (R : Rank → Rank → Prop) : Coherent R f lookup primary secondary where
  secondary_whole := h.secondary_whole
  identified := h.identified
  resolves r hr hstub := by
    cases r with
    | full e => cases hstub
    | stub i t =>
      intro e hfound x hle
      have hrank : Rank.of (.full e) = Rank.of (.stub i t) := by
        show Rank.mk e.createdAt e.id = ⟨t, i⟩
        rw [h.lookup_time i t e hr hfound, h.lookup_id i e hfound]
      rwa [hrank]

section
variable (h : Coherent R f lookup primary secondary)
include h

theorem Coherent.eq_of_id {a b : Event} (ha : a ∈ offers f lookup primary secondary)
    (hb : b ∈ offers f lookup primary secondary) (hid : a.id = b.id) : a = b :=
  h.identified a (mem_distinct.mp ha) b (mem_distinct.mp hb) hid

variable (hprimary : primary.Pairwise fun a b => R (Rank.of a) (Rank.of b))
  (hsecondary : secondary.Pairwise fun a b => R (Rank.of a) (Rank.of b))
include hprimary hsecondary

theorem Coherent.sound_start : (start primary secondary).Sound R lookup where
  heap := Heap.ordered_empty
  whole := nofun
  secondary := h.secondary_whole
  sorted o := by
    cases o with
    | primary => exact hprimary
    | secondary => exact hsecondary
    | lookup => exact List.Pairwise.nil
  stubs o r hr hstub := by
    cases o with
    | primary => exact h.resolves r hr hstub
    | secondary =>
      rw [h.secondary_whole r hr] at hstub
      cases hstub
    | lookup => cases hr
  pending := nofun

theorem Coherent.steady_primed : (primed primary secondary).Steady R lookup where
  sound := ((h.sound_start hprimary hsecondary).pull .primary).pull .secondary
  fronted := fronted_primed hprimary hsecondary

theorem Coherent.progress_primed : (primed primary secondary).Progress R f lookup
    (· ∈ offers f lookup primary secondary) := by
  have hs := h.sound_start hprimary hsecondary
  have hdelivered : (primed primary secondary).delivered = [] := by
    rw [primed, pull_delivered, pull_delivered]
    rfl
  refine ⟨?_, ?_, ?_, ?_, fun e => ?_⟩
  · rw [hdelivered]
    exact nofun
  · rw [hdelivered]
    exact List.nodup_nil
  · rw [hdelivered]
    exact List.Pairwise.nil
  · rw [hdelivered]
    exact nofun
  · rw [hdelivered, mem_offers, primed, awaits_pull (hs.pull .primary), awaits_pull hs]
    simp

end

/-! ### What is delivered -/

/-- The events that have been delivered, in their order. -/
def events (m : TierMerge) : List Event := m.records.filterMap Record.event?

theorem length_delivered_step (hstep : m.step? f lookup order = some m') :
    m'.delivered.length ≤ m.delivered.length + 1 := by
  obtain ⟨r, -, rfl⟩ | ⟨c, ready, -, -, rfl⟩ := step?_cases hstep
  · rw [complete_delivered]
    exact Nat.le_succ _
  · have hpull := pull_delivered { m with ready := ready } c.origin
    rcases (pull { m with ready := ready } c.origin).deliver_cases c.record with
      ⟨-, heq⟩ | ⟨-, heq⟩
    · rw [heq, hpull]
      exact Nat.le_succ _
    · rw [heq, List.length_cons, hpull]

namespace Progress
variable (h : m.Progress R f lookup offered)
include h

theorem records_eq : m.records = m.events.map .full := by
  have hfull : m.records.filterMap (fun r => r.event?.map .full) = m.records.filterMap some := by
    refine List.filterMap_congr fun r hr => ?_
    obtain ⟨e, rfl⟩ := exists_full (h.whole r (List.mem_reverse.mp hr))
    rfl
  rw [events, List.map_filterMap, hfull, List.filterMap_some]

theorem mem_events : e ∈ m.events ↔ .full e ∈ m.delivered := by
  have hrecords : .full e ∈ m.delivered ↔ .full e ∈ m.records := by rw [records, List.mem_reverse]
  rw [hrecords, h.records_eq]
  simp

theorem length_events : m.events.length = m.delivered.length := by
  have hrecords : m.records.length = m.delivered.length := List.length_reverse
  rw [← hrecords, h.records_eq, List.length_map]

theorem ids_events : (m.events.map Event.id).Nodup := by
  have hids := List.nodup_reverse.mpr h.ids
  rwa [← List.map_reverse, ← records, h.records_eq, List.map_map] at hids

/-- A merge that has delivered enough, or awaits nothing, has delivered the first of the events. -/
theorem firstOf {events : List Event} (hevents : ∀ e, e ∈ events ↔ offered e)
    (hnodup : events.Nodup) (hle : m.delivered.length ≤ limit)
    (hend : limit ≤ m.delivered.length ∨ ∀ e, ¬ m.Awaits f lookup e) :
    FirstOf (fun a b => R (Rank.of (.full a)) (Rank.of (.full b))) events limit m.events := by
  have hsub : ∀ e ∈ m.events, e ∈ events := fun e he =>
    (hevents e).mpr ((h.accounted e).mpr (.inl (h.mem_events.mp he)))
  have hsubperm := List.subperm_of_subset h.ids_events.of_map hsub
  have hlength := h.length_events
  refine ⟨h.ids_events.of_map, hsub, ?_, ?_, fun e he hout d hd => ?_⟩
  · have hsorted := List.pairwise_reverse.mpr h.sorted
    rw [← records, h.records_eq, List.pairwise_map] at hsorted
    exact hsorted
  · have hle' := hsubperm.length_le
    rcases hend with henough | hnone
    · omega
    · have hperm : m.events.Perm events := by
        refine (List.perm_ext_iff_of_nodup h.ids_events.of_map hnodup).mpr fun e => ?_
        rw [hevents, h.accounted, h.mem_events]
        exact ⟨.inl, fun he => he.resolve_right (hnone e)⟩
      have hall := hperm.length_eq
      omega
  · have hawaits := ((h.accounted e).mp ((hevents e).mp he)).resolve_left fun hin =>
      hout (h.mem_events.mpr hin)
    exact h.ahead _ (h.mem_events.mp hd) e hawaits

end Progress

section
variable (h : Coherent R f lookup primary secondary) (hR : Agrees Rank.precedes R)
  (hprimary : primary.Pairwise fun a b => R (Rank.of a) (Rank.of b))
  (hsecondary : secondary.Pairwise fun a b => R (Rank.of a) (Rank.of b))
include h hR hprimary hsecondary

/-- A run keeps what its steps keep, and delivers no more than it may. -/
theorem Coherent.run_progress (order : Nat → Nat) (limit : Nat) :
    let m := run f lookup order limit primary secondary
    m.Steady R lookup ∧ m.Progress R f lookup (· ∈ offers f lookup primary secondary) ∧
      m.delivered.length ≤ limit := by
  let P (m : TierMerge) : Prop := m.Steady R lookup ∧
    m.Progress R f lookup (· ∈ offers f lookup primary secondary) ∧ m.delivered.length ≤ limit
  have hstep : ∀ m m' : TierMerge, P m → m.delivered.length < limit →
      m.step? f lookup order = some m' → P m' := by
    intro m m' ⟨hs, hp, _⟩ hlt hnext
    refine ⟨hs.step hnext, ?_, (length_delivered_step hnext).trans hlt⟩
    exact hp.step hR (fun a b ha hb => h.eq_of_id ha hb) hs hnext
  have hstart : P (primed primary secondary) := by
    refine ⟨h.steady_primed hprimary hsecondary, h.progress_primed hprimary hsecondary, ?_⟩
    rw [primed, pull_delivered, pull_delivered]
    exact Nat.zero_le _
  exact steps_induction hstep _ hstart

/-- **A merge delivers the first of what its streams contribute**, in every order in which they
send and that agrees with the comparison. -/
theorem Coherent.run_firstOf (order : Nat → Nat) (limit : Nat) :
    FirstOf (fun a b => R (Rank.of (.full a)) (Rank.of (.full b)))
      (offers f lookup primary secondary) limit
      (run f lookup order limit primary secondary).events := by
  obtain ⟨hsteady, hprogress, hle⟩ := h.run_progress hR hprimary hsecondary order limit
  refine hprogress.firstOf (fun e => Iff.rfl) (nodup_distinct _) hle ?_
  exact (steps_end (Nat.lt_succ_self _)).imp_right fun hstuck e => hsteady.not_awaits hstuck

end

section
variable (h : Consistent f lookup primary secondary) (hR : Agrees Rank.precedes R)
  (hprimary : primary.Pairwise fun a b => R (Rank.of a) (Rank.of b))
  (hsecondary : secondary.Pairwise fun a b => R (Rank.of a) (Rank.of b))
include h hR hprimary hsecondary

theorem Consistent.run_progress (order : Nat → Nat) (limit : Nat) :
    let m := run f lookup order limit primary secondary
    m.Steady R lookup ∧ m.Progress R f lookup (· ∈ offers f lookup primary secondary) ∧
      m.delivered.length ≤ limit :=
  (h.coherent R).run_progress hR hprimary hsecondary order limit

theorem Consistent.run_firstOf (order : Nat → Nat) (limit : Nat) :
    FirstOf (fun a b => R (Rank.of (.full a)) (Rank.of (.full b)))
      (offers f lookup primary secondary) limit
      (run f lookup order limit primary secondary).events :=
  (h.coherent R).run_firstOf hR hprimary hsecondary order limit

end

/-- A merge has delivered the newest of some events, each as a whole record and once, and all of
them if it may. -/
structure Delivers (m : TierMerge) (offered : List Event) (limit : Nat) : Prop where
  whole : m.records = m.events.map .full
  once : (m.records.map Record.id).Nodup
  newest : NewestOf offered (fun _ => true) limit m.events
  all : offered.length ≤ limit → ∀ e ∈ offered, e ∈ m.events

/-- The times of what a merge delivers are the latest ones that its streams contribute. -/
theorem Consistent.run_times (h : Consistent f lookup primary secondary)
    (hprimary : primary.Pairwise fun a b => b.createdAt ≤ a.createdAt)
    (hsecondary : secondary.Pairwise fun a b => b.createdAt ≤ a.createdAt)
    (order : Nat → Nat) (limit : Nat) :
    (run f lookup order limit primary secondary).events.map Event.createdAt =
      (((offers f lookup primary secondary).map Event.createdAt).mergeSort
        fun t t' => t' ≤ t).take limit := by
  have hfirst := h.run_firstOf Rank.precedes_byAge.agrees_newest hprimary hsecondary order limit
  refine hfirst.map_eq Event.createdAt (fun t t' => t' ≤ t) (nodup_distinct _)
    (fun hle => decide_eq_true hle) ?_ ?_ ?_
  · intro a b c hab hbc
    rw [decide_eq_true_eq] at *
    exact Int64.le_trans hbc hab
  · intro a b
    rw [Bool.or_eq_true, decide_eq_true_eq, decide_eq_true_eq]
    exact Int64.le_total b a
  · intro a _ b _ hab hba
    rw [decide_eq_true_eq] at *
    exact Int64.le_antisymm hba hab

/-- Records come newest first, and those of one time by their identifiers, the smallest first. -/
def Ranked (records : List Record) : Prop :=
  records.Pairwise fun a b => (Rank.of b).precedes (Rank.of a) = false

instance (records : List Record) : Decidable (Ranked records) :=
  inferInstanceAs (Decidable (records.Pairwise fun a b =>
    (Rank.of b).precedes (Rank.of a) = false))

/-- Of streams in the order of the merge, what is delivered are the first events in that order. -/
theorem Consistent.run_ranked (h : Consistent f lookup primary secondary)
    (hprimary : Ranked primary) (hsecondary : Ranked secondary) (order : Nat → Nat)
    (limit : Nat) :
    (run f lookup order limit primary secondary).events =
      ((offers f lookup primary secondary).mergeSort fun a b =>
        ! (Rank.of (.full b)).precedes (Rank.of (.full a))).take limit := by
  have hfirst := h.run_firstOf Rank.ranks.agrees hprimary hsecondary order limit
  have hmap := hfirst.map_eq id (fun a b => ! (Rank.of (.full b)).precedes (Rank.of (.full a)))
    (nodup_distinct _) (fun hle => by rw [id, id, hle]; rfl) ?_ ?_ ?_
  · rwa [List.map_id, List.map_id] at hmap
  · intro a b c hab hbc
    rw [Bool.not_eq_true'] at *
    exact Rank.ranks.trans hbc hab
  · intro a b
    cases hab : (Rank.of (.full b)).precedes (Rank.of (.full a)) with
    | true => rw [Rank.ranks.asymm hab]; rfl
    | false => rfl
  · -- events of one place are of one identifier
    intro a ha b hb hab hba
    rw [Bool.not_eq_true', Rank.precedes_byAge] at hab hba
    rcases isOlder_or_eq hab with holder | ⟨-, hid⟩
    · rw [hba] at holder
      cases holder
    · exact h.identified a (mem_distinct.mp ha) b (mem_distinct.mp hb) hid

/-- **A merge of two tiers delivers the newest** of the events that their streams contribute, if
both send the newest first.  The times of what it delivers do not depend on the order in which
lookups complete; and nothing does, if both streams send records of one time by their
identifiers. -/
theorem run_newest (h : Consistent f lookup primary secondary)
    (hprimary : primary.Pairwise fun a b => b.createdAt ≤ a.createdAt)
    (hsecondary : secondary.Pairwise fun a b => b.createdAt ≤ a.createdAt)
    (order : Nat → Nat) (limit : Nat) :
    (run f lookup order limit primary secondary).Delivers
        (offers f lookup primary secondary) limit ∧
      ∀ order' : Nat → Nat,
        (run f lookup order' limit primary secondary).events.map Event.createdAt =
            (run f lookup order limit primary secondary).events.map Event.createdAt ∧
          (Ranked primary → Ranked secondary →
            (run f lookup order' limit primary secondary).records =
              (run f lookup order limit primary secondary).records) := by
  have hR := Rank.precedes_byAge.agrees_newest
  have hrun := fun order => h.run_progress hR hprimary hsecondary order limit
  have hfirst := h.run_firstOf hR hprimary hsecondary order limit
  obtain ⟨-, hprogress, -⟩ := hrun order
  refine ⟨⟨hprogress.records_eq, ?_, hfirst.newest, fun hlen e => hfirst.mem_of_length_le hlen⟩,
    fun order' => ⟨?_, fun hranked hranked' => ?_⟩⟩
  · rw [hprogress.records_eq, List.map_map]
    exact hprogress.ids_events
  · rw [h.run_times hprimary hsecondary, h.run_times hprimary hsecondary]
  · rw [(hrun order').2.1.records_eq, hprogress.records_eq, h.run_ranked hranked hranked',
      h.run_ranked hranked hranked']

/-- Of two demoted notes one is found, and a note is in both tiers. -/
theorem run_newest_of_two :
    let x : Event := .uniform 1 7 20 1 []
    let y : Event := .uniform 5 7 10 1 []
    let primary : List Record := [.stub x.id 20, .stub (Event.uniform 9 7 19 1 []).id 19, .full y]
    let m := run .any (lookupIn [x]) firstBegun 2 primary [.full y]
    m.records = [.full x, .full y] ∧
      m.Delivers (offers .any (lookupIn [x]) primary [.full y]) 2 := by
  intro x y primary m
  have h : Consistent .any (lookupIn [x]) primary [.full y] :=
    .of_lookupIn (by decide +kernel) (by decide +kernel) (by decide +kernel)
  exact ⟨by decide +kernel, (run_newest h (by decide +kernel) (by decide +kernel) firstBegun 2).1⟩

/-- Both streams send the newest first, but records of one time against their identifiers, and one
of these records is in both.  With the lookup of the first note completing first, the next record
of the local tier comes before that of the secondary tier, with that of the second note the other
way round; and a limit keeps another set of events. -/
theorem run_order_dependent :
    let x : Event := .uniform 1 7 20 1 []
    let y : Event := .uniform 9 7 19 1 []
    let shared : Event := .uniform 5 7 10 1 []
    let near : Event := .uniform 3 7 10 1 []
    let far : Event := .uniform 2 7 10 1 []
    let primary : List Record := [.stub x.id 20, .stub y.id 19, .full shared, .full near]
    let secondary : List Record := [.full shared, .full far]
    let merged := fun order limit => run .any (lookupIn [x, y]) order limit primary secondary
    Consistent .any (lookupIn [x, y]) primary secondary ∧
      (primary.Pairwise fun a b => b.createdAt ≤ a.createdAt) ∧
      (secondary.Pairwise fun a b => b.createdAt ≤ a.createdAt) ∧
      (merged (fun _ => 0) 5).events = [x, y, shared, near, far] ∧
      (merged (fun _ => 1) 5).events = [x, y, shared, far, near] ∧
      (merged (fun _ => 0) 4).events = [x, y, shared, near] ∧
      (merged (fun _ => 1) 4).events = [x, y, shared, far] := by
  intro x y shared near far primary secondary merged
  refine ⟨.of_lookupIn (by decide +kernel) (by decide +kernel) (by decide +kernel),
    by decide +kernel, by decide +kernel, by decide +kernel, by decide +kernel, by decide +kernel,
    by decide +kernel⟩

end TierMerge
end EventArchive
