import EventArchive.Proofs.IdLookups
import EventArchive.Proofs.PagedScans
import EventArchive.Proofs.QueryExact

/-! # The order of queries for identifiers

The keys of the identifier index hold no time.  So the scan for an identifier
delivers the records whose identifiers begin with the same eight bytes in the order
in which they were saved, the last one first (`Scan.onePass_ofId_descending`), and
merging scans changes nothing about that (`Plan.found_descending`).

A query for identifiers therefore delivers the right records, each once, and as many
as it may.  But they come newest first, and a limit keeps the newest ones, exactly if
the matching records of such identifiers were saved in the order of their times
(`Keyspace.SavedInOrder`, `Archive.id_query_newest_first`).  Where an older one was
saved later it comes first, and a limit keeps it in place of the newer one.
-/
namespace EventArchive

/-- **Records whose identifiers begin alike were saved in the order of their times**: of
those that match a filter, none is older than one that was saved before. -/
def Keyspace.SavedInOrder (k : Keyspace) (f : Filter) : Prop :=
  ∀ s s' e e', k.read? s = some (.full e) → k.read? s' = some (.full e') →
    f.isMatch e = true → f.isMatch e' = true → e.id.head8 = e'.id.head8 → s < s' →
    e.createdAt ≤ e'.createdAt

/-- Where no two of the identifiers of a filter begin alike, there is nothing to be saved in
order. -/
theorem Keyspace.Renders.savedInOrder {k : Keyspace} {L : Ledger} {f : Filter} (hr : k.Renders L)
    (hfits : ∀ s h, L s = some h → h.event.Sized) (hu : L.Unique) (hids : f.ids ≠ [])
    (hheads : ∀ i ∈ f.ids, ∀ j ∈ f.ids, i.head8 = j.head8 → i = j) : k.SavedInOrder f := by
  intro s s' e e' hread hread' hmatch hmatch' hhead hlt
  obtain ⟨t, hL⟩ := (hr.read?_eq_full_iff hfits).mp hread
  obtain ⟨t', hL'⟩ := (hr.read?_eq_full_iff hfits).mp hread'
  have hid : e.id = e'.id :=
    hheads _ (Plan.id_mem_of_isMatch hids hmatch) _ (Plan.id_mem_of_isMatch hids hmatch') hhead
  obtain rfl := hu s s' _ _ hL hL' rfl rfl hid
  exact absurd hlt (UInt64.lt_irrefl s)

/-! ### The scan for an identifier -/

namespace Scan
variable {k : Keyspace} {L : Ledger} {i : EventId} {residual : Option Filter} {since : UInt64}
  {key : Bytes} {hit : Hit}

/-- The keys that the scan for an identifier takes up are keys of its beginning. -/
theorem eq_id_of_hit? (hmem : key ∈ (ofId i).keysBelow k (ofId i).upper)
    (hhit : (ofId i).hit? k residual key = some hit) : key = Key.id i hit.serial := by
  obtain ⟨r, rfl⟩ := exists_append_of_mem_keysBelow hmem
  have howns : (Key.idStem i ++ r).length = (Key.idStem i).length + 0 + 8 :=
    beq_iff_eq.mp (owns_of_hit? hhit)
  obtain ⟨s, rfl⟩ := Key.exists_bigEndian (show r.length = 8 by
    rw [List.length_append] at howns
    omega)
  have hserial := serial?_of_hit? hhit
  have hid : (ofId i).stem ++ Bytes.bigEndian 8 s.toNat = Key.id i s := (Key.id_eq i s).symm
  rw [hid] at hserial ⊢
  rw [Key.serial?_id] at hserial
  rw [Option.some.inj hserial]

/-- **The scan for an identifier delivers first what was saved last.** -/
theorem onePass_ofId_descending (i : EventId) :
    ((ofId i).onePass k residual since).Pairwise fun a b => b.serial < a.serial := by
  rw [onePass, List.pairwise_filterMap]
  have hsorted := ((ofId i).keysBelow_sorted k (ofId i).upper).sublist
    (List.takeWhile_sublist (!(ofId i).isPast since ·))
  refine hsorted.imp_of_mem fun {a b} ha hb hlt x hx y hy => ?_
  rw [eq_id_of_hit? (mem_keysBelow_of_mem_keysMet ha) hx,
    eq_id_of_hit? (mem_keysBelow_of_mem_keysMet hb) hy, Key.id_eq, Key.id_eq] at hlt
  exact Key.compare_serial_lt_iff.mp hlt

/-- What it delivers are records whose identifiers begin alike. -/
theorem head8_of_mem_onePass (hr : k.Renders L)
    (hfits : ∀ s h, L s = some h → h.event.Sized)
    (hmem : hit ∈ (ofId i).onePass k residual since) : hit.record.id.head8 = i.head8 := by
  obtain ⟨key, hkey, hhit⟩ := List.mem_filterMap.mp hmem
  have hbelow := mem_keysBelow_of_mem_keysMet hkey
  have hindexed : (ofId i).Indexed := by
    refine ⟨.id, ?_, rfl⟩
    rw [ofId, Key.idStem_eq]
    exact Key.layout?_cons _ _
  obtain ⟨s, h, hL, hserial, hown⟩ := hindexed.exists_holding hr hbelow
  have hkey := eq_id_of_hit? hbelow hhit
  have hlayout : Key.layout? key = some .id := by
    rw [hkey]
    exact Key.layout?_id i hit.serial
  have hevent := Key.eq_id_of_mem_index (Holding.mem_index_of_mem_keys hown) hlayout
  rw [hit?, if_pos (owns_of_hit? hhit), resolve_eq_hit? hr hL (hfits s h hL) hserial] at hhit
  rw [Holding.id_of_hit? hhit]
  exact Key.id_inj (hevent.symm.trans hkey)

end Scan

/-! ### The plan for some identifiers -/

namespace Plan
variable {f : Filter} {p : Plan} {k : Keyspace} {L : Ledger} {pageSize : Nat}

/-- The plan of a filter with identifiers has a scan for some of them, and none twice. -/
theorem scans_of_ids (hplan : ofFilter f = .ok p) (hids : f.ids ≠ []) :
    p.scans.Nodup ∧ ∀ s ∈ p.scans, ∃ i, s = .ofId i := by
  rw [eq_of_ofFilter hplan]
  split
  · exact ⟨List.nodup_nil, nofun⟩
  · rw [choose_of_ids hids]
    refine ⟨nodup_distinct _, fun s hs => ?_⟩
    obtain ⟨i, -, rfl⟩ := mem_idScans.mp hs
    exact ⟨i, rfl⟩

section
variable (hr : k.Renders L) (hfits : ∀ s h, L s = some h → h.event.Sized)
  (hplan : ofFilter f = .ok p) (hids : f.ids ≠ [])
include hr hfits hplan hids

/-- **Of records whose identifiers begin alike, what was saved last is found first.** -/
theorem found_descending (pageSize : Nat) : (p.found k pageSize).Pairwise fun a b =>
    a.record.id.head8 = b.record.id.head8 → b.serial < a.serial := by
  obtain ⟨hnodup, hscans⟩ := scans_of_ids hplan hids
  refine Merge.Apart.all ⟨fun l hl => ?_, ?_⟩
  · obtain ⟨s, hs, rfl⟩ := List.mem_map.mp hl
    obtain ⟨i, rfl⟩ := hscans s hs
    rw [Scan.hits_eq_onePass]
    refine (Scan.onePass_ofId_descending i).imp ?_
    exact fun hlt _ => hlt
  · -- identifiers that begin alike have one scan
    rw [List.pairwise_map]
    refine hnodup.imp_of_mem fun {s s'} hs hs' hne a ha b hb => ?_
    obtain ⟨i, rfl⟩ := hscans s hs
    obtain ⟨i', rfl⟩ := hscans s' hs'
    rw [Scan.hits_eq_onePass] at ha hb
    have hdiffer : a.record.id.head8 ≠ b.record.id.head8 := by
      rw [Scan.head8_of_mem_onePass hr hfits ha, Scan.head8_of_mem_onePass hr hfits hb]
      intro hsame
      refine hne ?_
      rw [Scan.ofId, Scan.ofId, Key.idStem_eq, Key.idStem_eq, hsame]
    exact ⟨fun h => absurd h hdiffer, fun h => absurd h.symm hdiffer⟩

variable (hfinds : p.FindsMatches k L f pageSize)
include hfinds

/-- **What is found for some identifiers comes newest first** exactly if it was saved in order,
as far as the identifiers begin alike. -/
theorem found_newestFirst_iff : NewestFirst (p.found k pageSize) ↔ k.SavedInOrder f := by
  constructor
  · intro hsorted s s' e e' hread hread' hmatch hmatch' hhead hlt
    obtain ⟨t, hL⟩ := (hr.read?_eq_full_iff hfits).mp hread
    obtain ⟨t', hL'⟩ := (hr.read?_eq_full_iff hfits).mp hread'
    have hmem := (hfinds ⟨s, e.createdAt, .full e⟩).mpr ⟨e, t, hL, hmatch, rfl⟩
    have hmem' := (hfinds ⟨s', e'.createdAt, .full e'⟩).mpr ⟨e', t', hL', hmatch', rfl⟩
    have hboth := (found_descending hr hfits hplan hids pageSize).and hsorted
    obtain ⟨pre, post, hsplit⟩ := List.append_of_mem hmem
    rw [hsplit] at hboth hmem'
    obtain ⟨-, hafter, hbefore⟩ := List.pairwise_append.mp hboth
    rcases List.mem_append.mp hmem' with hpre | hrest
    · -- the one saved later comes first, so it is not older
      exact (hbefore _ hpre _ List.mem_cons_self).2
    · rcases List.mem_cons.mp hrest with heq | hpost
      · rw [(Hit.mk.inj heq).1] at hlt
        exact absurd hlt (UInt64.lt_irrefl s)
      · have hgt := ((List.pairwise_cons.mp hafter).1 _ hpost).1 hhead
        exact absurd hlt (UInt64.lt_asymm hgt)
  · intro hsaved
    refine Merge.all_sorted fun l hl => ?_
    obtain ⟨s, hs, rfl⟩ := List.mem_map.mp hl
    obtain ⟨-, hscans⟩ := scans_of_ids hplan hids
    have huniform := uniform_of_ofFilter hplan
    have hfound : ∀ x ∈ s.hits k p.residual p.since pageSize, x ∈ p.found k pageSize :=
      fun x hx => (mem_found_iff_meets hr hfits huniform).mpr
        ((mem_flatten_iff_meets hr hfits huniform).mp
          (List.mem_flatten.mpr ⟨_, List.mem_map_of_mem hs, hx⟩))
    obtain ⟨i, rfl⟩ := hscans s hs
    rw [Scan.hits_eq_onePass] at hfound ⊢
    refine (Scan.onePass_ofId_descending i).imp_of_mem fun {x y} hx hy hlt => ?_
    have hxhead := Scan.head8_of_mem_onePass hr hfits hx
    have hyhead := Scan.head8_of_mem_onePass hr hfits hy
    obtain ⟨e, t, hL, hmatch, heq⟩ := (hfinds x).mp (hfound x hx)
    obtain ⟨e', t', hL', hmatch', heq'⟩ := (hfinds y).mp (hfound y hy)
    rw [heq] at hxhead ⊢
    rw [heq'] at hyhead ⊢
    exact hsaved y.serial x.serial e' e ((hr.read?_eq_full_iff hfits).mpr ⟨t', hL'⟩)
      ((hr.read?_eq_full_iff hfits).mpr ⟨t, hL⟩) hmatch' hmatch (hyhead.trans hxhead.symm) hlt

end

/-- The plan of a filter with identifiers finds the records that match. -/
theorem findsMatches_of_ids (hr : k.Renders L) (hfits : ∀ s h, L s = some h → h.event.Sized)
    (hw : L.Whole) (hplan : ofFilter f = .ok p) (hids : f.ids ≠ []) (pageSize : Nat) :
    p.FindsMatches k L f pageSize := by
  intro hit
  cases hpossible : isImpossible f with
  | true =>
    -- no time at which records are kept is in the window
    have hempty : p.found k pageSize = [] := by
      rw [eq_of_ofFilter hplan, if_pos hpossible]
      rfl
    rw [hempty]
    refine iff_of_false List.not_mem_nil ?_
    rintro ⟨e, t, hL, hmatch, -⟩
    rw [not_isMatch_of_isImpossible hpossible (hw.times _ e t hL)] at hmatch
    cases hmatch
  | false =>
    rw [mem_found_of_ids hr hfits hplan hids hpossible]
    constructor
    · rintro ⟨h, hL, ⟨e, t, rfl, hmatch, heq⟩ | ⟨e, rfl, -⟩⟩
      · exact ⟨e, t, hL, hmatch, heq⟩
      · exact absurd rfl (hw.live _ _ hL)
    · rintro ⟨e, t, hL, hmatch, heq⟩
      exact ⟨_, hL, .inl ⟨e, t, rfl, hmatch, heq⟩⟩

end Plan

/-! ### Queries for identifiers -/

/-- A reading of as many of the stored events that match as it may deliver, each once, in an order
of its own. -/
structure Reading.Draws (r : Reading Record) (stored : List Event) (f : Filter) (limit : Nat) :
    Prop where
  outcome : r.outcome = .complete
  whole : r.records = r.events.map .full
  nodup : r.events.Nodup
  sound : ∀ e ∈ r.events, e ∈ stored ∧ f.isMatch e = true
  length : r.events.length = min limit (stored.filter f.isMatch).length

namespace Archive

/-- **Queries for identifiers are newest first if records whose identifiers begin alike were saved
in the order of their times**, and else they need not be.  On an open archive whose records are
all whole and of times that are not negative, a query with identifiers for which there is a plan
delivers stored events that match, as many as it may and each once.  If those with identifiers that
begin alike were saved in order, as is so if no two of the listed ones begin alike, these are the
newest, newest first.  And if the limit leaves nothing out, they come newest first only then. -/
theorem id_query_newest_first {es : List Event} {a : Archive} (ha : Reached es a)
    (hid : Identified es) (hfits : ∀ e ∈ es, e.Sized) (hopen : a.isClosed = false)
    (hwhole : ∀ record ∈ a.db.events.ofLayout .event, StoredValue.isStub record.2 = false)
    (htimes : ∀ e ∈ a.db.events.storedEvents, 0 ≤ e.createdAt) {f : Filter} {plan : Plan}
    (hplan : Plan.ofFilter f = .ok plan) (hids : f.ids ≠ []) (now : Int64) :
    ∃ reading, (a.query now f false).1 = .ok reading ∧
      reading.Draws a.db.events.storedEvents f (a.config.effectiveLimit f.limit).toNat ∧
      (a.db.events.SavedInOrder f →
        reading.Exact a.db.events.storedEvents f (a.config.effectiveLimit f.limit).toNat) ∧
      ((∀ i ∈ f.ids, ∀ j ∈ f.ids, i.head8 = j.head8 → i = j) → a.db.events.SavedInOrder f) ∧
      ((a.db.events.storedEvents.filter f.isMatch).length ≤
          (a.config.effectiveLimit f.limit).toNat →
        ((reading.events.Pairwise fun x y => y.createdAt ≤ x.createdAt) ↔
          a.db.events.SavedInOrder f)) := by
  obtain ⟨L, J, hf, hmem⟩ := ha.exists_follows hid
  have hr : a.db.events.Renders L := hf.db.events
  have hsized : ∀ s h, L s = some h → h.event.Sized := fun s h hL => hfits _ (hmem s h hL)
  have hw : L.Whole := hr.whole hsized hwhole htimes
  have hstored := hr.storedEvents_nodup hf.unique hsized
  let limit := (a.config.effectiveLimit f.limit).toNat
  have hfinds : plan.FindsMatches a.db.events L f a.config.scanPageSize.toNat :=
    Plan.findsMatches_of_ids hr hsized hw hplan hids _
  have hfound : ∀ e, e ∈ plan.foundEvents a.db.events a.config.scanPageSize.toNat ↔
      e ∈ a.db.events.storedEvents ∧ f.isMatch e = true :=
    fun e => Plan.mem_foundEvents hfinds hr hsized
  have hnodup := Plan.foundEvents_nodup hfinds hf.unique
  have horder := (Plan.foundEvents_sorted_iff hfinds).trans
    (Plan.found_newestFirst_iff hr hsized hplan hids hfinds)
  have hquery := query_eq_foundEvents hopen hplan hfinds now
  generalize plan.foundEvents a.db.events a.config.scanPageSize.toNat = found
    at hfound hnodup horder hquery
  have hlength := length_take_of_mem_iff hstored hnodup hfound
  refine ⟨_, hquery, ⟨rfl, ?_, ?_, ?_, ?_⟩, fun hsaved => ⟨rfl, ?_, ?_⟩,
    hr.savedInOrder hsized hf.unique hids, fun hle => ?_⟩ <;> rw [Reading.events_whole]
  · exact hnodup.take
  · exact fun e he => (hfound e).mp (List.mem_of_mem_take he)
  · exact hlength limit
  · exact .take hstored hnodup hfound (horder.mpr hsaved) limit
  · -- nothing is cut off
    have hall : found.length ≤ limit := by
      have := hlength found.length
      rw [List.take_length] at this
      omega
    rw [List.take_of_length_le hall]
    exact horder

/-- Of three notes, two have identifiers that begin alike, and of these the newer one was saved
later.  The two newest are delivered, newest first. -/
theorem id_query_newest_first_in_order :
    let i (head last : UInt8) : EventId := ⟨List.replicate 31 head ++ [last], rfl⟩
    let event (head last : UInt8) (time : Int64) : Event :=
      { Event.uniform 0 7 time 1 [] with id := i head last }
    let es : List Event := [event 9 1 10, event 8 1 15, event 9 2 20]
    let a := fresh.saveAll 5 es
    let f := Filter.any.withIds [i 8 1, i 9 1, i 9 2]
    ∃ reading, Reached es a ∧ a.db.events.SavedInOrder f ∧
      (a.query 9 (f.withLimit 2) false).1 = .ok reading ∧
      reading.events.map Event.createdAt = [20, 15] ∧
      reading.Exact a.db.events.storedEvents (f.withLimit 2) 2 := by
  intro i event es a f
  have ha : Reached es a := Reached.fresh.saveAll 5 es
  have hid : Identified es := by decide +kernel
  have hfits : ∀ e ∈ es, e.Sized := by decide +kernel
  have hwhole : ∀ record ∈ a.db.events.ofLayout .event, StoredValue.isStub record.2 = false := by
    decide +kernel
  have htimes : ∀ e ∈ a.db.events.storedEvents, 0 ≤ e.createdAt := by decide +kernel
  have hplan : Plan.ofFilter f = .ok (Plan.choose f) := rfl
  have hplan' : Plan.ofFilter (f.withLimit 2) = .ok (Plan.choose (f.withLimit 2)) := rfl
  -- without a limit they come newest first, so they were saved in order
  obtain ⟨all, hall, -, -, -, hiff⟩ := id_query_newest_first ha hid hfits (by decide +kernel) hwhole
    htimes hplan (by decide +kernel) 9
  have hsorted : (a.query 9 f false).1.toOption.map
      (fun r => decide (r.events.Pairwise fun x y => y.createdAt ≤ x.createdAt)) = some true := by
    decide +kernel
  rw [hall] at hsorted
  have hsaved : a.db.events.SavedInOrder f :=
    (hiff (by decide +kernel)).mp (of_decide_eq_true (Option.some.inj hsorted))
  obtain ⟨reading, hok, -, hexact, -⟩ := id_query_newest_first ha hid hfits (by decide +kernel)
    hwhole htimes hplan' (by decide +kernel) 9
  have hread : (a.query 9 (f.withLimit 2) false).1.toOption.map
      (·.events.map Event.createdAt) = some [20, 15] := by decide +kernel
  rw [hok] at hread
  have hlimit : (a.config.effectiveLimit (f.withLimit 2).limit).toNat = 2 := by decide +kernel
  rw [hlimit] at hexact
  exact ⟨reading, ha, hsaved, hok, Option.some.inj hread, hexact hsaved⟩

/-- The identifiers of two notes begin alike, and the older note was saved later.  It comes first,
and a limit keeps it alone. -/
theorem id_query_oldest_first :
    let i (last : UInt8) : EventId := ⟨List.replicate 31 0x11 ++ [last], rfl⟩
    let event (last : UInt8) (time : Int64) : Event :=
      { Event.uniform 0 7 time 1 [] with id := i last }
    let es : List Event := [event 2 20, event 1 10]
    let a := fresh.saveAll 5 es
    let f := Filter.any.withIds [i 1, i 2]
    Reached es a ∧ Identified es ∧
      (∀ record ∈ a.db.events.ofLayout .event, StoredValue.isStub record.2 = false) ∧
      (a.query 9 f false).1.toOption.map (·.events.map Event.createdAt) = some [10, 20] ∧
      (a.query 9 (f.withLimit 1) false).1.toOption.map (·.events.map Event.createdAt) =
        some [10] ∧
      ¬ ∃ reading, (a.query 9 f false).1 = .ok reading ∧
        reading.events.Pairwise fun x y => y.createdAt ≤ x.createdAt := by
  intro i event es a f
  refine ⟨Reached.fresh.saveAll 5 es, by decide +kernel, by decide +kernel, by decide +kernel,
    by decide +kernel, ?_⟩
  rintro ⟨reading, hok, hsorted⟩
  have hread : (a.query 9 f false).1.toOption.map
      (fun r => decide (r.events.Pairwise fun x y => y.createdAt ≤ x.createdAt)) =
        some false := by decide +kernel
  rw [hok] at hread
  exact of_decide_eq_false (Option.some.inj hread) hsorted

end Archive
end EventArchive
