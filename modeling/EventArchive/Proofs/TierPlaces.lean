import EventArchive.Proofs.TierOrder

/-! # A merge goes by places

A merge compares the places of records and reads nothing else of what it holds
ready.  So if the records of the secondary tier are exchanged for others of the
same places, the merge takes the same steps, and delivers the same with the
records exchanged (`TierMerge.run_exchange`).

A secondary tier that has demoted records sends them as they are, and the merge
treats them like whole ones.  With known events in their place the streams are
those of a secondary tier that has everything whole, of which it is known what is
delivered (`TierMerge.Consistent`).
-/
namespace EventArchive

/-! ### Heaps of exchanged entries -/

namespace Heap
variable {α β : Type} {ahead : α → α → Bool} {ahead' : β → β → Bool} {g : α → β} {i j : Nat}
  {entries : Array α}

/-- The same tree with other entries. -/
def map (g : α → β) (heap : Heap α) : Heap β := ⟨heap.entries.map g⟩

theorem map_empty (g : α → β) : (empty : Heap α).map g = empty := by
  rw [map, empty, empty, Array.map_empty]

theorem map_swapIfInBounds (g : α → β) (entries : Array α) (i j : Nat) :
    (entries.swapIfInBounds i j).map g = (entries.map g).swapIfInBounds i j := by
  by_cases hin : i < entries.size ∧ j < entries.size
  · obtain ⟨hi, hj⟩ := hin
    have hi' : i < (entries.map g).size := by rwa [Array.size_map]
    have hj' : j < (entries.map g).size := by rwa [Array.size_map]
    refine Array.ext_getElem? fun k => ?_
    rw [Array.getElem?_map, getElem?_swap hi hj, getElem?_swap hi' hj', Array.getElem?_map]
  · have hsame : ∀ {γ : Type} (xs : Array γ), xs.size = entries.size →
        xs.swapIfInBounds i j = xs := by
      intro γ xs hsize
      rw [Array.swapIfInBounds_def]
      split
      · split
        · exact absurd (hsize ▸ ⟨‹_›, ‹_›⟩) hin
        · rfl
      · rfl
    rw [hsame entries rfl, hsame (entries.map g) (Array.size_map ..)]

section
variable (hg : ∀ a b, ahead' (g a) (g b) = ahead a b)
include hg

theorem isAhead_map : isAhead ahead' (entries.map g) i j = isAhead ahead entries i j := by
  rw [isAhead, isAhead, Array.getElem?_map, Array.getElem?_map]
  cases entries[i]? with
  | none => rfl
  | some a =>
    cases entries[j]? with
    | none => rfl
    | some b => exact hg a b

theorem map_rise (entries : Array α) (i : Nat) :
    (rise ahead entries i).map g = rise ahead' (entries.map g) i := by
  fun_induction rise ahead entries i with
  | case1 entries => rw [rise, dif_pos rfl]
  | case2 entries i hi hahead hlt ih =>
    rw [ih, eq_comm, rise, dif_neg hi, if_pos ((isAhead_map hg).trans hahead), map_swapIfInBounds]
  | case3 entries i hi hahead =>
    rw [rise, dif_neg hi, if_neg]
    rwa [isAhead_map hg]

theorem risingChild?_map :
    risingChild? ahead' (entries.map g) i = risingChild? ahead entries i := by
  simp only [risingChild?, Array.size_map, isAhead_map hg]

theorem map_sink (entries : Array α) (i : Nat) :
    ((sink ahead entries i).1.map g, (sink ahead entries i).2) = sink ahead' (entries.map g) i := by
  fun_induction sink ahead entries i with
  | case1 entries i child hchild hlt ih =>
    rw [ih, eq_comm, sink]
    split
    · rename_i c hc
      rw [risingChild?_map hg, hchild] at hc
      obtain rfl := Option.some.inj hc
      rw [map_swapIfInBounds]
    · rename_i hnone
      rw [risingChild?_map hg, hchild] at hnone
      cases hnone
  | case2 entries i hnone =>
    rw [sink]
    split
    · rename_i c hc
      rw [risingChild?_map hg, hnone] at hc
      cases hc
    · rfl

theorem push_map (heap : Heap α) (a : α) :
    (heap.map g).push ahead' (g a) = (heap.push ahead a).map g := by
  rw [push, map, ← Array.map_push, Array.size_map, ← map_rise hg]
  rfl

theorem pop?_map (heap : Heap α) : (heap.map g).pop? ahead' =
    (heap.pop? ahead).map fun p => (g p.1, p.2.map g) := by
  rw [pop?, pop?, map, Array.getElem?_map, Array.back?_map]
  cases heap.entries[0]? with
  | none => rfl
  | some root =>
    cases heap.entries.back? with
    | none => rfl
    | some last =>
      have hempty : (heap.entries.map g).pop.isEmpty = heap.entries.pop.isEmpty := by
        rw [Array.isEmpty, Array.isEmpty, Array.size_pop, Array.size_pop, Array.size_map]
      dsimp only [Option.map_some]
      rw [hempty]
      split
      · rw [← Array.map_pop]
        rfl
      · rw [← Array.map_pop, ← Array.map_setIfInBounds, ← map_sink hg, ← map_rise hg]
        rfl

end

theorem top?_map (g : α → β) (heap : Heap α) : (heap.map g).top? = heap.top?.map g :=
  Array.getElem?_map ..

end Heap

/-! ### Exchanging records -/

/-- A way to exchange records for others of the same places that leaves whole ones as they are. -/
structure KeepsPlaces (g : Record → Record) : Prop where
  rank : ∀ r, Rank.of (g r) = Rank.of r
  whole : ∀ e, g (.full e) = .full e

/-- A candidate with its record exchanged. -/
def Candidate.exchange (g : Record → Record) (c : Candidate) : Candidate := ⟨c.origin, g c.record⟩

namespace KeepsPlaces
variable {g : Record → Record} (hg : KeepsPlaces g)
include hg

theorem id (r : Record) : (g r).id = r.id := congrArg Rank.id (hg.rank r)

theorem createdAt (r : Record) : (g r).createdAt = r.createdAt :=
  congrArg Rank.createdAt (hg.rank r)

theorem of_whole {r : Record} (hr : r.isStub = false) : g r = r := by
  obtain ⟨e, rfl⟩ := TierMerge.exists_full hr
  exact hg.whole e

theorem precedes (a b : Candidate) :
    (a.exchange g).precedes (b.exchange g) = a.precedes b := by
  rw [Candidate.precedes, Candidate.precedes, Candidate.exchange, Candidate.exchange, hg.rank,
    hg.rank]

end KeepsPlaces

namespace TierMerge
variable {f : Filter} {lookup : EventId → Lookup} {order : Nat → Nat} {limit : Nat}
  {primary secondary : List Record} {g : Record → Record}

/-- A merge with the records exchanged that the secondary tier sends, is ready or was delivered. -/
def exchange (g : Record → Record) (m : TierMerge) : TierMerge :=
  { m with
    secondary := m.secondary.map g
    ready := m.ready.map (Candidate.exchange g)
    delivered := m.delivered.map g }

section
variable (hg : KeepsPlaces g) (m : TierMerge)
include hg

theorem exchange_offer (c : Candidate) :
    (m.offer c).exchange g = (m.exchange g).offer (c.exchange g) := by
  rw [offer, offer, exchange, exchange, Heap.push_map hg.precedes]

/-- Of the local tier whole records alone are made ready, so its stream need not be exchanged. -/
theorem exchange_pull (o : Origin) : (m.pull o).exchange g = (m.exchange g).pull o := by
  cases o with
  | primary =>
    have hprimary : (m.exchange g).primary = m.primary := rfl
    rw [pull, pull, pullPrimary, pullPrimary, hprimary]
    have hhead := List.head?_dropWhile_not Record.isStub m.primary
    cases hdrop : m.primary.dropWhile Record.isStub with
    | nil => rfl
    | cons r rest =>
      rw [hdrop] at hhead
      dsimp only
      rw [exchange_offer hg, Candidate.exchange, hg.of_whole hhead]
      rfl
  | secondary =>
    have hsecondary : (m.exchange g).secondary = m.secondary.map g := rfl
    rw [pull, pull, pullSecondary, pullSecondary, hsecondary]
    cases m.secondary with
    | nil => rfl
    | cons r rest => exact exchange_offer hg _ _
  | lookup => rfl

theorem isWaiting_exchange : (m.exchange g).isWaiting = m.isWaiting := by
  have htop : (m.exchange g).ready.top? = m.ready.top?.map (Candidate.exchange g) :=
    Heap.top?_map _ _
  have hnewest : (m.exchange g).newestPending? = m.newestPending? := rfl
  rw [isWaiting, isWaiting, htop, hnewest]
  cases m.ready.top? with
  | none => rfl
  | some c =>
    simp only [Option.map_some, Option.all_some, Candidate.exchange, hg.rank]

theorem exchange_complete (r : Rank) :
    (m.complete f lookup r).exchange g = (m.exchange g).complete f lookup r := by
  rw [complete, complete]
  cases lookup r.id with
  | found e =>
    dsimp only
    split
    · rw [exchange_offer hg, Candidate.exchange, hg.whole]
      rfl
    · rfl
  | absent => rfl
  | failed => rfl

theorem exchange_deliver (r : Record) :
    (m.deliver r).exchange g = (m.exchange g).deliver (g r) := by
  have hany : (m.exchange g).delivered.any (·.id == (g r).id) = m.delivered.any (·.id == r.id) := by
    show (m.delivered.map g).any (·.id == (g r).id) = _
    rw [List.any_map, hg.id]
    exact congrArg m.delivered.any (funext fun d => by rw [Function.comp, hg.id])
  rw [deliver, deliver, hany]
  split <;> rfl

theorem step?_exchange :
    (m.exchange g).step? f lookup order = (m.step? f lookup order).map (exchange g) := by
  rw [step?, step?, isWaiting_exchange hg]
  split
  · rw [Option.map_map]
    refine congrArg (Option.map · _) (funext fun r => ?_)
    rw [Function.comp, exchange_complete hg]
  · have hpop : (m.exchange g).ready.pop? Candidate.precedes =
        (m.ready.pop? Candidate.precedes).map fun p =>
          (p.1.exchange g, p.2.map (Candidate.exchange g)) := Heap.pop?_map hg.precedes _
    rw [hpop, Option.map_map, Option.map_map]
    refine congrArg (Option.map · _) (funext fun p => ?_)
    dsimp only [Function.comp]
    rw [exchange_deliver hg, exchange_pull hg]
    rfl

theorem exchange_steps (fuel : Nat) : (steps f lookup order limit fuel m).exchange g =
    steps f lookup order limit fuel (m.exchange g) := by
  induction fuel generalizing m with
  | zero => rfl
  | succ fuel ih =>
    have hlength : (m.exchange g).delivered.length = m.delivered.length := List.length_map _
    rw [steps, steps, hlength, step?_exchange hg]
    split
    · rfl
    · cases m.step? f lookup order with
      | none => rfl
      | some m' => exact ih m'

omit m in
/-- **A merge goes by places**: with the records of the secondary tier exchanged it delivers the
same records exchanged. -/
theorem run_exchange (order : Nat → Nat) (limit : Nat) (primary secondary : List Record) :
    run f lookup order limit primary (secondary.map g) =
      (run f lookup order limit primary secondary).exchange g := by
  have hstart : start primary (secondary.map g) = (start primary secondary).exchange g := by
    have hready : Heap.map (Candidate.exchange g) .empty = .empty := Heap.map_empty _
    rw [exchange, start, start, hready]
    rfl
  have hwork : ∀ m : TierMerge, (m.exchange g).work = m.work := by
    intro m
    have hsize : (m.exchange g).ready.size = m.ready.size := Array.size_map
    have hlength : (m.exchange g).secondary.length = m.secondary.length := List.length_map _
    rw [work, work, hsize, hlength]
    rfl
  rw [run, run, hstart, ← exchange_pull hg, ← exchange_pull hg, exchange_steps hg]
  rw [hwork]

end

end TierMerge

/-! ### Known events in place of demoted records -/

namespace Record
variable {es : List Event} {r : Record} {e : Event}

/-- A record is all or what is left of an event. -/
def Shows (r : Record) (e : Event) : Prop := r = .full e ∨ r = .stub e.id e.createdAt

theorem Shows.id (h : r.Shows e) : r.id = e.id := by
  obtain rfl | rfl := h <;> rfl

theorem Shows.createdAt (h : r.Shows e) : r.createdAt = e.createdAt := by
  obtain rfl | rfl := h <;> rfl

/-- The event of a demoted record, if it is known. -/
def known (es : List Event) : Record → Record
  | .full e => .full e
  | .stub i t =>
    match es.find? fun e => Rank.of (.full e) = ⟨t, i⟩ with
    | some e => .full e
    | none => .stub i t

theorem keepsPlaces_known (es : List Event) : KeepsPlaces (known es) where
  rank r := by
    cases r with
    | full e => rfl
    | stub i t =>
      rw [known]
      split
      · rename_i e hfind
        have hplace := List.find?_some hfind
        exact of_decide_eq_true hplace
      · rfl
  whole e := rfl

theorem known_eq (hid : Identified es) (he : e ∈ es) (h : r.Shows e) : known es r = .full e := by
  obtain rfl | rfl := h
  · rfl
  · rw [known]
    split
    · rename_i e' hfind
      have hplace := List.find?_some hfind
      rw [hid e' (List.mem_of_find?_eq_some hfind) e he
        (congrArg Rank.id (of_decide_eq_true hplace))]
    · rename_i hnone
      exact absurd (decide_eq_true rfl) (List.find?_eq_none.mp hnone e he)

end Record

/-- **A stream of known events**, each whole or demoted, newest first and each once. -/
structure Streams (es : List Event) (records : List Record) : Prop where
  known : ∀ r ∈ records, ∃ e ∈ es, r.Shows e
  sorted : records.Pairwise fun a b => b.createdAt ≤ a.createdAt
  ids : (records.map Record.id).Nodup

namespace Streams
variable {es : List Event} {records primary secondary : List Record} {f : Filter}
  {lookup : EventId → Lookup} {e : Event} {r : Record}

theorem take (h : Streams es records) (n : Nat) : Streams es (records.take n) where
  known r hr := h.known r (List.mem_of_mem_take hr)
  sorted := h.sorted.take
  ids := by
    rw [List.map_take]
    exact h.ids.take

/-- What is sent contributes an event that it shows. -/
theorem shows_of_offered (hid : Identified es)
    (hlookup : ∀ i e, lookup i = .found e → e ∈ es ∧ e.id = i) (h : Streams es records)
    (hr : r ∈ records) (he : TierMerge.offered? f lookup r = some e) : e ∈ es ∧ r.Shows e := by
  obtain ⟨e', he', hshows⟩ := h.known r hr
  have hsame : ∀ i, TierMerge.brought? f lookup i = some e → i = e'.id → e = e' ∧ e ∈ es := by
    intro i hbrought hi
    obtain ⟨hmem, hei⟩ := hlookup i e (TierMerge.found_of_brought? hbrought)
    exact ⟨hid e hmem e' he' (hei.trans hi), hmem⟩
  obtain rfl | rfl := id hshows
  · obtain rfl := Option.some.inj he
    exact ⟨he', hshows⟩
  · obtain ⟨rfl, hmem⟩ := hsame _ he rfl
    exact ⟨hmem, hshows⟩

/-- **Streams of known events agree with each other**, with the known events in place of the
demoted records of the secondary tier. -/
theorem consistent (hid : Identified es)
    (hlookup : ∀ i e, lookup i = .found e → e ∈ es ∧ e.id = i) (hprimary : Streams es primary)
    (hsecondary : Streams es secondary) :
    TierMerge.Consistent f lookup primary (secondary.map (Record.known es)) := by
  have hwhole : ∀ r ∈ secondary.map (Record.known es), ∃ e ∈ es, r = .full e := by
    intro r hr
    obtain ⟨sent, hsent, rfl⟩ := List.mem_map.mp hr
    obtain ⟨e, he, hshows⟩ := hsecondary.known sent hsent
    exact ⟨e, he, Record.known_eq hid he hshows⟩
  refine ⟨fun r hr => ?_, fun i e hfound => (hlookup i e hfound).2, fun i t e hstub hfound => ?_,
    fun a ha b hb => ?_⟩
  · obtain ⟨e, -, rfl⟩ := hwhole r hr
    rfl
  · obtain ⟨hmem, hi⟩ := hlookup i e hfound
    obtain ⟨e', he', hshows⟩ := hprimary.known _ hstub
    rw [hid e hmem e' he' (hi.trans hshows.id)]
    exact hshows.createdAt.symm
  · have hknown : ∀ a, a ∈ (primary ++ secondary.map (Record.known es)).filterMap
        (TierMerge.offered? f lookup) → a ∈ es := by
      intro a ha
      obtain ⟨r, hr, har⟩ := List.mem_filterMap.mp ha
      rcases List.mem_append.mp hr with hr | hr
      · exact (shows_of_offered hid hlookup hprimary hr har).1
      · obtain ⟨e, he, rfl⟩ := hwhole r hr
        obtain rfl := Option.some.inj har
        exact he
    exact hid a (hknown a ha) b (hknown b hb)

end Streams
end EventArchive
