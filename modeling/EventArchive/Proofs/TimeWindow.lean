import EventArchive.Proofs.IdLookups

/-! # The window of a query

Events of any time are saved, and the keys hold the first second of 1970 for all times
before it.  A plan for some identifiers looks at the time of every whole record; all
others look at the times in keys alone.  So the end of a window is kept, and so is its
beginning if it is after that second.  Otherwise the keys do not tell the times before
1970 from it, and a filter without identifiers finds them all (`Archive.window_kept`).
-/
namespace EventArchive

/-- **The window of a filter is kept** for an event: it is not after the end of the window, and not
before its beginning either, unless the filter has no identifiers and its window begins no later
than 1970 does. -/
structure Filter.Keeps (f : Filter) (e : Event) : Prop where
  till : ∀ till, f.till = some till → e.createdAt ≤ till
  since : ∀ since, f.since = some since →
    since ≤ e.createdAt ∨ (f.ids = [] ∧ e.createdAt < since ∧ since ≤ 0)

/-- Events that match are in the window. -/
theorem Filter.keeps_of_isMatch {f : Filter} {e : Event} (hmatch : f.isMatch e = true) :
    f.Keeps e := by
  simp only [isMatch, Bool.and_eq_true] at hmatch
  obtain ⟨⟨-, hsince⟩, htill⟩ := hmatch
  refine ⟨fun till hsome => ?_, fun since hsome => .inl ?_⟩
  · rw [hsome] at htill
    exact of_decide_eq_true htill
  · rw [hsome] at hsince
    exact of_decide_eq_true hsince

namespace Plan
variable {f : Filter} {p : Plan} {k : Keyspace} {L : Ledger} {s : Serial} {e : Event}
  {t : UInt64} {hit : Hit} {pageSize : Nat}

/-- What a scan of a plan without identifiers reaches is in the window, as far as its keys tell. -/
theorem keeps_of_reaches (hplan : ofFilter f = .ok p) (hids : f.ids = []) {s : Scan}
    {ser : Serial} (hs : s ∈ p.scans) (hreaches : s.Reaches p.since e ser) : f.Keeps e := by
  have hw := windowed_of_mem_scans hplan hids hs
  obtain ⟨-, hfrom, hto⟩ := hreaches
  rw [hw.till, le_tillOf_iff hw.possible] at hto
  refine ⟨fun till hsome => ?_, fun since hsome => ?_⟩
  · rw [hsome] at hto
    exact of_decide_eq_true hto
  · rw [hw.since, sinceOf, hsome, Option.map_some, Option.getD_some,
      clampTime_le_clampTime_iff] at hfrom
    rcases Int64.lt_or_le e.createdAt since with hlt | hle
    · rcases hfrom with hle | ⟨hearly, -⟩
      · exact .inl hle
      · exact .inr ⟨hids, hlt, hearly⟩
    · exact .inl hle

section
variable (hr : k.Renders L) (hfits : ∀ s h, L s = some h → h.event.Sized)
  (hplan : ofFilter f = .ok p)
include hr hfits hplan

/-- **The whole records that a plan finds** are in the window, as far as it is kept. -/
theorem keeps_of_found (hmem : hit ∈ p.found k pageSize) (hL : L hit.serial = some (.live e t)) :
    f.Keeps e := by
  by_cases hids : f.ids = []
  · obtain ⟨h, -, hL', -, -, s, hs, hreaches⟩ :=
      (mem_found hr hfits fun s hs => timed_of_mem_scans hplan hids hs).mp hmem
    obtain rfl := Option.some.inj (hL'.symm.trans hL)
    exact keeps_of_reaches hplan hids hs hreaches
  · cases hpossible : isImpossible f with
    | true =>
      -- nothing is found in an impossible window
      obtain ⟨⟨s, hs, -⟩, -⟩ := (mem_found_iff_meets hr hfits (uniform_of_ofFilter hplan)).mp hmem
      rw [eq_of_ofFilter hplan, hpossible] at hs
      cases hs
    | false =>
      obtain ⟨h, hL', ⟨e', t', rfl, hmatch, -⟩ | ⟨e', rfl, -⟩⟩ :=
        (mem_found_of_ids hr hfits hplan hids hpossible).mp hmem
      · obtain ⟨rfl, -⟩ := Holding.live.inj (Option.some.inj (hL'.symm.trans hL))
        exact Filter.keeps_of_isMatch hmatch
      · cases hL'.symm.trans hL

/-- **The whole records that a plan counts** are in the window, as far as it is kept. -/
theorem keeps_of_counted (hmem : s ∈ p.scans.flatMap fun x => x.countedSerials k p.residual p.since)
    (hL : L s = some (.live e t)) : f.Keeps e := by
  obtain ⟨hit, hfound, rfl⟩ := exists_found_of_counted hr hfits hplan 1 hmem
  exact keeps_of_found hr hfits hplan hfound hL

end

/-- The serials that a plan counts. -/
def counted (p : Plan) (k : Keyspace) : List Serial :=
  distinct (p.scans.flatMap fun s => s.countedSerials k p.residual p.since)

/-- **A window that begins no later than 1970** has no beginning, if there are no identifiers. -/
theorem ofFilter_of_since_le (hids : f.ids = []) {since : Int64} (hsome : f.since = some since)
    (hearly : since ≤ 0) (hpossible : isImpossible f = false) :
    ofFilter f = ofFilter { f with since := none } := by
  have hclamp : clampTime since = 0 := by
    apply UInt64.toNat_inj.mp
    rw [clampTime_toNat]
    exact Int.toNat_of_nonpos (by simpa [Int64.le_iff_toInt_le] using hearly)
  have hwithout : isImpossible { f with since := none } = false := by
    rw [isImpossible] at hpossible ⊢
    cases htill : f.till with
    | none => rfl
    | some till =>
      rw [htill] at hpossible
      exact (Bool.or_false _).trans (Bool.or_eq_false_iff.mp hpossible).1
  have hchoose : choose f = choose { f with since := none } := by
    simp only [choose, hids, hsome, List.isEmpty_nil, not_true_eq_false, if_false, Option.map_some,
      hclamp, Option.map_none, Option.getD_some, Option.getD_none]
    rfl
  rw [ofFilter, ofFilter, hpossible, hwithout, hchoose]
  rfl

end Plan

namespace Archive

/-- **The window of a query is kept**, whatever times were saved.  On an open archive, a query with
a plan delivers, and its count counts, no whole record that is after the end of the window, and none
that is before its beginning either, unless there are no identifiers and the window begins no later
than 1970 does.  Then the query and the count are those of the filter without a beginning, if its
window is possible. -/
theorem window_kept {es : List Event} {a : Archive} (ha : Reached es a) (hid : Identified es)
    (hfits : ∀ e ∈ es, e.Sized) (hopen : a.isClosed = false) {f : Filter} {plan : Plan}
    (hplan : Plan.ofFilter f = .ok plan) (now : Int64) :
    (∃ reading, (a.query now f false).1 = .ok reading ∧
      ∀ e, .full e ∈ reading.records → f.Keeps e) ∧
    (a.count f false = .ok (plan.counted a.db.events).length ∧
      ∀ s ∈ plan.counted a.db.events, ∀ e, a.db.events.read? s = some (.full e) → f.Keeps e) ∧
    ∀ since ≤ 0, f.ids = [] → f.since = some since → Plan.isImpossible f = false →
      (a.query now f false).1 = (a.query now { f with since := none } false).1 ∧
        a.count f false = a.count { f with since := none } false := by
  obtain ⟨L, J, hf, hmem⟩ := ha.exists_follows hid
  have hr : a.db.events.Renders L := hf.db.events
  have hsized : ∀ s h, L s = some h → h.event.Sized := fun s h hL => hfits _ (hmem s h hL)
  refine ⟨⟨_, query_eq hopen hplan now, fun e hfull => ?_⟩, ⟨count_eq hopen hplan, ?_⟩, ?_⟩
  · obtain ⟨hit, hhit, hrecord⟩ := List.mem_map.mp hfull
    have hfound : hit ∈ plan.found a.db.events a.config.scanPageSize.toNat :=
      List.mem_of_mem_take hhit
    obtain ⟨t, hL⟩ := live_of_feed hr hsized (feed_eq hopen hplan) hhit hrecord
    exact Plan.keeps_of_found hr hsized hplan hfound hL
  · intro s hs e hread
    obtain ⟨t, hL⟩ := (hr.read?_eq_full_iff hsized).mp hread
    exact Plan.keeps_of_counted hr hsized hplan (mem_distinct.mp hs) hL
  · intro since hearly hids hsome hpossible
    have hsame := Plan.ofFilter_of_since_le hids hsome hearly hpossible
    have hplan' := hsame.symm.trans hplan
    rw [query_eq hopen hplan, query_eq hopen hplan', count_eq hopen hplan, count_eq hopen hplan']
    exact ⟨rfl, rfl⟩

/-- A note of the time −10 is delivered and counted for a window that begins with 1970, although the
same window leaves it out if it is asked for by its identifier. -/
theorem window_kept_unless_early :
    let e : Event := .uniform 1 7 (-10) 1 []
    let a := fresh.saveAll 5 [e]
    let f := (Filter.any.withKinds [⟨1⟩]).withSince 0
    let g := (Filter.any.withIds [e.id]).withSince 0
    Reached [e] a ∧ Identified [e] ∧ (Plan.ofFilter f).toOption = some (Plan.choose f) ∧
      f.since = some 0 ∧ e.createdAt < 0 ∧
      (a.query 6 f false).1.toOption.map (·.records) = some [.full e] ∧
      (a.count f false).toOption = some 1 ∧
      (a.query 6 g false).1.toOption.map (·.records) = some [] := by
  intro e a f g
  exact ⟨Reached.fresh.saveAll 5 [e], by decide +kernel, by decide +kernel, rfl,
    by decide +kernel, by decide +kernel, by decide +kernel, by decide +kernel⟩

/-- There are notes of the times −10, −3, 0, 20 and 40.  In a window from 1 to 30 there is only that
of the time 20; from −5 to 30 all but the last are counted, as they are without a beginning. -/
theorem window_kept_notes :
    let es : List Event := [.uniform 1 7 (-10) 1 [], .uniform 2 7 (-3) 1 [], .uniform 3 7 0 1 [],
      .uniform 4 7 20 1 [], .uniform 5 7 40 1 []]
    let a := fresh.saveAll 5 es
    let f := ((Filter.any.withKinds [⟨1⟩]).withSince 1).withTill 30
    let g := ((Filter.any.withKinds [⟨1⟩]).withSince (-5)).withTill 30
    ∃ reading, (a.query 6 f false).1 = .ok reading ∧
      reading.records = [.full (.uniform 4 7 20 1 [])] ∧
      (∀ e, .full e ∈ reading.records → f.Keeps e) ∧
      (a.count g false).toOption = some 4 ∧
      a.count g false = a.count { g with since := none } false := by
  intro es a f g
  have ha : Reached es a := Reached.fresh.saveAll 5 es
  have hid : Identified es := by decide +kernel
  have hfits : ∀ e ∈ es, e.Sized := by decide +kernel
  have hplan : Plan.ofFilter f = .ok (Plan.choose f) := rfl
  have hplan' : Plan.ofFilter g = .ok (Plan.choose g) := rfl
  obtain ⟨⟨reading, hquery, hkeeps⟩, -, -⟩ :=
    window_kept ha hid hfits (by decide +kernel) hplan 6
  obtain ⟨-, -, hearly⟩ := window_kept ha hid hfits (by decide +kernel) hplan' 6
  obtain ⟨-, hcount⟩ := hearly (-5) (by decide +kernel) rfl rfl (by decide +kernel)
  have hread : (a.query 6 f false).1.toOption.map (·.records) =
      some [.full (.uniform 4 7 20 1 [])] := by decide +kernel
  rw [hquery] at hread
  exact ⟨reading, hquery, Option.some.inj hread, hkeeps, by decide +kernel, hcount⟩

end Archive
end EventArchive
