import EventArchive.Proofs.Plans
import EventArchive.Proofs.QueryHits

/-! # What a plan meets

Every scan of a plan looks at keys of one index, and the key leads to what is held
under its serial.  So a plan delivers the record of a serial if one of its scans
meets a key of it and the record passes the rest of the filter
(`Plan.mem_found_iff_meets`), and counts it under the same condition.  This is so for
every plan, also for one of identifiers, whose keys hold no time.
-/
namespace EventArchive

/-! ### What a key leads to -/

namespace Holding

variable {h : Holding} {residual : Option Filter} {time : Option UInt64} {s : Serial} {hit : Hit}

theorem hit?_cases (hhit : h.hit? residual time s = some hit) :
    (∃ e t, h = live e t ∧ residual.all (·.isMatch e) = true ∧
        hit = ⟨s, e.createdAt, .full e⟩) ∨
      ∃ e createdAt, h = demoted e ∧ createdAt = (time.map timeOfClamped).getD 0 ∧
        hit = ⟨s, createdAt, .stub e.id createdAt⟩ := by
  cases h with
  | live e t =>
    obtain ⟨hpass, hhit⟩ := Option.ite_none_right_eq_some.mp hhit
    exact .inl ⟨e, t, rfl, hpass, (Option.some.inj hhit).symm⟩
  | demoted e =>
    obtain ⟨-, hhit⟩ := Option.ite_none_right_eq_some.mp hhit
    exact .inr ⟨e, _, rfl, rfl, (Option.some.inj hhit).symm⟩
  | queued e => cases hhit

theorem serial_of_hit? (hhit : h.hit? residual time s = some hit) : hit.serial = s := by
  obtain ⟨e, t, rfl, -, rfl⟩ | ⟨e, _, rfl, -, rfl⟩ := hit?_cases hhit <;> rfl

theorem isSome_stub?_of_hit? (hhit : h.hit? residual time s = some hit) : h.stub?.isSome := by
  obtain ⟨e, t, rfl, -, rfl⟩ | ⟨e, _, rfl, -, rfl⟩ := hit?_cases hhit <;> rfl

theorem id_of_hit? (hhit : h.hit? residual time s = some hit) : hit.record.id = h.event.id := by
  obtain ⟨e, t, rfl, -, rfl⟩ | ⟨e, _, rfl, -, rfl⟩ := hit?_cases hhit <;> rfl

end Holding

namespace Scan
variable {s : Scan} {k : Keyspace} {L : Ledger} {residual : Option Filter} {ser : Serial}
  {key : Bytes}

/-- A scan of the keys of one index. -/
def Indexed (s : Scan) : Prop := ∃ l, Key.layout? s.stem = some l ∧ l.isSecondary = true

theorem Timed.indexed (hs : s.Timed) : s.Indexed := by
  obtain ⟨l, hl, hsec, -⟩ := hs.layout
  exact ⟨l, hl, hsec⟩

/-- The keys that a scan looks at are keys of its index. -/
theorem Indexed.layout? (hs : s.Indexed) (hmem : key ∈ s.keysBelow k s.upper) :
    ∃ l, Key.layout? key = some l ∧ l.isSecondary = true ∧ Key.layout? s.stem = some l := by
  obtain ⟨l, hl, hsec⟩ := hs
  obtain ⟨r, rfl⟩ := exists_append_of_mem_keysBelow hmem
  refine ⟨l, ?_, hsec, hl⟩
  cases hstem : s.stem with
  | nil =>
    rw [hstem] at hl
    cases hl
  | cons b rest =>
    rw [hstem] at hl
    exact hl

/-- A key that a scan looks at is one of what is held under its serial. -/
theorem Indexed.exists_holding (hs : s.Indexed) (hr : k.Renders L)
    (hmem : key ∈ s.keysBelow k s.upper) :
    ∃ ser h, L ser = some h ∧ Key.serial? key = some ser ∧ key ∈ h.keys ser := by
  obtain ⟨l, hl, hsec, -⟩ := hs.layout? hmem
  obtain ⟨⟨v, hv⟩, -⟩ := mem_keysBelow.mp hmem
  exact hr.exists_mem_keys hv hl hsec

/-- The time in a key is that of the event, unless the keys of the scan hold none. -/
theorem timeOf_eq {h : Holding} (hs : s.Timed ∨ s.untimed = true)
    (hmem : key ∈ s.keysBelow k s.upper) (hkey : key ∈ h.keys ser) :
    s.timeOf key = if s.untimed then none else some (clampTime h.event.createdAt) := by
  rw [timeOf]
  rcases hs with hs | hs
  · obtain ⟨l, hl, -, hstem⟩ := hs.indexed.layout? hmem
    obtain ⟨l', hl', -, hne⟩ := hs.layout
    obtain rfl := Option.some.inj (hstem.symm.trans hl')
    obtain ⟨stem, rfl⟩ := Key.exists_timed_of_mem_index (Holding.mem_index_of_mem_keys hkey)
      (by rw [hl]; exact fun h => hne (Option.some.inj h))
    rw [Key.timestamp?_timed, Option.getD_some]
  · rw [if_pos hs, if_pos hs]

/-- The keys that a scan goes through before it leaves the window. -/
def keysMet (s : Scan) (k : Keyspace) (since : UInt64) : List Bytes :=
  (s.keysBelow k s.upper).takeWhile (!s.isPast since ·)

theorem mem_keysBelow_of_mem_keysMet {since : UInt64} (hkey : key ∈ s.keysMet k since) :
    key ∈ s.keysBelow k s.upper :=
  (List.takeWhile_sublist _).subset hkey

end Scan

/-! ### The scans of a plan -/

namespace Plan
variable {f : Filter} {p : Plan} {k : Keyspace} {L : Ledger} {ser : Serial} {hit : Hit}
  {pageSize : Nat}

theorem mem_idScans {s : Scan} :
    s ∈ idScans f ↔ ∃ i ∈ f.ids, s = ⟨.id, Key.idStem i, true, maxUInt64⟩ := by
  rw [idScans, mem_distinct, List.mem_map]
  simp [eq_comm]

/-- A plan whose scans are all of one kind: either their keys hold a time, or none of them do. -/
structure Uniform (p : Plan) : Prop where
  indexed : ∀ s ∈ p.scans, s.Indexed
  times : (∀ s ∈ p.scans, s.Timed) ∨ ∀ s ∈ p.scans, s.untimed = true

theorem Uniform.of_timed (h : ∀ s ∈ p.scans, s.Timed) : p.Uniform :=
  ⟨fun s hs => (h s hs).indexed, .inl h⟩

/-- **Every plan is uniform.** -/
theorem uniform_of_ofFilter (hplan : ofFilter f = .ok p) : p.Uniform := by
  by_cases hids : f.ids = []
  · exact .of_timed fun s hs => timed_of_mem_scans hplan hids hs
  · rw [eq_of_ofFilter hplan]
    split
    · exact .of_timed nofun
    · have hscans : (choose f).scans = idScans f := by simp [choose, hids]
      refine ⟨fun s hs => ?_, .inr fun s hs => ?_⟩
      · rw [hscans] at hs
        obtain ⟨i, -, rfl⟩ := mem_idScans.mp hs
        exact ⟨.id, Key.idStem_eq i ▸ Key.layout?_cons _ _, rfl⟩
      · rw [hscans] at hs
        obtain ⟨i, -, rfl⟩ := mem_idScans.mp hs
        rfl

/-- The time that the keys of a plan hold of an event. -/
def timeFor (p : Plan) (e : Event) : Option UInt64 :=
  if p.scans.any (·.untimed) then none else some (clampTime e.createdAt)

theorem timeOf_eq_timeFor {s : Scan} {key : Bytes} {h : Holding} (hp : p.Uniform)
    (hs : s ∈ p.scans) (hmem : key ∈ s.keysBelow k s.upper) (hkey : key ∈ h.keys ser) :
    s.timeOf key = p.timeFor h.event := by
  rw [timeFor]
  rcases hp.times with htimed | huntimed
  · rw [Scan.timeOf_eq (.inl (htimed s hs)) hmem hkey, (htimed s hs).untimed, if_neg, if_neg]
    · rw [List.any_eq_true]
      rintro ⟨s', hs', huntimed⟩
      rw [(htimed s' hs').untimed] at huntimed
      cases huntimed
    · exact Bool.false_ne_true
  · rw [Scan.timeOf_eq (.inr (huntimed s hs)) hmem hkey, if_pos (huntimed s hs), if_pos]
    exact List.any_eq_true.mpr ⟨s, hs, huntimed s hs⟩

/-- A scan of a plan goes through a key of a serial. -/
def Meets (p : Plan) (k : Keyspace) (ser : Serial) : Prop :=
  ∃ s ∈ p.scans, ∃ key ∈ s.keysMet k p.since, s.owns key = true ∧ Key.serial? key = some ser

section
variable (hr : k.Renders L) (hfits : ∀ ser h, L ser = some h → h.event.Sized) (hp : p.Uniform)
include hr hfits hp

/-- What a plan makes of a key that one of its scans goes through. -/
theorem resolve_eq_of_mem {s : Scan} {key : Bytes} (hs : s ∈ p.scans)
    (hkey : key ∈ s.keysMet k p.since) (hser : Key.serial? key = some ser) :
    ∃ h, L ser = some h ∧ Scan.resolve k p.residual (s.timeOf key) key =
      h.hit? p.residual (p.timeFor h.event) ser := by
  have hbelow := Scan.mem_keysBelow_of_mem_keysMet hkey
  obtain ⟨ser', h, hL, hser', hkeys⟩ := (hp.indexed s hs).exists_holding hr hbelow
  obtain rfl := Option.some.inj (hser.symm.trans hser')
  refine ⟨h, hL, ?_⟩
  rw [timeOf_eq_timeFor hp hs hbelow hkeys, Scan.resolve_eq_hit? hr hL (hfits _ h hL) hser]

/-- The hits of the scans are those of the serials that they meet. -/
theorem mem_flatten_iff_meets :
    hit ∈ (p.scans.map fun s => s.hits k p.residual p.since pageSize).flatten ↔
      p.Meets k hit.serial ∧ ∃ h, L hit.serial = some h ∧
        h.hit? p.residual (p.timeFor h.event) hit.serial = some hit := by
  rw [List.mem_flatten]
  constructor
  · rintro ⟨l, hl, hmem⟩
    obtain ⟨s, hs, rfl⟩ := List.mem_map.mp hl
    rw [Scan.hits_eq_onePass] at hmem
    obtain ⟨key, hkey, hhit⟩ := List.mem_filterMap.mp hmem
    have howns := Scan.owns_of_hit? hhit
    obtain ⟨ser, -, -, hser, -⟩ :=
      (hp.indexed s hs).exists_holding hr (Scan.mem_keysBelow_of_mem_keysMet hkey)
    obtain ⟨h, hL, hresolve⟩ := resolve_eq_of_mem hr hfits hp hs hkey hser
    rw [Scan.hit?, if_pos howns, hresolve] at hhit
    obtain rfl := Holding.serial_of_hit? hhit
    exact ⟨⟨s, hs, key, hkey, howns, hser⟩, h, hL, hhit⟩
  · rintro ⟨⟨s, hs, key, hkey, howns, hser⟩, h, hL, hhit⟩
    refine ⟨_, List.mem_map_of_mem hs, ?_⟩
    rw [Scan.hits_eq_onePass]
    refine List.mem_filterMap.mpr ⟨key, hkey, ?_⟩
    obtain ⟨h', hL', hresolve⟩ := resolve_eq_of_mem hr hfits hp hs hkey hser
    obtain rfl := Option.some.inj (hL.symm.trans hL')
    rw [Scan.hit?, if_pos howns, hresolve, hhit]

/-- **What a plan finds** are the records of the serials that it meets, as far as they pass the
rest of the filter. -/
theorem mem_found_iff_meets : hit ∈ p.found k pageSize ↔
    p.Meets k hit.serial ∧ ∃ h, L hit.serial = some h ∧
      h.hit? p.residual (p.timeFor h.event) hit.serial = some hit := by
  rw [found, Merge.mem_all, mem_flatten_iff_meets hr hfits hp]
  intro a ha b hb heq
  obtain ⟨-, h, hL, hhit⟩ := (mem_flatten_iff_meets hr hfits hp).mp ha
  obtain ⟨-, h', hL', hhit'⟩ := (mem_flatten_iff_meets hr hfits hp).mp hb
  -- the record of a serial is the same whichever key leads to it
  rw [heq] at hL hhit
  obtain rfl := Option.some.inj (hL.symm.trans hL')
  exact Option.some.inj (hhit.symm.trans hhit')

/-- **What a plan counts** are the serials that it meets, and if something is left to be checked
those of them whose record passes. -/
theorem mem_counted_iff_meets :
    ser ∈ p.scans.flatMap (fun s => s.countedSerials k p.residual p.since) ↔
      p.Meets k ser ∧ (p.residual = none ∨ ∃ h hit, L ser = some h ∧
        h.hit? p.residual (p.timeFor h.event) ser = some hit) := by
  rw [List.mem_flatMap]
  constructor
  · rintro ⟨s, hs, hmem⟩
    obtain ⟨key, hkey, hcounted⟩ := List.mem_filterMap.mp hmem
    obtain ⟨howns, hcounted⟩ := Option.ite_none_right_eq_some.mp hcounted
    obtain ⟨ser', -, -, hser, -⟩ :=
      (hp.indexed s hs).exists_holding hr (Scan.mem_keysBelow_of_mem_keysMet hkey)
    split at hcounted
    · rename_i hnone
      exact ⟨⟨s, hs, key, hkey, howns, hcounted⟩, .inl (Option.isNone_iff_eq_none.mp hnone)⟩
    · obtain ⟨h, hL, hresolve⟩ := resolve_eq_of_mem hr hfits hp hs hkey hser
      rw [hresolve] at hcounted
      obtain ⟨hit, hhit, rfl⟩ := Option.map_eq_some_iff.mp hcounted
      obtain rfl := Holding.serial_of_hit? hhit
      exact ⟨⟨s, hs, key, hkey, howns, hser⟩, .inr ⟨h, hit, hL, hhit⟩⟩
  · rintro ⟨⟨s, hs, key, hkey, howns, hser⟩, hpass⟩
    refine ⟨s, hs, List.mem_filterMap.mpr ⟨key, hkey, ?_⟩⟩
    rw [Scan.counted?, if_pos howns]
    split
    · exact hser
    · rename_i hsome
      rcases hpass with hnone | ⟨h, hit, hL, hhit⟩
      · rw [hnone] at hsome
        exact absurd rfl hsome
      · obtain ⟨h', hL', hresolve⟩ := resolve_eq_of_mem hr hfits hp hs hkey hser
        obtain rfl := Option.some.inj (hL.symm.trans hL')
        rw [hresolve, hhit, Option.map_some, Holding.serial_of_hit? hhit]

end
end Plan
end EventArchive
