import EventArchive.Proofs.TierGather

/-! # The lookups of a merge

A demoted record that the local tier sends has still to be looked up
(`TierMerge.LooksUp`) until its lookup completes.  Of the lookups that have
completed, a merge collects the events that they found, and counts those that
failed.  Everything that is ready or delivered was sent by one of the tiers or
fetched (`TierMerge.Tracks`).

A run that ends because the limit is reached leaves lookups that have not
completed.  If the limit is not reached, all have (`completed_of_room`), whatever
the two streams send.  So what a lookup finds is fetched for certain then
(`fetched_of_room`), if something was delivered for which the merge had to wait
for it (`fetched_of_older`), and if the event was delivered and no tier sent it
(`Tracks.fetched_of_not_sent`).
-/
namespace EventArchive.TierMerge
variable {f : Filter} {lookup : EventId → Lookup} {m m' : TierMerge} {order : Nat → Nat}
  {limit : Nat} {primary secondary : List Record} {e : Event} {r : Record} {o : Origin}

/-- A demoted record of a place is still to be looked up, or its lookup is under way. -/
def LooksUp (m : TierMerge) (place : Rank) : Prop :=
  (∃ r ∈ m.primary, r.isStub = true ∧ Rank.of r = place) ∨ place ∈ m.pending

/-- A record is ready or has been delivered. -/
def Offers (m : TierMerge) (r : Record) : Prop :=
  (∃ c ∈ m.ready.toList, c.record = r) ∨ r ∈ m.delivered

/-- **Where things are along a merge of two streams**: a demoted record of the local stream is still
to be looked up, or its lookup has completed; what lookups found that have completed is fetched, and
those that failed are counted; what is ready or delivered was sent or fetched. -/
structure Tracks (lookup : EventId → Lookup) (primary secondary : List Record) (m : TierMerge) :
    Prop where
  ofPrimary : ∀ r ∈ m.primary, r ∈ primary
  ofSecondary : ∀ r ∈ m.secondary, r ∈ secondary
  sources : ∀ r, m.Offers r →
    r ∈ primary ∧ r.isStub = false ∨ r ∈ secondary ∨ ∃ e ∈ m.fetched, r = .full e
  looksUp : ∀ place, m.LooksUp place ∨ place ∈ m.completed →
    ∃ r ∈ primary, r.isStub = true ∧ Rank.of r = place
  settled : ∀ r ∈ primary, r.isStub = true → m.LooksUp (Rank.of r) ∨ Rank.of r ∈ m.completed
  fetches : ∀ e, e ∈ m.fetched ↔ ∃ place ∈ m.completed, lookup place.id = .found e
  counts : m.failed = m.completed.countP fun place => lookup place.id = .failed

/-! ### Steps -/

/-- Reading on in a stream takes nothing from elsewhere. -/
theorem stream_pull_sublist (m : TierMerge) (o o' : Origin) :
    ((m.pull o).stream o').Sublist (m.stream o') := by
  obtain ⟨demoted, -, -, ⟨hstream, heq⟩ | ⟨r, rest, hstream, -, heq⟩⟩ := m.pull_cases o
  · rw [heq]
    exact stream_withStream_sublist (List.nil_sublist _) o'
  · rw [heq, stream_offer]
    exact stream_withStream_sublist
      (sublist_stream_lookUp hstream (List.sublist_cons_self r rest)) o'

/-- To look up the demoted records in front of the local stream only moves them. -/
theorem looksUp_lookUp {demoted rest rest' : List Record} {place : Rank}
    (hdemoted : ∀ r ∈ demoted, r.isStub = true) (hprimary : m.primary = demoted ++ rest)
    (hrest : (∃ r ∈ rest, r.isStub = true ∧ Rank.of r = place) ↔
      ∃ r ∈ rest', r.isStub = true ∧ Rank.of r = place) :
    ((m.lookUp demoted).withStream rest' .primary).LooksUp place ↔ m.LooksUp place := by
  have hfront : (∃ r ∈ demoted, r.isStub = true ∧ Rank.of r = place) ↔
      place ∈ demoted.map Rank.of := by
    rw [List.mem_map]
    refine exists_congr fun r => and_congr_right fun hr => ?_
    rw [hdemoted r hr, eq_self, true_and]
  have hsplit : (∃ r ∈ demoted ++ rest, r.isStub = true ∧ Rank.of r = place) ↔
      place ∈ demoted.map Rank.of ∨ ∃ r ∈ rest', r.isStub = true ∧ Rank.of r = place := by
    simp only [List.mem_append, or_and_right, exists_or, hfront, hrest]
  rw [LooksUp, LooksUp, hprimary, hsplit, pending_withStream]
  refine (or_congr_right mem_launched).trans ?_
  exact (or_assoc.symm.trans or_comm).trans or_assoc.symm

/-- Reading on only moves what is to be looked up. -/
theorem looksUp_pull (m : TierMerge) (o : Origin) (place : Rank) :
    (m.pull o).LooksUp place ↔ m.LooksUp place := by
  cases o with
  | primary =>
    obtain ⟨demoted, hdemoted, -, ⟨hstream, heq⟩ | ⟨r, rest, hstream, hr, heq⟩⟩ :=
      m.pull_cases .primary
    · rw [heq]
      exact looksUp_lookUp hdemoted (hstream.trans (List.append_nil _).symm) Iff.rfl
    · have hwhole : r.isStub = false := hr.resolve_left nofun
      have hrest : (∃ x ∈ r :: rest, x.isStub = true ∧ Rank.of x = place) ↔
          ∃ x ∈ rest, x.isStub = true ∧ Rank.of x = place := by simp [hwhole]
      rw [heq]
      exact looksUp_lookUp hdemoted hstream hrest
  | secondary =>
    rw [pull, pullSecondary]
    split
    · exact Iff.rfl
    · exact Iff.rfl
  | lookup => exact Iff.rfl

/-- Reading on completes no lookup. -/
theorem pull_lookups (m : TierMerge) (o : Origin) : (m.pull o).completed = m.completed ∧
    (m.pull o).fetched = m.fetched ∧ (m.pull o).failed = m.failed := by
  obtain ⟨_, -, -, ⟨-, heq⟩ | ⟨_, _, -, -, heq⟩⟩ := m.pull_cases o
  · rw [heq]
    cases o <;> exact ⟨rfl, rfl, rfl⟩
  · rw [heq]
    cases o <;> exact ⟨rfl, rfl, rfl⟩

theorem looksUp_deliver {place : Rank} : (m.deliver r).LooksUp place ↔ m.LooksUp place := by
  rcases m.deliver_cases r with ⟨-, heq⟩ | ⟨-, heq⟩
  · rw [heq]
  · rw [heq]
    exact Iff.rfl

theorem mem_deliver {d : Record} (hd : d ∈ (m.deliver r).delivered) : d = r ∨ d ∈ m.delivered := by
  rcases m.deliver_cases r with ⟨-, heq⟩ | ⟨-, heq⟩
  · rw [heq] at hd
    exact .inr hd
  · rw [heq] at hd
    exact List.mem_cons.mp hd

/-- What reading on makes ready was sent. -/
theorem Offers.of_pull (h : (m.pull o).Offers r) : m.Offers r ∨ r ∈ m.secondary ∨
    r ∈ m.primary ∧ r.isStub = false := by
  rcases h with ⟨c, hc, rfl⟩ | hr
  · obtain ⟨demoted, -, -, ⟨hstream, heq⟩ | ⟨x, rest, hstream, hx, heq⟩⟩ := m.pull_cases o
    · rw [heq, ready_withStream] at hc
      exact .inl (.inl ⟨c, hc, rfl⟩)
    · rw [heq, mem_ready_offer, ready_withStream] at hc
      rcases hc with rfl | hc
      · have hmem : x ∈ m.stream o := hstream ▸ List.mem_append_right _ List.mem_cons_self
        cases o with
        | primary => exact .inr (.inr ⟨hmem, hx.resolve_left nofun⟩)
        | secondary => exact .inr (.inl hmem)
        | lookup => cases hmem
      · exact .inl (.inl ⟨c, hc, rfl⟩)
  · rw [pull_delivered] at hr
    exact .inl (.inr hr)

theorem pending_complete (m : TierMerge) (place : Rank) :
    (m.complete f lookup place).pending = m.pending.erase place := by
  obtain ⟨_, _, ⟨-, heq⟩ | ⟨_, -, heq⟩⟩ := m.complete_cases f lookup place
  · rw [heq]
  · rw [heq, pending_offer]

theorem completed_complete (m : TierMerge) (place : Rank) :
    (m.complete f lookup place).completed = place :: m.completed := by
  obtain ⟨_, _, ⟨-, heq⟩ | ⟨_, -, heq⟩⟩ := m.complete_cases f lookup place
  · rw [heq]
  · rw [heq]
    rfl

/-- Completing a lookup fetches what it finds. -/
theorem mem_fetched_complete {place : Rank} :
    e ∈ (m.complete f lookup place).fetched ↔ e ∈ m.fetched ∨ lookup place.id = .found e := by
  rw [complete]
  cases lookup place.id with
  | found e' =>
    dsimp only
    split <;> simp [offer, eq_comm]
  | absent => simp
  | failed => simp

/-- Completing a lookup counts it if it fails. -/
theorem failed_complete (m : TierMerge) (place : Rank) : (m.complete f lookup place).failed =
    m.failed + if lookup place.id = .failed then 1 else 0 := by
  rw [complete]
  cases lookup place.id with
  | found e =>
    dsimp only
    split <;> rfl
  | absent => rfl
  | failed => rfl

theorem LooksUp.of_complete {place x : Rank} (h : (m.complete f lookup place).LooksUp x) :
    m.LooksUp x := by
  have hprimary : (m.complete f lookup place).primary = m.primary :=
    m.stream_complete place .primary
  rw [LooksUp, hprimary, pending_complete] at h
  exact h.imp_right List.mem_of_mem_erase

/-- Completing a lookup leaves the others. -/
theorem LooksUp.complete {place x : Rank} (h : m.LooksUp x) (hne : x ≠ place) :
    (m.complete f lookup place).LooksUp x := by
  have hprimary : (m.complete f lookup place).primary = m.primary :=
    m.stream_complete place .primary
  rw [LooksUp, hprimary, pending_complete]
  exact h.imp_right (List.mem_erase_of_ne hne).mpr

/-- What completing a lookup makes ready, the lookup found. -/
theorem Offers.of_complete {place : Rank} (h : (m.complete f lookup place).Offers r) :
    m.Offers r ∨ ∃ e, lookup place.id = .found e ∧ r = .full e := by
  rw [Offers, complete_delivered] at h
  obtain ⟨_, _, ⟨-, heq⟩ | ⟨e, hbrought, heq⟩⟩ := m.complete_cases f lookup place
  · rw [heq] at h
    exact .inl h
  · rw [heq] at h
    rcases h with ⟨c, hc, rfl⟩ | hr
    · rcases mem_ready_offer.mp hc with rfl | hc
      · exact .inr ⟨e, found_of_brought? hbrought, rfl⟩
      · exact .inl (.inl ⟨c, hc, rfl⟩)
    · exact .inl (.inr hr)

namespace Tracks

theorem start : Tracks lookup primary secondary (start primary secondary) where
  ofPrimary _ := id
  ofSecondary _ := id
  sources := by
    rintro r (⟨c, hc, -⟩ | hr)
    · cases hc
    · cases hr
  looksUp := by
    rintro place ((h | h) | h)
    · exact h
    · cases h
    · cases h
  settled r hr hstub := .inl (.inl ⟨r, hr, hstub, rfl⟩)
  fetches e := ⟨nofun, nofun⟩
  counts := rfl

variable (h : m.Tracks lookup primary secondary)
include h

theorem pull (o : Origin) : (m.pull o).Tracks lookup primary secondary := by
  obtain ⟨hcompleted, hfetched, hfailed⟩ := m.pull_lookups o
  refine ⟨fun r hr => h.ofPrimary r ((m.stream_pull_sublist o .primary).subset hr),
    fun r hr => h.ofSecondary r ((m.stream_pull_sublist o .secondary).subset hr), fun r hr => ?_,
    fun place hplace => ?_, fun r hr hstub => ?_, ?_, ?_⟩
  · rw [hfetched]
    rcases hr.of_pull with hr | hr | ⟨hr, hwhole⟩
    · exact h.sources r hr
    · exact .inr (.inl (h.ofSecondary r hr))
    · exact .inl ⟨h.ofPrimary r hr, hwhole⟩
  · rw [hcompleted, looksUp_pull] at hplace
    exact h.looksUp place hplace
  · rw [hcompleted, looksUp_pull]
    exact h.settled r hr hstub
  · rw [hcompleted, hfetched]
    exact h.fetches
  · rw [hcompleted, hfailed]
    exact h.counts

/-- What is taken may be delivered. -/
theorem deliver {ready : Heap Candidate} {c : Candidate}
    (hpop : m.ready.pop? Candidate.precedes = some (c, ready)) (o : Origin) :
    ((TierMerge.pull { m with ready := ready } o).deliver c.record).Tracks lookup primary
      secondary := by
  have htaken : Tracks lookup primary secondary { m with ready := ready } := by
    refine ⟨h.ofPrimary, h.ofSecondary, fun r hr => h.sources r ?_, h.looksUp, h.settled,
      h.fetches, h.counts⟩
    refine hr.imp_left ?_
    rintro ⟨x, hx, rfl⟩
    exact ⟨x, (mem_ready_iff hpop).mpr (.inr hx), rfl⟩
  have hpulled := htaken.pull o
  rcases (TierMerge.pull { m with ready := ready } o).deliver_cases c.record with
    ⟨-, heq⟩ | ⟨-, heq⟩
  · rwa [heq]
  · rw [heq]
    refine ⟨hpulled.ofPrimary, hpulled.ofSecondary, fun r hr => ?_, hpulled.looksUp,
      hpulled.settled, hpulled.fetches, hpulled.counts⟩
    rcases hr with hr | hr
    · exact hpulled.sources r (.inl hr)
    · rcases List.mem_cons.mp hr with rfl | hr
      · -- taking and reading on fetch nothing
        have hsource := h.sources c.record (.inl ⟨c, (mem_ready_iff hpop).mpr (.inl rfl), rfl⟩)
        rwa [← (TierMerge.pull_lookups { m with ready := ready } o).2.1] at hsource
      · exact hpulled.sources r (.inr hr)

/-- What a lookup found that has completed is fetched, and it is counted if it failed. -/
theorem complete {place : Rank} (hplace : place ∈ m.pending) :
    (m.complete f lookup place).Tracks lookup primary secondary := by
  have hprimary : (m.complete f lookup place).primary = m.primary :=
    m.stream_complete place .primary
  have hsecondary : (m.complete f lookup place).secondary = m.secondary :=
    m.stream_complete place .secondary
  refine ⟨hprimary ▸ h.ofPrimary, hsecondary ▸ h.ofSecondary, fun r hr => ?_, fun x hx => ?_,
    fun r hr hstub => ?_, fun e => ?_, ?_⟩
  · rcases hr.of_complete with hr | ⟨e, hfound, rfl⟩
    · refine (h.sources r hr).imp_right (Or.imp_right ?_)
      rintro ⟨e, he, rfl⟩
      exact ⟨e, mem_fetched_complete.mpr (.inl he), rfl⟩
    · exact .inr (.inr ⟨e, mem_fetched_complete.mpr (.inr hfound), rfl⟩)
  · rw [completed_complete, List.mem_cons] at hx
    rcases hx with hx | rfl | hx
    · exact h.looksUp x (.inl hx.of_complete)
    · exact h.looksUp x (.inl (.inr hplace))
    · exact h.looksUp x (.inr hx)
  · rw [completed_complete, List.mem_cons]
    by_cases hsame : Rank.of r = place
    · exact .inr (.inl hsame)
    · exact (h.settled r hr hstub).imp (·.complete hsame) .inr
  · rw [mem_fetched_complete, h.fetches, completed_complete, List.exists_mem_cons_iff, or_comm]
  · rw [failed_complete, completed_complete, List.countP_cons, h.counts]
    simp only [decide_eq_true_eq]

/-- **A step** loses track of nothing. -/
theorem step (hstep : m.step? f lookup order = some m') :
    m'.Tracks lookup primary secondary := by
  obtain ⟨place, hplace, rfl⟩ | ⟨c, ready, -, hpop, rfl⟩ := step?_cases hstep
  · exact h.complete hplace
  · exact h.deliver hpop c.origin

/-- What has been fetched, the lookup of a demoted record found. -/
theorem fetched : ∀ e ∈ m.fetched, ∃ r ∈ primary, r.isStub = true ∧ lookup r.id = .found e := by
  intro e he
  obtain ⟨place, hplace, hfound⟩ := (h.fetches e).mp he
  obtain ⟨r, hr, hstub, rfl⟩ := h.looksUp place (.inr hplace)
  exact ⟨r, hr, hstub, hfound⟩

/-- An event that is delivered and that no tier sent has been fetched. -/
theorem fetched_of_not_sent (he : .full e ∈ m.delivered) (hprimary : .full e ∉ primary)
    (hsecondary : .full e ∉ secondary) : e ∈ m.fetched := by
  obtain ⟨hsent, -⟩ | hsent | ⟨e', hfetched, heq⟩ := h.sources _ (.inr he)
  · exact absurd hsent hprimary
  · exact absurd hsent hsecondary
  · obtain rfl := Record.full.inj heq
    exact hfetched

/-- **A demoted record that is delivered is one that the secondary tier sends.** -/
theorem mem_secondary_of_delivered (hstub : r.isStub = true) (hr : r ∈ m.delivered) :
    r ∈ secondary := by
  obtain ⟨-, hwhole⟩ | hsent | ⟨e, -, rfl⟩ := h.sources _ (.inr hr)
  · rw [hstub] at hwhole
    cases hwhole
  · exact hsent
  · cases hstub

end Tracks

/-- **A run** loses track of nothing. -/
theorem tracks_run (f : Filter) (lookup : EventId → Lookup) (order : Nat → Nat) (limit : Nat)
    (primary secondary : List Record) :
    (run f lookup order limit primary secondary).Tracks lookup primary secondary :=
  steps_induction (fun _ _ h _ hstep => h.step hstep) _
    ((Tracks.start.pull .primary).pull .secondary)

/-! ### Lookups that complete -/

/-- **A run that may deliver more has come to the end of both streams**, and looks nothing up any
more.  That asks nothing of what they send. -/
theorem run_stuck (hroom : (run f lookup order limit primary secondary).delivered.length < limit) :
    (run f lookup order limit primary secondary).pending = [] ∧
      ∀ o, (run f lookup order limit primary secondary).stream o = [] := by
  let R : Rank → Rank → Prop := fun _ _ => True
  have hsorted : ∀ rs : List Record, rs.Pairwise fun a b => R (Rank.of a) (Rank.of b) :=
    fun rs => List.pairwise_of_forall fun _ _ => trivial
  have hfronted : ∀ o, (run f lookup order limit primary secondary).Fronted R o :=
    steps_induction (P := fun m => ∀ o, m.Fronted R o)
      (fun _ _ hf _ hstep => fronted_step (fun _ => hsorted _) hf hstep) _
      (fronted_primed (hsorted _) (hsorted _))
  have hend : (run f lookup order limit primary secondary).step? f lookup order = none :=
    (steps_end (Nat.lt_succ_self _)).resolve_left (Nat.not_le.mpr hroom)
  exact (stuck hfronted hend).2

/-- **The lookup of a demoted record has completed if the limit is not reached**, since the merge
goes on until nothing is looked up any more. -/
theorem completed_of_room
    (hroom : (run f lookup order limit primary secondary).delivered.length < limit)
    (hr : r ∈ primary) (hstub : r.isStub = true) :
    Rank.of r ∈ (run f lookup order limit primary secondary).completed := by
  obtain ⟨hpending, hstreams⟩ := run_stuck hroom
  rcases (tracks_run f lookup order limit primary secondary).settled r hr hstub with
    (⟨x, hx, -⟩ | hplace) | hcompleted
  · have hnil : (run f lookup order limit primary secondary).primary = [] := hstreams .primary
    rw [hnil] at hx
    cases hx
  · rw [hpending] at hplace
    cases hplace
  · exact hcompleted

/-- What the lookup of a demoted record finds is fetched if the limit is not reached. -/
theorem fetched_of_room
    (hroom : (run f lookup order limit primary secondary).delivered.length < limit)
    (hr : r ∈ primary) (hstub : r.isStub = true) (hfound : lookup r.id = .found e) :
    e ∈ (run f lookup order limit primary secondary).fetched :=
  ((tracks_run ..).fetches e).mpr ⟨_, completed_of_room hroom hr hstub, hfound⟩

/-- Lookups that do not fail are not counted. -/
theorem run_failed (hlookup : ∀ i, lookup i ≠ .failed) (order : Nat → Nat) (limit : Nat)
    (primary secondary : List Record) :
    (run f lookup order limit primary secondary).failed = 0 := by
  rw [(tracks_run ..).counts, List.countP_eq_zero]
  exact fun place _ => mt of_decide_eq_true (hlookup place.id)

/-- **No failure is counted if and only if no lookup of a demoted record fails**, if the limit is
not reached. -/
theorem failed_eq_zero_iff
    (hroom : (run f lookup order limit primary secondary).delivered.length < limit) :
    (run f lookup order limit primary secondary).failed = 0 ↔
      ∀ r ∈ primary, r.isStub = true → lookup r.id ≠ .failed := by
  have htracks := tracks_run f lookup order limit primary secondary
  rw [htracks.counts, List.countP_eq_zero]
  constructor
  · exact fun hnone r hr hstub hfailed =>
      hnone _ (completed_of_room hroom hr hstub) (decide_eq_true hfailed)
  · intro hnone place hplace hfailed
    obtain ⟨r, hr, hstub, rfl⟩ := htracks.looksUp place (.inr hplace)
    exact hnone r hr hstub (of_decide_eq_true hfailed)

/-- What has been delivered comes before everything that is still to be looked up. -/
def Ahead (R : Rank → Rank → Prop) (m : TierMerge) : Prop :=
  ∀ d ∈ m.delivered, ∀ place, m.LooksUp place → R (Rank.of d) place

/-- **A step** delivers nothing for which it would have to wait. -/
theorem Ahead.step {R : Rank → Rank → Prop} (hR : Agrees Rank.precedes R) (hs : m.Steady R lookup)
    (h : m.Ahead R) (hstep : m.step? f lookup order = some m') : m'.Ahead R := by
  intro d hd place hplace
  obtain ⟨x, -, rfl⟩ | ⟨c, ready, hwait, hpop, rfl⟩ := step?_cases hstep
  · rw [complete_delivered] at hd
    exact h d hd place hplace.of_complete
  · have hbefore : LooksUp { m with ready := ready } place :=
      (looksUp_pull _ _ place).mp (looksUp_deliver.mp hplace)
    rcases mem_deliver hd with rfl | hd
    · rcases hbefore with ⟨r, hr, -, rfl⟩ | hpending
      · exact hs.sound.first_stream hpop hR (hs.fronted .primary) hr
      · exact first_pending hpop hR hwait hpending
    · rw [pull_delivered] at hd
      exact h d hd place hbefore

/-- **What the lookup of a demoted record finds is fetched if an older record is delivered**, since
the merge waits for the lookup before. -/
theorem fetched_of_older (h : Consistent f lookup primary secondary)
    (hprimary : primary.Pairwise fun a b => b.createdAt ≤ a.createdAt)
    (hsecondary : secondary.Pairwise fun a b => b.createdAt ≤ a.createdAt) {d : Record}
    (hd : d ∈ (run f lookup order limit primary secondary).delivered)
    (holder : d.createdAt < r.createdAt) (hr : r ∈ primary) (hstub : r.isStub = true)
    (hfound : lookup r.id = .found e) :
    e ∈ (run f lookup order limit primary secondary).fetched := by
  let R (a b : Rank) : Prop := b.createdAt ≤ a.createdAt
  have hR : Agrees Rank.precedes R := Rank.precedes_byAge.agrees_newest
  have hstart : (primed primary secondary).Ahead R := by
    intro d hd
    rw [primed, pull_delivered, pull_delivered] at hd
    cases hd
  let P (m : TierMerge) : Prop := m.Steady R lookup ∧ m.Ahead R
  have hahead : P (run f lookup order limit primary secondary) :=
    steps_induction (fun m m' hm _ hstep => ⟨hm.1.step hstep, hm.2.step hR hm.1 hstep⟩) _
      ⟨(h.coherent R).steady_primed hprimary hsecondary, hstart⟩
  have htracks := tracks_run f lookup order limit primary secondary
  rcases htracks.settled r hr hstub with hplace | hcompleted
  · have hle : r.createdAt ≤ d.createdAt := hahead.2 d hd _ hplace
    exact absurd hle (Int64.not_le.mpr holder)
  · exact (htracks.fetches e).mpr ⟨_, hcompleted, hfound⟩

end EventArchive.TierMerge
