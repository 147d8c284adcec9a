import EventArchive.Proofs.HeapOrder
import EventArchive.Tiered.Merge

/-! # What a merge of two tiers has still to deliver

A merge awaits the records that its streams have still to send, the events that
are ready, and those that lookups will bring (`TierMerge.Awaits`).  Reading on
and completing a lookup only move them (`awaits_pull`, `awaits_complete`);
taking a candidate removes the one event that it holds.

In front of each stream there is a candidate from it that comes before all that
it has still to send (`TierMerge.Fronted`).  So a candidate that is taken while
the merge waits for no lookup comes before everything that is awaited
(`TierMerge.Sound.first`), in every order that agrees with the comparison of the
merge and in which both streams send.
-/
namespace EventArchive

/-! ### The comparison -/

theorem Rank.precedes_byAge : ByAge Rank.precedes Rank.createdAt Rank.id :=
  fun a b => later_eq_isOlder b.createdAt b.id a.createdAt a.id

theorem Rank.ranks : Ranks Rank.precedes := precedes_byAge.ranks

theorem Candidate.ranks : Ranks Candidate.precedes where
  asymm h := Rank.ranks.asymm h
  trans hab hbc := Rank.ranks.trans hab hbc

namespace TierMerge
variable {f : Filter} {lookup : EventId → Lookup} {R : Rank → Rank → Prop} {m : TierMerge}
  {e : Event} {c : Candidate} {o : Origin}

/-! ### The newest lookup -/

/-- The newest of some places is one that none of them precedes. -/
theorem foldl_newest (rs : List Rank) (best : Rank) : ∃ n,
    rs.foldl (fun best r => if best.any (·.precedes r) then best else some r) (some best) =
      some n ∧ best.precedes n = false ∧ ∀ r ∈ rs, r.precedes n = false := by
  induction rs generalizing best with
  | nil => exact ⟨best, rfl, Rank.ranks.irrefl best, nofun⟩
  | cons r rs ih =>
    rw [List.foldl_cons]
    by_cases hbest : best.precedes r = true
    · rw [if_pos (by exact hbest)]
      obtain ⟨n, hn, hle, hrs⟩ := ih best
      refine ⟨n, hn, hle, List.forall_mem_cons.mpr ⟨?_, hrs⟩⟩
      exact Rank.ranks.trans (Rank.ranks.asymm hbest) hle
    · rw [if_neg (by exact hbest)]
      obtain ⟨n, hn, hle, hrs⟩ := ih r
      refine ⟨n, hn, ?_, List.forall_mem_cons.mpr ⟨hle, hrs⟩⟩
      exact Rank.ranks.trans (Bool.eq_false_iff.mpr hbest) hle

theorem newestPending?_cases (m : TierMerge) : m.pending = [] ∧ m.newestPending? = none ∨
    ∃ n, m.newestPending? = some n ∧ ∀ r ∈ m.pending, r.precedes n = false := by
  rw [newestPending?]
  cases m.pending with
  | nil => exact .inl ⟨rfl, rfl⟩
  | cons r rs =>
    obtain ⟨n, hn, hle, hrs⟩ := foldl_newest rs r
    exact .inr ⟨n, hn, List.forall_mem_cons.mpr ⟨hle, hrs⟩⟩

/-- A merge that does not wait has a candidate that no lookup precedes. -/
theorem precedes_of_not_waiting (hwait : m.isWaiting = false) (hc : m.ready.top? = some c)
    {r : Rank} (hr : r ∈ m.pending) : r.precedes (Rank.of c.record) = false := by
  rcases m.newestPending?_cases with ⟨hnil, -⟩ | ⟨n, hn, hnewest⟩
  · rw [hnil] at hr
    cases hr
  · rw [isWaiting, hn, hc] at hwait
    exact Rank.ranks.trans (hnewest r hr) hwait

/-- With nothing ready, a merge waits unless it looks nothing up. -/
theorem pending_eq_nil (hwait : m.isWaiting = false) (hready : m.ready.top? = none) :
    m.pending = [] := by
  rcases m.newestPending?_cases with ⟨hnil, -⟩ | ⟨n, hn, -⟩
  · exact hnil
  · rw [isWaiting, hn, hready] at hwait
    cases hwait

/-! ### What is awaited -/

/-- The event that a lookup makes ready. -/
def brought? (f : Filter) (lookup : EventId → Lookup) (i : EventId) : Option Event :=
  match lookup i with
  | .found e => if f.isMatch e then some e else none
  | .absent => none
  | .failed => none

/-- The event that a record contributes to a merge. -/
def offered? (f : Filter) (lookup : EventId → Lookup) : Record → Option Event
  | .full e => some e
  | .stub i _ => brought? f lookup i

/-- Some records contribute an event. -/
def Sends (f : Filter) (lookup : EventId → Lookup) (records : List Record) (e : Event) : Prop :=
  ∃ r ∈ records, offered? f lookup r = some e

/-- Some lookups bring an event. -/
def Brings (f : Filter) (lookup : EventId → Lookup) (pending : List Rank) (e : Event) : Prop :=
  ∃ r ∈ pending, brought? f lookup r.id = some e

/-- An event is ready. -/
def Holds (ready : Heap Candidate) (e : Event) : Prop := ∃ c ∈ ready.toList, c.record = .full e

/-- What a stream has still to send; lookups are no stream. -/
def stream (m : TierMerge) : Origin → List Record
  | .primary => m.primary
  | .secondary => m.secondary
  | .lookup => []

/-- An event is still to be delivered. -/
def Awaits (f : Filter) (lookup : EventId → Lookup) (m : TierMerge) (e : Event) : Prop :=
  (∃ o, Sends f lookup (m.stream o) e) ∨ Brings f lookup m.pending e ∨ Holds m.ready e

theorem found_of_brought? {i : EventId} (h : brought? f lookup i = some e) :
    lookup i = .found e := by
  rw [brought?] at h
  split at h
  · rename_i e' hfound
    obtain ⟨-, heq⟩ := Option.ite_none_right_eq_some.mp h
    rw [hfound, Option.some.inj heq]
  · cases h
  · cases h

theorem mem_launch {pending : List Rank} {r x : Rank} :
    x ∈ launch pending r ↔ x ∈ pending ∨ x = r := by
  rw [launch]
  split
  · rename_i hr
    refine ⟨.inl, ?_⟩
    rintro (hx | rfl)
    · exact hx
    · exact hr
  · rw [List.mem_append, List.mem_singleton]

theorem mem_launched {pending rs : List Rank} {x : Rank} :
    x ∈ rs.foldl launch pending ↔ x ∈ pending ∨ x ∈ rs := by
  induction rs generalizing pending with
  | nil => simp
  | cons r rs ih => rw [List.foldl_cons, ih, mem_launch, List.mem_cons, or_assoc]

theorem offered?_of_whole {r : Record} (hr : r.isStub = false) :
    offered? f lookup r = some e ↔ r = .full e := by
  cases r with
  | full e' => simp [offered?]
  | stub i t => cases hr

theorem sends_append {as bs : List Record} :
    Sends f lookup (as ++ bs) e ↔ Sends f lookup as e ∨ Sends f lookup bs e := by
  simp only [Sends, List.mem_append, or_and_right, exists_or]

theorem sends_cons_of_whole {r : Record} {rs : List Record} (hr : r.isStub = false) :
    Sends f lookup (r :: rs) e ↔ r = .full e ∨ Sends f lookup rs e := by
  rw [Sends, List.exists_mem_cons_iff, offered?_of_whole hr, Sends]

/-- What demoted records contribute, their lookups bring. -/
theorem sends_of_isStub {rs : List Record} (hrs : ∀ r ∈ rs, r.isStub = true) :
    Sends f lookup rs e ↔ Brings f lookup (rs.map Rank.of) e := by
  simp only [Sends, Brings, List.mem_map, exists_exists_and_eq_and]
  refine exists_congr fun r => and_congr_right fun hr => ?_
  have hstub := hrs r hr
  cases r with
  | full e => cases hstub
  | stub i t => exact Iff.rfl

theorem brings_launched {pending rs : List Rank} :
    Brings f lookup (rs.foldl launch pending) e ↔
      Brings f lookup pending e ∨ Brings f lookup rs e := by
  simp only [Brings, mem_launched, or_and_right, exists_or]

theorem mem_ready_offer {x : Candidate} :
    x ∈ (m.offer c).ready.toList ↔ x = c ∨ x ∈ m.ready.toList := by
  rw [offer, (Heap.push_perm m.ready c).mem_iff, List.mem_cons]

theorem holds_offer : Holds (m.offer c).ready e ↔ c.record = .full e ∨ Holds m.ready e := by
  simp only [Holds, mem_ready_offer, or_and_right, exists_or, exists_eq_left]

/-! ### Reading on -/

/-- A merge of which a stream has certain records still to send. -/
def withStream (m : TierMerge) (rs : List Record) : Origin → TierMerge
  | .primary => { m with primary := rs }
  | .secondary => { m with secondary := rs }
  | .lookup => m

/-- A merge that looks up some demoted records as well. -/
def lookUp (m : TierMerge) (demoted : List Record) : TierMerge :=
  { m with pending := (demoted.map Rank.of).foldl launch m.pending }

theorem stream_lookUp (m : TierMerge) (demoted : List Record) (o : Origin) :
    (m.lookUp demoted).stream o = m.stream o := rfl

theorem sublist_stream_lookUp {demoted rest rest' : List Record}
    (hstream : m.stream o = demoted ++ rest) (hrest : rest'.Sublist rest) :
    rest'.Sublist ((m.lookUp demoted).stream o) := by
  rw [stream_lookUp, hstream]
  exact hrest.trans (List.sublist_append_right _ _)

theorem brings_lookUp {demoted : List Record} : Brings f lookup (m.lookUp demoted).pending e ↔
    Brings f lookup m.pending e ∨ Brings f lookup (demoted.map Rank.of) e :=
  brings_launched

@[simp] theorem ready_lookUp (m : TierMerge) (demoted : List Record) :
    (m.lookUp demoted).ready = m.ready := rfl

theorem stream_offer (m : TierMerge) (c : Candidate) (o : Origin) :
    (m.offer c).stream o = m.stream o := rfl

@[simp] theorem pending_offer (m : TierMerge) (c : Candidate) :
    (m.offer c).pending = m.pending := rfl

/-- What is sent comes from a certain stream or from another one. -/
theorem exists_sends_iff (o : Origin) : (∃ o', Sends f lookup (m.stream o') e) ↔
    Sends f lookup (m.stream o) e ∨ ∃ o' ≠ o, Sends f lookup (m.stream o') e := by
  constructor
  · rintro ⟨o', hsends⟩
    by_cases hne : o' = o
    · exact .inl (hne ▸ hsends)
    · exact .inr ⟨o', hne, hsends⟩
  · rintro (hsends | ⟨o', -, hsends⟩)
    · exact ⟨o, hsends⟩
    · exact ⟨o', hsends⟩

section
variable {rs : List Record}

@[simp] theorem ready_withStream : (m.withStream rs o).ready = m.ready := by cases o <;> rfl

@[simp] theorem pending_withStream : (m.withStream rs o).pending = m.pending := by
  cases o <;> rfl

@[simp] theorem delivered_withStream : (m.withStream rs o).delivered = m.delivered := by
  cases o <;> rfl

theorem stream_withStream (hrs : rs.Sublist (m.stream o)) : (m.withStream rs o).stream o = rs := by
  cases o with
  | primary => rfl
  | secondary => rfl
  | lookup => exact (List.sublist_nil.mp hrs).symm

theorem stream_withStream_of_ne {o' : Origin} (hne : o' ≠ o) :
    (m.withStream rs o).stream o' = m.stream o' := by
  cases o <;> cases o' <;> first | rfl | exact absurd rfl hne

theorem stream_withStream_sublist (hrs : rs.Sublist (m.stream o)) (o' : Origin) :
    ((m.withStream rs o).stream o').Sublist (m.stream o') := by
  by_cases hne : o' = o
  · subst hne
    rwa [stream_withStream hrs]
  · rw [stream_withStream_of_ne hne]

end

/-- **What reading on does:** the demoted records in front of a stream are looked up, and the next
record is made ready, unless there is none.  In the secondary tier that is any record. -/
theorem pull_cases (m : TierMerge) (o : Origin) :
    ∃ demoted, (∀ r ∈ demoted, r.isStub = true) ∧ (o = .secondary → demoted = []) ∧
      (m.stream o = demoted ∧ m.pull o = (m.lookUp demoted).withStream [] o ∨
        ∃ r rest, m.stream o = demoted ++ r :: rest ∧ (o = .secondary ∨ r.isStub = false) ∧
          m.pull o = ((m.lookUp demoted).withStream rest o).offer ⟨o, r⟩) := by
  cases o with
  | primary =>
    refine ⟨m.primary.takeWhile Record.isStub, fun r => List.mem_takeWhile_imp, nofun, ?_⟩
    have hsplit := List.takeWhile_append_dropWhile (p := Record.isStub) (l := m.primary)
    rw [pull, pullPrimary]
    cases hdrop : m.primary.dropWhile Record.isStub with
    | nil =>
      rw [hdrop, List.append_nil] at hsplit
      exact .inl ⟨hsplit.symm, rfl⟩
    | cons r rest =>
      have hhead := List.head?_dropWhile_not Record.isStub m.primary
      rw [hdrop] at hsplit hhead
      exact .inr ⟨r, rest, hsplit.symm, .inr hhead, rfl⟩
  | secondary =>
    refine ⟨[], nofun, fun _ => rfl, ?_⟩
    rw [pull, pullSecondary]
    cases hstream : m.secondary with
    | nil =>
      refine .inl ⟨hstream, ?_⟩
      cases m with
      | mk =>
        cases hstream
        rfl
    | cons r rest => exact .inr ⟨r, rest, hstream, .inl rfl, rfl⟩
  | lookup => exact ⟨[], nofun, fun _ => rfl, .inl ⟨rfl, rfl⟩⟩

/-! ### What a merge keeps -/

/-- The event that a lookup brings comes behind all that the record that is looked up comes
behind. -/
def Resolves (R : Rank → Rank → Prop) (lookup : EventId → Lookup) (r : Rank) : Prop :=
  ∀ e, lookup r.id = .found e → ∀ x, R x r → R x (Rank.of (.full e))

/-- A merge whose streams send in an order, the secondary one whole records alone, and whose
candidates are whole and in their heap. -/
structure Sound (R : Rank → Rank → Prop) (lookup : EventId → Lookup) (m : TierMerge) : Prop where
  heap : m.ready.Ordered Candidate.precedes
  whole : ∀ c ∈ m.ready.toList, c.record.isStub = false
  secondary : ∀ r ∈ m.secondary, r.isStub = false
  sorted : ∀ o, (m.stream o).Pairwise fun a b => R (Rank.of a) (Rank.of b)
  stubs : ∀ o, ∀ r ∈ m.stream o, r.isStub = true → Resolves R lookup (Rank.of r)
  pending : ∀ r ∈ m.pending, Resolves R lookup r

/-- A candidate from a stream comes before all that the stream has still to send. -/
def Fronted (R : Rank → Rank → Prop) (m : TierMerge) (o : Origin) : Prop :=
  ∀ r ∈ m.stream o, ∃ c ∈ m.ready.toList, c.origin = o ∧ R (Rank.of c.record) (Rank.of r)

/-- A merge is sound if its streams are parts of those of a sound one. -/
theorem Sound.of_sublist {m' : TierMerge} (hs : m.Sound R lookup)
    (hprimary : m'.primary.Sublist m.primary) (hsecondary : m'.secondary.Sublist m.secondary)
    (hpending : ∀ r ∈ m'.pending, Resolves R lookup r)
    (hheap : m'.ready.Ordered Candidate.precedes)
    (hwhole : ∀ c ∈ m'.ready.toList, c.record.isStub = false) : m'.Sound R lookup := by
  have hstreams : ∀ o, (m'.stream o).Sublist (m.stream o) := by
    intro o
    cases o with
    | primary => exact hprimary
    | secondary => exact hsecondary
    | lookup => exact .refl _
  exact ⟨hheap, hwhole, fun r hr => hs.secondary r (hsecondary.subset hr),
    fun o => (hs.sorted o).sublist (hstreams o),
    fun o r hr => hs.stubs o r ((hstreams o).subset hr), hpending⟩

theorem Sound.offer (hs : m.Sound R lookup) (hc : c.record.isStub = false) :
    (m.offer c).Sound R lookup := by
  refine hs.of_sublist (.refl _) (.refl _) hs.pending (hs.heap.push Candidate.ranks c) ?_
  intro x hx
  rcases mem_ready_offer.mp hx with rfl | hx
  · exact hc
  · exact hs.whole x hx

/-- The record behind the demoted ones in front of a stream is whole. -/
theorem Sound.isStub_of_stream {demoted rest : List Record} {r : Record} (hs : m.Sound R lookup)
    (hstream : m.stream o = demoted ++ r :: rest) (hr : o = .secondary ∨ r.isStub = false) :
    r.isStub = false := by
  rcases hr with rfl | hr
  · refine hs.secondary r (?_ : r ∈ m.stream .secondary)
    rw [hstream]
    exact List.mem_append_right _ List.mem_cons_self
  · exact hr

/-- The demoted records in front of a stream may be looked up, and others behind them left out. -/
theorem Sound.lookUp {demoted rest rest' : List Record} (hs : m.Sound R lookup)
    (hstream : m.stream o = demoted ++ rest) (hdemoted : ∀ r ∈ demoted, r.isStub = true)
    (hrest : rest'.Sublist rest) : ((m.lookUp demoted).withStream rest' o).Sound R lookup := by
  have hsublist := sublist_stream_lookUp hstream hrest
  refine hs.of_sublist (stream_withStream_sublist hsublist .primary)
    (stream_withStream_sublist hsublist .secondary) (fun x hx => ?_) ?_ ?_
  · rw [pending_withStream] at hx
    rcases mem_launched.mp hx with hx | hx
    · exact hs.pending x hx
    · obtain ⟨r, hr, rfl⟩ := List.mem_map.mp hx
      exact hs.stubs o r (by rw [hstream]; exact List.mem_append_left _ hr) (hdemoted r hr)
  · rw [ready_withStream]
    exact hs.heap
  · rw [ready_withStream]
    exact hs.whole

theorem pull_delivered (m : TierMerge) (o : Origin) : (m.pull o).delivered = m.delivered := by
  obtain ⟨_, -, -, ⟨-, heq⟩ | ⟨_, _, -, -, heq⟩⟩ := m.pull_cases o
  · rw [heq, delivered_withStream]
    rfl
  · rw [heq, TierMerge.offer, delivered_withStream]
    rfl

/-- What is ready stays ready while a merge reads on. -/
theorem ready_pull (m : TierMerge) (o : Origin) (hc : c ∈ m.ready.toList) :
    c ∈ (m.pull o).ready.toList := by
  obtain ⟨_, -, -, ⟨-, heq⟩ | ⟨_, _, -, -, heq⟩⟩ := m.pull_cases o
  · rwa [heq, ready_withStream]
  · rw [heq, mem_ready_offer, ready_withStream]
    exact .inr hc

/-- Reading on in one tier leaves the streams of the others. -/
theorem stream_pull (m : TierMerge) {o o' : Origin} (hne : o' ≠ o) :
    (m.pull o).stream o' = m.stream o' := by
  obtain ⟨_, -, -, ⟨-, heq⟩ | ⟨_, _, -, -, heq⟩⟩ := m.pull_cases o
  · rw [heq, stream_withStream_of_ne hne, stream_lookUp]
  · rw [heq, stream_offer, stream_withStream_of_ne hne, stream_lookUp]

theorem fronted_pull_of_ne {o o' : Origin} (hne : o' ≠ o) (hf : m.Fronted R o') :
    (m.pull o).Fronted R o' := by
  intro r hr
  rw [stream_pull m hne] at hr
  obtain ⟨c, hc, hfront⟩ := hf r hr
  exact ⟨c, m.ready_pull o hc, hfront⟩

section
variable (hs : m.Sound R lookup) (o : Origin)
include hs

/-- Reading on only moves what is awaited. -/
theorem awaits_pull : (m.pull o).Awaits f lookup e ↔ m.Awaits f lookup e := by
  have hothers : (∃ o' ≠ o, Sends f lookup ((m.pull o).stream o') e) ↔
      ∃ o' ≠ o, Sends f lookup (m.stream o') e :=
    exists_congr fun o' => and_congr_right fun hne => by rw [stream_pull m hne]
  rw [Awaits, Awaits, exists_sends_iff o, hothers, exists_sends_iff o]
  generalize (∃ o' ≠ o, Sends f lookup (m.stream o') e) = others
  obtain ⟨demoted, hdemoted, -, ⟨hstream, heq⟩ | ⟨r, rest, hstream, hr, heq⟩⟩ := m.pull_cases o
  · have hnil : ¬ Sends f lookup [] e := nofun
    rw [heq, stream_withStream (List.nil_sublist _), pending_withStream, ready_withStream,
      brings_lookUp, ready_lookUp, hstream, sends_of_isStub hdemoted]
    tauto
  · have hsublist := sublist_stream_lookUp hstream (List.sublist_cons_self r rest)
    have hwhole := hs.isStub_of_stream hstream hr
    rw [heq, stream_offer, stream_withStream hsublist, holds_offer, ready_withStream, pending_offer,
      pending_withStream, brings_lookUp, ready_lookUp, hstream, sends_append,
      sends_of_isStub hdemoted, sends_cons_of_whole hwhole]
    tauto

theorem Sound.pull : (m.pull o).Sound R lookup := by
  obtain ⟨demoted, hdemoted, -, ⟨hstream, heq⟩ | ⟨r, rest, hstream, hr, heq⟩⟩ := m.pull_cases o
  · rw [heq]
    exact hs.lookUp (by rw [hstream, List.append_nil]) hdemoted (.refl _)
  · have hlookUp := hs.lookUp hstream hdemoted (List.sublist_cons_self r rest)
    rw [heq]
    exact hlookUp.offer (hs.isStub_of_stream hstream hr)

end

/-- The record that is read stands in front of the stream. -/
theorem fronted_pull {m : TierMerge} {o : Origin}
    (hsorted : (m.stream o).Pairwise fun a b => R (Rank.of a) (Rank.of b)) :
    (m.pull o).Fronted R o := by
  obtain ⟨demoted, -, -, ⟨hstream, heq⟩ | ⟨r, rest, hstream, -, heq⟩⟩ := m.pull_cases o
  · rw [heq]
    intro x hx
    rw [stream_withStream (List.nil_sublist _)] at hx
    cases hx
  · have hsublist := sublist_stream_lookUp hstream (List.sublist_cons_self r rest)
    rw [hstream] at hsorted
    have hrest := (List.pairwise_cons.mp (List.pairwise_append.mp hsorted).2.1).1
    rw [heq]
    intro x hx
    rw [stream_offer, stream_withStream hsublist] at hx
    exact ⟨⟨o, r⟩, mem_ready_offer.mpr (.inl rfl), rfl, hrest x hx⟩

/-! ### One step -/

/-- **What a step does:** it completes a lookup, or it takes a candidate that is delivered before
everything else that is ready, and reads on where that came from. -/
theorem step?_cases {order : Nat → Nat} {m' : TierMerge} (h : m.step? f lookup order = some m') :
    (∃ r ∈ m.pending, m' = m.complete f lookup r) ∨
      ∃ c ready, m.isWaiting = false ∧ m.ready.pop? Candidate.precedes = some (c, ready) ∧
        m' = ({ m with ready := ready }.pull c.origin).deliver c.record := by
  rw [step?] at h
  split at h
  · obtain ⟨r, hr, rfl⟩ := Option.map_eq_some_iff.mp h
    exact .inl ⟨r, List.mem_of_getElem? hr, rfl⟩
  · rename_i hwait
    obtain ⟨⟨c, ready⟩, hpop, rfl⟩ := Option.map_eq_some_iff.mp h
    exact .inr ⟨c, ready, Bool.eq_false_iff.mpr hwait, hpop, rfl⟩

/-! Completing a lookup -/

/-- What completing a lookup does. -/
theorem complete_cases (m : TierMerge) (f : Filter) (lookup : EventId → Lookup) (r : Rank) :
    ∃ failed fetched,
      (brought? f lookup r.id = none ∧ m.complete f lookup r =
        { m with pending := m.pending.erase r, completed := r :: m.completed, failed, fetched }) ∨
      ∃ e, brought? f lookup r.id = some e ∧ m.complete f lookup r =
        { m with pending := m.pending.erase r, completed := r :: m.completed, failed,
                 fetched }.offer ⟨.lookup, .full e⟩ := by
  rw [complete, brought?]
  cases lookup r.id with
  | found e =>
    refine ⟨m.failed, m.fetched ++ [e], ?_⟩
    by_cases hmatch : f.isMatch e = true
    · exact .inr ⟨e, if_pos hmatch, if_pos hmatch⟩
    · exact .inl ⟨if_neg hmatch, if_neg hmatch⟩
  | absent => exact ⟨m.failed, m.fetched, .inl ⟨rfl, rfl⟩⟩
  | failed => exact ⟨m.failed + 1, m.fetched, .inl ⟨rfl, rfl⟩⟩

theorem complete_delivered (m : TierMerge) (r : Rank) :
    (m.complete f lookup r).delivered = m.delivered := by
  obtain ⟨_, _, ⟨-, heq⟩ | ⟨_, -, heq⟩⟩ := m.complete_cases f lookup r
  · rw [heq]
  · rw [heq]
    rfl

theorem stream_complete (m : TierMerge) (r : Rank) (o : Origin) :
    (m.complete f lookup r).stream o = m.stream o := by
  obtain ⟨_, _, ⟨-, heq⟩ | ⟨_, -, heq⟩⟩ := m.complete_cases f lookup r
  · rw [heq]
    rfl
  · rw [heq]
    rfl

/-- Completing a lookup only moves what is awaited. -/
theorem awaits_complete {r : Rank} (hr : r ∈ m.pending) :
    (m.complete f lookup r).Awaits f lookup e ↔ m.Awaits f lookup e := by
  have hbrings : Brings f lookup m.pending e ↔
      brought? f lookup r.id = some e ∨ Brings f lookup (m.pending.erase r) e := by
    constructor
    · rintro ⟨x, hx, hbrought⟩
      by_cases hxr : x = r
      · exact .inl (hxr ▸ hbrought)
      · exact .inr ⟨x, (List.mem_erase_of_ne hxr).mpr hx, hbrought⟩
    · rintro (hbrought | ⟨x, hx, hbrought⟩)
      · exact ⟨r, hr, hbrought⟩
      · exact ⟨x, List.mem_of_mem_erase hx, hbrought⟩
  simp only [Awaits, hbrings, stream_complete]
  obtain ⟨_, _, ⟨hnone, heq⟩ | ⟨e', hsome, heq⟩⟩ := m.complete_cases f lookup r
  · rw [heq, hnone]
    simp
  · rw [heq, hsome, holds_offer, pending_offer, Option.some.injEq, Record.full.injEq]
    tauto

theorem Sound.complete (hs : m.Sound R lookup) (r : Rank) :
    (m.complete f lookup r).Sound R lookup := by
  have hpending : ∀ x ∈ m.pending.erase r, Resolves R lookup x := fun x hx =>
    hs.pending x (List.mem_of_mem_erase hx)
  obtain ⟨_, _, ⟨-, heq⟩ | ⟨e, -, heq⟩⟩ := m.complete_cases f lookup r
  · rw [heq]
    exact hs.of_sublist (.refl _) (.refl _) hpending hs.heap hs.whole
  · rw [heq]
    exact Sound.offer (hs.of_sublist (.refl _) (.refl _) hpending hs.heap hs.whole) rfl

theorem Fronted.complete (hf : m.Fronted R o) (r : Rank) :
    (m.complete f lookup r).Fronted R o := by
  intro x hx
  rw [stream_complete] at hx
  obtain ⟨c, hc, hfront⟩ := hf x hx
  obtain ⟨_, _, ⟨-, heq⟩ | ⟨e, -, heq⟩⟩ := m.complete_cases f lookup r
  · rw [heq]
    exact ⟨c, hc, hfront⟩
  · rw [heq]
    exact ⟨c, mem_ready_offer.mpr (.inr hc), hfront⟩

/-! Taking a candidate -/

section
variable {ready : Heap Candidate} (hpop : m.ready.pop? Candidate.precedes = some (c, ready))
include hpop

theorem mem_ready_iff {x : Candidate} : x ∈ m.ready.toList ↔ x = c ∨ x ∈ ready.toList := by
  rw [(Heap.pop?_perm hpop).mem_iff, List.mem_cons]

/-- Taking a candidate removes the event that it holds. -/
theorem awaits_taken : m.Awaits f lookup e ↔
    c.record = .full e ∨ Awaits f lookup { m with ready := ready } e := by
  have hholds : Holds m.ready e ↔ c.record = .full e ∨ Holds ready e := by
    simp only [Holds, mem_ready_iff hpop, or_and_right, exists_or, exists_eq_left]
  rw [Awaits, Awaits, hholds]
  tauto

theorem Sound.taken (hs : m.Sound R lookup) : Sound R lookup { m with ready := ready } := by
  refine hs.of_sublist (.refl _) (.refl _) hs.pending (hs.heap.pop? Candidate.ranks hpop) ?_
  exact fun x hx => hs.whole x ((mem_ready_iff hpop).mpr (.inr hx))

theorem Fronted.taken (hf : m.Fronted R o) (hne : o ≠ c.origin) :
    Fronted R { m with ready := ready } o := by
  intro r hr
  obtain ⟨x, hx, horigin, hle⟩ := hf r hr
  rcases (mem_ready_iff hpop).mp hx with rfl | hx
  · exact absurd horigin.symm hne
  · exact ⟨x, hx, horigin, hle⟩

section
variable (hR : Agrees Rank.precedes R)
include hR

/-- A candidate that is taken comes before everything that is ready. -/
theorem Sound.first_ready (hs : m.Sound R lookup) {x : Candidate} (hx : x ∈ m.ready.toList) :
    R (Rank.of c.record) (Rank.of x.record) := by
  have hprecedes : x.precedes c = false :=
    hs.heap.top_first Candidate.ranks (Heap.top?_of_pop? hpop) hx
  exact hR.left hprecedes

/-- A stream sends nothing that comes before the candidate in front of it, so a candidate that is
taken comes before all that streams have still to send. -/
theorem Sound.first_stream (hs : m.Sound R lookup) (hf : m.Fronted R o) {r : Record}
    (hr : r ∈ m.stream o) : R (Rank.of c.record) (Rank.of r) := by
  obtain ⟨x, hx, -, hle⟩ := hf r hr
  exact hR.trans (hs.first_ready hpop hR hx) hle

/-- A candidate that is taken comes before all records that are being looked up. -/
theorem first_pending (hwait : m.isWaiting = false) {r : Rank} (hr : r ∈ m.pending) :
    R (Rank.of c.record) r :=
  hR.left (precedes_of_not_waiting hwait (Heap.top?_of_pop? hpop) hr)

/-- **A candidate that is taken comes before everything that is awaited.** -/
theorem Sound.first (hs : m.Sound R lookup) (hf : ∀ o, m.Fronted R o)
    (hwait : m.isWaiting = false) (he : m.Awaits f lookup e) :
    R (Rank.of c.record) (Rank.of (.full e)) := by
  rcases he with ⟨o, r, hr, hoffered⟩ | ⟨r, hr, hbrought⟩ | ⟨x, hx, hrecord⟩
  · have hle := hs.first_stream hpop hR (hf o) hr
    cases hstub : r.isStub with
    | true =>
      have hresolves := hs.stubs o r hr hstub
      cases r with
      | full e' => cases hstub
      | stub i t => exact hresolves e (found_of_brought? hoffered) _ hle
    | false => rwa [(offered?_of_whole hstub).mp hoffered] at hle
  · have hle := first_pending hpop hR hwait hr
    exact hs.pending r hr e (found_of_brought? hbrought) _ hle
  · rw [← hrecord]
    exact hs.first_ready hpop hR hx

end
end

/-! Delivering a record -/

theorem deliver_cases (m : TierMerge) (r : Record) :
    (r.id ∈ m.delivered.map Record.id ∧ m.deliver r = m) ∨
      r.id ∉ m.delivered.map Record.id ∧
        m.deliver r = { m with delivered := r :: m.delivered } := by
  have hany : m.delivered.any (·.id == r.id) = true ↔ r.id ∈ m.delivered.map Record.id := by
    simp [List.any_eq_true]
  rw [deliver, ← hany]
  split
  · rename_i h
    exact .inl ⟨h, rfl⟩
  · rename_i h
    exact .inr ⟨h, rfl⟩

theorem awaits_deliver (m : TierMerge) (r : Record) :
    (m.deliver r).Awaits f lookup e ↔ m.Awaits f lookup e := by
  rcases m.deliver_cases r with ⟨-, heq⟩ | ⟨-, heq⟩
  · rw [heq]
  · rw [heq]
    exact Iff.rfl

/-! ### Steps -/

theorem Sound.deliver (hs : m.Sound R lookup) (r : Record) : (m.deliver r).Sound R lookup := by
  rcases m.deliver_cases r with ⟨-, heq⟩ | ⟨-, heq⟩
  · rwa [heq]
  · rw [heq]
    exact hs.of_sublist (.refl _) (.refl _) hs.pending hs.heap hs.whole

theorem Fronted.deliver (hf : m.Fronted R o) (r : Record) : (m.deliver r).Fronted R o := by
  rcases m.deliver_cases r with ⟨-, heq⟩ | ⟨-, heq⟩
  · rwa [heq]
  · rw [heq]
    exact hf

section
variable {order : Nat → Nat} {m' : TierMerge}

/-- A step leaves a candidate in front of each stream that sends in the order. -/
theorem fronted_step (hsorted : ∀ o, (m.stream o).Pairwise fun a b => R (Rank.of a) (Rank.of b))
    (hf : ∀ o, m.Fronted R o) (hstep : m.step? f lookup order = some m') (o : Origin) :
    m'.Fronted R o := by
  obtain ⟨r, -, rfl⟩ | ⟨c, ready, -, hpop, rfl⟩ := step?_cases hstep
  · exact (hf o).complete r
  · refine Fronted.deliver ?_ c.record
    by_cases hne : o = c.origin
    · exact hne ▸ fronted_pull (hsorted _)
    · exact fronted_pull_of_ne hne ((hf o).taken hpop hne)

/-- A merge that cannot go on has nothing ready, looks nothing up, and its streams are at their
end. -/
theorem stuck (hf : ∀ o, m.Fronted R o) (hstep : m.step? f lookup order = none) :
    m.ready.toList = [] ∧ m.pending = [] ∧ ∀ o, m.stream o = [] := by
  rw [step?] at hstep
  split at hstep
  · rename_i hwait
    -- a merge that waits has a lookup to complete
    rw [Option.map_eq_none_iff, List.getElem?_eq_none_iff] at hstep
    have hnil : m.pending = [] := by
      rw [← List.length_eq_zero_iff]
      by_contra hne
      exact absurd (Nat.mod_lt _ (Nat.pos_of_ne_zero hne)) (Nat.not_lt.mpr hstep)
    rw [isWaiting, newestPending?, hnil] at hwait
    cases hwait
  · rename_i hwait
    have hempty : m.ready.toList = [] := Heap.pop?_eq_none (Option.map_eq_none_iff.mp hstep)
    have hpending := pending_eq_nil (Bool.eq_false_iff.mpr hwait)
      (Heap.top?_eq_none_iff.mpr hempty)
    refine ⟨hempty, hpending, fun o => List.eq_nil_iff_forall_not_mem.mpr fun r hr => ?_⟩
    obtain ⟨c, hc, -⟩ := hf o r hr
    rw [hempty] at hc
    cases hc

end

/-- A merge under way: it is sound, and has a candidate in front of each stream. -/
structure Steady (R : Rank → Rank → Prop) (lookup : EventId → Lookup) (m : TierMerge) : Prop where
  sound : m.Sound R lookup
  fronted : ∀ o, m.Fronted R o

theorem Steady.step {order : Nat → Nat} {m' : TierMerge} (h : m.Steady R lookup)
    (hstep : m.step? f lookup order = some m') : m'.Steady R lookup := by
  refine ⟨?_, fronted_step h.sound.sorted h.fronted hstep⟩
  obtain ⟨r, -, rfl⟩ | ⟨c, ready, -, hpop, rfl⟩ := step?_cases hstep
  · exact h.sound.complete r
  · exact ((h.sound.taken hpop).pull c.origin).deliver c.record

/-- A merge that cannot go on awaits nothing. -/
theorem Steady.not_awaits {order : Nat → Nat} (h : m.Steady R lookup)
    (hstep : m.step? f lookup order = none) : ¬ m.Awaits f lookup e := by
  obtain ⟨hready, hpending, hstreams⟩ := stuck h.fronted hstep
  rintro (⟨o, r, hr, -⟩ | ⟨r, hr, -⟩ | ⟨c, hc, -⟩)
  · rw [hstreams o] at hr
    cases hr
  · rw [hpending] at hr
    cases hr
  · rw [hready] at hc
    cases hc

/-! ### The end -/

theorem length_launched_le (pending rs : List Rank) :
    (rs.foldl launch pending).length ≤ pending.length + rs.length := by
  induction rs generalizing pending with
  | nil => exact Nat.le_refl _
  | cons r rs ih =>
    have hlaunch : (launch pending r).length ≤ pending.length + 1 := by
      rw [launch]
      split
      · exact Nat.le_succ _
      · rw [List.length_append, List.length_singleton]
    have hrest := ih (launch pending r)
    rw [List.foldl_cons, List.length_cons]
    omega

theorem work_offer (m : TierMerge) (c : Candidate) : (m.offer c).work = m.work + 1 := by
  have hsize : (m.offer c).ready.size = m.ready.size + 1 := (Heap.push_perm m.ready c).length_eq
  rw [work, hsize]
  rfl

/-- A record that a stream has sent need not be read any more; a demoted one has to be looked up. -/
theorem work_withStream_lookUp {demoted rest rest' : List Record} {n : Nat}
    (hstream : m.stream o = demoted ++ rest) (hsecondary : o = .secondary → demoted = [])
    (hrest : rest'.length + n ≤ rest.length) :
    ((m.lookUp demoted).withStream rest' o).work + n ≤ m.work := by
  have hlaunched : (m.lookUp demoted).pending.length ≤ m.pending.length + demoted.length := by
    have hle := length_launched_le m.pending (demoted.map Rank.of)
    rwa [List.length_map] at hle
  have hlength := congrArg List.length hstream
  rw [List.length_append] at hlength
  cases o with
  | primary =>
    dsimp only [stream, withStream, lookUp, work] at hlength hlaunched ⊢
    omega
  | secondary =>
    obtain rfl := hsecondary rfl
    dsimp only [stream, withStream, lookUp, work, List.length_nil] at hlength hlaunched ⊢
    omega
  | lookup =>
    dsimp only [stream, withStream, lookUp, work, List.length_nil] at hlength hlaunched ⊢
    omega

theorem work_pull (m : TierMerge) (o : Origin) : (m.pull o).work ≤ m.work := by
  obtain ⟨demoted, -, hsecondary, ⟨hstream, heq⟩ | ⟨r, rest, hstream, -, heq⟩⟩ := m.pull_cases o
  · rw [heq]
    have hall : m.stream o = demoted ++ [] := by rw [hstream, List.append_nil]
    exact work_withStream_lookUp (n := 0) hall hsecondary (Nat.le_refl _)
  · rw [heq, work_offer]
    exact work_withStream_lookUp hstream hsecondary (Nat.le_refl _)

/-- **A step leaves less to do.** -/
theorem work_step {order : Nat → Nat} {m' : TierMerge} (h : m.step? f lookup order = some m') :
    m'.work < m.work := by
  obtain ⟨r, hr, rfl⟩ | ⟨c, ready, -, hpop, rfl⟩ := step?_cases h
  · have herase := List.length_erase_of_mem hr
    have hpos := List.length_pos_of_mem hr
    obtain ⟨_, _, ⟨-, heq⟩ | ⟨e, -, heq⟩⟩ := m.complete_cases f lookup r
    · rw [heq, work, work]
      dsimp only
      omega
    · rw [heq, work_offer, work, work]
      dsimp only
      omega
  · have hsize : m.ready.size = ready.size + 1 := (Heap.pop?_perm hpop).length_eq
    have hpull := work_pull { m with ready := ready } c.origin
    have hdeliver : ∀ m : TierMerge, (m.deliver c.record).work = m.work := by
      intro m
      rcases m.deliver_cases c.record with ⟨-, heq⟩ | ⟨-, heq⟩
      · rw [heq]
      · rw [heq]
        rfl
    rw [hdeliver]
    refine Nat.lt_of_le_of_lt hpull ?_
    rw [work, work, hsize]
    dsimp only
    omega

variable {order : Nat → Nat} {limit : Nat}

/-- What every step keeps, a run keeps. -/
theorem steps_induction {P : TierMerge → Prop}
    (hstep : ∀ m m', P m → m.delivered.length < limit → m.step? f lookup order = some m' → P m')
    (fuel : Nat) {m : TierMerge} (h : P m) : P (steps f lookup order limit fuel m) := by
  induction fuel generalizing m with
  | zero => exact h
  | succ fuel ih =>
    rw [steps]
    split
    · exact h
    · rename_i hlimit
      cases hnext : m.step? f lookup order with
      | none => exact h
      | some m' => exact ih (hstep m m' h (Nat.not_le.mp hlimit) hnext)

/-- **A run comes to its end:** it has delivered enough, or cannot go on. -/
theorem steps_end {fuel : Nat} {m : TierMerge} (hfuel : m.work < fuel) :
    limit ≤ (steps f lookup order limit fuel m).delivered.length ∨
      (steps f lookup order limit fuel m).step? f lookup order = none := by
  induction fuel generalizing m with
  | zero => exact absurd hfuel (Nat.not_lt_zero _)
  | succ fuel ih =>
    rw [steps]
    split
    · rename_i hlimit
      exact .inl hlimit
    · cases hnext : m.step? f lookup order with
      | none => exact .inr hnext
      | some m' => exact ih (Nat.lt_of_lt_of_le (work_step hnext) (Nat.le_of_lt_succ hfuel))

end TierMerge
end EventArchive
