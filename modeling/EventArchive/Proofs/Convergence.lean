import EventArchive.Proofs.Plans
import EventArchive.Proofs.QueryHits
import EventArchive.Proofs.Transactions
import EventArchive.Proofs.Versions

/-! # Replaceable events converge

Of the versions that an author publishes of a replaceable kind, a store keeps
the newest, in whatever order they arrive and whatever happens in between, as
long as nothing is deleted or pruned.  Along such a run the records of the author
and kind are the newest of the versions saved so far, and there is one as soon as
one was saved (`Ledger.Settled`).  Whether the version that is held is whole or
demoted makes no difference, since the time of a demoted one can be read off its
keys.
-/
namespace EventArchive

/-! ### Runs without deletions -/

/-- Whether a transaction deletes and prunes nothing. -/
def Transaction.Spares : Transaction → Prop
  | .save _ _ => True
  | .delete _ => False
  | .touch _ _ => True
  | .sweepRecords _ demote => demote = true
  | .sweepIndices victims => victims = []
  | .release => True
  | .reopen _ => True
  | .crash _ => True

instance (x : Transaction) : Decidable x.Spares := by
  cases x <;> unfold Transaction.Spares <;> infer_instance

namespace Tier

/-- The event that a transaction saves, whatever the outcome, unless it fails. -/
def saved? (t : Tier) : Transaction → Option Event
  | .save now e =>
    match (t.db.save t.lease now e).1 with
    | .ok _ => some e
    | .error _ => none
  | _ => none

/-- The events that some transactions save, in order. -/
def saved (t : Tier) : List Transaction → List Event
  | [] => []
  | x :: xs => (t.saved? x).toList ++ (t.step x).saved xs

/-- The versions among the events that some transactions save. -/
def versions (t : Tier) (author : PublicKey) (kind : Kind) (xs : List Transaction) : List Event :=
  (t.saved xs).filter (·.IsVersion author kind)

/-- The versions of which there is a record, whole or demoted, among those that were stored. -/
def survivors (t : Tier) (author : PublicKey) (kind : Kind) (journal : List (Serial × Event)) :
    List (Serial × Event) :=
  journal.filter fun p => p.2.IsVersion author kind ∧ (t.db.events.record? p.1).isSome

end Tier

/-- Events that keys tell apart as far as the versions of an author and kind are concerned:
identifiers name events, no other author's key begins as the author's does, no version is from
before 1970, and all lengths can be written. -/
structure Distinguished (author : PublicKey) (kind : Kind) (es : List Event) : Prop where
  identified : Identified es
  prefixes : ∀ e ∈ es, e.pubkey.head8 = author.head8 → e.pubkey = author
  times : ∀ e ∈ es, e.IsVersion author kind → 0 ≤ e.createdAt
  sized : ∀ e ∈ es, e.Sized

instance (author : PublicKey) (kind : Kind) (es : List Event) :
    Decidable (Distinguished author kind es) :=
  decidable_of_iff (Identified es ∧ (∀ e ∈ es, e.pubkey.head8 = author.head8 → e.pubkey = author) ∧
      (∀ e ∈ es, e.IsVersion author kind → 0 ≤ e.createdAt) ∧ ∀ e ∈ es, e.Sized)
    ⟨fun h => ⟨h.1, h.2.1, h.2.2.1, h.2.2.2⟩,
      fun h => ⟨h.identified, h.prefixes, h.times, h.sized⟩⟩

/-! ### Settled ledgers -/

/-- **A ledger is settled** on some versions: what it holds of the author and kind is the newest
of them, and it holds one as soon as there is one. -/
structure Ledger.Settled (L : Ledger) (author : PublicKey) (kind : Kind) (vs : List Event) :
    Prop where
  newest : ∀ s e, L.Holds s e → e.IsVersion author kind → e.IsNewest vs
  held : vs ≠ [] → ∃ s e, L.Holds s e ∧ e.IsVersion author kind

namespace Ledger
variable {L L' : Ledger} {author : PublicKey} {kind : Kind} {vs : List Event} {s : Serial}
  {e : Event}

/-- What is held after an event was stored: the event, and what was held and not displaced. -/
theorem holds_stored_iff {ss : List Serial} {now : UInt64} {s' : Serial} {e' : Event} :
    Holds (Function.update (L.displace ss) s (some (.live e now))) s' e' ↔
      (s' = s ∧ e' = e) ∨ (s' ≠ s ∧ s' ∉ ss ∧ L.Holds s' e') := by
  by_cases hs : s' = s
  · simp only [Holds, hs, Function.update_self, Option.some.injEq, exists_eq_left', true_and,
      ne_eq, not_true_eq_false, false_and, or_false]
    exact ⟨fun ⟨_, he⟩ => he.symm, fun he => ⟨rfl, he.symm⟩⟩
  · simp only [Holds, Function.update_of_ne hs, hs, false_and, false_or, ne_eq, not_false_eq_true,
      true_and]
    constructor
    · rintro ⟨h, hL, hheld, he⟩
      obtain ⟨hL, hmem⟩ := (displace_eq_some_iff hheld).mp hL
      exact ⟨hmem, h, hL, hheld, he⟩
    · rintro ⟨hmem, h, hL, hheld, he⟩
      exact ⟨h, (displace_eq_some_iff hheld).mpr ⟨hL, hmem⟩, hheld, he⟩

theorem Within.holds (hw : L'.Within L) (hholds : L'.Holds s e) : L.Holds s e := by
  obtain ⟨h', hL', hheld', rfl⟩ := hholds
  obtain ⟨h, hL, he, hheld⟩ := hw s h' hL'
  exact ⟨h, hL, hheld hheld', he⟩

namespace Settled

theorem empty (author : PublicKey) (kind : Kind) : Settled (fun _ => none) author kind [] where
  newest s e hholds := by
    obtain ⟨h, hL, -⟩ := hholds
    cases hL
  held hne := absurd rfl hne

/-- What keeps every record and adds none keeps a ledger settled. -/
theorem of_keeps (hs : L.Settled author kind vs) (hw : L'.Within L) (hk : L'.Keeps L) :
    L'.Settled author kind vs := by
  refine ⟨fun s e hholds => hs.newest s e (hw.holds hholds), fun hne => ?_⟩
  obtain ⟨s, e, hholds, hversion⟩ := hs.held hne
  exact ⟨s, e, hk s e hholds, hversion⟩

/-- Saving again what is held leaves a ledger settled. -/
theorem append_held (hs : L.Settled author kind vs) (hholds : L.Holds s e)
    (hversion : e.IsVersion author kind) : L.Settled author kind (vs ++ [e]) := by
  have hmem := (hs.newest s e hholds hversion).1
  exact ⟨fun s' e' hholds' hversion' => (hs.newest s' e' hholds' hversion').append_of_mem hmem,
    fun _ => ⟨s, e, hholds, hversion⟩⟩

/-- Saving what is older than what is held leaves a ledger settled. -/
theorem append_older {m : Event} (hs : L.Settled author kind vs) (hholds : L.Holds s m)
    (hversion : m.IsVersion author kind) (holder : e.isOlderThan m = true) :
    L.Settled author kind (vs ++ [e]) := by
  have hm := hs.newest s m hholds hversion
  refine ⟨fun s' e' hholds' hversion' => ?_, fun _ => ⟨s, m, hholds, hversion⟩⟩
  obtain rfl := (hs.newest s' e' hholds' hversion').unique hm
  exact hm.append_of_isOlderThan holder

end Settled
end Ledger

/-! ### One transaction -/

namespace Tier.Follows
variable {t : Tier} {L L' : Ledger} {J : List (Serial × Event)} {es vs : List Event}
  {author : PublicKey} {kind : Kind} {e m : Event} {s : Serial} {h : Holding}

theorem mem_of_holds (hf : t.Follows L J) (hJ : ∀ p ∈ J, p.2 ∈ es) (hholds : L.Holds s e) :
    e ∈ es := by
  obtain ⟨h, hL, -, rfl⟩ := hholds
  exact hJ _ (hf.stored s h hL)

section
variable (hf : t.Follows L J) (hes : Distinguished author kind es) (hJ : ∀ p ∈ J, p.2 ∈ es)
  (he : e ∈ es)
include hf hes hJ he

/-- The rivals of versions are versions, and those of other events are other events. -/
theorem isVersion_iff_of_rival (hL : L s = some h) (hrival : h.RivalOf e) :
    h.event.IsVersion author kind ↔ e.IsVersion author kind := by
  obtain ⟨hhead, hkind⟩ := hrival.head8_eq
  constructor
  · rintro ⟨rfl, rfl⟩
    exact ⟨hes.prefixes e he hhead.symm, hkind.symm⟩
  · rintro ⟨rfl, rfl⟩
    exact ⟨hes.prefixes _ (hJ _ (hf.stored s h hL)) hhead, hkind⟩

omit he in
/-- Every version that is held is found when another one is saved. -/
theorem exists_rival_of_version (hkind : kind.retention = .replaceable) (hholds : L.Holds s m)
    (hversion : m.IsVersion author kind) (hnew : e.IsVersion author kind) :
    ∃ p ∈ t.db.events.rivals e, p.serial = s ∧ p.yieldsTo e = m.isOlderThan e := by
  have hmem := hf.mem_of_holds hJ hholds
  obtain ⟨h, hL, hheld, rfl⟩ := hholds
  obtain ⟨hpubkey, hk⟩ := hversion
  obtain ⟨hpubkey', hk'⟩ := hnew
  have hrival : h.RivalOf e :=
    (Holding.rivalOf_replaceable_iff (hk' ▸ hkind) hheld fun _ => hpubkey.trans hpubkey'.symm).mpr
      ⟨hpubkey.trans hpubkey'.symm, hk.trans hk'.symm⟩
  exact hf.db.events.exists_rival hL hrival (hes.sized _ hmem) (hes.times _ hmem ⟨hpubkey, hk⟩)

/-- Saving another event leaves the versions. -/
theorem settled_of_other {now : UInt64} {o : SaveOutcome} (hs : L.Settled author kind vs)
    (hother : ¬ e.IsVersion author kind)
    (hsaved : L.Saved (t.db.events.rivals e) now e t.lease.next o L') :
    L'.Settled author kind vs := by
  cases hsaved with
  | ephemeral => exact hs
  | duplicate => exact hs
  | superseded => exact hs
  | revived _ hL => exact hs.of_keeps (.update hL rfl fun _ => rfl) (.update hL rfl rfl)
  | stored =>
    refine ⟨fun s' e' hholds hversion => ?_, fun hne => ?_⟩
    · rcases Ledger.holds_stored_iff.mp hholds with ⟨-, rfl⟩ | ⟨-, -, hholds⟩
      · exact absurd hversion hother
      · exact hs.newest s' e' hholds hversion
    · obtain ⟨s', m, hholds, hversion⟩ := hs.held hne
      refine ⟨s', m, Ledger.holds_stored_iff.mpr (.inr ⟨?_, ?_, hholds⟩), hversion⟩
      · rintro rfl
        obtain ⟨h, hL, -⟩ := hholds
        rw [hf.next_free] at hL
        cases hL
      · -- a displaced record would be one of the saved event's slot
        intro hmem
        obtain ⟨p, hp, rfl⟩ := List.mem_map.mp hmem
        obtain ⟨h, hL, hrival, -⟩ := hf.db.events.rivals_sound hp
        obtain ⟨h', hL', -, rfl⟩ := hholds
        rw [hL] at hL'
        cases hL'
        exact hother ((hf.isVersion_iff_of_rival hes hJ he hL hrival).mp hversion)

/-- Saving a version leaves the newest one. -/
theorem settled_of_version {now : UInt64} {o : SaveOutcome}
    (hkind : kind.retention = .replaceable) (hs : L.Settled author kind vs)
    (hversion : e.IsVersion author kind)
    (hsaved : L.Saved (t.db.events.rivals e) now e t.lease.next o L') :
    L'.Settled author kind (vs ++ [e]) := by
  cases hsaved with
  | ephemeral hephemeral =>
    rw [hversion.2, hkind] at hephemeral
    cases hephemeral
  | @duplicate s' e' access _ hL hid =>
    obtain rfl : e' = e := hes.identified _ (hJ _ (hf.stored s' _ hL)) _ he hid
    exact hs.append_held ⟨_, hL, rfl, rfl⟩ hversion
  | revived _ hL =>
    have hheld := hs.append_held ⟨_, hL, rfl, rfl⟩ hversion
    exact hheld.of_keeps (.update hL rfl fun _ => rfl) (.update hL rfl rfl)
  | @superseded p _ hnew hp hstays =>
    -- the version that stays is not older and not the same, so the new one is older
    obtain ⟨h, hL, hrival, hshown⟩ := hf.db.events.rivals_sound hp
    have hheld := hrival.isSome_stub?
    have hversion' := (hf.isVersion_iff_of_rival hes hJ he hL hrival).mpr hversion
    rw [Holding.yieldsTo_eq hshown (hes.times _ (hJ _ (hf.stored _ h hL)) hversion')] at hstays
    exact hs.append_older ⟨h, hL, hheld, rfl⟩ hversion'
      (Event.isOlderThan_total (hnew _ h hL hheld) hstays)
  | stored _ _ hyield =>
    refine ⟨fun s' e' hholds hversion' => ?_, fun _ =>
      ⟨_, e, Ledger.holds_stored_iff.mpr (.inl ⟨rfl, rfl⟩), hversion⟩⟩
    rcases Ledger.holds_stored_iff.mp hholds with ⟨-, rfl⟩ | ⟨-, hkept, hholds⟩
    · by_cases hne : vs = []
      · subst hne
        exact .singleton e'
      · -- the version that was held gave way, so it is older, and so is whatever it displaced
        obtain ⟨s, m, hheld, hm⟩ := hs.held hne
        obtain ⟨p, hp, -, hage⟩ := hf.exists_rival_of_version hes hJ hkind hheld hm hversion
        exact (hs.newest s m hheld hm).append (hage.symm.trans (hyield p hp))
    · -- any other version would have been found and displaced
      obtain ⟨p, hp, rfl, -⟩ := hf.exists_rival_of_version hes hJ hkind hholds hversion' hversion
      exact absurd (List.mem_map_of_mem hp) hkept

end

/-- **Saving** fails and changes nothing, or leaves the newest of the versions and of what is
saved. -/
theorem settled_save (hf : t.Follows L J) (hes : Distinguished author kind es)
    (hJ : ∀ p ∈ J, p.2 ∈ es) (he : e ∈ es) (hkind : kind.retention = .replaceable)
    (hs : L.Settled author kind vs) (now : UInt64) :
    (∃ err, t.db.save t.lease now e = (.error err, t.lease, t.db)) ∨
    ∃ o L', (t.db.save t.lease now e).1 = .ok o ∧
      L.Saved (t.db.events.rivals e) now e t.lease.next o L' ∧
      (t.step (.save now e)).Follows L' (J ++ (t.stored? (.save now e)).toList) ∧
      L'.Settled author kind (vs ++ [e].filter (·.IsVersion author kind)) := by
  have hid : ∀ p ∈ J, p.2.id = e.id → p.2 = e := fun p hp => hes.identified _ (hJ p hp) _ he
  rcases hf.save hid now with ⟨err, hsave, -⟩ | ⟨o, L', hok, hsaved, hf'⟩
  · exact .inl ⟨err, hsave⟩
  · refine .inr ⟨o, L', hok, hsaved, hf', ?_⟩
    by_cases hversion : e.IsVersion author kind
    · rw [List.filter_eq_self.mpr (by simpa using hversion)]
      exact hf.settled_of_version hes hJ he hkind hs hversion hsaved
    · rw [List.filter_eq_nil_iff.mpr (by simpa using hversion), List.append_nil]
      exact hf.settled_of_other hes hJ he hs hversion hsaved

/-- **One transaction.**  A transaction that spares records leaves the newest of the versions
saved so far. -/
theorem settled_step {x : Transaction} (hf : t.Follows L J) (hes : Distinguished author kind es)
    (hJ : ∀ p ∈ J, p.2 ∈ es) (hx : ∀ e, x.event? = some e → e ∈ es) (hspares : x.Spares)
    (hkind : kind.retention = .replaceable) (hs : L.Settled author kind vs) :
    ∃ L', (t.step x).Follows L' (J ++ (t.stored? x).toList) ∧
      L'.Settled author kind (vs ++ (t.saved? x).toList.filter (·.IsVersion author kind)) := by
  cases x with
  | save now e =>
    rcases hf.settled_save hes hJ (hx e rfl) hkind hs now with
      ⟨err, hsave⟩ | ⟨o, L', hok, -, hf', hs'⟩
    · have hstep : t.step (.save now e) = t := by rw [Tier.step, hsave]
      have hstored : t.stored? (.save now e) = none := by rw [Tier.stored?, hsave]
      have hnone : t.saved? (.save now e) = none := by rw [Tier.saved?, hsave]
      rw [hstep, hstored, hnone]
      exact ⟨L, hf.append_toList rfl, (List.append_nil vs).symm ▸ hs⟩
    · have hsome : t.saved? (.save now e) = some e := by rw [Tier.saved?, hok]
      exact ⟨L', hf', by rwa [hsome]⟩
  | delete e => exact hspares.elim
  | touch batch now =>
    have hsame := Ledger.SameForms.of_foldl_note now batch L
    exact ⟨_, (hf.touch batch now).append_toList rfl,
      (List.append_nil vs).symm ▸ hs.of_keeps hsame.within hsame.keeps⟩
  | sweepRecords victims demote =>
    obtain ⟨L', hf', hw, -, hk⟩ := hf.sweepRecords victims demote
    exact ⟨L', hf'.append_toList rfl, (List.append_nil vs).symm ▸ hs.of_keeps hw (hk hspares)⟩
  | sweepIndices victims =>
    obtain ⟨L', hf', hw, -, hk⟩ := hf.sweepIndices victims
    exact ⟨L', hf'.append_toList rfl, (List.append_nil vs).symm ▸ hs.of_keeps hw (hk hspares)⟩
  | release => exact ⟨L, hf.release.append_toList rfl, (List.append_nil vs).symm ▸ hs⟩
  | reopen batch =>
    exact ⟨L, (hf.release.start batch).append_toList rfl, (List.append_nil vs).symm ▸ hs⟩
  | crash batch => exact ⟨L, (hf.start batch).append_toList rfl, (List.append_nil vs).symm ▸ hs⟩

/-- **A run of transactions** that spare records leaves the newest of the versions saved. -/
theorem settled_run {xs : List Transaction} (hf : t.Follows L J)
    (hes : Distinguished author kind es) (hJ : ∀ p ∈ J, p.2 ∈ es)
    (hxs : ∀ e ∈ xs.filterMap (·.event?), e ∈ es) (hspares : ∀ x ∈ xs, x.Spares)
    (hkind : kind.retention = .replaceable) (hs : L.Settled author kind vs) :
    ∃ L', (t.run xs).Follows L' (J ++ t.journal xs) ∧
      L'.Settled author kind (vs ++ t.versions author kind xs) := by
  induction xs generalizing t L J vs with
  | nil =>
    refine ⟨L, by rwa [journal, List.append_nil], ?_⟩
    rwa [versions, saved, List.filter_nil, List.append_nil]
  | cons x xs ih =>
    rw [List.forall_mem_filterMap, List.forall_mem_cons, ← List.forall_mem_filterMap] at hxs
    obtain ⟨hx, hxs⟩ := hxs
    obtain ⟨hspare, hspares⟩ := List.forall_mem_cons.mp hspares
    obtain ⟨L', hf', hs'⟩ := hf.settled_step hes hJ hx hspare hkind hs
    have hJ' : ∀ p ∈ J ++ (t.stored? x).toList, p.2 ∈ es := forall_mem_append_stored hJ hx
    obtain ⟨L'', hf'', hs''⟩ := ih hf' hJ' hxs hspares hs'
    refine ⟨L'', by rwa [journal, ← List.append_assoc], ?_⟩
    rwa [versions, saved, List.filter_append, ← List.append_assoc]

/-! ### The record that is left -/

/-- The versions of which there is a record are those that the ledger holds. -/
theorem mem_survivors (hf : t.Follows L J) {p : Serial × Event} :
    p ∈ t.survivors author kind J ↔ L.Holds p.1 p.2 ∧ p.2.IsVersion author kind := by
  rw [survivors, List.mem_filter, decide_eq_true_eq]
  constructor
  · rintro ⟨hp, hversion, hrecord⟩
    obtain ⟨v, hv⟩ := Option.isSome_iff_exists.mp hrecord
    obtain ⟨h, hL, hrec⟩ := hf.db.events.record?_eq_some_iff.mp hv
    have hheld : h.stub?.isSome := by rw [Holding.stub?_of_record? hrec]; rfl
    exact ⟨⟨h, hL, hheld, hf.event_eq hL hp⟩, hversion⟩
  · rintro ⟨⟨h, hL, hheld, he⟩, hversion⟩
    have hstored := hf.stored _ h hL
    rw [he] at hstored
    refine ⟨hstored, hversion, ?_⟩
    rw [hf.db.events.record?, hL]
    cases h with
    | live e access => rfl
    | demoted e => rfl
    | queued e => cases hheld

/-- One version is held under one serial. -/
theorem eq_of_holds (hf : t.Follows L J) (hs : L.Settled author kind vs) {s' : Serial} {m' : Event}
    (hholds : L.Holds s m) (hversion : m.IsVersion author kind) (hholds' : L.Holds s' m')
    (hversion' : m'.IsVersion author kind) : s' = s ∧ m' = m := by
  obtain rfl := (hs.newest s' m' hholds' hversion').unique (hs.newest s m hholds hversion)
  obtain ⟨h, hL, hheld, he⟩ := hholds
  obtain ⟨h', hL', hheld', he'⟩ := hholds'
  exact ⟨hf.unique _ _ h' h hL' hL hheld' hheld (by rw [he, he']), rfl⟩

theorem survivors_eq (hf : t.Follows L J) (hs : L.Settled author kind vs) (hholds : L.Holds s m)
    (hversion : m.IsVersion author kind) : t.survivors author kind J = [(s, m)] := by
  have hnodup : (t.survivors author kind J).Nodup := hf.once.of_map.filter _
  refine List.perm_singleton.mp ((List.perm_ext_iff_of_nodup hnodup (List.nodup_singleton _)).mpr
    fun p => ?_)
  rw [hf.mem_survivors, List.mem_singleton]
  constructor
  · rintro ⟨hholds', hversion'⟩
    obtain ⟨hserial, hevent⟩ := hf.eq_of_holds hs hholds hversion hholds' hversion'
    exact Prod.ext hserial hevent
  · rintro rfl
    exact ⟨hholds, hversion⟩

end Tier.Follows

/-! ### The query for an author and a kind -/

/-- The filter for the versions of an author and kind. -/
def Filter.versions (author : PublicKey) (kind : Kind) : Filter :=
  (Filter.any.withAuthors [author]).withKinds [kind]

/-- The plan for the versions of an author and kind: one scan. -/
def Plan.versions (author : PublicKey) (kind : Kind) : Plan :=
  ⟨[.timed .pubkeyKind (Key.pubkeyKindStem author kind) maxUInt64],
    some { Filter.any with authors := [author] }, 0⟩

theorem Plan.ofFilter_versions (author : PublicKey) (kind : Kind) :
    ofFilter (.versions author kind) = .ok (.versions author kind) := rfl

namespace Tier.Follows
variable {t : Tier} {L : Ledger} {J : List (Serial × Event)} {es vs : List Event}
  {author : PublicKey} {kind : Kind} {m : Event} {s : Serial}

/-- A record of a version is delivered, whole or demoted. -/
theorem exists_found? {h : Holding} (hheld : h.stub?.isSome)
    (hversion : h.event.IsVersion author kind) :
    ∃ r, h.found? (Plan.versions author kind).residual = some r := by
  cases h with
  | live e access =>
    refine ⟨_, if_pos ?_⟩
    have hauthor : Filter.accepts [author] e.pubkey = true :=
      Plan.accepts_iff.mpr (.inr (List.mem_singleton.mpr hversion.1))
    show Filter.isMatch { Filter.any with authors := [author] } e = true
    simp only [Filter.isMatch, hauthor]
    rfl
  | demoted e =>
    exact ⟨.stub e.id (timeOfClamped (clampTime e.createdAt)), rfl⟩
  | queued e => cases hheld

/-- **The query finds the records of versions**, whole or demoted. -/
theorem mem_found_versions (hf : t.Follows L J) (hes : Distinguished author kind es)
    (hJ : ∀ p ∈ J, p.2 ∈ es) {hit : Hit} {pageSize : Nat} :
    hit ∈ (Plan.versions author kind).found t.db.events pageSize ↔
      ∃ h r, L hit.serial = some h ∧ h.event.IsVersion author kind ∧
        h.found? (Plan.versions author kind).residual = some r ∧
        hit = ⟨hit.serial, r.createdAt, r⟩ := by
  rw [Plan.mem_found hf.db.events fun ser h hL => hes.sized _ (hJ _ (hf.stored ser h hL))]
  · constructor
    · rintro ⟨h, r, hL, hr, heq, scan, hscan, hindex, -⟩
      obtain rfl := List.mem_singleton.mp hscan
      -- the key shows the kind and the beginning of the author
      have hl := Key.layout?_pubkeyKindStem author kind
      have hstem := (Key.timed_mem_index_iff hl rfl).mp hindex
      obtain ⟨hhead, hk⟩ := Key.pubkeyKindStem_inj.mp hstem
      have hauthor := hes.prefixes _ (hJ _ (hf.stored _ h hL)) hhead.symm
      exact ⟨h, r, hL, ⟨hauthor, hk.symm⟩, hr, heq⟩
    · rintro ⟨h, r, hL, ⟨rfl, rfl⟩, hr, heq⟩
      refine ⟨h, r, hL, hr, heq, _, List.mem_singleton_self _, ?_, UInt64.zero_le, ?_⟩
      · exact (Key.timed_mem_index_iff (Key.layout?_pubkeyKindStem _ _) rfl).mpr rfl
      · exact Plan.le_tillOf_of_none (f := Filter.any) rfl _
  · intro scan hscan
    obtain rfl := List.mem_singleton.mp hscan
    exact ⟨rfl, .pubkeyKind, Key.layout?_pubkeyKindStem author kind, rfl, nofun⟩

/-- If no version is held, the query finds nothing. -/
theorem found_versions_nil (hf : t.Follows L J) (hes : Distinguished author kind es)
    (hJ : ∀ p ∈ J, p.2 ∈ es) (hnone : ∀ s e, L.Holds s e → ¬ e.IsVersion author kind)
    (pageSize : Nat) : (Plan.versions author kind).found t.db.events pageSize = [] := by
  rw [List.eq_nil_iff_forall_not_mem]
  intro hit hhit
  obtain ⟨h, r, hL, hversion, hr, -⟩ := (hf.mem_found_versions hes hJ).mp hhit
  exact hnone _ _ ⟨h, hL, Holding.isSome_stub?_of_found? hr, rfl⟩ hversion

/-- **The query finds the record that is left**, and nothing else. -/
theorem found_versions (hf : t.Follows L J) (hes : Distinguished author kind es)
    (hJ : ∀ p ∈ J, p.2 ∈ es) (hs : L.Settled author kind vs) (hholds : L.Holds s m)
    (hversion : m.IsVersion author kind) (pageSize : Nat) :
    ∃ h r, L s = some h ∧ h.event = m ∧ h.found? (Plan.versions author kind).residual = some r ∧
      (Plan.versions author kind).found t.db.events pageSize = [⟨s, r.createdAt, r⟩] := by
  obtain ⟨h, hL, hheld, rfl⟩ := hholds
  obtain ⟨r, hr⟩ := exists_found? hheld hversion
  refine ⟨h, r, hL, rfl, hr, ?_⟩
  have hnodup := List.Nodup.of_map _ (Plan.found_nodup (.versions author kind) t.db.events pageSize)
  refine List.perm_singleton.mp ((List.perm_ext_iff_of_nodup hnodup (List.nodup_singleton _)).mpr
    fun hit => ?_)
  rw [hf.mem_found_versions hes hJ, List.mem_singleton]
  constructor
  · rintro ⟨h', r', hL', hversion', hr', heq⟩
    obtain ⟨hserial, -⟩ := hf.eq_of_holds hs ⟨h, hL, hheld, rfl⟩ hversion
      ⟨h', hL', Holding.isSome_stub?_of_found? hr', rfl⟩ hversion'
    rw [hserial, hL] at hL'
    cases hL'
    rw [hr] at hr'
    cases hr'
    rw [heq, hserial]
  · rintro rfl
    exact ⟨h, r, hL, hversion, hr, rfl⟩

end Tier.Follows

/-! ### Convergence -/

namespace Tier
variable {author : PublicKey} {kind : Kind}

/-- A new tier that goes through such a run follows a settled ledger. -/
theorem exists_settled (batch : UInt64) {xs : List Transaction}
    (hkind : kind.retention = .replaceable) (hspares : ∀ x ∈ xs, x.Spares)
    (hes : Distinguished author kind (xs.filterMap (·.event?))) :
    ∃ L, ((fresh batch).run xs).Follows L ((fresh batch).journal xs) ∧
      L.Settled author kind ((fresh batch).versions author kind xs) := by
  obtain ⟨L, hf, hs⟩ := (follows_fresh batch).settled_run hes nofun (fun _ he => he) hspares hkind
    (.empty author kind)
  exact ⟨L, hf, hs⟩

/-- **Replaceable events converge.**  After any run of transactions that spare records, of the
versions of a replaceable kind that an author published exactly one has a record, whole or
demoted, and it is the newest one of those that were saved.  A query for the author and the kind
delivers this one alone.  A run that saves the same versions in another order ends with the same
one. -/
theorem versions_converge {batch : UInt64} {xs : List Transaction}
    (hkind : kind.retention = .replaceable) (hspares : ∀ x ∈ xs, x.Spares)
    (hes : Distinguished author kind (xs.filterMap (·.event?)))
    (hne : (fresh batch).versions author kind xs ≠ []) :
    let t := (fresh batch).run xs
    ∃ s m, m.IsNewest ((fresh batch).versions author kind xs) ∧
      t.survivors author kind ((fresh batch).journal xs) = [(s, m)] ∧
      (t.db.events.record? s = some (StoredValue.encode m) ∨
        t.db.events.record? s = some m.id.bytes) ∧
      (∀ (a : Archive) (now : Int64), a.db = t.db → a.isClosed = false → a.config.maxLimit ≠ 0 →
        ∃ reading, (a.query now (.versions author kind) false).1 = .ok reading ∧
          reading.outcome = .complete ∧ reading.records.map Record.id = [m.id]) ∧
      ∀ (batch' : UInt64) (ys : List Transaction), (∀ y ∈ ys, y.Spares) →
        Distinguished author kind (ys.filterMap (·.event?)) →
        ((fresh batch').versions author kind ys).Perm ((fresh batch).versions author kind xs) →
        (((fresh batch').run ys).survivors author kind ((fresh batch').journal ys)).map (·.2) =
          [m] := by
  intro t
  obtain ⟨L, hf, hs⟩ := exists_settled batch hkind hspares hes
  have hJ : ∀ p ∈ (fresh batch).journal xs, p.2 ∈ xs.filterMap (·.event?) := fun p hp =>
    mem_of_mem_journal hp
  obtain ⟨s, m, hholds, hversion⟩ := hs.held hne
  have hnewest := hs.newest s m hholds hversion
  refine ⟨s, m, hnewest, hf.survivors_eq hs hholds hversion, ?_, ?_, ?_⟩
  · obtain ⟨h, hL, hheld, rfl⟩ := hholds
    rw [hf.db.events.record?, hL]
    cases h with
    | live e access => exact .inl rfl
    | demoted e => exact .inr rfl
    | queued e => cases hheld
  · intro a now hdb hopen hlimit
    refine ⟨_, Archive.query_eq hopen (Plan.ofFilter_versions author kind) now, rfl, ?_⟩
    obtain ⟨h, r, -, rfl, hr, hfound⟩ := hf.found_versions hes hJ hs hholds hversion
      a.config.scanPageSize.toNat
    have hpos : a.config.maxLimit.toNat ≠ 0 := fun h => hlimit (UInt64.toNat_inj.mp h)
    obtain ⟨n, hn⟩ := Nat.exists_eq_succ_of_ne_zero hpos
    have hlimit' : (a.config.effectiveLimit (Filter.versions author kind).limit).toNat = n + 1 := hn
    rw [Plan.hits_eq_take, hdb, hfound, hlimit']
    simp [Holding.id_of_found? hr]
  · intro batch' ys hspares' hes' hperm
    obtain ⟨L', hf', hs'⟩ := exists_settled batch' hkind hspares' hes'
    have hne' : (fresh batch').versions author kind ys ≠ [] := fun hnil =>
      hne (List.nil_perm.mp (hnil ▸ hperm))
    obtain ⟨s', m', hholds', hversion'⟩ := hs'.held hne'
    rw [hf'.survivors_eq hs' hholds' hversion']
    have hnewest' := hs'.newest s' m' hholds' hversion'
    rw [(hnewest.perm hperm).unique hnewest']
    rfl

/-- A newer profile is demoted, an older one does not displace it, and the other order of arrival
ends with the newer one as well. -/
theorem versions_converge_demoted :
    let old : Event := .uniform 1 7 10 0 []
    let new : Event := .uniform 2 7 20 0 [⟨["t", "x"]⟩]
    let xs : List Transaction := [.save 1 new, .sweepRecords [0] true, .save 2 old,
      .save 3 (.uniform 3 8 30 0 []), .sweepIndices [], .crash 8]
    let ys : List Transaction := [.save 1 old, .save 2 new]
    let t := (fresh 8).run xs
    let a : Archive := ⟨.standard, t.db, t.lease, false, false, none⟩
    ∃ s, t.survivors new.pubkey new.kind ((fresh 8).journal xs) = [(s, new)] ∧
      (∃ reading, (a.query 5 (.versions new.pubkey new.kind) false).1 = .ok reading ∧
        reading.outcome = .complete ∧ reading.records.map Record.id = [new.id]) ∧
      (((fresh 8).run ys).survivors new.pubkey new.kind ((fresh 8).journal ys)).map (·.2) =
        [new] := by
  intro old new xs ys t a
  have hxs : (fresh 8).versions new.pubkey new.kind xs = [new, old] := by decide +kernel
  have hys : (fresh 8).versions new.pubkey new.kind ys = [old, new] := by decide +kernel
  have hne : (fresh 8).versions new.pubkey new.kind xs ≠ [] := by
    rw [hxs]
    exact List.cons_ne_nil _ _
  have hes : Distinguished new.pubkey new.kind (xs.filterMap (·.event?)) := by decide +kernel
  have hes' : Distinguished new.pubkey new.kind (ys.filterMap (·.event?)) := by decide +kernel
  obtain ⟨s, m, hnewest, hsurvivors, -, hquery, horder⟩ :=
    @versions_converge new.pubkey new.kind 8 xs rfl (by decide) hes hne
  have hnew : new.IsNewest [new, old] := by decide +kernel
  rw [hxs] at hnewest horder
  rw [hnewest.unique hnew] at hsurvivors hquery horder
  have hdb : a.db = t.db := by with_reducible rfl
  have hopen : a.isClosed = false := rfl
  have hlimit : a.config.maxLimit ≠ 0 := by decide
  have hperm : ((fresh 8).versions new.pubkey new.kind ys).Perm [new, old] := by
    rw [hys]
    exact .swap _ _ _
  exact ⟨s, hsurvivors, hquery a 5 hdb hopen hlimit, horder 8 ys (by decide) hes' hperm⟩

end Tier
end EventArchive
