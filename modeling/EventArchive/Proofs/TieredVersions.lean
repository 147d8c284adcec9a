import EventArchive.Proofs.Convergence
import EventArchive.Proofs.TieredRuns

/-! # The versions that a tiered archive shows

The secondary tier is not collected, so of the versions of a replaceable kind it
keeps the newest one, and keeps it whole.  The local tier decides for itself: it
may demote the version it has and forget it, and then it takes any version for
new.  An older one that is saved or revived at such a time is a **reversion**
(`Ongoing.reversions`).  A query merges what both tiers have.  It delivers the
newest version first, and behind it at most one more, the older one that the
local tier has reverted to (`TieredArchive.versions_delivered`).
-/
namespace EventArchive

/-! ### Ledgers -/

/-- Nothing of a ledger is demoted or waits for a sweep. -/
def Ledger.AllWhole (L : Ledger) : Prop := ∀ s h, L s = some h → h.stub? = some false

namespace Ledger
variable {L L' : Ledger} {author : PublicKey} {kind : Kind} {vs : List Event}

/-- Saving makes what is new whole and leaves nothing of what it displaces. -/
theorem Saved.allWhole {rivals : List Prior} {now : UInt64} {e : Event} {s : Serial}
    {o : SaveOutcome} (hsaved : L.Saved rivals now e s o L') (hwhole : L.AllWhole) :
    L'.AllWhole := by
  have hupdate : ∀ {L : Ledger} s, L.AllWhole →
      AllWhole (Function.update L s (some (.live e now))) := by
    intro L s hwhole s' h hL'
    by_cases hs : s' = s
    · subst hs
      rw [Function.update_self] at hL'
      cases hL'
      rfl
    · rw [Function.update_of_ne hs] at hL'
      exact hwhole s' h hL'
  cases hsaved with
  | ephemeral => exact hwhole
  | duplicate => exact hwhole
  | superseded => exact hwhole
  | revived => exact hupdate _ hwhole
  | stored =>
    refine hupdate _ fun s' h hL' => ?_
    rw [displace] at hL'
    split at hL'
    · obtain ⟨h', hL, hdisplaced⟩ := Option.bind_eq_some_iff.mp hL'
      have hstub := hwhole s' h' hL
      cases h' with
      | live e' t => cases hdisplaced
      | demoted e' => cases hstub
      | queued e' => cases hstub
    · exact hwhole s' h hL'

theorem SameForms.allWhole (hsame : L'.SameForms L) (hwhole : L.AllWhole) : L'.AllWhole := by
  intro s h hL'
  obtain ⟨h', hL, -, hstub⟩ := hsame.exists_of_eq_some hL'
  exact hstub ▸ hwhole s h' hL

/-- What adds no record leaves a ledger settled, or without any version. -/
theorem Settled.of_within (hs : L.Settled author kind vs) (hw : L'.Within L) :
    L'.Settled author kind vs ∨ L'.Settled author kind [] := by
  by_cases hheld : ∃ s e, L'.Holds s e ∧ e.IsVersion author kind
  · exact .inl ⟨fun s e hholds => hs.newest s e (hw.holds hholds), fun _ => hheld⟩
  · exact .inr ⟨fun s e hholds hversion => absurd ⟨s, e, hholds, hversion⟩ hheld,
      fun hne => absurd rfl hne⟩

/-- A ledger that is settled on some versions holds the newest one. -/
theorem Settled.exists_newest (hs : L.Settled author kind vs) (hne : vs ≠ []) :
    ∃ s m, L.Holds s m ∧ m.IsVersion author kind ∧ m.IsNewest vs := by
  obtain ⟨s, m, hholds, hversion⟩ := hs.held hne
  exact ⟨s, m, hholds, hversion, hs.newest s m hholds hversion⟩

end Ledger

/-- Which event is the newest of some depends on which ones they are. -/
theorem Event.isNewest_congr {vs ws : List Event} {m : Event} (h : ∀ v, v ∈ ws ↔ v ∈ vs) :
    m.IsNewest ws ↔ m.IsNewest vs := by
  rw [IsNewest, IsNewest, h]
  exact and_congr_right fun _ => forall_congr' fun v => by rw [h]

/-- If two lists have the same newest member, so they have when they go on with the same event. -/
theorem Event.IsNewest.append_congr {vs ws : List Event} {a b m : Event} (hws : a.IsNewest ws)
    (hvs : a.IsNewest vs) (hid : b.id = a.id → b = a) (hm : m.IsNewest (ws ++ [b])) :
    m.IsNewest (vs ++ [b]) := by
  by_cases hsame : b = a
  · subst hsame
    rw [hm.unique (hws.append_of_mem hws.1)]
    exact hvs.append_of_mem hvs.1
  · cases hage : b.isOlderThan a with
    | true =>
      rw [hm.unique (hws.append_of_isOlderThan hage)]
      exact hvs.append_of_isOlderThan hage
    | false =>
      have hnewer : a.isOlderThan b = true :=
        isOlderThan_total (fun h => hsame (hid h)) hage
      rw [hm.unique (hws.append hnewer)]
      exact hvs.append hnewer

/-! ### One tier -/

namespace Archive
variable {a : Archive} {author : PublicKey} {kind : Kind} {es vs : List Event} {e m : Event}
  {loyal : Prop}

/-- Whether saving an event makes a tier that has no version take one that is not the newest. -/
def reverts (a : Archive) (author : PublicKey) (kind : Kind) (vs : List Event) (e : Event) : Bool :=
  e.IsVersion author kind ∧ a.db.events.rivals e = [] ∧ ¬ e.IsNewest vs

/-- **A tier remembers versions**: what it has of the author and kind is the newest of some of
them, and of all of them if it is loyal and has one. -/
def Remembers (a : Archive) (author : PublicKey) (kind : Kind) (es vs : List Event)
    (loyal : Prop) : Prop :=
  ∃ L J ws, a.tier.Follows L J ∧ (∀ p ∈ J, p.2 ∈ es) ∧ L.Settled author kind ws ∧
    (∀ w ∈ ws, w ∈ vs) ∧ (loyal → ∀ m : Event, m.IsNewest ws → m.IsNewest vs)

/-- **A tier keeps versions**: it has the newest one, whole. -/
def Keeps (a : Archive) (author : PublicKey) (kind : Kind) (es vs : List Event) : Prop :=
  ∃ L J, a.tier.Follows L J ∧ (∀ p ∈ J, p.2 ∈ es) ∧ L.Settled author kind vs ∧ L.AllWhole

/-- Saving fails and changes nothing, or follows the ledger in which it went through. -/
theorem save_settles {L : Ledger} {J : List (Serial × Event)} (hopen : a.isClosed = false)
    (hf : a.tier.Follows L J) (hes : Distinguished author kind es) (hJ : ∀ p ∈ J, p.2 ∈ es)
    (he : e ∈ es) (hkind : kind.retention = .replaceable) (hs : L.Settled author kind vs)
    (now : Int64) :
    ((a.save now e).2 = a ∧ (a.save now e).1.isOk = false) ∨
    ∃ L' J' o, (a.save now e).1 = .ok o ∧ (a.save now e).2.tier.Follows L' J' ∧
      (∀ p ∈ J', p.2 ∈ es) ∧
      L.Saved (a.db.events.rivals e) (clampTime now) e a.lease.next o L' ∧
      L'.Settled author kind (vs ++ [e].filter (·.IsVersion author kind)) := by
  rw [save_eq hopen]
  rcases hf.settled_save hes hJ he hkind hs (clampTime now) with
    ⟨err, hsave⟩ | ⟨o, L', hok, hsaved, hf', hs'⟩
  · have hstep : a.tier.step (.save (clampTime now) e) = a.tier := by rw [Tier.step, hsave]
    have hsave : a.db.save a.lease (clampTime now) e = (.error err, a.lease, a.db) := hsave
    rw [hstep, hsave]
    exact .inl ⟨rfl, rfl⟩
  · refine .inr ⟨L', _, o, hok, hf', Tier.forall_mem_append_stored hJ fun a ha => ?_, hsaved, hs'⟩
    obtain rfl := Option.some.inj ha
    exact he

namespace Keeps
variable (hk : a.Keeps author kind es vs)
include hk

/-- What a tier keeps goes on to be the newest of what is saved in it. -/
theorem save (hopen : a.isClosed = false) (hes : Distinguished author kind es) (he : e ∈ es)
    (hkind : kind.retention = .replaceable) {now : Int64} (hok : (a.save now e).1.isOk) :
    (a.save now e).2.Keeps author kind es (vs ++ [e].filter (·.IsVersion author kind)) := by
  obtain ⟨L, J, hf, hJ, hs, hwhole⟩ := hk
  rcases save_settles hopen hf hes hJ he hkind hs now with
    ⟨-, hfails⟩ | ⟨L', J', o, -, hf', hJ', hsaved, hs'⟩
  · rw [hfails] at hok
    cases hok
  · exact ⟨L', J', hf', hJ', hs', hsaved.allWhole hwhole⟩

theorem noteAccesses (now : Int64) (hits : List Hit) :
    (a.noteAccesses now hits).Keeps author kind es vs := by
  obtain ⟨L, J, hf, hJ, hs, hwhole⟩ := hk
  obtain ⟨L', hf', hsame⟩ := follows_noteAccesses hf now hits
  exact ⟨L', J, hf', hJ, hs.of_keeps hsame.within hsame.keeps, hsame.allWhole hwhole⟩

/-- The versions that a tier has whole are the newest one. -/
theorem newest_of_stored (hfits : ∀ e ∈ es, e.Sized) (he : e ∈ a.db.events.storedEvents)
    (hversion : e.IsVersion author kind) : e.IsNewest vs := by
  obtain ⟨L, J, hf, hJ, hs, -⟩ := hk
  have hr : a.db.events.Renders L := hf.db.events
  obtain ⟨s, t, hL⟩ := (hr.mem_storedEvents (hf.sized fun p hp => hfits _ (hJ p hp))).mp he
  exact hs.newest s e ⟨_, hL, rfl, rfl⟩ hversion

end Keeps

namespace Remembers

/-- Saving what is known to be a version leaves a tier that remembers versions, and a loyal one if
the tier does not revert. -/
theorem save (hr : a.Remembers author kind es vs loyal) (hopen : a.isClosed = false)
    (hes : Distinguished author kind es) (he : e ∈ es) (hvs : ∀ v ∈ vs, v ∈ es)
    (hkind : kind.retention = .replaceable) {now : Int64} (hok : (a.save now e).1.isOk) :
    (a.save now e).2.Remembers author kind es (vs ++ [e].filter (·.IsVersion author kind))
      (loyal ∧ a.reverts author kind (vs ++ [e].filter (·.IsVersion author kind)) e = false) := by
  obtain ⟨L, J, ws, hf, hJ, hs, hws, hloyal⟩ := hr
  rcases save_settles hopen hf hes hJ he hkind hs now with
    ⟨-, hfails⟩ | ⟨L', J', o, -, hf', hJ', -, hs'⟩
  · rw [hfails] at hok
    cases hok
  refine ⟨L', J', _, hf', hJ', hs', fun w hw => ?_, fun ⟨hl, hkeeps⟩ m hm => ?_⟩
  · rcases List.mem_append.mp hw with hw | hw
    · exact List.mem_append_left _ (hws w hw)
    · exact List.mem_append_right _ hw
  · by_cases hversion : e.IsVersion author kind
    · have hfilter : [e].filter (·.IsVersion author kind) = [e] :=
        List.filter_eq_self.mpr (by simpa using hversion)
      rw [hfilter] at hm hkeeps ⊢
      by_cases hne : ws = []
      · -- the tier has no version, so it takes this one whatever it is
        subst hne
        obtain rfl : e = m := (Event.IsNewest.singleton e).unique hm
        have hrivals : a.db.events.rivals e = [] := by
          rw [List.eq_nil_iff_forall_not_mem]
          intro p hp
          obtain ⟨h, hL, hrival, -⟩ := hf.db.events.rivals_sound hp
          have hversion' := (hf.isVersion_iff_of_rival hes hJ he hL hrival).mpr hversion
          have hnewest := hs.newest _ _ ⟨h, hL, hrival.isSome_stub?, rfl⟩ hversion'
          cases hnewest.1
        by_contra hold
        rw [reverts, decide_eq_false_iff_not] at hkeeps
        exact hkeeps ⟨hversion, hrivals, hold⟩
      · obtain ⟨s, n, -, -, hn⟩ := hs.exists_newest hne
        refine hn.append_congr (hloyal hl n hn) (fun hid => ?_) hm
        exact hes.identified _ he _ (hvs n (hws n hn.1)) hid
    · have hfilter : [e].filter (·.IsVersion author kind) = [] :=
        List.filter_eq_nil_iff.mpr (by simpa using hversion)
      rw [hfilter, List.append_nil] at hm ⊢
      exact hloyal hl m hm

theorem congr {us : List Event} (hr : a.Remembers author kind es us loyal)
    (h : ∀ v, v ∈ us ↔ v ∈ vs) : a.Remembers author kind es vs loyal := by
  obtain ⟨L, J, ws, hf, hJ, hs, hws, hloyal⟩ := hr
  exact ⟨L, J, ws, hf, hJ, hs, fun w hw => (h w).mp (hws w hw),
    fun hl m hm => (Event.isNewest_congr h).mp (hloyal hl m hm)⟩

theorem imp {loyal' : Prop} (hr : a.Remembers author kind es vs loyal) (h : loyal' → loyal) :
    a.Remembers author kind es vs loyal' := by
  obtain ⟨L, J, ws, hf, hJ, hs, hws, hloyal⟩ := hr
  exact ⟨L, J, ws, hf, hJ, hs, hws, hloyal ∘ h⟩

/-- What changes no ledger but for what it forgets leaves a tier that remembers versions. -/
theorem of_within {a' : Archive} (hr : a.Remembers author kind es vs loyal)
    (h : ∀ L J, a.tier.Follows L J → ∃ L', a'.tier.Follows L' J ∧ L'.Within L) :
    a'.Remembers author kind es vs loyal := by
  obtain ⟨L, J, ws, hf, hJ, hs, hws, hloyal⟩ := hr
  obtain ⟨L', hf', hw⟩ := h L J hf
  rcases hs.of_within hw with hs' | hs'
  · exact ⟨L', J, ws, hf', hJ, hs', hws, hloyal⟩
  · exact ⟨L', J, [], hf', hJ, hs', nofun, fun _ m hm => nomatch hm.1⟩

theorem collect (hr : a.Remembers author kind es vs loyal) (hopen : a.isClosed = false) :
    a.collect.2.Remembers author kind es vs loyal := by
  refine hr.of_within fun L J hf => ?_
  obtain ⟨victims, stale, heq⟩ := collect_eq hopen
  rw [heq]
  obtain ⟨L', hf', hw, -, -⟩ := hf.sweepRecords victims a.demotes
  obtain ⟨L'', hf'', hw', -, -⟩ := hf'.sweepIndices stale
  exact ⟨L'', hf'', hw'.trans hw⟩

theorem noteAccesses (hr : a.Remembers author kind es vs loyal) (now : Int64) (hits : List Hit) :
    (a.noteAccesses now hits).Remembers author kind es vs loyal := by
  refine hr.of_within fun L J hf => ?_
  obtain ⟨L', hf', hsame⟩ := follows_noteAccesses hf now hits
  exact ⟨L', hf', hsame.within⟩

/-- Saving a version that is known already, or something else. -/
theorem saveKnown (hr : a.Remembers author kind es vs loyal) (hopen : a.isClosed = false)
    (hes : Distinguished author kind es) (he : e ∈ es) (hvs : ∀ v ∈ vs, v ∈ es)
    (hkind : kind.retention = .replaceable) (hknown : e.IsVersion author kind → e ∈ vs)
    (now : Int64) : (a.save now e).2.Remembers author kind es vs
      (loyal ∧ a.reverts author kind vs e = false) := by
  cases hok : (a.save now e).1.isOk with
  | true =>
    have hsame : ∀ v, v ∈ vs ++ [e].filter (·.IsVersion author kind) ↔ v ∈ vs := by
      intro v
      rw [List.mem_append, List.mem_filter, List.mem_singleton, decide_eq_true_eq]
      exact or_iff_left_of_imp fun ⟨heq, hversion⟩ => heq ▸ hknown (heq ▸ hversion)
    refine ((hr.save hopen hes he hvs hkind hok).congr hsame).imp (And.imp_right fun hkeeps => ?_)
    rw [reverts, decide_eq_false_iff_not] at hkeeps ⊢
    rwa [Event.isNewest_congr hsame]
  | false =>
    obtain ⟨L, J, ws, hf, hJ, hs, hws, hloyal⟩ := id hr
    rcases save_settles hopen hf hes hJ he hkind hs now with ⟨hsame, -⟩ | ⟨_, _, o, hok', -⟩
    · rw [hsame]
      exact hr.imp And.left
    · rw [hok'] at hok
      cases hok

/-- Saving nothing but other events and the newest version leaves a tier that remembers versions. -/
theorem saveAll (hr : a.Remembers author kind es vs loyal) (hopen : a.isClosed = false)
    (hes : Distinguished author kind es) (hvs : ∀ v ∈ vs, v ∈ es)
    (hkind : kind.retention = .replaceable) (now : Int64) {saved : List Event}
    (hsaved : ∀ e ∈ saved, e ∈ es ∧ (e.IsVersion author kind → e.IsNewest vs)) :
    (a.saveAll now saved).Remembers author kind es vs loyal := by
  induction saved generalizing a with
  | nil => exact hr
  | cons e saved ih =>
    obtain ⟨he, hnewest⟩ := hsaved e List.mem_cons_self
    have hkeeps : a.reverts author kind vs e = false := by
      rw [reverts, decide_eq_false_iff_not]
      exact fun ⟨hversion, _, hold⟩ => hold (hnewest hversion)
    have hnext := hr.saveKnown hopen hes he hvs hkind (fun hversion => (hnewest hversion).1) now
    refine ih (hnext.imp fun hl => ⟨hl, hkeeps⟩) ?_ fun e' he' =>
      hsaved e' (List.mem_cons_of_mem _ he')
    show (a.save now e).2.isClosed = false
    rw [save_eq hopen]
    exact hopen

end Remembers
end Archive

/-! ### Both tiers -/

/-- Both tiers succeed if they do together. -/
theorem isOk_of_isOk_joinTiers {α β γ : Type} {a : Except ArchiveError α}
    {b : Except ArchiveError β} {f : α × β → γ} (hok : ((joinTiers a b).map f).isOk = true) :
    a.isOk = true ∧ b.isOk = true := by
  cases a with
  | error err => cases b <;> cases hok
  | ok x =>
    cases b with
    | error err => cases hok
    | ok y => exact ⟨rfl, rfl⟩

/-- Whether an action deletes nothing. -/
def Action.Retains : Action → Prop
  | .delete _ => False
  | _ => True

instance (x : Action) : Decidable x.Retains := by
  cases x <;> unfold Action.Retains <;> infer_instance

/-- The versions that an action saves. -/
def Action.versions (author : PublicKey) (kind : Kind) : Action → List Event
  | .save _ e => [e].filter (·.IsVersion author kind)
  | _ => []

namespace Ongoing
variable {o : Ongoing} {author : PublicKey} {kind : Kind} {es vs : List Event} {x : Action}
  {loyal : Prop}

/-- Whether what an action saves goes through in both tiers. -/
def succeeds (o : Ongoing) : Action → Bool
  | .save now e => (o.archive.save now e).1.isOk
  | _ => true

/-- Whether all that some actions save goes through in both tiers. -/
def allSucceed (o : Ongoing) : List Action → Bool
  | [] => true
  | x :: xs => o.succeeds x && (o.step x).allSucceed xs

/-- Whether an action makes the local tier, which has no version, take one that is not the
newest. -/
def reverts (o : Ongoing) (author : PublicKey) (kind : Kind) (vs : List Event) : Action → Bool
  | .save _ e =>
    o.archive.primary.reverts author kind (vs ++ [e].filter (·.IsVersion author kind)) e
  | .revive _ n => o.outstanding[n]?.any (o.archive.primary.reverts author kind vs)
  | _ => false

/-- How many of some actions do so. -/
def reversions (o : Ongoing) (author : PublicKey) (kind : Kind) (vs : List Event) :
    List Action → Nat
  | [] => 0
  | x :: xs => (if o.reverts author kind vs x then 1 else 0) +
      (o.step x).reversions author kind (vs ++ x.versions author kind) xs

/-- **Both tiers know of the versions**: the secondary one keeps them, the local one remembers
them, and those that have still to be revived were saved. -/
structure Tracks (o : Ongoing) (author : PublicKey) (kind : Kind) (es vs : List Event)
    (loyal : Prop) : Prop where
  healthy : o.Healthy es
  known : ∀ v ∈ vs, v ∈ es
  primary : o.archive.primary.Remembers author kind es vs loyal
  secondary : o.archive.secondary.Keeps author kind es vs
  outstanding : ∀ e ∈ o.outstanding, e.IsVersion author kind → e ∈ vs

namespace Tracks
variable (h : o.Tracks author kind es vs loyal) (hes : Distinguished author kind es)
include h

theorem imp {loyal' : Prop} (himp : loyal' → loyal) : o.Tracks author kind es vs loyal' :=
  ⟨h.healthy, h.known, h.primary.imp himp, h.secondary, h.outstanding⟩

include hes

/-- Saving in both tiers. -/
theorem save {now : Int64} {e : Event} (hkind : kind.retention = .replaceable) (he : e ∈ es)
    (hok : o.succeeds (.save now e) = true) :
    (o.step (.save now e)).Tracks author kind es (vs ++ [e].filter (·.IsVersion author kind))
      (loyal ∧ o.reverts author kind vs (.save now e) = false) := by
  have hhealthy := h.healthy.step (x := .save now e) hes.identified hes.sized fun a ha =>
    Option.some.inj ha ▸ he
  rw [succeeds, TieredArchive.save_undisturbed h.healthy.link] at hok
  rw [Ongoing.step, TieredArchive.save_undisturbed h.healthy.link] at hhealthy ⊢
  obtain ⟨hprimary, hsecondary⟩ := isOk_of_isOk_joinTiers hok
  refine ⟨hhealthy, fun v hv => ?_, ?_, ?_, fun e' he' hversion => ?_⟩
  · rcases List.mem_append.mp hv with hv | hv
    · exact h.known v hv
    · rwa [List.mem_singleton.mp (List.mem_of_mem_filter hv)]
  · exact h.primary.save h.healthy.primary.isOpen hes he h.known hkind hprimary
  · exact h.secondary.save h.healthy.secondary.isOpen hes he hkind hsecondary
  · exact List.mem_append_left _ (h.outstanding e' he' hversion)

/-- Reading what a query delivers. -/
theorem ask (order : Nat → Nat) (now : Int64) (f : Filter) (read : Option Nat)
    (cancelled : Bool) :
    (o.step (.ask order now f read cancelled)).Tracks author kind es vs loyal := by
  have hhealthy := h.healthy.step (x := .ask order now f read cancelled) hes.identified hes.sized
    nofun
  obtain ⟨hits, hits', heq, -⟩ := o.archive.ask_cases order now f read cancelled
  refine ⟨hhealthy, h.known, ?_, ?_, fun e he hversion => ?_⟩
  · show (o.archive.ask order now f read cancelled).1.primary.Remembers author kind es vs loyal
    rw [heq]
    exact h.primary.noteAccesses now hits
  · show (o.archive.ask order now f read cancelled).1.secondary.Keeps author kind es vs
    rw [heq]
    exact h.secondary.noteAccesses now hits'
  · rcases mem_outstanding_of_ask he with he | ⟨i, hfound⟩
    · exact h.outstanding e he hversion
    · -- what a lookup finds is the version that the secondary tier keeps
      rw [h.healthy.link, h.healthy.secondary.fetch_eq_found_iff hes.sized] at hfound
      exact (h.secondary.newest_of_stored hes.sized hfound.1 hversion).1

/-- Reviving what is outstanding. -/
theorem revive (hkind : kind.retention = .replaceable) (now : Int64) (n : Nat) :
    (o.step (.revive now n)).Tracks author kind es vs
      (loyal ∧ o.reverts author kind vs (.revive now n) = false) := by
  have hhealthy := h.healthy.step (x := .revive now n) hes.identified hes.sized nofun
  rw [Ongoing.step, Ongoing.revive] at hhealthy ⊢
  cases hn : o.outstanding[n]? with
  | none => exact h.imp And.left
  | some e =>
    have he : e ∈ o.outstanding := List.mem_of_getElem? hn
    rw [hn] at hhealthy
    rw [reverts, hn]
    refine ⟨hhealthy, h.known, ?_, h.secondary, fun e' he' => ?_⟩
    · exact h.primary.saveKnown h.healthy.primary.isOpen hes (h.healthy.outstanding e he) h.known
        hkind (h.outstanding e he) now
    · exact h.outstanding e' (List.mem_of_mem_eraseIdx he')

/-- Polling. -/
theorem poll (hkind : kind.retention = .replaceable) (now : Int64) (p : Poller) :
    (o.step (.poll now p)).Tracks author kind es vs loyal := by
  have hhealthy := h.healthy.step (x := .poll now p) hes.identified hes.sized nofun
  obtain ⟨saved, hits, hprimary, hsecondary, -, hsaved⟩ :=
    TieredArchive.poll_cases h.healthy.link now p
  refine ⟨hhealthy, h.known, ?_, ?_, h.outstanding⟩
  · show (o.archive.poll now p).primary.Remembers author kind es vs loyal
    rw [hprimary]
    refine h.primary.saveAll h.healthy.primary.isOpen hes h.known hkind now fun e he => ?_
    obtain ⟨feed, hfeed, hit, hhit, hrecord⟩ := hsaved e he
    have hstored := h.healthy.secondary.stored_of_feed hes.sized hfeed hhit hrecord
    exact ⟨h.healthy.secondary.mem_of_stored hes.sized hstored,
      h.secondary.newest_of_stored hes.sized hstored⟩
  · show (o.archive.poll now p).secondary.Keeps author kind es vs
    rw [hsecondary]
    exact h.secondary.noteAccesses now hits

/-- **One action** leaves both tiers knowing of the versions. -/
theorem step (hkind : kind.retention = .replaceable) (hx : ∀ e, x.event? = some e → e ∈ es)
    (hretains : x.Retains) (hok : o.succeeds x = true) :
    (o.step x).Tracks author kind es (vs ++ x.versions author kind)
      (loyal ∧ o.reverts author kind vs x = false) := by
  have hsame : ∀ {o' : Ongoing}, o'.Tracks author kind es vs loyal →
      o'.Tracks author kind es (vs ++ []) (loyal ∧ false = false) := by
    intro o' h'
    rwa [List.append_nil, eq_self, and_true]
  cases x with
  | save now e => exact h.save hes hkind (hx e rfl) hok
  | delete e => exact hretains.elim
  | collect =>
    have hhealthy := h.healthy.step (x := .collect) hes.identified hes.sized nofun
    exact hsame ⟨hhealthy, h.known, h.primary.collect h.healthy.primary.isOpen, h.secondary,
      h.outstanding⟩
  | ask order now f read cancelled => exact hsame (h.ask hes order now f read cancelled)
  | revive now n =>
    show (o.step _).Tracks author kind es (vs ++ []) _
    rw [List.append_nil]
    exact h.revive hes hkind now n
  | poll now p => exact hsame (h.poll hes hkind now p)

/-- **A run of actions** leaves both tiers knowing of the versions, and the local tier loyal if it
has not reverted. -/
theorem run {xs : List Action} (hkind : kind.retention = .replaceable)
    (hxs : ∀ e ∈ xs.filterMap Action.event?, e ∈ es) (hretains : ∀ x ∈ xs, x.Retains)
    (hok : o.allSucceed xs = true) :
    (o.run xs).Tracks author kind es (vs ++ xs.flatMap (Action.versions author kind))
      (loyal ∧ o.reversions author kind vs xs = 0) := by
  induction xs generalizing o vs loyal with
  | nil =>
    rw [List.flatMap_nil, List.append_nil, reversions, eq_self, and_true]
    exact h
  | cons x xs ih =>
    rw [List.forall_mem_filterMap, List.forall_mem_cons, ← List.forall_mem_filterMap] at hxs
    rw [allSucceed, Bool.and_eq_true] at hok
    obtain ⟨hretain, hretains⟩ := List.forall_mem_cons.mp hretains
    have hnext := h.step hes hkind hxs.1 hretain hok.1
    have hend := ih hnext hxs.2 hretains hok.2
    rw [List.flatMap_cons, ← List.append_assoc]
    refine hend.imp fun ⟨hl, hnone⟩ => ?_
    rw [reversions] at hnone
    obtain ⟨hfirst, hrest⟩ := Nat.add_eq_zero_iff.mp hnone
    refine ⟨⟨hl, ?_⟩, hrest⟩
    by_contra hreverts
    rw [Bool.not_eq_false] at hreverts
    rw [hreverts] at hfirst
    cases hfirst

end Tracks

/-- Two empty tiers that begin to work together know of no version. -/
theorem Tracks.join {config config' : Config} {primary secondary : Archive}
    (hprimary : Archive.start config .empty = .ok primary)
    (hsecondary : Archive.start config' .empty = .ok secondary) (author : PublicKey) (kind : Kind)
    (hid : Identified es) : (join primary secondary).Tracks author kind es [] True := by
  have hempty : ∀ {config : Config} {a : Archive}, Archive.start config .empty = .ok a →
      a.Serves es ∧ a.tier.Follows (fun _ => none) [] := by
    intro config a hstart
    refine ⟨(Archive.Reached.start hstart).serves (Archive.isClosed_of_start hstart) nofun hid, ?_⟩
    rw [Archive.tier_of_start hstart]
    exact Tier.follows_fresh config.serialBatch
  obtain ⟨hserves, hf⟩ := hempty hprimary
  obtain ⟨hserves', hf'⟩ := hempty hsecondary
  have hs := Ledger.Settled.empty author kind
  exact ⟨.join hserves hserves', nofun, ⟨_, [], [], hf, nofun, hs, nofun, fun _ _ hm => hm⟩,
    ⟨_, [], hf', nofun, hs, nofun⟩, nofun⟩

end Ongoing

/-! ### Queries for versions -/

namespace Archive
variable {a : Archive} {author : PublicKey} {kind : Kind} {es vs : List Event} {loyal : Prop}

/-- What a tier sends that is settled on some versions: nothing if there are none, or else the
record of the newest one. -/
theorem Serves.feed_of_settled (hserves : a.Serves es) (hes : Distinguished author kind es)
    {L : Ledger} {J : List (Serial × Event)} (hf : a.tier.Follows L J) (hJ : ∀ p ∈ J, p.2 ∈ es)
    {ws : List Event} (hs : L.Settled author kind ws) :
    (ws = [] ∧ a.feed (.versions author kind) false = .ok (.ofQuery [])) ∨
    ∃ s h r, L s = some h ∧ h.event.IsVersion author kind ∧ h.event.IsNewest ws ∧
      h.found? (Plan.versions author kind).residual = some r ∧
      a.feed (.versions author kind) false = .ok (.ofQuery [⟨s, r.createdAt, r⟩]) := by
  rw [feed_eq hserves.isOpen (Plan.ofFilter_versions author kind), Plan.hits_eq_take]
  have hone := effectiveLimit_pos hserves.limit (Filter.versions author kind).limit
  rcases Decidable.em (ws = []) with rfl | hne
  · have hfound : (Plan.versions author kind).found a.db.events a.config.scanPageSize.toNat = [] :=
      hf.found_versions_nil hes hJ (fun s e hholds hversion =>
        nomatch (hs.newest s e hholds hversion).1) _
    rw [hfound, List.take_nil]
    exact .inl ⟨rfl, rfl⟩
  · obtain ⟨s, m, hholds, hversion, hnewest⟩ := hs.exists_newest hne
    obtain ⟨h, r, hL, rfl, hr, hfound⟩ := hf.found_versions hes hJ hs hholds hversion
      a.config.scanPageSize.toNat
    have hfound : (Plan.versions author kind).found a.db.events a.config.scanPageSize.toNat =
      [⟨s, r.createdAt, r⟩] := hfound
    rw [hfound, List.take_of_length_le hone]
    exact .inr ⟨s, h, r, hL, hversion, hnewest, hr, rfl⟩

/-- A tier that keeps versions sends the newest one, whole. -/
theorem Keeps.feed_versions (hk : a.Keeps author kind es vs) (hserves : a.Serves es)
    (hes : Distinguished author kind es) :
    (vs = [] ∧ a.feed (.versions author kind) false = .ok (.ofQuery [])) ∨
    ∃ s m, m.IsNewest vs ∧
      a.feed (.versions author kind) false = .ok (.ofQuery [⟨s, m.createdAt, .full m⟩]) := by
  obtain ⟨L, J, hf, hJ, hs, hwhole⟩ := hk
  rcases hserves.feed_of_settled hes hf hJ hs with hnone | ⟨s, h, r, hL, -, hnewest, hr, hfeed⟩
  · exact .inl hnone
  · have hstub := hwhole s h hL
    rcases Holding.found?_cases hr with ⟨m, access, rfl, rfl⟩ | ⟨m, rfl, -⟩
    · exact .inr ⟨s, m, hnewest, hfeed⟩
    · cases hstub

/-- A tier that remembers versions sends one of them, the newest one if it is loyal, or none. -/
theorem Remembers.feed_versions (hr : a.Remembers author kind es vs loyal) (hserves : a.Serves es)
    (hes : Distinguished author kind es) :
    a.feed (.versions author kind) false = .ok (.ofQuery []) ∨
    ∃ s v r, v ∈ vs ∧ v.IsVersion author kind ∧ (loyal → v.IsNewest vs) ∧
      ((r = .full v ∧ v ∈ a.db.events.storedEvents) ∨ ∃ time, r = .stub v.id time) ∧
      a.feed (.versions author kind) false = .ok (.ofQuery [⟨s, r.createdAt, r⟩]) := by
  obtain ⟨L, J, ws, hf, hJ, hs, hws, hloyal⟩ := hr
  rcases hserves.feed_of_settled hes hf hJ hs with
    ⟨-, hfeed⟩ | ⟨s, h, r, hL, hversion, hnewest, hfound, hfeed⟩
  · exact .inl hfeed
  · refine .inr ⟨s, h.event, r, hws _ hnewest.1, hversion, fun hl => hloyal hl _ hnewest, ?_, hfeed⟩
    rcases Holding.found?_cases hfound with ⟨v, access, rfl, rfl⟩ | ⟨v, rfl, rfl⟩
    · have hr : a.db.events.Renders L := hf.db.events
      have hstored := (hr.mem_storedEvents (hf.sized fun p hp => hes.sized _ (hJ p hp))).mpr
        ⟨s, access, hL⟩
      exact .inl ⟨rfl, hstored⟩
    · exact .inr ⟨_, rfl⟩

end Archive

namespace TieredArchive
variable {author : PublicKey} {kind : Kind} {es vs : List Event} {o : Ongoing} {loyal : Prop}

/-- **What a query for versions delivers**: the newest one and, if the local tier is not loyal, at
most an older one that it has whole. -/
theorem query_of_tracks (h : o.Tracks author kind es vs loyal)
    (hes : Distinguished author kind es) (order : Nat → Nat) (now : Int64) :
    ∃ records, (o.archive.query order now (.versions author kind) false).1 =
        .ok ⟨records, [], .complete⟩ ∧
      ((vs = [] ∧ records = []) ∨ ∃ m : Event, m.IsNewest vs ∧ (records = [.full m] ∨
        ∃ v ∈ vs, v.isOlderThan m = true ∧ v ∈ o.archive.primary.db.events.storedEvents ∧
          records = [.full m, .full v] ∧ ¬ loyal)) := by
  let f := Filter.versions author kind
  let lookup := fun i => (Link.undisturbed.fetch o.archive.secondary i).1
  have hserves := h.healthy.secondary
  have hfetch : ∀ i, lookup i ≠ .failed := Link.fetch_ne_failed hserves.isOpen
  have hlimit : 0 < o.archive.limitFor f := Archive.effectiveLimit_pos h.healthy.primary.limit _
  have hlocal := h.primary.feed_versions h.healthy.primary hes
  rcases h.secondary.feed_versions hserves hes with ⟨rfl, hq⟩ | ⟨s, m, hnewest, hq⟩
  · rcases hlocal with hp | ⟨s, v, r, hv, -⟩
    · have hquery := query_short h.healthy.link hp hq (Nat.zero_le _) (Nat.zero_le _) hfetch
      exact ⟨_, hquery order now, .inl ⟨rfl, TierMerge.run_nil _ _ _ _⟩⟩
    · cases hv
  have hquery : ∀ p : List Hit, o.archive.primary.feed f false = .ok (.ofQuery p) → p.length ≤ 1 →
      (o.archive.query order now f false).1 = .ok ⟨(TierMerge.run f lookup order
        (o.archive.limitFor f) (p.map Hit.record) [.full m]).records, [], .complete⟩ :=
    fun p hp hlength => query_short h.healthy.link hp hq hlength (Nat.le_refl _) hfetch order now
  rcases hlocal with hp | ⟨s', v, r, hv, hversion, hloyal, ⟨rfl, hstored⟩ | ⟨time, rfl⟩, hp⟩
  · refine ⟨_, hquery [] hp (Nat.zero_le _), .inr ⟨m, hnewest, .inl ?_⟩⟩
    exact TierMerge.run_of_one (fun r hr => absurd hr List.not_mem_nil) order hlimit
  · have hquery := hquery _ hp (Nat.le_refl _)
    by_cases hsame : v = m
    · refine ⟨_, hquery, .inr ⟨m, hnewest, .inl (TierMerge.run_of_one ?_ order hlimit)⟩⟩
      intro r hr e he
      rw [List.mem_singleton.mp hr] at he
      exact (Option.some.inj he).symm.trans hsame
    · have hold : v.isOlderThan m = true := hnewest.2 v hv hsame
      have hid : m.id ≠ v.id := fun hid =>
        hsame (hes.identified _ (h.known v hv) _ (h.known m hnewest.1) hid.symm)
      have hfirst : (Rank.of (.full m)).precedes (Rank.of (.full v)) = true :=
        (Rank.precedes_byAge _ _).trans hold
      rcases TierMerge.run_of_two hid hfirst order hlimit with hrun | hrun
      · exact ⟨_, hquery, .inr ⟨m, hnewest, .inl hrun⟩⟩
      · have hdisloyal : ¬ loyal := fun hl => hsame ((hloyal hl).unique hnewest)
        exact ⟨_, hquery, .inr ⟨m, hnewest, .inr ⟨v, hv, hold, hstored, hrun, hdisloyal⟩⟩⟩
  · -- a demoted version leads to the newest one or to nothing
    refine ⟨_, hquery _ hp (Nat.le_refl _), .inr ⟨m, hnewest, .inl ?_⟩⟩
    refine TierMerge.run_of_one (fun r hr e he => ?_) order hlimit
    rw [List.mem_singleton.mp hr] at he
    obtain ⟨hstored, hid⟩ :=
      (hserves.fetch_eq_found_iff hes.sized).mp (TierMerge.found_of_brought? he)
    obtain rfl := hes.identified _ (hserves.mem_of_stored hes.sized hstored) _ (h.known v hv) hid
    exact (h.secondary.newest_of_stored hes.sized hstored hversion).unique hnewest

/-- **The newest version is shown first.**  Two empty tiers begin to work together and go through
any run of actions that deletes nothing and in which all saves go through.  A query for the versions
that an author published of a replaceable kind completes.  It delivers nothing if none was saved,
and the newest of those that were saved if the local tier has never reverted.  If it has, the query
may deliver one more behind it, an older version that the local tier has whole. -/
theorem versions_delivered {config config' : Config} {primary secondary : Archive}
    {xs : List Action} (hprimary : Archive.start config .empty = .ok primary)
    (hsecondary : Archive.start config' .empty = .ok secondary)
    (hkind : kind.retention = .replaceable) (hretains : ∀ x ∈ xs, x.Retains)
    (hes : Distinguished author kind (xs.filterMap Action.event?))
    (hok : (Ongoing.join primary secondary).allSucceed xs = true) (order : Nat → Nat)
    (now : Int64) :
    let t := ((Ongoing.join primary secondary).run xs).archive
    let vs := xs.flatMap (Action.versions author kind)
    ∃ records, (t.query order now (.versions author kind) false).1 =
        .ok ⟨records, [], .complete⟩ ∧
      ((vs = [] ∧ records = []) ∨ ∃ m : Event, m.IsNewest vs ∧ (records = [.full m] ∨
        ∃ v ∈ vs, v.isOlderThan m = true ∧ v ∈ t.primary.db.events.storedEvents ∧
          records = [.full m, .full v] ∧
          0 < (Ongoing.join primary secondary).reversions author kind [] xs)) := by
  intro t vs
  have hjoin := Ongoing.Tracks.join hprimary hsecondary author kind hes.identified
  have hrun := hjoin.run hes hkind (fun e he => he) hretains hok
  rw [List.nil_append, true_and] at hrun
  obtain ⟨records, hquery, hshown⟩ := query_of_tracks hrun hes order now
  refine ⟨records, hquery, ?_⟩
  rcases hshown with hnone | ⟨m, hnewest, halone | ⟨v, hv, hold, hstored, hrecords, hreverted⟩⟩
  · exact .inl hnone
  · exact .inr ⟨m, hnewest, .inl halone⟩
  · exact .inr ⟨m, hnewest, .inr ⟨v, hv, hold, hstored, hrecords, Nat.pos_of_ne_zero hreverted⟩⟩

/-- An older profile that is saved again does not come back as long as the local tier knows of the
newer one, though it has demoted it. -/
theorem versions_delivered_demoted :
    let config : Config := { Config.standard with collection := ⟨2000, 1, 7, 300, 86, 92⟩ }
    let tier := Tier.fresh config.serialBatch
    let primary : Archive := ⟨config, tier.db, tier.lease, false, false, none⟩
    let old : Event := .uniform 1 7 10 0 []
    let new : Event := .uniform 2 7 20 0 []
    let xs : List Action := [.save 1 old, .save 2 new, .collect, .save 3 old]
    let t := ((Ongoing.join primary .fresh).run xs).archive
    t.primary.db.events.storedEvents = [] ∧
      (t.query TierMerge.firstBegun 4 (.versions new.pubkey new.kind) false).1 =
        .ok ⟨[.full new], [], .complete⟩ := by
  intro config tier primary old new xs t
  have hstart : Archive.start config .empty = .ok primary := rfl
  have hstart' : Archive.start .standard .empty = .ok .fresh := rfl
  have hes : Distinguished new.pubkey new.kind
      ([Action.save 1 old, .save 2 new, .collect, .save 3 old].filterMap Action.event?) := by
    decide +kernel
  have hok : (Ongoing.join primary .fresh).allSucceed xs = true := by decide +kernel
  have hnone : (Ongoing.join primary .fresh).reversions new.pubkey new.kind [] xs = 0 := by
    decide +kernel
  have hnew : new.IsNewest (xs.flatMap (Action.versions new.pubkey new.kind)) := by decide +kernel
  refine ⟨by decide +kernel, ?_⟩
  obtain ⟨records, hquery, hshown⟩ := @versions_delivered new.pubkey new.kind config .standard
    primary .fresh xs hstart hstart' rfl (by decide) hes hok TierMerge.firstBegun 4
  rcases hshown with ⟨hnil, -⟩ | ⟨m, hnewest, rfl | ⟨v, -, -, -, -, hreverted⟩⟩
  · rw [hnil] at hnew
    cases hnew.1
  · rwa [hnewest.unique hnew] at hquery
  · rw [hnone] at hreverted
    cases hreverted

/-- A newer profile is demoted and forgotten by the local tier, which takes the older one for new:
a query shows both. -/
theorem versions_reverted :
    let config : Config := { Config.standard with collection := ⟨150, 10, 90, 300, 86, 92⟩ }
    let tier := Tier.fresh config.serialBatch
    let primary : Archive := ⟨config, tier.db, tier.lease, false, false, none⟩
    let new : Event := .uniform 2 7 20 0 []
    let old : Event := .uniform 1 7 10 0 []
    let xs : List Action := [.save 1 new, .collect, .save 2 old]
    let t := ((Ongoing.join primary .fresh).run xs).archive
    Archive.start config .empty = .ok primary ∧
      Distinguished new.pubkey new.kind (xs.filterMap Action.event?) ∧
      (Ongoing.join primary .fresh).allSucceed xs = true ∧ old.isOlderThan new = true ∧
      (t.query TierMerge.firstBegun 3 (.versions new.pubkey new.kind) false).1.toOption.map
        (fun reading => (reading.records, reading.outcome)) =
          some ([.full new, .full old], .complete) ∧
      (Ongoing.join primary .fresh).reversions new.pubkey new.kind [] xs = 1 := by
  intro config tier primary new old xs t
  exact ⟨rfl, by decide +kernel⟩

end TieredArchive
end EventArchive
