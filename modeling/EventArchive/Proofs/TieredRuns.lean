import EventArchive.Proofs.IdQueries
import EventArchive.Proofs.Reachable
import EventArchive.Proofs.TierLookups
import EventArchive.Tiered.Poll

/-! # Runs of a tiered archive

The events that the lookups of a query bring are saved in the local tier later
on, and other operations may come in between.  So the state of a tiered archive
in use is the archive and the events that are outstanding (`Ongoing`), and what
happens to it is a list of actions.  A query that is settled before anything else
happens is one way to go on (`Ongoing.run_query`).

Whatever happens, the local tier goes through saves, deletions, sweeps and notes
of accesses.  The secondary tier is not collected: it is saved to, deleted from,
and what it delivers is noted (`Ongoing.secondary_step`).
-/
namespace EventArchive

/-! ### What is done to one tier -/

/-- Whether a transaction notes accesses. -/
def Transaction.Notes : Transaction → Prop
  | .touch _ _ => True
  | _ => False

theorem Transaction.Notes.event? {x : Transaction} (h : x.Notes) : x.event? = none := by
  cases x with
  | touch batch now => rfl
  | _ => exact h.elim

/-- Transactions that note accesses change access times alone. -/
theorem Tier.Follows.touches {t : Tier} {L : Ledger} {J : List (Serial × Event)}
    {xs : List Transaction} (hf : t.Follows L J) (hxs : ∀ x ∈ xs, x.Notes) :
    ∃ L', (t.run xs).Follows L' J ∧ L'.SameForms L := by
  induction xs generalizing t L with
  | nil => exact ⟨L, hf, fun _ => rfl⟩
  | cons x xs ih =>
    have hnotes := hxs x List.mem_cons_self
    cases x with
    | touch batch now =>
      obtain ⟨L', hf', hsame⟩ := ih (hf.touch batch now) fun y hy =>
        hxs y (List.mem_cons_of_mem _ hy)
      exact ⟨L', hf', hsame.trans (.of_foldl_note now batch L)⟩
    | _ => exact hnotes.elim

namespace Archive
variable {a : Archive} {es : List Event} {e : Event} {t : Tier}

theorem noteAccesses_eq (a : Archive) (now : Int64) (hits : List Hit) :
    ∃ xs : List Transaction, a.noteAccesses now hits = a.withTier (a.tier.run xs) ∧
      ∀ x ∈ xs, x.Notes := by
  refine ⟨_, congrArg a.withTier (run_touches a.tier _ (clampTime now)).symm, ?_⟩
  intro x hx
  obtain ⟨batch, -, rfl⟩ := List.mem_map.mp hx
  trivial

/-- Noting accesses changes access times alone. -/
theorem follows_noteAccesses {L : Ledger} {J : List (Serial × Event)} (hf : a.tier.Follows L J)
    (now : Int64) (hits : List Hit) :
    ∃ L', (a.noteAccesses now hits).tier.Follows L' J ∧ L'.SameForms L := by
  obtain ⟨xs, heq, hxs⟩ := a.noteAccesses_eq now hits
  rw [heq]
  exact hf.touches hxs

/-- **A tier that answers**: it is open, delivers something, and its tables are those of events
that are known. -/
structure Serves (a : Archive) (es : List Event) : Prop where
  isOpen : a.isClosed = false
  limit : a.config.maxLimit ≠ 0
  follows : ∃ L J, a.tier.Follows L J ∧ ∀ p ∈ J, p.2 ∈ es

namespace Serves
variable (h : a.Serves es)
include h

/-- A tier goes on answering, whatever transactions change it. -/
theorem withTier (hid : Identified es) (hrun : RunsTo a.tier es t) : (a.withTier t).Serves es where
  isOpen := h.isOpen
  limit := h.limit
  follows := by
    obtain ⟨L, J, hf, hJ⟩ := h.follows
    obtain ⟨xs, rfl, hxs⟩ := hrun
    have hmem : ∀ e ∈ J.map (·.2) ++ xs.filterMap (·.event?), e ∈ es := by
      intro e he
      rcases List.mem_append.mp he with he | he
      · obtain ⟨p, hp, rfl⟩ := List.mem_map.mp he
        exact hJ p hp
      · exact hxs e he
    obtain ⟨L', hf'⟩ := hf.run fun a ha b hb => hid a (hmem a ha) b (hmem b hb)
    refine ⟨L', _, hf', fun p hp => ?_⟩
    rcases List.mem_append.mp hp with hp | hp
    · exact hJ p hp
    · exact hxs _ (Tier.mem_of_mem_journal hp)

theorem save (hid : Identified es) (he : e ∈ es) (now : Int64) : (a.save now e).2.Serves es := by
  rw [save_eq h.isOpen]
  refine h.withTier hid ⟨[.save (clampTime now) e], rfl, fun e' he' => ?_⟩
  obtain rfl := List.mem_singleton.mp he'
  exact he

theorem delete (hid : Identified es) (he : e ∈ es) : (a.delete e).2.Serves es := by
  rw [delete_eq h.isOpen]
  refine h.withTier hid ⟨[.delete e], rfl, fun e' he' => ?_⟩
  obtain rfl := List.mem_singleton.mp he'
  exact he

theorem collect (hid : Identified es) : a.collect.2.Serves es := by
  obtain ⟨victims, stale, heq⟩ := collect_eq h.isOpen
  rw [heq]
  exact h.withTier hid ⟨_, rfl, nofun⟩

theorem noteAccesses (hid : Identified es) (now : Int64) (hits : List Hit) :
    (a.noteAccesses now hits).Serves es := by
  obtain ⟨xs, heq, hxs⟩ := a.noteAccesses_eq now hits
  rw [heq]
  refine h.withTier hid ⟨xs, rfl, fun e he => ?_⟩
  rw [List.filterMap_eq_nil_iff.mpr fun x hx => (hxs x hx).event?] at he
  cases he

/-- **A lookup over an undisturbed link finds the events that the tier has whole**, and no
others. -/
theorem fetch_eq_found_iff (hfits : ∀ e ∈ es, e.Sized) {i : EventId} :
    (Link.undisturbed.fetch a i).1 = .found e ↔ e ∈ a.db.events.storedEvents ∧ e.id = i := by
  obtain ⟨L, J, hf, hJ⟩ := h.follows
  have hsized := hf.sized fun p hp => hfits _ (hJ p hp)
  have hr : a.db.events.Renders L := hf.db.events
  rw [Link.fetch_eq_found_iff h.isOpen h.limit hr hf.unique hsized, hr.mem_storedEvents hsized]

/-- What a tier has whole is among the events that are known. -/
theorem mem_of_stored (hfits : ∀ e ∈ es, e.Sized) (he : e ∈ a.db.events.storedEvents) : e ∈ es := by
  obtain ⟨L, J, hf, hJ⟩ := h.follows
  have hr : a.db.events.Renders L := hf.db.events
  obtain ⟨s, t, hL⟩ := (hr.mem_storedEvents (hf.sized fun p hp => hfits _ (hJ p hp))).mp he
  exact hJ _ (hf.stored s _ hL)

/-- What a lookup finds is a known event of the identifier. -/
theorem known_of_found (hfits : ∀ e ∈ es, e.Sized) {i : EventId}
    (hfound : (Link.undisturbed.fetch a i).1 = .found e) : e ∈ es ∧ e.id = i := by
  obtain ⟨hstored, hi⟩ := (h.fetch_eq_found_iff hfits).mp hfound
  exact ⟨h.mem_of_stored hfits hstored, hi⟩

/-- The whole records that a tier sends are those of events that it has whole. -/
theorem stored_of_feed (hfits : ∀ e ∈ es, e.Sized) {f : Filter} {cancelled : Bool}
    {feed : Feed Hit} {hit : Hit} (hfeed : a.feed f cancelled = .ok feed)
    (hhit : hit ∈ feed.records) (hrecord : hit.record = .full e) :
    e ∈ a.db.events.storedEvents := by
  obtain ⟨L, J, hf, hJ⟩ := h.follows
  have hr : a.db.events.Renders L := hf.db.events
  have hsized := hf.sized fun p hp => hfits _ (hJ p hp)
  obtain ⟨t, hL⟩ := live_of_feed hr hsized hfeed hhit hrecord
  exact (hr.mem_storedEvents hsized).mpr ⟨_, t, hL⟩

theorem saveAll (hid : Identified es) (now : Int64) {saved : List Event}
    (hsaved : ∀ e ∈ saved, e ∈ es) : (a.saveAll now saved).Serves es := by
  induction saved generalizing a with
  | nil => exact h
  | cons e saved ih =>
    exact ih (h.save hid (hsaved e List.mem_cons_self) now) fun e' he' =>
      hsaved e' (List.mem_cons_of_mem _ he')

end Serves

/-! ### Reachable archives answer -/

theorem isClosed_of_start {config : Config} {db : Database} (h : start config db = .ok a) :
    a.isClosed = false := by
  obtain ⟨-, db', -, rfl⟩ := start_eq h
  rfl

theorem limit_of_start {config : Config} {db : Database} (h : start config db = .ok a) :
    a.config.maxLimit ≠ 0 := by
  obtain ⟨hvalid, db', -, rfl⟩ := start_eq h
  intro hzero
  have hzero : config.maxLimit = 0 := hzero
  rw [Config.validate, if_pos hzero] at hvalid
  cases hvalid

theorem config_answer (a : Archive) (now : Int64) (r : Request) :
    (a.answer now r).2.config = a.config := by
  have hcollect : a.collect.2.config = a.config := by
    rw [collect]
    split <;> rfl
  cases r with
  | save e =>
    show (a.save now e).2.config = a.config
    rw [save]
    split <;> rfl
  | delete e =>
    show (a.delete e).2.config = a.config
    rw [delete]
    split <;> rfl
  | query f cancelled =>
    show (a.query now f cancelled).2.config = a.config
    rw [query]
    split <;> rfl
  | take f n =>
    show (a.take now f n).2.config = a.config
    rw [take]
    split <;> rfl
  | count f cancelled => rfl
  | collect => exact hcollect
  | demotion enabled => rfl
  | init =>
    show a.init.2.config = a.config
    rw [init]
    split
    · rfl
    · split <;> rfl
  | close =>
    show a.close.config = a.config
    rw [close]
    split <;> rfl

theorem config_tick (a : Archive) : a.tick.config = a.config := by
  rw [tick]
  split
  · rfl
  · rfl
  · show a.collect.2.config = a.config
    exact config_answer a 0 .collect

/-- The settings of a reachable archive let it deliver something. -/
theorem Reached.limit (h : Reached es a) : a.config.maxLimit ≠ 0 := by
  induction h with
  | start h => exact limit_of_start h
  | @answer es a h now r ih => rwa [config_answer]
  | @tick es a h ih => rwa [config_tick]
  | work h x hx ih => exact ih
  | reopen h hstart => exact limit_of_start hstart
  | crash h hstart => exact limit_of_start hstart

theorem Reached.serves {es' : List Event} (h : Reached es a) (hopen : a.isClosed = false)
    (hsub : ∀ e ∈ es, e ∈ es') (hid : Identified es') : a.Serves es' where
  isOpen := hopen
  limit := h.limit
  follows := by
    obtain ⟨L, J, hf, hJ⟩ := h.exists_journal hsub hid
    exact ⟨L, J, hf, fun p hp => (hJ p hp).1⟩

end Archive

/-! ### Actions -/

/-- A tiered archive in use: the events that lookups brought have still to be saved in the local
tier. -/
structure Ongoing where
  archive : TieredArchive
  outstanding : List Event

/-- What happens to a tiered archive in use. -/
inductive Action where
  | save (now : Int64) (event : Event)
  | delete (event : Event)
  /-- Collect in the local tier. -/
  | collect
  /-- Read what a query delivers, all of it or at most so many records. -/
  | ask (order : Nat → Nat) (now : Int64) (filter : Filter) (read : Option Nat) (cancelled : Bool)
  /-- Save one of the outstanding events in the local tier. -/
  | revive (now : Int64) (n : Nat)
  | poll (now : Int64) (poller : Poller)

/-- The event that an action is given. -/
def Action.event? : Action → Option Event
  | .save _ e => some e
  | .delete e => some e
  | _ => none

namespace TieredArchive

/-- The most records that a reader makes a query deliver. -/
def capFor (t : TieredArchive) (f : Filter) : Option Nat → Nat
  | none => t.limitFor f
  | some n => min (t.limitFor f) (n + Feed.slots t.buffer + 1)

/-- A query of which nothing is revived yet, with the events that its lookups brought. -/
def ask (t : TieredArchive) (order : Nat → Nat) (now : Int64) (f : Filter) (read : Option Nat)
    (cancelled : Bool) : TieredArchive × List Event :=
  match t.feeds f cancelled with
  | .error _ => (t, [])
  | .ok (primary, none) => (t.abandon now primary, [])
  | .ok (primary, some secondary) =>
    if cancelled then (t, [])
    else
      let m := t.merge f order (t.capFor f read) primary secondary
      (t.settle now primary secondary { m with fetched := [] }, m.fetched)

/-- What a query leaves behind whose revivals have all been made. -/
def settled (now : Int64) (asked : TieredArchive × List Event) : TieredArchive :=
  { asked.1 with primary := revive asked.1.primary now asked.2 }

section
variable (t : TieredArchive) (order : Nat → Nat) (now : Int64) (f : Filter)

theorem query_eq_ask (cancelled : Bool) : (t.query order now f cancelled).2 =
    settled now (t.ask order now f none cancelled) := by
  rw [query, ask]
  cases t.feeds f cancelled with
  | error err => rfl
  | ok feeds =>
    obtain ⟨primary, _ | secondary⟩ := feeds
    · rfl
    · cases cancelled with
      | true => rfl
      | false => rfl

theorem take_eq_ask (n : Nat) : (t.take order now f n).2 =
    settled now (t.ask order now f (some n) false) := by
  rw [take, ask]
  cases t.feeds f false with
  | error err => rfl
  | ok feeds =>
    obtain ⟨primary, _ | secondary⟩ := feeds
    · rfl
    · rfl

end
end TieredArchive

namespace Ongoing

/-- Two tiers that begin to work together, over a link that is not disturbed. -/
def join (primary secondary : Archive) : Ongoing := ⟨.join primary secondary .undisturbed, []⟩

/-- Save the event at a place of those that are outstanding. -/
def revive (o : Ongoing) (now : Int64) (n : Nat) : Ongoing :=
  match o.outstanding[n]? with
  | none => o
  | some e =>
    ⟨{ o.archive with primary := (o.archive.primary.save now e).2 }, o.outstanding.eraseIdx n⟩

/-- The tiered archive after an action. An event that is outstanding already is not taken twice. -/
def step (o : Ongoing) : Action → Ongoing
  | .save now e => { o with archive := (o.archive.save now e).2 }
  | .delete e => { o with archive := (o.archive.delete e).2 }
  | .collect => { o with archive := { o.archive with primary := o.archive.primary.collect.2 } }
  | .ask order now f read cancelled =>
    let asked := o.archive.ask order now f read cancelled
    ⟨asked.1, o.outstanding ++ distinctBy Event.id (o.outstanding.map Event.id) asked.2⟩
  | .revive now n => o.revive now n
  | .poll now p => { o with archive := o.archive.poll now p }

/-- The tiered archive after some actions. -/
def run (o : Ongoing) (xs : List Action) : Ongoing := xs.foldl step o

theorem run_append (o : Ongoing) (xs ys : List Action) : o.run (xs ++ ys) = (o.run xs).run ys :=
  List.foldl_append

/-! ### Queries that are settled -/

/-- Reviving the first of the outstanding events again and again saves all of them in their
order. -/
theorem run_revive (o : Ongoing) (now : Int64) :
    o.run (List.replicate o.outstanding.length (.revive now 0)) =
      ⟨{ o.archive with primary := o.archive.primary.saveAll now o.outstanding }, []⟩ := by
  obtain ⟨t, es⟩ := o
  induction es generalizing t with
  | nil => rfl
  | cons e es ih =>
    show run (step ⟨t, e :: es⟩ (.revive now 0)) (List.replicate es.length (.revive now 0)) = _
    exact ih { t with primary := (t.primary.save now e).2 }

/-- To ask and then to revive everything that the lookups brought settles a query. -/
theorem run_ask (t : TieredArchive) (order : Nat → Nat) (now : Int64) (f : Filter)
    (read : Option Nat) (cancelled : Bool) : ∃ k, run ⟨t, []⟩
      (.ask order now f read cancelled :: List.replicate k (.revive now 0)) =
        ⟨TieredArchive.settled now (t.ask order now f read cancelled), []⟩ := by
  let asked := t.ask order now f read cancelled
  let brought := distinctBy Event.id [] asked.2
  exact ⟨brought.length, run_revive ⟨asked.1, brought⟩ now⟩

/-- **A query that is settled before anything else happens**, read as a whole or in part, is a run
of actions. -/
theorem run_query (t : TieredArchive) (order : Nat → Nat) (now : Int64) (f : Filter) :
    (∀ cancelled, ∃ k, run ⟨t, []⟩
      (.ask order now f none cancelled :: List.replicate k (.revive now 0)) =
        ⟨(t.query order now f cancelled).2, []⟩) ∧
    ∀ n, ∃ k, run ⟨t, []⟩ (.ask order now f (some n) false :: List.replicate k (.revive now 0)) =
      ⟨(t.take order now f n).2, []⟩ := by
  refine ⟨fun cancelled => ?_, fun n => ?_⟩
  · rw [TieredArchive.query_eq_ask]
    exact run_ask t order now f none cancelled
  · rw [TieredArchive.take_eq_ask]
    exact run_ask t order now f (some n) false

end Ongoing

/-! ### What actions do to the tiers -/

namespace TieredArchive
variable {t : TieredArchive} {e : Event}

section
variable (hlink : t.link = .undisturbed)
include hlink

theorem save_undisturbed (now : Int64) (e : Event) : t.save now e =
    ((joinTiers (t.primary.save now e).1 (t.secondary.save now e).1).map (·.1),
      { t with
        primary := (t.primary.save now e).2
        secondary := (t.secondary.save now e).2 }) := by
  rw [save, hlink]
  rfl

theorem delete_undisturbed (e : Event) : (t.delete e).2 =
    { t with primary := (t.primary.delete e).2, secondary := (t.secondary.delete e).2 } := by
  rw [delete, hlink]
  rfl

end

/-- **To ask** notes accesses on both tiers, and brings what lookups find. -/
theorem ask_cases (t : TieredArchive) (order : Nat → Nat) (now : Int64) (f : Filter)
    (read : Option Nat) (cancelled : Bool) : ∃ hits hits',
      (t.ask order now f read cancelled).1 =
        { t with
          primary := t.primary.noteAccesses now hits
          secondary := t.secondary.noteAccesses now hits' } ∧
      ∀ e ∈ (t.ask order now f read cancelled).2,
        ∃ i, (t.link.fetch t.secondary i).1 = .found e := by
  rw [ask]
  cases t.feeds f cancelled with
  | error err => exact ⟨[], [], rfl, nofun⟩
  | ok feeds =>
    obtain ⟨primary, _ | secondary⟩ := feeds
    · exact ⟨_, [], rfl, nofun⟩
    · cases cancelled with
      | true => exact ⟨[], [], rfl, nofun⟩
      | false =>
        refine ⟨_, _, rfl, fun e he => ?_⟩
        obtain ⟨r, -, -, hfound⟩ := (TierMerge.tracks_run ..).fetched e he
        exact ⟨r.id, hfound⟩

end TieredArchive

/-- Copying records saves some of the whole ones. -/
theorem Pull.exists_saveAll (now : Int64) (records : List Record) (p : Pull) : ∃ saved,
    (records.foldl (Pull.step now) p).primary = p.primary.saveAll now saved ∧
      ∀ e ∈ saved, .full e ∈ records := by
  induction records generalizing p with
  | nil => exact ⟨[], rfl, nofun⟩
  | cons r records ih =>
    obtain ⟨saved, heq, hsaved⟩ := ih (Pull.step now p r)
    have hstep : (Pull.step now p r).primary = p.primary ∨
        ∃ e, r = .full e ∧ (Pull.step now p r).primary = (p.primary.save now e).2 := by
      rw [Pull.step]
      split
      · exact .inl rfl
      · cases r with
        | stub i time => exact .inl rfl
        | full e =>
          refine .inr ⟨e, rfl, ?_⟩
          dsimp only
          split
          · rename_i hsave
            rw [hsave]
          · rename_i hsave
            rw [hsave]
            split <;> rfl
    rw [List.foldl_cons]
    rcases hstep with hsame | ⟨e, rfl, hsave⟩
    · refine ⟨saved, by rw [heq, hsame], fun e he => List.mem_cons_of_mem _ (hsaved e he)⟩
    · refine ⟨e :: saved, by rw [heq, hsave]; rfl, fun e' he' => ?_⟩
      rcases List.mem_cons.mp he' with rfl | he'
      · exact List.mem_cons_self
      · exact List.mem_cons_of_mem _ (hsaved e' he')

namespace TieredArchive
variable {t : TieredArchive}

/-- **To poll** saves records that the secondary tier sends in the local one. -/
theorem poll_cases (hlink : t.link = .undisturbed) (now : Int64) (p : Poller) :
    ∃ saved hits, (t.poll now p).primary = t.primary.saveAll now saved ∧
      (t.poll now p).secondary = t.secondary.noteAccesses now hits ∧
      (t.poll now p).link = .undisturbed ∧
      ∀ e ∈ saved, ∃ feed, t.secondary.feed (Poller.window p.since now) false = .ok feed ∧
        ∃ hit ∈ feed.records, hit.record = .full e := by
  rw [poll, hlink, Link.send_undisturbed]
  cases hfeed : t.secondary.feed (Poller.window p.since now) false with
  | error err => exact ⟨[], [], rfl, rfl, rfl, nofun⟩
  | ok feed =>
    dsimp only [Except.map]
    obtain ⟨saved, heq, hsaved⟩ := Pull.exists_saveAll now
      (Delivery.plain t.secondary feed).feed.records ⟨t.primary, t.synced, 0, none⟩
    have hsent : ∀ e ∈ saved, ∃ feed', (.ok feed : Except ArchiveError (Feed Hit)) = .ok feed' ∧
        ∃ hit ∈ feed'.records, hit.record = .full e := by
      intro e he
      obtain ⟨hit, hhit, hrecord⟩ := List.mem_map.mp (hsaved e he)
      exact ⟨feed, rfl, hit, hhit, hrecord⟩
    split
    · exact ⟨saved, _, heq, rfl, rfl, hsent⟩
    · split
      · exact ⟨saved, _, heq, rfl, rfl, hsent⟩
      · exact ⟨saved, _, heq, rfl, rfl, hsent⟩

end TieredArchive

namespace Ongoing
variable {o : Ongoing} {es : List Event} {x : Action}

/-- **Both tiers answer**, nothing disturbs the link, and what is outstanding is known. -/
structure Healthy (o : Ongoing) (es : List Event) : Prop where
  link : o.archive.link = .undisturbed
  primary : o.archive.primary.Serves es
  secondary : o.archive.secondary.Serves es
  outstanding : ∀ e ∈ o.outstanding, e ∈ es

/-- **What happens to the secondary tier**: it is saved to, deleted from, or notes accesses. -/
theorem secondary_step (hlink : o.archive.link = .undisturbed) (x : Action) :
    (∃ now e, x = .save now e ∧
      (o.step x).archive.secondary = (o.archive.secondary.save now e).2) ∨
    (∃ e, x = .delete e ∧ (o.step x).archive.secondary = (o.archive.secondary.delete e).2) ∨
    ∃ now hits, (o.step x).archive.secondary = o.archive.secondary.noteAccesses now hits := by
  cases x with
  | save now e =>
    refine .inl ⟨now, e, rfl, ?_⟩
    rw [step, TieredArchive.save_undisturbed hlink]
  | delete e =>
    refine .inr (.inl ⟨e, rfl, ?_⟩)
    rw [step, TieredArchive.delete_undisturbed hlink]
  | collect => exact .inr (.inr ⟨0, [], rfl⟩)
  | ask order now f read cancelled =>
    obtain ⟨hits, hits', heq, -⟩ := o.archive.ask_cases order now f read cancelled
    refine .inr (.inr ⟨now, hits', ?_⟩)
    show (o.archive.ask order now f read cancelled).1.secondary = _
    rw [heq]
  | revive now n =>
    refine .inr (.inr ⟨now, [], ?_⟩)
    rw [step, revive]
    split <;> rfl
  | poll now p =>
    obtain ⟨saved, hits, -, hsecondary, -⟩ := TieredArchive.poll_cases hlink now p
    exact .inr (.inr ⟨now, hits, hsecondary⟩)

/-- What a query leaves outstanding was outstanding or has been brought. -/
theorem mem_outstanding_of_ask {order : Nat → Nat} {now : Int64} {f : Filter} {read : Option Nat}
    {cancelled : Bool} {e : Event}
    (he : e ∈ (o.step (.ask order now f read cancelled)).outstanding) : e ∈ o.outstanding ∨
      ∃ i, (o.archive.link.fetch o.archive.secondary i).1 = .found e := by
  obtain ⟨-, -, -, hbrought⟩ := o.archive.ask_cases order now f read cancelled
  rcases List.mem_append.mp he with he | he
  · exact .inl he
  · exact .inr (hbrought e ((distinctBy_sublist Event.id _ _).subset he))

/-- **One action** leaves both tiers answering. -/
theorem Healthy.step (h : o.Healthy es) (hid : Identified es) (hfits : ∀ e ∈ es, e.Sized)
    (hx : ∀ e, x.event? = some e → e ∈ es) : (o.step x).Healthy es := by
  have hsecondary : (o.step x).archive.secondary.Serves es := by
    rcases secondary_step h.link x with ⟨now, e, rfl, heq⟩ | ⟨e, rfl, heq⟩ | ⟨now, hits, heq⟩
    · rw [heq]
      exact h.secondary.save hid (hx e rfl) now
    · rw [heq]
      exact h.secondary.delete hid (hx e rfl)
    · rw [heq]
      exact h.secondary.noteAccesses hid now hits
  cases x with
  | save now e =>
    refine ⟨?_, ?_, hsecondary, h.outstanding⟩
    · rw [Ongoing.step, TieredArchive.save_undisturbed h.link]
      exact h.link
    · rw [Ongoing.step, TieredArchive.save_undisturbed h.link]
      exact h.primary.save hid (hx e rfl) now
  | delete e =>
    refine ⟨?_, ?_, hsecondary, h.outstanding⟩
    · rw [Ongoing.step, TieredArchive.delete_undisturbed h.link]
      exact h.link
    · rw [Ongoing.step, TieredArchive.delete_undisturbed h.link]
      exact h.primary.delete hid (hx e rfl)
  | collect => exact ⟨h.link, h.primary.collect hid, hsecondary, h.outstanding⟩
  | ask order now f read cancelled =>
    obtain ⟨hits, hits', heq, -⟩ := o.archive.ask_cases order now f read cancelled
    refine ⟨?_, ?_, hsecondary, fun e he => ?_⟩
    · show (o.archive.ask order now f read cancelled).1.link = _
      rw [heq]
      exact h.link
    · show (o.archive.ask order now f read cancelled).1.primary.Serves es
      rw [heq]
      exact h.primary.noteAccesses hid now hits
    · rcases mem_outstanding_of_ask he with he | ⟨i, hfound⟩
      · exact h.outstanding e he
      · rw [h.link] at hfound
        exact (h.secondary.known_of_found hfits hfound).1
  | revive now n =>
    cases hn : o.outstanding[n]? with
    | none =>
      have hsame : o.step (.revive now n) = o := by rw [Ongoing.step, Ongoing.revive, hn]
      rwa [hsame]
    | some e =>
      have heq : o.step (.revive now n) =
          ⟨{ o.archive with primary := (o.archive.primary.save now e).2 },
            o.outstanding.eraseIdx n⟩ := by
        rw [Ongoing.step, Ongoing.revive, hn]
      rw [heq] at hsecondary ⊢
      refine ⟨h.link, h.primary.save hid (h.outstanding e (List.mem_of_getElem? hn)) now,
        hsecondary, fun e' he' => ?_⟩
      exact h.outstanding e' (List.mem_of_mem_eraseIdx he')
  | poll now p =>
    obtain ⟨saved, hits, hprimary, -, hlink, hsaved⟩ := TieredArchive.poll_cases h.link now p
    refine ⟨hlink, ?_, hsecondary, h.outstanding⟩
    show (o.archive.poll now p).primary.Serves es
    rw [hprimary]
    refine h.primary.saveAll hid now fun e he => ?_
    obtain ⟨feed, hfeed, hit, hhit, hrecord⟩ := hsaved e he
    exact h.secondary.mem_of_stored hfits (h.secondary.stored_of_feed hfits hfeed hhit hrecord)

/-- **A run of actions** leaves both tiers answering. -/
theorem Healthy.run {xs : List Action} (h : o.Healthy es) (hid : Identified es)
    (hfits : ∀ e ∈ es, e.Sized) (hxs : ∀ e ∈ xs.filterMap Action.event?, e ∈ es) :
    (o.run xs).Healthy es := by
  induction xs generalizing o with
  | nil => exact h
  | cons x xs ih =>
    rw [List.forall_mem_filterMap, List.forall_mem_cons, ← List.forall_mem_filterMap] at hxs
    exact ih (h.step hid hfits hxs.1) hxs.2

/-- Two tiers that begin to work together both answer, if they are open. -/
theorem Healthy.join {primary secondary : Archive} (hprimary : primary.Serves es)
    (hsecondary : secondary.Serves es) : (join primary secondary).Healthy es where
  link := rfl
  primary := ⟨hprimary.isOpen, hprimary.limit, hprimary.follows⟩
  secondary := hsecondary
  outstanding := nofun

end Ongoing

/-! ### Queries that find little -/

/-- A reader that has read nothing of a stream of one record still gets all of it. -/
theorem Feed.outcomeAfter_of_length_le {α : Type} {feed : Feed α}
    (hlength : feed.records.length ≤ 1) (n buffer : Nat) :
    feed.outcomeAfter n buffer = feed.ended := by
  have hslots : 1 ≤ Feed.slots buffer := Nat.le_max_right _ _
  rw [outcomeAfter, isDone, if_pos]
  rw [decide_eq_true_eq]
  omega

/-- Two streams that complete make a merge that completes, if no lookup fails. -/
theorem mergedOutcome_complete (limitReached : Bool) :
    mergedOutcome [.complete, .complete] limitReached 0 = .complete := by
  cases limitReached <;> rfl

/-- Over an undisturbed link a query reads what both tiers send. -/
theorem TieredArchive.feeds_undisturbed {t : TieredArchive} {f : Filter} {p q : Feed Hit}
    (hlink : t.link = .undisturbed) (hprimary : t.primary.feed f false = .ok p)
    (hsecondary : t.secondary.feed f false = .ok q) :
    t.feeds f false = .ok (p, some (Delivery.plain t.secondary q)) := by
  rw [feeds, hprimary, hlink, Link.send_undisturbed, hsecondary]
  rfl

/-- **A query that finds no more than one record in each tier** delivers what their merge delivers,
and completes. -/
theorem TieredArchive.query_short {t : TieredArchive} {f : Filter} {p q : List Hit}
    (hlink : t.link = .undisturbed) (hprimary : t.primary.feed f false = .ok (.ofQuery p))
    (hsecondary : t.secondary.feed f false = .ok (.ofQuery q)) (hp : p.length ≤ 1)
    (hq : q.length ≤ 1) (hfetch : ∀ i, (Link.undisturbed.fetch t.secondary i).1 ≠ .failed)
    (order : Nat → Nat) (now : Int64) : (t.query order now f false).1 =
      .ok ⟨(TierMerge.run f (fun i => (Link.undisturbed.fetch t.secondary i).1) order (t.limitFor f)
        (p.map Hit.record) (q.map Hit.record)).records, [], .complete⟩ := by
  let lookup := fun i => (Link.undisturbed.fetch t.secondary i).1
  let m := TierMerge.run f lookup order (t.limitFor f) (p.map Hit.record) (q.map Hit.record)
  let delivery := Delivery.plain t.secondary (.ofQuery q)
  have hfeeds : t.feeds f false = .ok (.ofQuery p, some delivery) :=
    feeds_undisturbed hlink hprimary hsecondary
  have hmerge : t.merge f order (t.limitFor f) (.ofQuery p) delivery = m := by
    rw [merge, hlink]
    rfl
  have hprimary' : ∀ n buffer, (Feed.ofQuery p).outcomeAfter n buffer = .complete :=
    Feed.outcomeAfter_of_length_le hp
  have hsecondary' : ∀ n buffer, delivery.feed.outcomeAfter n buffer = .complete :=
    Feed.outcomeAfter_of_length_le ((List.length_map _).trans_le hq)
  have hended : (t.mergedFeed f (.ofQuery p) delivery m).ended = .complete := by
    rw [mergedFeed]
    dsimp only
    rw [hprimary', hsecondary', TierMerge.run_failed hfetch]
    exact mergedOutcome_complete _
  rw [query, hfeeds]
  dsimp only
  rw [if_neg Bool.false_ne_true, hmerge, Feed.readAll, hended]
  rfl

end EventArchive
