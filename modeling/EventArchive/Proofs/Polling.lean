import EventArchive.Proofs.Demotion
import EventArchive.Proofs.TieredRetention

/-! # What polling copies

A poll asks the secondary tier for a window of time and saves what it sends in the
local tier.  A poll that goes through moves the beginning of the next window, but
never past its own end (`Poller.nextSince_le`), and one that fails leaves it; so
the windows of the polls that go through leave no gap (`Poller.exists_window`).

Nothing tells a poll whether the secondary tier sent all that it has of the
window.  A query delivers no more than the secondary tier lets any query deliver,
and the oldest records of a fuller window are left out though the poll goes
through (`Poll.Cut`).  Of an answer that is not cut, every whole record is passed
to the local tier (`Poller.polls_lossless`).
-/
namespace EventArchive

/-! ### Polls -/

/-- A poll: the tiers when it starts, the time then, and the beginning of its window. -/
structure Poll where
  tiers : TieredArchive
  now : Int64
  since : Int64

namespace Poll

/-- What the secondary tier answers. -/
def answer (q : Poll) : Reply Delivery :=
  q.tiers.link.send q.tiers.secondary (Poller.window q.since q.now) false

/-- What copying some records does. -/
def copied (q : Poll) (records : List Record) : Pull :=
  records.foldl (Pull.step q.now) ⟨q.tiers.primary, q.tiers.synced, 0, none⟩

/-- A poll goes through: everything that is sent is copied, and the stream is not cancelled. -/
def Closes (q : Poll) : Prop :=
  ∃ d, q.answer = .answer (.ok d) ∧ (q.copied d.feed.records).failure = none ∧
    d.feed.ended ≠ .cancelled

/-- A poll passes an event to the local tier, which is saved with an outcome. -/
def Passes (q : Poll) (e : Event) (o : SaveOutcome) (after : Archive) : Prop :=
  ∃ d before rest, q.answer = .answer (.ok d) ∧ d.feed.records = before ++ .full e :: rest ∧
    (q.copied before).primary.save q.now e = (.ok o, after)

/-- The answer to a poll is cut: there is more in its window than a query delivers, the link does
not pass all of it on, or the window ends before the first time that keys hold. -/
def Cut (q : Poll) : Prop :=
  (∃ n, q.tiers.secondary.count (Poller.window q.since q.now) false = .ok n ∧
    q.tiers.secondary.config.maxLimit.toNat < n) ∨
  (∃ fault, q.tiers.link.query = some fault ∧ ∀ outcome, fault ≠ .ending outcome) ∨ q.now < 0

end Poll

namespace Poller

/-- The polls of a run: a poller goes on from where the poll before has left it, and finds the tiers
as they are by then. -/
def polls : Poller → List (TieredArchive × Int64) → List Poll
  | _, [] => []
  | p, (t, now) :: rounds =>
    ⟨t, now, p.since⟩ :: match (t.poll now p).poller with
      | none => []
      | some p' => p'.polls rounds

/-! ### Windows -/

/-- The next window begins no later than the one before has ended. -/
theorem nextSince_le (c : PollConfig) (till : Int64) : nextSince c till ≤ till := by
  have hoverlap : 0 ≤ overlap c := by
    rw [overlap]
    have hmax : (0 : Int) ≤ Int64.maxValue.toInt := by decide
    omega
  have hlt := till.toInt_lt
  have hge := till.le_toInt
  have hmin : Int64.minValue.toInt = -2 ^ 63 := by decide
  rw [Int64.le_iff_toInt_le, nextSince, Int64.toInt_ofInt_of_le (by omega) (by omega)]
  omega

/-- What a poll does with an answer. -/
theorem poll_of_answer {q : Poll} {d : Delivery} (hd : q.answer = .answer (.ok d))
    (untilPoll : Nat) :
    let t := q.tiers.poll q.now ⟨q.since, untilPoll⟩
    let pull := q.copied d.feed.records
    let config := q.tiers.primary.config.poll
    t.primary = pull.primary ∧ t.poller =
      if pull.failure.isSome then some ⟨q.since, config.interval.toNat⟩
      else if d.feed.ended = .cancelled then none
      else some ⟨nextSince config q.now, config.interval.toNat⟩ := by
  have hsend : q.tiers.link.send q.tiers.secondary (window q.since q.now) false =
      .answer (.ok d) := hd
  rw [TieredArchive.poll, hsend]
  dsimp only [Poll.copied]
  split
  · exact ⟨rfl, rfl⟩
  · split
    · exact ⟨rfl, rfl⟩
    · exact ⟨rfl, rfl⟩

/-- **What a poll does to the poller:** one that goes through moves the window on, one that fails
leaves it, or polling stops. -/
theorem poller_cases {t : TieredArchive} {now : Int64} {p p' : Poller}
    (h : (t.poll now p).poller = some p') :
    Poll.Closes ⟨t, now, p.since⟩ ∧ p'.since = nextSince t.primary.config.poll now ∨
      p'.since = p.since := by
  cases hanswer : Poll.answer ⟨t, now, p.since⟩ with
  | lost =>
    have hsend : t.link.send t.secondary (window p.since now) false = .lost := hanswer
    rw [TieredArchive.poll, hsend] at h
    cases h
  | answer result =>
    cases result with
    | error err =>
      have hsend : t.link.send t.secondary (window p.since now) false = .answer (.error err) :=
        hanswer
      rw [TieredArchive.poll, hsend] at h
      cases h
      exact .inr rfl
    | ok d =>
      rw [(poll_of_answer hanswer p.untilPoll).2] at h
      split at h
      · cases h
        exact .inr rfl
      · rename_i hdone
        split at h
        · cases h
        · rename_i hended
          cases h
          exact .inl ⟨⟨d, hanswer, Option.not_isSome_iff_eq_none.mp hdone, hended⟩, rfl⟩

/-- **The windows of the polls that go through leave no gap:** up to the end of the last one every
time from the beginning of the first one on lies in one of them. -/
theorem exists_window {p : Poller} {rounds : List (TieredArchive × Int64)} {q : Poll}
    (hq : q ∈ p.polls rounds) (hcloses : q.Closes) {c : Int64} (hsince : p.since ≤ c)
    (htill : c ≤ q.now) :
    ∃ q' ∈ p.polls rounds, q'.Closes ∧ q'.since ≤ c ∧ c ≤ q'.now := by
  induction rounds generalizing p with
  | nil => cases hq
  | cons round rounds ih =>
    obtain ⟨t, now⟩ := round
    rw [polls] at hq ⊢
    rcases List.mem_cons.mp hq with rfl | hq
    · exact ⟨_, List.mem_cons_self, hcloses, hsince, htill⟩
    · cases hnext : (t.poll now p).poller with
      | none =>
        rw [hnext] at hq
        cases hq
      | some p' =>
        rw [hnext] at hq
        have hlater : p'.since ≤ c → ∃ q' ∈ ⟨t, now, p.since⟩ :: p'.polls rounds,
            q'.Closes ∧ q'.since ≤ c ∧ c ≤ q'.now := by
          intro hle
          obtain ⟨q', hq', hrest⟩ := ih hq hle
          exact ⟨q', List.mem_cons_of_mem _ hq', hrest⟩
        rcases poller_cases hnext with ⟨hthrough, hmoved⟩ | hsame
        · by_cases hin : c ≤ now
          · exact ⟨_, List.mem_cons_self, hthrough, hsince, hin⟩
          · refine hlater ?_
            rw [hmoved]
            exact Int64.le_trans (nextSince_le _ _) (Int64.le_of_lt (Int64.not_le.mp hin))
        · exact hlater (hsame ▸ hsince)

end Poller

/-! ### What is sent -/

section
variable {a : Archive} {es : List Event} {e : Event} {since till : Int64} {d : Delivery}

/-- An answer that the link passes on holds the records that the tier sends. -/
theorem Link.records_of_window {link : Link} (hlink : ∀ fault, link.query = some fault →
      ∃ outcome, fault = .ending outcome)
    (hsend : link.send a (Poller.window since till) false = .answer (.ok d)) :
    ∃ feed, a.feed (Poller.window since till) false = .ok feed ∧
      d.feed.records = feed.records.map Hit.record := by
  have hfault : link.faultFor (Poller.window since till) = link.query := rfl
  rw [send, hfault] at hsend
  cases hquery : link.query with
  | none =>
    rw [hquery] at hsend
    cases hfeed : a.feed (Poller.window since till) false with
    | error err =>
      rw [hfeed] at hsend
      cases hsend
    | ok feed =>
      rw [hfeed] at hsend
      cases hsend
      exact ⟨feed, rfl, rfl⟩
  | some fault =>
    obtain ⟨outcome, rfl⟩ := hlink fault hquery
    rw [hquery] at hsend
    cases hfeed : a.feed (Poller.window since till) false with
    | error err =>
      rw [hfeed] at hsend
      cases hsend
    | ok feed =>
      rw [hfeed] at hsend
      cases hsend
      exact ⟨feed, rfl, rfl⟩

/-- The plan for a window is a scan of the times. -/
theorem Plan.ofFilter_window (hle : since ≤ till) (htill : 0 ≤ till) :
    Plan.ofFilter (Poller.window since till) =
      .ok ⟨[.timed .createdAt Key.createdAtStem (clampTime till)], none, clampTime since⟩ := by
  have hpossible : isImpossible (Poller.window since till) = false := by
    show (decide (till < 0) || decide (till < since)) = false
    rw [Bool.or_eq_false_iff, decide_eq_false_iff_not, decide_eq_false_iff_not, Int64.not_lt,
      Int64.not_lt]
    exact ⟨htill, hle⟩
  show Except.ok (if isImpossible (Poller.window since till) then nothing else _) = _
  rw [hpossible]
  rfl

/-- **The whole events of a window are sent**, unless the tier counts more in the window than a
query delivers. -/
theorem Archive.Serves.sends_window (h : a.Serves es) (hfits : ∀ e ∈ es, e.Sized)
    (he : e ∈ a.db.events.storedEvents) (hsince : since ≤ e.createdAt) (htill : e.createdAt ≤ till)
    (hnonneg : 0 ≤ till) {feed : Feed Hit}
    (hfeed : a.feed (Poller.window since till) false = .ok feed) :
    .full e ∈ feed.records.map Hit.record ∨
      ∃ n, a.count (Poller.window since till) false = .ok n ∧ a.config.maxLimit.toNat < n := by
  obtain ⟨L, J, hf, hJ⟩ := h.follows
  have hr : a.db.events.Renders L := hf.db.events
  have hsized := hf.sized fun q hq => hfits _ (hJ q hq)
  have hplan := Plan.ofFilter_window (Int64.le_trans hsince htill) hnonneg
  have huniform := Plan.uniform_of_ofFilter hplan
  have hscans := fun s hs => Plan.timed_of_mem_scans hplan rfl (s := s) hs
  rw [Archive.feed_eq h.isOpen hplan] at hfeed
  cases hfeed
  rw [Archive.count_eq h.isOpen hplan]
  generalize hp : Plan.mk _ _ _ = p at hscans huniform ⊢
  rcases Nat.lt_or_ge a.config.maxLimit.toNat (p.count a.db.events) with hcut | hroom
  · exact .inr ⟨_, rfl, hcut⟩
  · -- there is room for all that the plan finds, and it finds the event under its time
    obtain ⟨s, t, hL⟩ := (hr.mem_storedEvents hsized).mp he
    have hlength := (Plan.length_found_le_count hr hsized huniform
      a.config.scanPageSize.toNat).trans hroom
    refine .inl (List.mem_map.mpr ⟨⟨s, e.createdAt, .full e⟩, ?_, rfl⟩)
    show _ ∈ p.hits a.db.events a.config.maxLimit.toNat a.config.scanPageSize.toNat
    rw [Plan.hits_eq_take, List.take_of_length_le hlength, Plan.mem_found hr hsized hscans]
    subst hp
    refine ⟨.live e t, .full e, hL, rfl, rfl, _, List.mem_singleton_self _, ?_,
      clampTime_le_clampTime_iff.mpr (.inl hsince), clampTime_le_clampTime_iff.mpr (.inl htill)⟩
    exact (Key.timed_mem_index_iff Key.layout?_createdAtStem rfl).mpr rfl

end

/-! ### What is copied -/

namespace Pull
variable {now : Int64} {p : Pull} {before rest : List Record} {e : Event}

/-- After a record that could not be saved nothing more is copied. -/
theorem foldl_step_of_failed (records : List Record) (hfailed : p.failure.isSome = true) :
    records.foldl (step now) p = p := by
  induction records with
  | nil => rfl
  | cons r records ih =>
    have hsame : step now p r = p := by rw [step, if_pos hfailed]
    rw [List.foldl_cons, hsame, ih]

/-- **Where everything is copied, every whole record is saved.** -/
theorem save_of_copied
    (hdone : ((before ++ .full e :: rest).foldl (step now) p).failure = none) :
    ∃ o, ((before.foldl (step now) p).primary.save now e).1 = .ok o ∧
      (step now (before.foldl (step now) p) (.full e)).primary =
        ((before.foldl (step now) p).primary.save now e).2 := by
  rw [List.foldl_append, List.foldl_cons] at hdone
  generalize before.foldl (step now) p = q at hdone ⊢
  have hnext : (step now q (.full e)).failure = none := by
    by_contra hfailed
    rw [foldl_step_of_failed rest (Option.isSome_iff_ne_none.mpr hfailed)] at hdone
    exact hfailed hdone
  rw [step] at hnext ⊢
  split at hnext
  · rename_i hfailed
    rw [hnext] at hfailed
    cases hfailed
  · rename_i hgoes
    rw [if_neg hgoes]
    dsimp only at hnext ⊢
    cases hsave : q.primary.save now e with
    | mk outcome primary =>
      rw [hsave] at hnext
      cases outcome with
      | error err => cases hnext
      | ok o =>
        refine ⟨o, rfl, ?_⟩
        dsimp only
        split <;> rfl

end Pull

/-- Saving does not close a tier. -/
theorem Archive.isClosed_saveAll (a : Archive) (now : Int64) (saved : List Event) :
    (a.saveAll now saved).isClosed = a.isClosed := by
  induction saved generalizing a with
  | nil => rfl
  | cons e saved ih =>
    have hsave : (a.save now e).2.isClosed = a.isClosed := by
      rw [save]
      split <;> rfl
    exact (ih (a.save now e).2).trans hsave

namespace Archive.Serves
variable {a : Archive} {es : List Event} {e : Event} {now : Int64} {o : SaveOutcome}
  (h : a.Serves es) (hid : Identified es) (hfits : ∀ e ∈ es, e.Sized)
include h hid hfits

/-- **What is saved is stored**, unless the tier refuses it. -/
theorem stored_or_refused (he : e ∈ es) (hok : (a.save now e).1 = .ok o) :
    o ∈ [.duplicate, .superseded, .ephemeral] ∨ e ∈ (a.save now e).2.db.events.storedEvents := by
  obtain ⟨L, J, L', J', -, -, hsaved, hf', hJ'⟩ := h.exists_saved hid he hok
  have hstored := stored_of_live (e := e) hf' fun p hp => hfits _ (hJ' p hp)
  cases hsaved with
  | ephemeral => exact .inl (by simp)
  | duplicate => exact .inl (by simp)
  | superseded => exact .inl (by simp)
  | @revived s' _ hL => exact .inr (hstored ⟨s', _, Function.update_self ..⟩)
  | stored => exact .inr (hstored ⟨_, _, Function.update_self ..⟩)

/-- A regular event stays stored when others are saved. -/
theorem stored_saveAll (hkind : e.kind.retention = .regular) (he : e ∈ a.db.events.storedEvents)
    (now : Int64) {saved : List Event} (hsaved : ∀ e ∈ saved, e ∈ es) :
    e ∈ (a.saveAll now saved).db.events.storedEvents := by
  induction saved generalizing a with
  | nil => exact he
  | cons e' saved ih =>
    have he' := hsaved e' List.mem_cons_self
    exact ih (h.save hid he' now) (h.stored_save hid hfits he hkind he' now) fun x hx =>
      hsaved x (List.mem_cons_of_mem _ hx)

end Archive.Serves

/-! ### Polls that go through -/

/-- Both tiers were reached with events that their identifiers tell apart. -/
def TieredArchive.Known (t : TieredArchive) : Prop :=
  ∃ es es', Archive.Reached es t.primary ∧ Archive.Reached es' t.secondary ∧
    Identified (es ++ es') ∧ ∀ e ∈ es ++ es', e.Sized

theorem Archive.isClosed_of_feed {a : Archive} {f : Filter} {cancelled : Bool} {feed : Feed Hit}
    (hfeed : a.feed f cancelled = .ok feed) : a.isClosed = false := by
  rw [Archive.feed, ensureOpen] at hfeed
  split at hfeed
  · cases hfeed
  · rename_i hopen
    exact Bool.eq_false_iff.mpr hopen

theorem Archive.isClosed_of_save {a : Archive} {now : Int64} {e : Event} {o : SaveOutcome}
    (hok : (a.save now e).1 = .ok o) : a.isClosed = false := by
  cases hclosed : a.isClosed with
  | false => rfl
  | true =>
    rw [save, ensureOpen, hclosed] at hok
    cases hok

namespace Poll
variable {q : Poll} {d : Delivery} {es : List Event} {e : Event}

/-- The tiers after a poll. -/
def finished (q : Poll) : TieredArchive := q.tiers.poll q.now ⟨q.since, 0⟩

/-- An answer of known events all of which is copied. -/
structure Copies (q : Poll) (d : Delivery) (es : List Event) : Prop where
  answer : q.answer = .answer (.ok d)
  done : (q.copied d.feed.records).failure = none
  known : ∀ e, .full e ∈ d.feed.records → e ∈ es

/-- What is copied before a record of an answer leaves the local tier one that answers. -/
theorem Copies.serves (h : q.Copies d es) (hid : Identified es)
    (hprimary : q.tiers.primary.isClosed = false → q.tiers.primary.Serves es)
    {before rest : List Record} (hsplit : d.feed.records = before ++ .full e :: rest) :
    (q.copied before).primary.Serves es ∧
      ∃ o, ((q.copied before).primary.save q.now e).1 = .ok o ∧ ∃ saved, (∀ x ∈ saved, x ∈ es) ∧
        (q.copied d.feed.records).primary =
          ((q.copied before).primary.save q.now e).2.saveAll q.now saved := by
  have hdone := h.done
  rw [copied, hsplit] at hdone
  obtain ⟨o, hok, hnext⟩ := Pull.save_of_copied hdone
  have hok : ((q.copied before).primary.save q.now e).1 = .ok o := hok
  obtain ⟨saved, hsaved, hbefore⟩ := Pull.exists_saveAll q.now before
    ⟨q.tiers.primary, q.tiers.synced, 0, none⟩
  have hsaved : (q.copied before).primary = q.tiers.primary.saveAll q.now saved := hsaved
  obtain ⟨saved', hsaved', hrest⟩ := Pull.exists_saveAll q.now rest
    (Pull.step q.now (q.copied before) (.full e))
  have hopen := Archive.isClosed_of_save hok
  rw [hsaved, Archive.isClosed_saveAll] at hopen
  refine ⟨?_, o, hok, saved', fun x hx => ?_, ?_⟩
  · rw [hsaved]
    refine (hprimary hopen).saveAll hid q.now fun x hx => h.known x ?_
    exact hsplit ▸ List.mem_append_left _ (hbefore x hx)
  · exact h.known x (hsplit ▸ List.mem_append_right _ (List.mem_cons_of_mem _ (hrest x hx)))
  · rw [copied, hsplit, List.foldl_append, List.foldl_cons]
    refine hsaved'.trans ?_
    rw [show (Pull.step q.now (q.copied before) (.full e)).primary =
      ((q.copied before).primary.save q.now e).2 from hnext]

/-- **What is sent is passed to the local tier**, where it is stored or refused; and an event of a
regular kind is there when the poll is done. -/
theorem Copies.passes (h : q.Copies d es) (hid : Identified es) (hfits : ∀ e ∈ es, e.Sized)
    (hprimary : q.tiers.primary.isClosed = false → q.tiers.primary.Serves es)
    (he : .full e ∈ d.feed.records) : (∃ o after, q.Passes e o after ∧
        (o ∈ [.duplicate, .superseded, .ephemeral] ∨ e ∈ after.db.events.storedEvents)) ∧
      (e.kind.retention = .regular → e ∈ q.finished.primary.db.events.storedEvents) := by
  obtain ⟨before, rest, hsplit⟩ := List.append_of_mem he
  obtain ⟨hserves, o, hok, saved, hsaved, hall⟩ := h.serves hid hprimary hsplit
  have hknown := h.known e he
  refine ⟨⟨o, _, ⟨d, before, rest, h.answer, hsplit, Prod.ext hok rfl⟩, ?_⟩, fun hkind => ?_⟩
  · exact hserves.stored_or_refused hid hfits hknown hok
  · have hfinished : q.finished.primary = (q.copied d.feed.records).primary :=
      (Poller.poll_of_answer h.answer 0).1
    rw [hfinished, hall]
    exact (hserves.save hid hknown q.now).stored_saveAll hid hfits hkind
      (hserves.stored_of_save hid hfits hkind hknown hok) q.now hsaved

/-- An open tier answers over an undisturbed link. -/
theorem answer_undisturbed {p : Plan} (hlink : q.tiers.link = .undisturbed)
    (hopen : q.tiers.secondary.isClosed = false)
    (hplan : Plan.ofFilter (Poller.window q.since q.now) = .ok p) :
    q.answer = .answer (.ok (.plain q.tiers.secondary (.ofQuery (p.hits
      q.tiers.secondary.db.events q.tiers.secondary.config.maxLimit.toNat
      q.tiers.secondary.config.scanPageSize.toNat)))) := by
  rw [answer, hlink, Link.send_undisturbed, Archive.feed_eq hopen hplan]
  rfl

/-- Over an undisturbed link an answer is cut only if there is too much in the window. -/
theorem not_cut {p : Plan} (hlink : q.tiers.link = .undisturbed)
    (hopen : q.tiers.secondary.isClosed = false)
    (hplan : Plan.ofFilter (Poller.window q.since q.now) = .ok p) (hnow : 0 ≤ q.now)
    (hroom : p.count q.tiers.secondary.db.events ≤ q.tiers.secondary.config.maxLimit.toNat) :
    ¬ q.Cut := by
  rintro (⟨n, hn, hcut⟩ | ⟨fault, hfault, -⟩ | hpast)
  · rw [Archive.count_eq hopen hplan] at hn
    cases hn
    exact absurd hcut (Nat.not_lt.mpr hroom)
  · rw [hlink] at hfault
    cases hfault
  · exact absurd hpast (Int64.not_lt.mpr hnow)

/-- **A poll that goes through copies its window**, unless its answer is cut. -/
theorem copies_window (hknown : q.tiers.Known) (hcloses : q.Closes)
    (he : e ∈ q.tiers.secondary.db.events.storedEvents) (hsince : q.since ≤ e.createdAt)
    (htill : e.createdAt ≤ q.now) : q.Cut ∨
      (∃ o after, q.Passes e o after ∧
        (o ∈ [.duplicate, .superseded, .ephemeral] ∨ e ∈ after.db.events.storedEvents)) ∧
      (e.kind.retention = .regular → e ∈ q.finished.primary.db.events.storedEvents) := by
  obtain ⟨es, es', hprimary, hsecondary, hid, hfits⟩ := hknown
  obtain ⟨d, hanswer, hdone, -⟩ := hcloses
  by_cases hpast : q.now < 0
  · exact .inl (.inr (.inr hpast))
  by_cases hlink : ∀ fault, q.tiers.link.query = some fault → ∃ outcome, fault = .ending outcome
  · obtain ⟨feed, hfeed, hrecords⟩ := Link.records_of_window hlink hanswer
    have hserves := hsecondary.serves (Archive.isClosed_of_feed hfeed)
      (fun e => List.mem_append_right es) hid
    have hcopies : q.Copies d (es ++ es') := by
      refine ⟨hanswer, hdone, fun x hx => ?_⟩
      rw [hrecords] at hx
      obtain ⟨hit, hhit, hrecord⟩ := List.mem_map.mp hx
      exact hserves.mem_of_stored hfits (hserves.stored_of_feed hfits hfeed hhit hrecord)
    rcases hserves.sends_window hfits he hsince htill (Int64.not_lt.mp hpast) hfeed with
      hsent | hcut
    · rw [← hrecords] at hsent
      refine .inr (hcopies.passes hid hfits (fun hopen => ?_) hsent)
      exact hprimary.serves hopen (fun e => List.mem_append_left es') hid
    · exact .inl (.inl hcut)
  · obtain ⟨fault, hfault⟩ := not_forall.mp hlink
    obtain ⟨hfault, hother⟩ := Classical.not_imp.mp hfault
    exact .inl (.inr (.inl ⟨fault, hfault, not_exists.mp hother⟩))

end Poll

namespace Poller

/-- A poll of a run finds the tiers of one of its rounds. -/
theorem exists_round {p : Poller} {rounds : List (TieredArchive × Int64)} {q : Poll}
    (hq : q ∈ p.polls rounds) : (q.tiers, q.now) ∈ rounds := by
  induction rounds generalizing p with
  | nil => cases hq
  | cons round rounds ih =>
    rw [polls] at hq
    rcases List.mem_cons.mp hq with rfl | hq
    · exact List.mem_cons_self
    · split at hq
      · cases hq
      · exact List.mem_cons_of_mem _ (ih hq)

/-- **Polling loses nothing but what answers leave out.**  Whatever happens to the tiers between the
polls of a run, a poll that goes through passes every whole record of its window to the local tier,
where it is stored or refused, unless its answer is cut; and a record of a regular kind is there
when the poll is done.  The windows leave no gap: every time from the start of the poller to the end
of a poll that goes through lies in the window of such a poll. -/
theorem polls_lossless (p : Poller) (rounds : List (TieredArchive × Int64))
    (hrounds : ∀ round ∈ rounds, round.1.Known) :
    (∀ q ∈ p.polls rounds, q.Closes → ∀ e ∈ q.tiers.secondary.db.events.storedEvents,
      q.since ≤ e.createdAt → e.createdAt ≤ q.now → q.Cut ∨
        (∃ o after, q.Passes e o after ∧
          (o ∈ [.duplicate, .superseded, .ephemeral] ∨ e ∈ after.db.events.storedEvents)) ∧
        (e.kind.retention = .regular → e ∈ q.finished.primary.db.events.storedEvents)) ∧
    ∀ q ∈ p.polls rounds, q.Closes → ∀ c, p.since ≤ c → c ≤ q.now →
      ∃ q' ∈ p.polls rounds, q'.Closes ∧ q'.since ≤ c ∧ c ≤ q'.now :=
  ⟨fun q hq hcloses _ he hsince htill =>
    q.copies_window (hrounds _ (exists_round hq)) hcloses he hsince htill,
    fun _ hq hcloses _ hsince htill => exists_window hq hcloses hsince htill⟩

/-- The secondary tier has two notes and the local one has neither.  A poll passes on both. -/
theorem polls_lossless_notes :
    let near : Event := .uniform 1 7 1005 1 []
    let far : Event := .uniform 2 7 1003 1 []
    let t : TieredArchive := .join .fresh (Archive.fresh.saveAll 5 [near, far]) .undisturbed
    let q : Poll := ⟨t, 1010, 1000⟩
    q ∈ polls ⟨1000, 1⟩ [(t, 1010)] ∧ q.Closes ∧ ¬ q.Cut ∧
      far ∈ q.finished.primary.db.events.storedEvents := by
  intro near far t q
  have hq : q ∈ polls ⟨1000, 1⟩ [(t, 1010)] := List.mem_cons_self
  have hplan := @Plan.ofFilter_window 1000 1010 (by decide) (by decide)
  have hopen : t.secondary.isClosed = false := Archive.isClosed_saveAll ..
  have hanswer := Poll.answer_undisturbed (q := q) rfl hopen hplan
  have hcloses : q.Closes := ⟨_, hanswer, by decide +kernel, nofun⟩
  have hcut : ¬ q.Cut := Poll.not_cut (q := q) rfl hopen hplan (by decide) (by decide +kernel)
  have hknown : ∀ round ∈ [(t, (1010 : Int64))], round.1.Known := by
    rintro round hround
    rw [List.mem_singleton.mp hround]
    exact ⟨[], [near, far], Archive.Reached.fresh.withDemotion true,
      Archive.Reached.fresh.saveAll 5 _, by decide +kernel, by decide +kernel⟩
  obtain ⟨hlossless, -⟩ := polls_lossless ⟨1000, 1⟩ [(t, 1010)] hknown
  have hfar := hlossless q hq hcloses far (by decide +kernel) (by decide +kernel)
    (by decide +kernel)
  exact ⟨hq, hcloses, hcut, (hfar.resolve_left hcut).2 rfl⟩

/-- The secondary tier lets a query deliver no more than one record.  The poll goes through, and the
older one of two notes in its window is not passed on. -/
theorem polls_lossy :
    let near : Event := .uniform 1 7 1005 1 []
    let far : Event := .uniform 2 7 1003 1 []
    let narrow : Archive := { Archive.fresh with config := { Config.standard with maxLimit := 1 } }
    let t : TieredArchive := .join .fresh (narrow.saveAll 5 [near, far]) .undisturbed
    let q : Poll := ⟨t, 1010, 1000⟩
    Archive.start narrow.config .empty = .ok narrow ∧ q ∈ polls ⟨1000, 1⟩ [(t, 1010)] ∧ q.Closes ∧
      t.secondary.db.events.storedEvents = [near, far] ∧
      q.finished.primary.db.events.storedEvents = [near] ∧
      q.finished.poller = some ⟨nextSince t.primary.config.poll 1010, 1⟩ := by
  intro near far narrow t q
  have hplan := @Plan.ofFilter_window 1000 1010 (by decide) (by decide)
  have hopen : t.secondary.isClosed = false := Archive.isClosed_saveAll ..
  have hanswer := Poll.answer_undisturbed (q := q) rfl hopen hplan
  have hstart : Archive.start narrow.config .empty = .ok narrow := rfl
  exact ⟨hstart, List.mem_cons_self, ⟨_, hanswer, by decide +kernel, nofun⟩, by decide +kernel,
    by decide +kernel, by decide +kernel⟩

end Poller
end EventArchive
