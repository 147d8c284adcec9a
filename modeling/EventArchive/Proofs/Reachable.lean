import EventArchive.Proofs.Transactions
import EventArchive.Session.Request

/-! # Reachable archives

An archive is reached from a new database by requests, by time passing and by
what workers write in between, and goes on after it was closed or lost.  Whatever
is done to its tables is a run of write transactions
(`Archive.Reached.exists_run`), so what is true of every run of a tier is true of
every archive.
-/
namespace EventArchive

/-- The event that a request is given. -/
def Request.event? : Request → Option Event
  | .save e => some e
  | .delete e => some e
  | _ => none

namespace Archive

/-- The tables of an archive and its lease. -/
def tier (a : Archive) : Tier := ⟨a.db, a.lease⟩

/-- An archive with the tables and the lease of a tier. -/
def withTier (a : Archive) (t : Tier) : Archive := { a with db := t.db, lease := t.lease }

/-- **The archives that can be reached** from a new database, with the events that they were
given. -/
inductive Reached : List Event → Archive → Prop
  | start {config : Config} {a : Archive} (h : Archive.start config .empty = .ok a) : Reached [] a
  | answer {es : List Event} {a : Archive} (h : Reached es a) (now : Int64) (r : Request) :
      Reached (es ++ r.event?.toList) (a.answer now r).2
  | tick {es : List Event} {a : Archive} (h : Reached es a) : Reached es a.tick
  /-- Workers note accesses and sweep whenever they get to it. -/
  | work {es : List Event} {a : Archive} (h : Reached es a) (x : Transaction)
      (hx : x.event? = none) : Reached es (a.withTier (a.tier.step x))
  | reopen {es : List Event} {a a' : Archive} {config : Config} (h : Reached es a)
      (hstart : Archive.start config a.close.db = .ok a') : Reached es a'
  | crash {es : List Event} {a a' : Archive} {config : Config} (h : Reached es a)
      (hstart : Archive.start config a.db = .ok a') : Reached es a'

/-- A tier after transactions that are given certain events. -/
def RunsTo (t : Tier) (es : List Event) (t' : Tier) : Prop :=
  ∃ xs : List Transaction, t' = t.run xs ∧ ∀ e ∈ xs.filterMap (·.event?), e ∈ es

theorem RunsTo.refl (t : Tier) (es : List Event) : RunsTo t es t := ⟨[], rfl, nofun⟩

theorem RunsTo.single (t : Tier) (x : Transaction) : RunsTo t x.event?.toList (t.step x) := by
  refine ⟨[x], rfl, fun e he => ?_⟩
  obtain ⟨y, hy, hevent⟩ := List.mem_filterMap.mp he
  obtain rfl := List.mem_singleton.mp hy
  exact Option.mem_toList.mpr hevent

theorem RunsTo.trans {t t' t'' : Tier} {es es' es'' : List Event} (h : RunsTo t es t')
    (h' : RunsTo t' es' t'') (hsub : ∀ e ∈ es, e ∈ es'') (hsub' : ∀ e ∈ es', e ∈ es'') :
    RunsTo t es'' t'' := by
  obtain ⟨xs, rfl, hxs⟩ := h
  obtain ⟨ys, rfl, hys⟩ := h'
  refine ⟨xs ++ ys, by rw [Tier.run, Tier.run, Tier.run, List.foldl_append], fun e he => ?_⟩
  rw [List.filterMap_append, List.mem_append] at he
  rcases he with he | he
  · exact hsub e (hxs e he)
  · exact hsub' e (hys e he)

/-! ### Requests -/

/-- Writing accesses batch by batch is a run of transactions. -/
theorem run_touches (t : Tier) (parts : List (List Access)) (now : UInt64) :
    t.run (parts.map (Transaction.touch · now)) =
      { t with db := { t.db with
          events := parts.foldl (fun k batch => k.touchOrDrop batch now) t.db.events } } := by
  induction parts generalizing t with
  | nil => rfl
  | cons batch parts ih =>
    rw [List.map_cons, Tier.run, List.foldl_cons]
    exact ih _

theorem noteAccesses_runs (a : Archive) (now : Int64) (hits : List Hit) :
    RunsTo a.tier [] (a.noteAccesses now hits).tier := by
  refine ⟨_, (run_touches a.tier _ (clampTime now)).symm, ?_⟩
  intro e he
  obtain ⟨x, hx, he⟩ := List.mem_filterMap.mp he
  obtain ⟨batch, -, rfl⟩ := List.mem_map.mp hx
  cases he

theorem collect_runs (a : Archive) : RunsTo a.tier [] a.collect.2.tier := by
  rw [collect]
  split
  · exact .refl _ _
  · exact ⟨[.sweepRecords _ _, .sweepIndices _], rfl, nofun⟩

theorem close_runs (a : Archive) : RunsTo a.tier [] a.close.tier := by
  rw [close]
  split
  · exact .refl _ _
  · exact .single a.tier .release

section
variable {a : Archive}

theorem ensureOpen_eq (hopen : a.isClosed = false) : a.ensureOpen = .ok () := by
  rw [ensureOpen, hopen]
  rfl

theorem save_eq (hopen : a.isClosed = false) (now : Int64) (e : Event) :
    a.save now e = ((a.db.save a.lease (clampTime now) e).1,
      a.withTier (a.tier.step (.save (clampTime now) e))) := by
  rw [save, ensureOpen_eq hopen]
  rfl

theorem delete_eq (hopen : a.isClosed = false) (e : Event) :
    a.delete e = (.ok (a.db.delete e).1, a.withTier (a.tier.step (.delete e))) := by
  rw [delete, ensureOpen_eq hopen]
  rfl

theorem collect_eq (hopen : a.isClosed = false) : ∃ victims stale, a.collect.2 =
    a.withTier (a.tier.run [.sweepRecords victims a.demotes, .sweepIndices stale]) := by
  rw [collect, ensureOpen_eq hopen]
  exact ⟨_, _, rfl⟩

end

/-- **Answering a request** is a run of transactions. -/
theorem answer_runs (a : Archive) (now : Int64) (r : Request) :
    RunsTo a.tier r.event?.toList (a.answer now r).2.tier := by
  cases r with
  | save e =>
    show RunsTo a.tier [e] (a.save now e).2.tier
    rw [save]
    split
    · exact .refl _ _
    · exact .single a.tier (.save (clampTime now) e)
  | delete e =>
    show RunsTo a.tier [e] (a.delete e).2.tier
    rw [delete]
    split
    · exact .refl _ _
    · exact .single a.tier (.delete e)
  | query f cancelled =>
    show RunsTo a.tier [] (a.query now f cancelled).2.tier
    rw [query]
    split
    · exact .refl _ _
    · exact a.noteAccesses_runs now _
  | take f n =>
    show RunsTo a.tier [] (a.take now f n).2.tier
    rw [take]
    split
    · exact .refl _ _
    · exact a.noteAccesses_runs now _
  | count f cancelled => exact .refl _ _
  | collect => exact a.collect_runs
  | demotion enabled => exact .refl _ _
  | init =>
    show RunsTo a.tier [] a.init.2.tier
    rw [init]
    split
    · exact .refl _ _
    · split <;> exact .refl _ _
  | close => exact a.close_runs

/-- Letting time pass is a run of transactions. -/
theorem tick_runs (a : Archive) : RunsTo a.tier [] a.tick.tier := by
  rw [tick]
  split
  · exact .refl _ _
  · exact .refl _ _
  · exact a.collect_runs

/-- **Opening a database** succeeds if the settings are valid and the layout is known. -/
theorem start_eq {config : Config} {db : Database} {a : Archive} (h : start config db = .ok a) :
    config.validate = .ok () ∧ ∃ db', db.prepare = .ok db' ∧
      a = ⟨config, db', Lease.resume db' config.serialBatch, false, false, none⟩ := by
  rw [start] at h
  cases hvalid : config.validate with
  | error e =>
    rw [hvalid] at h
    cases h
  | ok u =>
    rw [hvalid] at h
    cases hprepare : db.prepare with
    | error e =>
      rw [hprepare] at h
      cases h
    | ok db' =>
      rw [hprepare] at h
      cases h
      exact ⟨rfl, db', rfl, rfl⟩

/-- Opening a database is beginning to use its tables. -/
theorem tier_of_start {config : Config} {db : Database} {a : Archive}
    (h : start config db = .ok a) : a.tier = Tier.start db config.serialBatch := by
  obtain ⟨-, db', hprepare, rfl⟩ := start_eq h
  rw [Tier.start, hprepare]
  rfl

/-! ### Reachable archives -/

/-- **Every reachable archive is one of a reachable tier.** -/
theorem Reached.exists_run {es : List Event} {a : Archive} (h : Reached es a) :
    ∃ batch, RunsTo (Tier.fresh batch) es a.tier := by
  induction h with
  | @start config a h =>
    refine ⟨config.serialBatch, ?_⟩
    rw [tier_of_start h]
    exact .refl _ _
  | answer h now r ih =>
    obtain ⟨batch, hrun⟩ := ih
    refine ⟨batch, hrun.trans (answer_runs _ now r) ?_ ?_⟩
    · exact fun e he => List.mem_append_left _ he
    · exact fun e he => List.mem_append_right _ he
  | tick h ih =>
    obtain ⟨batch, hrun⟩ := ih
    exact ⟨batch, hrun.trans (tick_runs _) (fun e he => he) nofun⟩
  | @work es a h x hx ih =>
    obtain ⟨batch, hrun⟩ := ih
    have hwork : RunsTo a.tier [] (a.tier.step x) := by
      have hsingle := RunsTo.single a.tier x
      rwa [hx] at hsingle
    exact ⟨batch, hrun.trans hwork (fun e he => he) nofun⟩
  | @reopen es a a' config h hstart ih =>
    obtain ⟨batch, hrun⟩ := ih
    -- closing returns the lease, and opening goes on from there as after a crash
    have hclosed := hrun.trans (close_runs a) (fun e he => he) nofun
    have hcrash : RunsTo a.close.tier [] a'.tier := by
      rw [tier_of_start hstart]
      exact .single a.close.tier (.crash config.serialBatch)
    exact ⟨batch, hclosed.trans hcrash (fun e he => he) nofun⟩
  | @crash es a a' config h hstart ih =>
    obtain ⟨batch, hrun⟩ := ih
    have hcrash : RunsTo a.tier [] a'.tier := by
      rw [tier_of_start hstart]
      exact .single a.tier (.crash config.serialBatch)
    exact ⟨batch, hrun.trans hcrash (fun e he => he) nofun⟩

/-- Every reachable archive has the tables of a ledger of events that it was given and that are of
kinds that are stored. -/
theorem Reached.exists_journal {es es' : List Event} {a : Archive} (h : Reached es a)
    (hsub : ∀ e ∈ es, e ∈ es') (hid : Identified es') : ∃ L J, a.tier.Follows L J ∧
      ∀ p ∈ J, p.2 ∈ es' ∧ p.2.kind.retention ≠ .ephemeral := by
  obtain ⟨batch, xs, hrun, hxs⟩ := h.exists_run
  have hmem : ∀ e ∈ xs.filterMap (·.event?), e ∈ es' := fun e he => hsub e (hxs e he)
  obtain ⟨L, hf⟩ := Tier.exists_follows batch fun a ha b hb => hid a (hmem a ha) b (hmem b hb)
  rw [← hrun] at hf
  exact ⟨L, _, hf, fun p hp =>
    ⟨hmem _ (Tier.mem_of_mem_journal hp), Tier.retention_of_mem_journal hp⟩⟩

/-- What a reachable archive holds are events that it was given. -/
theorem Reached.exists_follows {es : List Event} {a : Archive} (h : Reached es a)
    (hid : Identified es) :
    ∃ L J, a.tier.Follows L J ∧ ∀ ser held, L ser = some held → held.event ∈ es := by
  obtain ⟨L, J, hf, hJ⟩ := h.exists_journal (fun _ => id) hid
  exact ⟨L, J, hf, fun ser held hL => (hJ _ (hf.stored ser held hL)).1⟩

/-- An archive of a new database, under the standard settings. -/
def fresh : Archive :=
  let t := Tier.fresh Config.standard.serialBatch
  ⟨.standard, t.db, t.lease, false, false, none⟩

theorem Reached.fresh : Reached [] fresh := by
  have hstart : Archive.start .standard .empty = .ok Archive.fresh := rfl
  exact .start hstart

theorem Reached.save {es : List Event} {a : Archive} (h : Reached es a) (now : Int64) (e : Event) :
    Reached (es ++ [e]) (a.save now e).2 := h.answer now (.save e)

theorem Reached.delete {es : List Event} {a : Archive} (h : Reached es a) (e : Event) :
    Reached (es ++ [e]) (a.delete e).2 := h.answer 0 (.delete e)

theorem Reached.collect {es : List Event} {a : Archive} (h : Reached es a) :
    Reached es a.collect.2 := by
  have hcollect := h.answer 0 .collect
  rwa [show Request.collect.event?.toList = [] from rfl, List.append_nil] at hcollect

theorem Reached.withDemotion {es : List Event} {a : Archive} (h : Reached es a) (demotes : Bool) :
    Reached es (a.withDemotion demotes) := by
  have hdemotion := h.answer 0 (.demotion demotes)
  rwa [show (Request.demotion demotes).event?.toList = [] from rfl, List.append_nil] at hdemotion

/-- An archive of a new database that demotes all it has when it collects. -/
def demoting : Archive :=
  let config := { Config.standard with collection := ⟨2000, 1, 7, 300, 86, 92⟩ }
  let t := Tier.fresh config.serialBatch
  ⟨config, t.db, t.lease, true, false, none⟩

theorem Reached.demoting : Reached [] demoting := by
  let config : Config := { Config.standard with collection := ⟨2000, 1, 7, 300, 86, 92⟩ }
  let t := Tier.fresh config.serialBatch
  have hstart : Archive.start config .empty = .ok ⟨config, t.db, t.lease, false, false, none⟩ := rfl
  exact (Reached.start hstart).withDemotion true

/-- Save some events one after the other. -/
def saveAll (a : Archive) (now : Int64) (es : List Event) : Archive :=
  es.foldl (fun a e => (a.save now e).2) a

theorem Reached.saveAll {es : List Event} {a : Archive} (h : Reached es a) (now : Int64)
    (es' : List Event) : Reached (es ++ es') (a.saveAll now es') := by
  induction es' generalizing es a with
  | nil => rwa [List.append_nil]
  | cons e es' ih =>
    have hsave := ih (h.answer now (.save e))
    rwa [List.append_assoc] at hsave

end Archive
end EventArchive
