import EventArchive.Logging.Subscriber
import EventArchive.Proofs.SortedMap

/-! # Which lines are logged

The levels of a configuration are written as one text of directives and read back from
it.  What a filter shows is decided by one directive (`LogFilter.Decides`): the longest
that speaks of the line's target, and of equally long ones the last.  In a configuration
of plain names the directives read back are the general level and the overrides, so the
directive that decides is the longest override the target begins with or, if it begins
with none, the general level (`LogConfig.Governs`).

The filter of all output stands before that of the console.  The console's own level
therefore counts only where it is the stricter one, or where an override takes the place
of both (`Subscriber.reaches_iff`).
-/
namespace EventArchive

/-! ### Directives in a text -/

namespace LogFilter
variable {f : LogFilter} {target : String} {d d' : Directive}

theorem parts_append (text more : String) :
    parts (text ++ "," ++ more) = parts text ++ parts more := by
  have hlist : (text ++ "," ++ more).toList = text.toList ++ ',' :: more.toList := by simp
  rw [parts, hlist, splitAt_append, List.filter_append]
  rfl

/-! ### The directive that decides -/

/-- A directive of a filter **decides** for a target: of those that speak of the target it is the
longest, and of several such the last one. -/
def Decides (f : LogFilter) (target : String) (d : Directive) : Prop :=
  ∃ before after, f.directives = before ++ d :: after ∧ d.covers target = true ∧
    (∀ d' ∈ before, d'.covers target = true → d'.weight ≤ d.weight) ∧
    ∀ d' ∈ after, d'.covers target = true → d'.weight < d.weight

theorem Decides.mem (h : f.Decides target d) : d ∈ f.directives := by
  obtain ⟨before, after, hf, -⟩ := h
  exact hf ▸ List.mem_append_right _ List.mem_cons_self

theorem Decides.covers (h : f.Decides target d) : d.covers target = true := by
  obtain ⟨before, after, -, hcovers, -⟩ := h
  exact hcovers

theorem Decides.weight_le (h : f.Decides target d) (hd' : d' ∈ f.directives)
    (hcovers : d'.covers target = true) : d'.weight ≤ d.weight := by
  obtain ⟨before, after, hf, -, hbefore, hafter⟩ := h
  rw [hf, List.mem_append, List.mem_cons] at hd'
  rcases hd' with hd' | rfl | hd'
  · exact hbefore d' hd' hcovers
  · exact Nat.le_refl _
  · exact Nat.le_of_lt (hafter d' hd' hcovers)

/-- Only one directive decides: of two, the earlier one would be lighter and no lighter. -/
theorem Decides.unique (h : f.Decides target d) (h' : f.Decides target d') : d = d' := by
  obtain ⟨before, after, hf, hd, hbefore, hafter⟩ := h
  obtain ⟨before', after', hf', hd', hbefore', hafter'⟩ := h'
  have hsplits := List.append_eq_append_iff.mp (hf.symm.trans hf')
  obtain ⟨between, h, hrest⟩ | ⟨between, h, hrest⟩ := hsplits
  · cases between with
    | nil => exact (List.cons.inj hrest).1
    | cons x between =>
      obtain ⟨rfl, rfl⟩ := List.cons.inj hrest
      have hlt := hafter d' (by simp) hd'
      have hle := hbefore' d (by simp [h]) hd
      exact absurd hlt (Nat.not_lt.mpr hle)
  · cases between with
    | nil => exact (List.cons.inj hrest).1.symm
    | cons x between =>
      obtain ⟨rfl, rfl⟩ := List.cons.inj hrest
      have hlt := hafter' d (by simp) hd
      have hle := hbefore d' (by simp [h]) hd'
      exact absurd hlt (Nat.not_lt.mpr hle)

/-- Going through some directives keeps the heaviest, and of several such the last one. -/
theorem foldl_heaviest (ds : List Directive) (hds : ds ≠ []) :
    ∃ before d after, ds = before ++ d :: after ∧
      ds.foldl (fun best d => if best.any (d.weight < ·.weight) then best else some d) none =
        some d ∧
      (∀ d' ∈ before, d'.weight ≤ d.weight) ∧ ∀ d' ∈ after, d'.weight < d.weight := by
  induction ds using List.reverseRecOn with
  | nil => exact absurd rfl hds
  | append_singleton ds x ih =>
    rw [List.foldl_append]
    by_cases hnil : ds = []
    · subst hnil
      exact ⟨[], x, [], rfl, rfl, by simp, by simp⟩
    obtain ⟨before, d, after, rfl, hfold, hbefore, hafter⟩ := ih hnil
    rw [hfold]
    by_cases hx : x.weight < d.weight
    · refine ⟨before, d, after ++ [x], by simp, by simp [hx], hbefore, fun d' hd' => ?_⟩
      rcases List.mem_append.mp hd' with hd' | hd'
      · exact hafter d' hd'
      · exact List.mem_singleton.mp hd' ▸ hx
    · refine ⟨before ++ d :: after, x, [], rfl, by simp [hx], fun d' hd' => ?_, by simp⟩
      have hle : d'.weight ≤ d.weight := by
        rcases List.mem_append.mp hd' with hd' | hd'
        · exact hbefore d' hd'
        · rcases List.mem_cons.mp hd' with rfl | hd'
          · exact Nat.le_refl _
          · exact Nat.le_of_lt (hafter d' hd')
      exact hle.trans (Nat.not_lt.mp hx)

/-- If a directive speaks of a target, one decides. -/
theorem decides_directiveFor? (h : ∃ d ∈ f.directives, d.covers target = true) :
    ∃ d, f.directiveFor? target = some d ∧ f.Decides target d := by
  have hne : f.directives.filter (·.covers target) ≠ [] := by
    obtain ⟨d, hd, hcovers⟩ := h
    exact List.ne_nil_of_mem (List.mem_filter.mpr ⟨hd, hcovers⟩)
  obtain ⟨before, d, after, hsplit, hfold, hbefore, hafter⟩ := foldl_heaviest _ hne
  obtain ⟨front, back, hf, hfront, hback⟩ := List.filter_eq_append_iff.mp hsplit
  obtain ⟨skipped, rest, rfl, hskipped, hcovers, hrest⟩ := List.filter_eq_cons_iff.mp hback
  refine ⟨d, hfold, front ++ skipped, rest, by rw [hf, List.append_assoc], hcovers, ?_, ?_⟩
  · intro d' hd' hd'covers
    rcases List.mem_append.mp hd' with hd' | hd'
    · exact hbefore d' (hfront ▸ List.mem_filter.mpr ⟨hd', hd'covers⟩)
    · exact absurd hd'covers (hskipped d' hd')
  · intro d' hd' hd'covers
    exact hafter d' (hrest ▸ List.mem_filter.mpr ⟨hd', hd'covers⟩)

/-- A line is shown if the directive that decides for its target allows its level. -/
theorem shows_iff (f : LogFilter) (target : String) (level : Level) :
    f.shows target level = true ↔ ∃ d, f.Decides target d ∧ level.rank ≤ d.level.rank := by
  by_cases hcovered : ∃ d ∈ f.directives, d.covers target = true
  · obtain ⟨d, hfor, hd⟩ := decides_directiveFor? hcovered
    rw [shows, hfor, Option.any_some, decide_eq_true_eq]
    constructor
    · exact fun hle => ⟨d, hd, hle⟩
    · rintro ⟨d', hd', hle⟩
      exact hd.unique hd' ▸ hle
  · have hnil : f.directives.filter (·.covers target) = [] :=
      List.filter_eq_nil_iff.mpr fun d hd hcovers => hcovered ⟨d, hd, hcovers⟩
    refine iff_of_false ?_ ?_
    · simp [shows, directiveFor?, hnil]
    · rintro ⟨d, ⟨before, after, hf, hcovers, -⟩, -⟩
      exact hcovered ⟨d, by simp [hf], hcovers⟩

end LogFilter

/-! ### Plain names -/

/-- A text that may stand in a directive as it is: it begins as a directive may and has no comma,
equals sign or blank. -/
structure IsPlain (text : String) : Prop where
  start : text.toList.head?.any Directive.isStart = true
  chars : ∀ c ∈ text.toList, c ≠ ',' ∧ c ≠ '=' ∧ c.isWhitespace = false

/-- A text that **names a level**. -/
structure Level.NamedBy (level : Level) (text : String) : Prop where
  plain : IsPlain text
  read : Level.ofText? text.toList = some level

theorem Level.NamedBy.unique {level level' : Level} {text : String} (h : level.NamedBy text)
    (h' : level'.NamedBy text) : level = level' :=
  Option.some.inj (h.read.symm.trans h'.read)

namespace Directive
variable {text target : String} {level : Level}

theorem trim_eq_self {cs : List Char} (h : ∀ c ∈ cs, c.isWhitespace = false) : trim cs = cs := by
  have hdrop : ∀ ds : List Char, (∀ c ∈ ds, c.isWhitespace = false) →
      ds.dropWhile Char.isWhitespace = ds := by
    intro ds hds
    refine List.dropWhile_eq_self_iff.mpr fun hlen => ?_
    exact Bool.eq_false_iff.mp (hds _ (List.getElem_mem hlen))
  rw [trim, hdrop cs h, hdrop _ fun c hc => h c (List.mem_reverse.mp hc), List.reverse_reverse]

theorem ofText?_level (h : level.NamedBy text) : ofText? text.toList = some ⟨none, level⟩ := by
  have htrim : trim text.toList = text.toList := trim_eq_self fun c hc => (h.plain.chars c hc).2.2
  have hplace : text.toList.takeWhile (· != '=') = text.toList :=
    List.takeWhile_eq_self_iff.mpr fun c hc => by simp [(h.plain.chars c hc).2.1]
  simp [ofText?, htrim, hplace, h.plain.start, ofWord, h.read]

theorem ofText?_override (ht : IsPlain target) (h : level.NamedBy text) :
    ofText? (target ++ "=" ++ text).toList = some ⟨some target, level⟩ := by
  have hlist : (target ++ "=" ++ text).toList = target.toList ++ '=' :: text.toList := by simp
  have htrim :
      trim (target.toList ++ '=' :: text.toList) = target.toList ++ '=' :: text.toList := by
    refine trim_eq_self fun c hc => ?_
    rcases List.mem_append.mp hc with hc | hc
    · exact (ht.chars c hc).2.2
    · rcases List.mem_cons.mp hc with rfl | hc
      · rfl
      · exact (h.plain.chars c hc).2.2
  have hplace : (target.toList ++ '=' :: text.toList).takeWhile (· != '=') = target.toList := by
    have hplain : ∀ c ∈ target.toList, (c != '=') = true :=
      fun c hc => by simp [(ht.chars c hc).2.1]
    rw [List.takeWhile_append_of_pos hplain]
    simp
  have hstart : (target.toList ++ '=' :: text.toList).head?.any isStart = true := by
    have hne : target.toList ≠ [] := fun hnil => by simpa [hnil] using ht.start
    rw [List.head?_append_of_ne_nil _ hne, ht.start]
  have hlevel : text.toList ≠ [] := fun hnil => by simpa [hnil] using h.plain.start
  rw [hlist, ofText?, htrim, hplace, if_neg (not_not_intro hstart), if_neg (by simp)]
  simp [hlevel, h.read]

end Directive

namespace LogFilter
variable {text target : String} {level : Level}

theorem parts_eq_singleton (hne : text.toList ≠ []) (hplain : ',' ∉ text.toList) :
    parts text = [text.toList] := by
  rw [parts, splitAt_eq_singleton hplain]
  simp [hne]

end LogFilter

/-! ### The levels of a configuration -/

namespace LogConfig
variable {c : LogConfig} {general own level level' : Level} {target text : String}

/-- All overrides are of plain names. -/
def HasPlainTargets (c : LogConfig) : Prop :=
  ∀ t ∈ c.targets.entries, IsPlain t.1 ∧ ∃ level, Level.NamedBy level t.2

/-- A configuration **of plain names**, by the levels that its general level and its console's level
name. -/
structure Plain (c : LogConfig) (general own : Level) : Prop where
  general : general.NamedBy c.defaultLevel
  own : own.NamedBy (c.console.level.getD c.defaultLevel)
  targets : c.HasPlainTargets

/-- Some override is for the target: the target begins with its name. -/
def Overrides (c : LogConfig) (target : String) : Prop :=
  ∃ t ∈ c.targets.entries, t.1.toList <+: target.toList

/-- The level that **governs** a target: that of the longest override the target begins with, or the
general level if it begins with none. -/
inductive Governs (c : LogConfig) (general : Level) (target : String) : Level → Prop where
  | override {t text : String} {level : Level} :
    (t, text) ∈ c.targets.entries → t.toList <+: target.toList → level.NamedBy text →
    (∀ t' ∈ c.targets.entries, t'.1.toList <+: target.toList →
      t'.1.toList.length ≤ t.toList.length) →
    Governs c general target level
  | general : ¬ c.Overrides target → Governs c general target general

theorem Governs.unique (h : c.Governs general target level) (h' : c.Governs general target level') :
    level = level' := by
  cases h with
  | override ht hprefix hnamed hlongest =>
    cases h' with
    | override ht' hprefix' hnamed' hlongest' =>
      have hlength := Nat.le_antisymm (hlongest' _ ht hprefix) (hlongest _ ht' hprefix')
      obtain rfl := String.toList_inj.mp
        ((List.prefix_of_prefix_length_le hprefix hprefix' hlength.le).eq_of_length hlength)
      have htext := (SortedMap.get?_eq_some_iff.mpr ht).symm.trans
        (SortedMap.get?_eq_some_iff.mpr ht')
      exact hnamed.unique (Option.some.inj htext ▸ hnamed')
    | general hnone => exact absurd ⟨_, ht, hprefix⟩ hnone
  | general hnone =>
    cases h' with
    | override ht' hprefix' _ _ => exact absurd ⟨_, ht', hprefix'⟩ hnone
    | general _ => rfl

/-- The text of directives is read as that of the level and those of the overrides. -/
theorem parts_directivesAt (c : LogConfig) (text : String) :
    LogFilter.parts (c.directivesAt text) =
      LogFilter.parts text ++ c.targets.entries.flatMap fun t =>
        LogFilter.parts (t.1 ++ "=" ++ t.2) := by
  rw [directivesAt]
  induction c.targets.entries generalizing text with
  | nil => simp
  | cons t ts ih =>
    have hstep : text ++ "," ++ t.1 ++ "=" ++ t.2 = text ++ "," ++ (t.1 ++ "=" ++ t.2) := by
      simp only [String.append_assoc]
    rw [List.foldl_cons, ih, hstep, LogFilter.parts_append, List.flatMap_cons, List.append_assoc]

theorem parts_override {t : String × String} (ht : IsPlain t.1) (hlevel : level.NamedBy t.2) :
    LogFilter.parts (t.1 ++ "=" ++ t.2) = [(t.1 ++ "=" ++ t.2).toList] := by
  have hlist : (t.1 ++ "=" ++ t.2).toList = t.1.toList ++ '=' :: t.2.toList := by simp
  refine LogFilter.parts_eq_singleton (by simp) ?_
  rw [hlist, List.mem_append, List.mem_cons, not_or, not_or]
  exact ⟨fun h => (ht.chars _ h).1 rfl, by decide, fun h => (hlevel.plain.chars _ h).1 rfl⟩

/-- What is read from directives of plain names: the level, then the overrides. -/
theorem directives_ofTextLossy (hlevel : level.NamedBy text) (hplain : c.HasPlainTargets) :
    (LogFilter.ofTextLossy (c.directivesAt text)).directives =
      ⟨none, level⟩ :: c.targets.entries.filterMap fun t =>
        (Level.ofText? t.2.toList).map (⟨some t.1, ·⟩) := by
  have hgeneral : LogFilter.parts text = [text.toList] :=
    LogFilter.parts_eq_singleton (fun hnil => by simpa [hnil] using hlevel.plain.start)
      fun h => (hlevel.plain.chars _ h).1 rfl
  have hparts : (c.targets.entries.flatMap fun t => LogFilter.parts (t.1 ++ "=" ++ t.2)) =
      c.targets.entries.map fun t => (t.1 ++ "=" ++ t.2).toList := by
    rw [List.map_eq_flatMap]
    refine List.flatMap_congr fun t ht => ?_
    obtain ⟨ht, own, hown⟩ := hplain t ht
    exact parts_override ht hown
  have hread : (LogFilter.parts (c.directivesAt text)).filterMap Directive.ofText? =
      ⟨none, level⟩ :: c.targets.entries.filterMap fun t =>
        (Level.ofText? t.2.toList).map (⟨some t.1, ·⟩) := by
    rw [parts_directivesAt, hgeneral, hparts, List.singleton_append, List.filterMap_cons,
      Directive.ofText?_level hlevel, List.filterMap_map]
    refine congrArg _ (List.filterMap_congr fun t ht => ?_)
    obtain ⟨ht, own, hown⟩ := hplain t ht
    rw [Function.comp_apply, Directive.ofText?_override ht hown, hown.read, Option.map_some]
  rw [LogFilter.ofTextLossy, hread]

theorem governs_of_decides {d : Directive} (hlevel : level.NamedBy text)
    (hplain : c.HasPlainTargets)
    (h : (LogFilter.ofTextLossy (c.directivesAt text)).Decides target d) :
    c.Governs level target d.level := by
  have hdirectives := directives_ofTextLossy hlevel hplain
  have hweight : ∀ t ∈ c.targets.entries, t.1.toList <+: target.toList →
      t.1.toList.length + 1 ≤ d.weight := by
    intro t ht hprefix
    obtain ⟨-, own, hown⟩ := hplain t ht
    have hoverride :
        ⟨some t.1, own⟩ ∈ (LogFilter.ofTextLossy (c.directivesAt text)).directives := by
      rw [hdirectives]
      refine List.mem_cons_of_mem _ (List.mem_filterMap.mpr ⟨t, ht, ?_⟩)
      rw [hown.read, Option.map_some]
    exact h.weight_le hoverride (List.isPrefixOf_iff_prefix.mpr hprefix)
  have hd := h.mem
  rw [hdirectives, List.mem_cons, List.mem_filterMap] at hd
  obtain rfl | ⟨t, ht, hread⟩ := hd
  · refine .general fun ⟨t, ht, hprefix⟩ => ?_
    exact absurd (hweight t ht hprefix) (Nat.not_succ_le_zero _)
  · obtain ⟨-, own, hown⟩ := hplain t ht
    rw [hown.read, Option.map_some, Option.some.injEq] at hread
    subst hread
    have hprefix : t.1.toList <+: target.toList := List.isPrefixOf_iff_prefix.mp h.covers
    refine .override ht hprefix hown fun t' ht' hprefix' => ?_
    exact Nat.le_of_succ_le_succ (hweight t' ht' hprefix')

/-- With an override the general level does not matter. -/
theorem Governs.of_overrides (h : c.Governs general target level) (hover : c.Overrides target) :
    c.Governs own target level := by
  cases h with
  | override ht hprefix hnamed hlongest => exact .override ht hprefix hnamed hlongest
  | general hnone => exact absurd hover hnone

/-- Without an override nothing else does. -/
theorem governs_iff (hnone : ¬ c.Overrides target) :
    c.Governs general target level ↔ level = general := by
  refine ⟨fun h => ?_, fun h => h ▸ .general hnone⟩
  exact h.unique (.general hnone)

end LogConfig

/-! ### The lines that arrive -/

/-- Directives **allow** a line: the one that decides for its target allows its level. -/
def LogLine.AllowedBy (l : LogLine) (text : String) : Prop :=
  ∃ d, (LogFilter.ofTextLossy text).Decides l.target d ∧ l.level.rank ≤ d.level.rank

section
variable {c : LogConfig} {general own level : Level} {text : String} {l : LogLine}

theorem LogFilter.shows_ofTextLossy :
    (LogFilter.ofTextLossy text).shows l.target l.level = true ↔ l.AllowedBy text :=
  shows_iff _ _ _

/-- What directives of plain names allow. -/
theorem LogConfig.allowedBy_iff (hlevel : level.NamedBy text) (hplain : c.HasPlainTargets) :
    l.AllowedBy (c.directivesAt text) ↔
      ∃ g, c.Governs level l.target g ∧ l.level.rank ≤ g.rank := by
  constructor
  · rintro ⟨d, hd, hle⟩
    exact ⟨d.level, governs_of_decides hlevel hplain hd, hle⟩
  · rintro ⟨g, hg, hle⟩
    have hgeneral : ⟨none, level⟩ ∈ (LogFilter.ofTextLossy (c.directivesAt text)).directives := by
      rw [directives_ofTextLossy hlevel hplain]
      exact List.mem_cons_self
    obtain ⟨d, -, hd⟩ := LogFilter.decides_directiveFor? ⟨_, hgeneral, rfl⟩
    exact ⟨d, hd, hg.unique (governs_of_decides hlevel hplain hd) ▸ hle⟩

/-- What the console's directives allow is allowed for all output too, unless the general levels
count and the line is above the one and within the other. -/
theorem LogConfig.Plain.allowedBy_imp_iff (hc : c.Plain general own) :
    (l.AllowedBy c.consoleDirectives → l.AllowedBy c.directives) ↔
      c.Overrides l.target ∨ l.level.rank ≤ general.rank ∨ own.rank < l.level.rank := by
  rw [consoleDirectives, directives, allowedBy_iff hc.own hc.targets,
    allowedBy_iff hc.general hc.targets]
  by_cases hover : c.Overrides l.target
  · refine iff_of_true ?_ (.inl hover)
    rintro ⟨g, hg, hle⟩
    exact ⟨g, hg.of_overrides hover, hle⟩
  · simp only [governs_iff hover, exists_eq_left, hover, false_or]
    omega

end

namespace Subscriber

/-- **Which lines arrive**, with nothing set in the environment.  A line reaches the console if both
the console's directives and those of all output allow it, and the file if those of all output do.
In a configuration of plain names each allows what the level that governs the target does.  So the
console shows what its own directives allow just where an override decides, or where the line is
within the default level or beyond the console's. -/
theorem reaches_iff (c : LogConfig) (l : LogLine) :
    let s := ofConfig c none
    (s.reachesConsole l = true ↔ c.console.enabled = true ∧
      l.AllowedBy c.consoleDirectives ∧ l.AllowedBy c.directives) ∧
    (s.reachesFile l = true ↔ c.file.isSome = true ∧ l.AllowedBy c.directives) ∧
    ∀ general own, c.Plain general own →
      (l.AllowedBy c.consoleDirectives ↔
        ∃ level, c.Governs own l.target level ∧ l.level.rank ≤ level.rank) ∧
      (l.AllowedBy c.directives ↔
        ∃ level, c.Governs general l.target level ∧ l.level.rank ≤ level.rank) ∧
      (c.console.enabled = true →
        ((s.reachesConsole l = true ↔ l.AllowedBy c.consoleDirectives) ↔
          c.Overrides l.target ∨ l.level.rank ≤ general.rank ∨ own.rank < l.level.rank)) := by
  have hconsole : (ofConfig c none).reachesConsole l = true ↔ c.console.enabled = true ∧
      l.AllowedBy c.consoleDirectives ∧ l.AllowedBy c.directives := by
    rw [reachesConsole, Bool.and_eq_true, Bool.and_eq_true, and_assoc]
    exact and_congr Iff.rfl (and_comm.trans
      (and_congr LogFilter.shows_ofTextLossy LogFilter.shows_ofTextLossy))
  have hfile : (ofConfig c none).reachesFile l = true ↔
      c.file.isSome = true ∧ l.AllowedBy c.directives := by
    rw [reachesFile, Bool.and_eq_true]
    exact and_congr Iff.rfl LogFilter.shows_ofTextLossy
  refine ⟨hconsole, hfile, fun general own hc => ⟨?_, ?_, fun henabled => ?_⟩⟩
  · exact LogConfig.allowedBy_iff hc.own hc.targets
  · exact LogConfig.allowedBy_iff hc.general hc.targets
  · rw [← hc.allowedBy_imp_iff, hconsole]
    constructor
    · exact fun h hown => (h.mpr hown).2.2
    · exact fun himp => ⟨fun h => h.2.1, fun hown => ⟨henabled, hown, himp hown⟩⟩

/-- An override for the target: both levels give way to it.  Without one, a console that is to show
more does not. -/
theorem reaches_iff_verbose :
    let c := (LogConfig.standard.withConsoleLevel "debug").withTarget "redb" "trace"
    let s := ofConfig c none
    let covered : LogLine := ⟨"redb::tree", .trace⟩
    let lost : LogLine := ⟨"strata_storage", .debug⟩
    c.Plain .info .debug ∧
    (s.reachesConsole covered = true ↔ covered.AllowedBy c.consoleDirectives) ∧
    ¬ (s.reachesConsole lost = true ↔ lost.AllowedBy c.consoleDirectives) := by
  intro c s covered lost
  have hinfo : Level.info.NamedBy "info" := ⟨⟨by decide, by simp⟩, by decide⟩
  have hdebug : Level.debug.NamedBy "debug" := ⟨⟨by decide, by simp⟩, by decide⟩
  have htrace : Level.trace.NamedBy "trace" := ⟨⟨by decide, by simp⟩, by decide⟩
  have hredb : IsPlain "redb" := ⟨by decide, by simp⟩
  have hplain : c.Plain .info .debug :=
    ⟨hinfo, hdebug, fun t ht => List.mem_singleton.mp ht ▸ ⟨hredb, .trace, htrace⟩⟩
  have hcovered : c.Overrides covered.target := ⟨_, List.mem_singleton.mpr rfl, by decide⟩
  have hlost : ¬ c.Overrides lost.target := by
    rintro ⟨t, ht, hprefix⟩
    obtain rfl := List.mem_singleton.mp ht
    exact absurd hprefix (by decide)
  refine ⟨hplain, ?_, ?_⟩
  · exact (((reaches_iff c covered).2.2 .info .debug hplain).2.2 rfl).mpr (.inl hcovered)
  · rw [((reaches_iff c lost).2.2 .info .debug hplain).2.2 rfl]
    simp [hlost, Level.rank, lost]

/-- A console that is to show `debug` where everything else is at `info` does not show it, although
its own directives allow the line. -/
theorem consoleLevel_unheeded :
    let c := LogConfig.standard.withConsoleLevel "debug"
    let l : LogLine := ⟨"strata_storage", .debug⟩
    c.console.enabled = true ∧
      ¬ ((ofConfig c none).reachesConsole l = true ↔ l.AllowedBy c.consoleDirectives) := by
  intro c l
  have hown : l.AllowedBy c.consoleDirectives := LogFilter.shows_ofTextLossy.mp (by decide +kernel)
  have hlost : (ofConfig c none).reachesConsole l = false := by decide +kernel
  exact ⟨rfl, fun h => by simp [hlost, hown] at h⟩

end Subscriber
end EventArchive
