import EventArchive.Proofs.Found
import EventArchive.Query.Plan

/-! # Plans lose nothing

A plan puts a part of the filter into the beginnings of its scans, another part
into their ends, another into the time at which they stop, and leaves the rest to
be checked.  For a filter without identifiers these parts together are the
filter: a stored event has a key in one of the scans, within the window, and
passes the rest, exactly if it matches and, where the tag index is used, is held
there (`Plan.finds_iff_indexes`).
-/
namespace EventArchive

/-- The tag values of a filter are indexed, unless the filter lists authors and the tag index is
not used. -/
def Filter.TagsIndexed (f : Filter) : Prop :=
  f.authors = [] → ∀ t ∈ f.tags.entries, (String.singleton t.1).utf8ByteSize = 1 ∧
    ∀ v ∈ t.2, 0 < v.utf8ByteSize ∧ v.utf8ByteSize ≤ 100

instance (f : Filter) : Decidable f.TagsIndexed :=
  inferInstanceAs (Decidable (f.authors = [] → ∀ t ∈ f.tags.entries,
    (String.singleton t.1).utf8ByteSize = 1 ∧ ∀ v ∈ t.2, 0 < v.utf8ByteSize ∧ v.utf8ByteSize ≤ 100))

/-- The index that answers a filter holds an event.  This is in question for the tag index alone,
which holds an event under its indexed values: one of them has to begin its keys as a value of the
filter does. -/
def Filter.Indexes (f : Filter) (e : Event) : Prop :=
  f.ids = [] → f.authors = [] → f.tags.isEmpty = false → ∃ t ∈ f.tags.entries, ∃ v ∈ t.2,
    ∃ w ∈ Key.indexedTagValues e.tags, (TagValue.classify w).stem = (TagValue.classify v).stem

instance (f : Filter) (e : Event) : Decidable (f.Indexes e) :=
  inferInstanceAs (Decidable (f.ids = [] → f.authors = [] → f.tags.isEmpty = false →
    ∃ t ∈ f.tags.entries, ∃ v ∈ t.2, ∃ w ∈ Key.indexedTagValues e.tags,
      (TagValue.classify w).stem = (TagValue.classify v).stem))

/-! ### Beginnings -/

namespace Key
variable {e : Event} {ser : Serial} {stem : Bytes}

/-- Among the timed keys of an index without tags is the event's own alone. -/
theorem timed_mem_index_iff {l : Layout} {stem' : Bytes} (hl : layout? stem = some l)
    (hstem : stem? e l = some stem') :
    timed stem e.createdAt ser ∈ index e ser ↔ stem = stem' := by
  constructor
  · intro hm
    have heq := eq_timed_of_mem_index hm (layout?_timed hl _ _) hstem
    rw [timed_eq_stamped, timed_eq_stamped] at heq
    exact (stamped_inj heq).1
  · rintro rfl
    exact mem_index_iff.mpr (.inr (.inl ⟨l, stem, hstem, rfl⟩))

theorem mem_indexedTagValues {tags : List Tag} {v : String} : v ∈ indexedTagValues tags ↔
    ∃ t ∈ tags, ∃ name, t.name? = some name ∧ t.value? = some v ∧ indexable name v = true := by
  rw [indexedTagValues, mem_distinct, List.mem_filterMap]
  refine exists_congr fun t => and_congr_right fun _ => ?_
  simp only [Option.bind_eq_bind, Option.bind_eq_some_iff, Option.ite_none_right_eq_some,
    Option.some.injEq]
  constructor
  · rintro ⟨name, hname, value, hvalue, hindexable, rfl⟩
    exact ⟨name, hname, hvalue, hindexable⟩
  · rintro ⟨name, hname, hvalue, hindexable⟩
    exact ⟨name, hname, v, hvalue, hindexable, rfl⟩

theorem indexed_of_tagValues {name v : String} (hv : v ∈ e.tagValues name)
    (hindexable : indexable name v = true) : v ∈ indexedTagValues e.tags := by
  obtain ⟨t, ht, hvalue⟩ := List.mem_filterMap.mp hv
  obtain ⟨ht, hname⟩ := List.mem_filter.mp ht
  exact mem_indexedTagValues.mpr ⟨t, ht, name, beq_iff_eq.mp hname, hvalue, hindexable⟩

/-- Among the keys of a tag value are those of the indexed values that begin alike. -/
theorem timed_stem_mem_index_iff {v : TagValue} : timed v.stem e.createdAt ser ∈ index e ser ↔
    ∃ w ∈ indexedTagValues e.tags, (TagValue.classify w).stem = v.stem := by
  have hlayout : layout? (timed v.stem e.createdAt ser) = some v.layout :=
    layout?_timed (layout?_stem v) _ _
  have htag := isTag_layout v
  constructor
  · intro hm
    rcases mem_index.mp hm with huntagged | htagged
    · obtain ⟨l, hl, -, hfalse⟩ := layout?_of_mem_untagged huntagged
      obtain rfl := Option.some.inj (hlayout.symm.trans hl)
      cases htag.symm.trans hfalse
    · obtain ⟨w, hw, heq⟩ := mem_tagged.mp htagged
      rw [timed_eq_stamped, timed_eq_stamped] at heq
      exact ⟨w, hw, (stamped_inj heq).1.symm⟩
  · rintro ⟨w, hw, hstem⟩
    rw [← hstem]
    exact mem_index.mpr (.inr (mem_tagged.mpr ⟨w, hw, rfl⟩))

theorem layout?_pubkeyStem (p : PublicKey) : layout? (pubkeyStem p) = some .pubkey :=
  pubkeyStem_eq p ▸ layout?_cons _ _

theorem layout?_pubkeyKindStem (p : PublicKey) (k : Kind) :
    layout? (pubkeyKindStem p k) = some .pubkeyKind :=
  layout?_cons .pubkeyKind _

theorem layout?_kindStem (k : Kind) : layout? (kindStem k) = some .kind :=
  layout?_cons .kind _

theorem layout?_createdAtStem : layout? createdAtStem = some .createdAt :=
  layout?_cons .createdAt _

theorem kindStem_inj {k k' : Kind} : kindStem k = kindStem k' ↔ k = k' := by
  rw [kindStem_eq, kindStem_eq, List.cons.injEq, and_iff_right rfl, bigEndian_code_inj]

end Key

namespace Filter
variable {f : Filter} {e : Event}

theorem indexes_of_authors (hauthors : f.authors ≠ []) (e : Event) : f.Indexes e :=
  fun _ hnone => absurd hnone hauthors

theorem indexes_of_isEmpty (hnone : f.tags.isEmpty = true) (e : Event) : f.Indexes e := by
  intro _ _ hsome
  cases hnone.symm.trans hsome

/-- An event that matches is in the tag index, if the values of the filter are indexed. -/
theorem indexes_of_isMatch (htags : f.TagsIndexed) (hmatch : f.isMatch e = true) :
    f.Indexes e := by
  intro _ hauthors hsome
  -- any tag of the filter leads to the event, so the first one does
  obtain ⟨t, ht⟩ := List.exists_mem_of_ne_nil _ (List.isEmpty_eq_false_iff.mp hsome)
  obtain ⟨hname, hvalues⟩ := htags hauthors t ht
  simp only [isMatch, Bool.and_eq_true] at hmatch
  have haccepts : acceptsTag e t.1 t.2 = true := List.all_eq_true.mp hmatch.1.1.2 t ht
  obtain ⟨v, hv, hmem⟩ := List.any_eq_true.mp haccepts
  have hmem : v ∈ t.2 := List.contains_iff_mem.mp hmem
  obtain ⟨hpos, hlong⟩ := hvalues v hmem
  have hindexable : Key.indexable (String.singleton t.1) v = true := by
    simp [Key.indexable, hname, hpos, hlong, Key.maxTagValueLength]
  exact ⟨t, ht, v, hmem, v, Key.indexed_of_tagValues hv hindexable, rfl⟩

end Filter

/-! ### Windows -/

namespace Plan
variable {f : Filter} {p : Plan} {e : Event} {ser : Serial}

/-- The first time of a plan's window. -/
def sinceOf (f : Filter) : UInt64 := (f.since.map clampTime).getD 0

/-- The last time of a plan's window. -/
def tillOf (f : Filter) : UInt64 := (f.till.map clampTime).getD maxUInt64

theorem le_tillOf_of_none (hnone : f.till = none) (t : UInt64) : t ≤ tillOf f := by
  have ht := t.toNat_lt
  rw [tillOf, hnone, Option.map_none, Option.getD_none, UInt64.le_iff_toNat_le,
    Scan.toNat_maxUInt64]
  omega

/-- Where a plan's window ends, on the times in keys, that of the filter does. -/
theorem le_tillOf_iff (hpossible : isImpossible f = false) {t : Int64} :
    clampTime t ≤ tillOf f ↔ f.till.all (t ≤ ·) = true := by
  cases htill : f.till with
  | none => exact iff_of_true (le_tillOf_of_none htill _) rfl
  | some till =>
    have hnonneg : 0 ≤ till := by
      rw [isImpossible, htill] at hpossible
      rw [Bool.or_eq_false_iff, decide_eq_false_iff_not] at hpossible
      exact Int64.not_lt.mp hpossible.1
    rw [tillOf, htill, Option.map_some, Option.getD_some, clampTime_le_iff hnonneg]
    simp

/-- The window of a plan, on the times in keys, is that of the filter. -/
theorem window_iff (hpossible : isImpossible f = false) (htime : 0 ≤ e.createdAt) :
    (sinceOf f ≤ clampTime e.createdAt ∧ clampTime e.createdAt ≤ tillOf f) ↔
      f.since.all (· ≤ e.createdAt) = true ∧ f.till.all (e.createdAt ≤ ·) = true := by
  refine and_congr ?_ (le_tillOf_iff hpossible)
  cases hsince : f.since with
  | none => simp [sinceOf, hsince]
  | some since =>
    rw [sinceOf, hsince, Option.map_some, Option.getD_some, clampTime_le_iff htime]
    simp

/-- Nothing is in an impossible window. -/
theorem not_isMatch_of_isImpossible (himpossible : isImpossible f = true)
    (htime : 0 ≤ e.createdAt) : f.isMatch e = false := by
  rw [isImpossible] at himpossible
  cases htill : f.till with
  | none =>
    rw [htill] at himpossible
    cases himpossible
  | some till =>
    rw [htill] at himpossible
    rw [Bool.eq_false_iff]
    intro hmatch
    simp only [Filter.isMatch, Bool.and_eq_true, htill, Option.all_some, decide_eq_true_eq]
      at hmatch
    obtain ⟨⟨-, hsince⟩, hle⟩ := hmatch
    rw [Bool.or_eq_true, decide_eq_true_eq] at himpossible
    rcases himpossible with hneg | hafter
    · exact Int64.not_lt.mpr (Int64.le_trans htime hle) hneg
    · obtain ⟨since, hsome, hlt⟩ := (Option.any_eq_true _ _).mp hafter
      rw [hsome, Option.all_some, decide_eq_true_eq] at hsince
      exact Int64.not_lt.mpr (Int64.le_trans hsince hle) (of_decide_eq_true hlt)

/-! ### The indices one by one -/

theorem mem_authorScans {till : UInt64} {s : Scan} : s ∈ authorScans f till ↔
    (f.kinds = [] ∧ ∃ a ∈ f.authors, s = .timed .pubkey (Key.pubkeyStem a) till) ∨
    ∃ a ∈ f.authors, ∃ k ∈ f.kinds, s = .timed .pubkeyKind (Key.pubkeyKindStem a k) till := by
  rw [authorScans, mem_distinct, List.mem_flatMap]
  by_cases hkinds : f.kinds = []
  · simp [hkinds]
  · simp only [hkinds, List.isEmpty_iff, if_false, List.mem_map, false_and, false_or]
    simp only [eq_comm (a := s)]

theorem mem_tagScans {till : UInt64} {s : Scan} : s ∈ tagScans f till ↔
    ∃ t ∈ f.tags.entries, ∃ v ∈ t.2,
      s = .timed (TagValue.classify v).layout (TagValue.classify v).stem till := by
  rw [tagScans, mem_distinct, List.mem_flatMap]
  simp [eq_comm]

theorem mem_kindScans {till : UInt64} {s : Scan} : s ∈ kindScans f till ↔
    ∃ k ∈ f.kinds, s = .timed .kind (Key.kindStem k) till := by
  rw [kindScans, mem_distinct]
  simp [eq_comm]

/-- What a scan reaches is within the window, if the scan ends where the window does. -/
theorem reaches_timed_iff {l : Layout} {stem : Bytes} (hpossible : isImpossible f = false)
    (htime : 0 ≤ e.createdAt) :
    (Scan.timed l stem (tillOf f)).Reaches (sinceOf f) e ser ↔
      Key.timed stem e.createdAt ser ∈ Key.index e ser ∧
        f.since.all (· ≤ e.createdAt) = true ∧ f.till.all (e.createdAt ≤ ·) = true := by
  rw [Scan.Reaches, ← window_iff hpossible htime]
  exact Iff.rfl

theorem accepts_iff {α : Type} [DecidableEq α] {accepted : List α} {a : α} :
    Filter.accepts accepted a = true ↔ accepted = [] ∨ a ∈ accepted := by
  simp [Filter.accepts]

/-- The author scans reach the events of the authors and kinds within the window. -/
theorem exists_authorScan_iff (hpossible : isImpossible f = false) (htime : 0 ≤ e.createdAt)
    (hauthor : e.pubkey ∈ f.authors) :
    (∃ s ∈ authorScans f (tillOf f), s.Reaches (sinceOf f) e ser) ↔
      Filter.accepts f.kinds e.kind = true ∧
        f.since.all (· ≤ e.createdAt) = true ∧ f.till.all (e.createdAt ≤ ·) = true := by
  constructor
  · rintro ⟨s, hs, hreaches⟩
    rcases mem_authorScans.mp hs with ⟨hkinds, a, -, rfl⟩ | ⟨a, -, k, hk, rfl⟩
    · obtain ⟨-, hwindow⟩ := (reaches_timed_iff hpossible htime).mp hreaches
      exact ⟨accepts_iff.mpr (.inl hkinds), hwindow⟩
    · obtain ⟨hm, hwindow⟩ := (reaches_timed_iff hpossible htime).mp hreaches
      have hstem := (Key.timed_mem_index_iff (Key.layout?_pubkeyKindStem a k) rfl).mp hm
      -- the beginning of the author may be shared, the kind is exact
      obtain ⟨-, rfl⟩ := Key.pubkeyKindStem_inj.mp hstem
      exact ⟨accepts_iff.mpr (.inr hk), hwindow⟩
  · rintro ⟨hkind, hwindow⟩
    rcases accepts_iff.mp hkind with hkinds | hk
    · refine ⟨_, mem_authorScans.mpr (.inl ⟨hkinds, _, hauthor, rfl⟩), ?_⟩
      exact (reaches_timed_iff hpossible htime).mpr
        ⟨(Key.timed_mem_index_iff (Key.layout?_pubkeyStem _) rfl).mpr rfl, hwindow⟩
    · refine ⟨_, mem_authorScans.mpr (.inr ⟨_, hauthor, _, hk, rfl⟩), ?_⟩
      exact (reaches_timed_iff hpossible htime).mpr
        ⟨(Key.timed_mem_index_iff (Key.layout?_pubkeyKindStem _ _) rfl).mpr rfl, hwindow⟩

/-- The kind scans reach the events of the kinds within the window. -/
theorem exists_kindScan_iff (hpossible : isImpossible f = false) (htime : 0 ≤ e.createdAt) :
    (∃ s ∈ kindScans f (tillOf f), s.Reaches (sinceOf f) e ser) ↔
      e.kind ∈ f.kinds ∧
        f.since.all (· ≤ e.createdAt) = true ∧ f.till.all (e.createdAt ≤ ·) = true := by
  constructor
  · rintro ⟨s, hs, hreaches⟩
    obtain ⟨k, hk, rfl⟩ := mem_kindScans.mp hs
    obtain ⟨hm, hwindow⟩ := (reaches_timed_iff hpossible htime).mp hreaches
    have hstem := (Key.timed_mem_index_iff (Key.layout?_kindStem k) rfl).mp hm
    obtain rfl := Key.kindStem_inj.mp hstem
    exact ⟨hk, hwindow⟩
  · rintro ⟨hk, hwindow⟩
    refine ⟨_, mem_kindScans.mpr ⟨_, hk, rfl⟩, ?_⟩
    exact (reaches_timed_iff hpossible htime).mpr
      ⟨(Key.timed_mem_index_iff (Key.layout?_kindStem _) rfl).mpr rfl, hwindow⟩

/-- The tag scans reach the events that the tag index holds, within the window. -/
theorem exists_tagScan_iff (hpossible : isImpossible f = false) (htime : 0 ≤ e.createdAt) :
    (∃ s ∈ tagScans f (tillOf f), s.Reaches (sinceOf f) e ser) ↔
      (∃ t ∈ f.tags.entries, ∃ v ∈ t.2, ∃ w ∈ Key.indexedTagValues e.tags,
        (TagValue.classify w).stem = (TagValue.classify v).stem) ∧
      f.since.all (· ≤ e.createdAt) = true ∧ f.till.all (e.createdAt ≤ ·) = true := by
  constructor
  · rintro ⟨s, hs, hreaches⟩
    obtain ⟨t, ht, v, hv, rfl⟩ := mem_tagScans.mp hs
    obtain ⟨hm, hwindow⟩ := (reaches_timed_iff hpossible htime).mp hreaches
    exact ⟨⟨t, ht, v, hv, Key.timed_stem_mem_index_iff.mp hm⟩, hwindow⟩
  · rintro ⟨⟨t, ht, v, hv, hm⟩, hwindow⟩
    refine ⟨_, mem_tagScans.mpr ⟨t, ht, v, hv, rfl⟩, ?_⟩
    exact (reaches_timed_iff hpossible htime).mpr ⟨Key.timed_stem_mem_index_iff.mpr hm, hwindow⟩

/-! ### The plan of a filter -/

theorem eq_of_ofFilter (hplan : ofFilter f = .ok p) :
    p = if isImpossible f then nothing else choose f := by
  rw [ofFilter] at hplan
  split at hplan
  · cases hplan
  · exact (Except.ok.inj hplan).symm

/-- The plan of a filter without identifiers, by the index it uses. -/
theorem choose_cases (hids : f.ids = []) :
    (f.authors ≠ [] ∧ choose f = ⟨authorScans f (tillOf f),
      some { Filter.any with authors := f.authors, tags := f.tags }, sinceOf f⟩) ∨
    (f.authors = [] ∧ f.tags.isEmpty = false ∧ choose f = ⟨tagScans f (tillOf f),
      some { Filter.any with kinds := f.kinds, tags := f.tags }, sinceOf f⟩) ∨
    (f.authors = [] ∧ f.tags.isEmpty = true ∧ f.kinds ≠ [] ∧
      choose f = ⟨kindScans f (tillOf f), none, sinceOf f⟩) ∨
    (f.authors = [] ∧ f.tags.isEmpty = true ∧ f.kinds = [] ∧
      choose f = ⟨[.timed .createdAt Key.createdAtStem (tillOf f)], none, sinceOf f⟩) := by
  by_cases hauthors : f.authors = []
  · cases htags : f.tags.isEmpty with
    | false =>
      refine .inr (.inl ⟨hauthors, rfl, ?_⟩)
      simp [choose, hids, hauthors, htags, sinceOf, tillOf]
    | true =>
      by_cases hkinds : f.kinds = []
      · refine .inr (.inr (.inr ⟨hauthors, rfl, hkinds, ?_⟩))
        simp [choose, hids, hauthors, htags, hkinds, sinceOf, tillOf]
      · refine .inr (.inr (.inl ⟨hauthors, rfl, hkinds, ?_⟩))
        simp [choose, hids, hauthors, htags, hkinds, sinceOf, tillOf]
  · refine .inl ⟨hauthors, ?_⟩
    simp [choose, hids, hauthors, sinceOf, tillOf]

/-- **A scan of a plan without identifiers** is one of keys that hold a time, and ends where the
window of the filter does. -/
structure Windowed (f : Filter) (p : Plan) (s : Scan) : Prop where
  timed : s.Timed
  possible : isImpossible f = false
  till : s.till = tillOf f
  since : p.since = sinceOf f

theorem windowed_of_mem_scans (hplan : ofFilter f = .ok p) (hids : f.ids = []) {s : Scan}
    (hs : s ∈ p.scans) : Windowed f p s := by
  rw [eq_of_ofFilter hplan] at hs ⊢
  split at hs
  · cases hs
  rename_i hpossible
  rw [if_neg hpossible]
  rw [Bool.not_eq_true] at hpossible
  rcases choose_cases hids with ⟨-, hchoose⟩ | ⟨-, -, hchoose⟩ | ⟨-, -, -, hchoose⟩ |
    ⟨-, -, -, hchoose⟩
  · rw [hchoose] at hs ⊢
    rcases mem_authorScans.mp hs with ⟨-, a, -, rfl⟩ | ⟨a, -, k, -, rfl⟩
    · exact ⟨⟨rfl, .pubkey, Key.layout?_pubkeyStem a, rfl, nofun⟩, hpossible, rfl, rfl⟩
    · exact ⟨⟨rfl, .pubkeyKind, Key.layout?_pubkeyKindStem a k, rfl, nofun⟩, hpossible, rfl, rfl⟩
  · rw [hchoose] at hs ⊢
    obtain ⟨t, -, v, -, rfl⟩ := mem_tagScans.mp hs
    have htag := Key.isTag_layout (TagValue.classify v)
    refine ⟨⟨rfl, _, Key.layout?_stem _, Layout.isSecondary_of_isTag htag, fun hid => ?_⟩,
      hpossible, rfl, rfl⟩
    rw [hid] at htag
    cases htag
  · rw [hchoose] at hs ⊢
    obtain ⟨k, -, rfl⟩ := mem_kindScans.mp hs
    exact ⟨⟨rfl, .kind, Key.layout?_kindStem k, rfl, nofun⟩, hpossible, rfl, rfl⟩
  · rw [hchoose] at hs ⊢
    obtain rfl := List.mem_singleton.mp hs
    exact ⟨⟨rfl, .createdAt, Key.layout?_createdAtStem, rfl, nofun⟩, hpossible, rfl, rfl⟩

theorem timed_of_mem_scans (hplan : ofFilter f = .ok p) (hids : f.ids = []) {s : Scan}
    (hs : s ∈ p.scans) : s.Timed :=
  (windowed_of_mem_scans hplan hids hs).timed

/-! ### What a plan leaves out -/

/-- What a plan finds of an event under a serial: it passes what is left to be checked, and a scan
reaches it. -/
structure Finds (p : Plan) (e : Event) (ser : Serial) : Prop where
  passes : p.residual.all (·.isMatch e) = true
  reached : ∃ s ∈ p.scans, s.Reaches p.since e ser

theorem accepts_nil {α : Type} [DecidableEq α] (a : α) : Filter.accepts [] a = true := rfl

/-- The parts of a filter without identifiers. -/
theorem isMatch_iff (hids : f.ids = []) : f.isMatch e = true ↔
    (Filter.accepts f.kinds e.kind = true ∧ Filter.accepts f.authors e.pubkey = true) ∧
      f.tags.entries.all (fun t => Filter.acceptsTag e t.1 t.2) = true ∧
      f.since.all (· ≤ e.createdAt) = true ∧ f.till.all (e.createdAt ≤ ·) = true := by
  have hid : Filter.accepts f.ids e.id = true := accepts_iff.mpr (.inl hids)
  simp only [Filter.isMatch, hid, Bool.true_and, Bool.and_eq_true, and_assoc]

theorem accepts_tags_of_isEmpty (hnone : f.tags.isEmpty = true) :
    f.tags.entries.all (fun t => Filter.acceptsTag e t.1 t.2) = true := by
  rw [List.isEmpty_iff.mp hnone]
  rfl

section
variable (hids : f.ids = []) (hpossible : isImpossible f = false) (htime : 0 ≤ e.createdAt)
include hids hpossible htime

/-- Kinds and the window are in the scans for authors, and authors whose keys begin alike and the
tags are checked. -/
theorem finds_authors_iff (hauthors : f.authors ≠ []) :
    Finds ⟨authorScans f (tillOf f),
      some { Filter.any with authors := f.authors, tags := f.tags }, sinceOf f⟩ e ser ↔
      f.isMatch e = true := by
  have hresidual : Filter.isMatch { Filter.any with authors := f.authors, tags := f.tags } e =
      true ↔ Filter.accepts f.authors e.pubkey = true ∧
        f.tags.entries.all (fun t => Filter.acceptsTag e t.1 t.2) = true := by
    simp [Filter.isMatch, Filter.any, accepts_nil]
  rw [isMatch_iff hids]
  constructor
  · rintro ⟨hpass, hscan⟩
    obtain ⟨hauthor, htag⟩ := hresidual.mp hpass
    have hmem := (accepts_iff.mp hauthor).resolve_left hauthors
    obtain ⟨hkind, hwindow⟩ := (exists_authorScan_iff hpossible htime hmem).mp hscan
    exact ⟨⟨hkind, hauthor⟩, htag, hwindow⟩
  · rintro ⟨⟨hkind, hauthor⟩, htag, hwindow⟩
    have hmem := (accepts_iff.mp hauthor).resolve_left hauthors
    exact ⟨hresidual.mpr ⟨hauthor, htag⟩,
      (exists_authorScan_iff hpossible htime hmem).mpr ⟨hkind, hwindow⟩⟩

/-- The window is in the scans for tag values, and kinds and the names of the tags are checked. -/
theorem finds_tags_iff (hauthors : f.authors = []) (hsome : f.tags.isEmpty = false) :
    Finds ⟨tagScans f (tillOf f),
      some { Filter.any with kinds := f.kinds, tags := f.tags }, sinceOf f⟩ e ser ↔
      f.isMatch e = true ∧ f.Indexes e := by
  have hresidual : Filter.isMatch { Filter.any with kinds := f.kinds, tags := f.tags } e =
      true ↔ Filter.accepts f.kinds e.kind = true ∧
        f.tags.entries.all (fun t => Filter.acceptsTag e t.1 t.2) = true := by
    simp [Filter.isMatch, Filter.any, accepts_nil]
  have hauthor : Filter.accepts f.authors e.pubkey = true := accepts_iff.mpr (.inl hauthors)
  rw [isMatch_iff hids]
  constructor
  · rintro ⟨hpass, hscan⟩
    obtain ⟨hkind, htag⟩ := hresidual.mp hpass
    obtain ⟨hindexed, hwindow⟩ := (exists_tagScan_iff hpossible htime).mp hscan
    exact ⟨⟨⟨hkind, hauthor⟩, htag, hwindow⟩, fun _ _ _ => hindexed⟩
  · rintro ⟨⟨⟨hkind, -⟩, htag, hwindow⟩, hindexes⟩
    exact ⟨hresidual.mpr ⟨hkind, htag⟩,
      (exists_tagScan_iff hpossible htime).mpr ⟨hindexes hids hauthors hsome, hwindow⟩⟩

/-- Kinds and the window are in the scans for kinds. -/
theorem finds_kinds_iff (hauthors : f.authors = []) (hnone : f.tags.isEmpty = true)
    (hkinds : f.kinds ≠ []) :
    Finds ⟨kindScans f (tillOf f), none, sinceOf f⟩ e ser ↔ f.isMatch e = true := by
  have hauthor : Filter.accepts f.authors e.pubkey = true := accepts_iff.mpr (.inl hauthors)
  have hkind : Filter.accepts f.kinds e.kind = true ↔ e.kind ∈ f.kinds := by
    rw [accepts_iff, or_iff_right hkinds]
  rw [isMatch_iff hids, hkind]
  constructor
  · rintro ⟨-, hscan⟩
    obtain ⟨hk, hwindow⟩ := (exists_kindScan_iff hpossible htime).mp hscan
    exact ⟨⟨hk, hauthor⟩, accepts_tags_of_isEmpty hnone, hwindow⟩
  · rintro ⟨⟨hk, -⟩, -, hwindow⟩
    exact ⟨rfl, (exists_kindScan_iff hpossible htime).mpr ⟨hk, hwindow⟩⟩

/-- The window is in the scan for times. -/
theorem finds_times_iff (hauthors : f.authors = []) (hnone : f.tags.isEmpty = true)
    (hkinds : f.kinds = []) :
    Finds ⟨[.timed .createdAt Key.createdAtStem (tillOf f)], none, sinceOf f⟩ e ser ↔
      f.isMatch e = true := by
  have hauthor : Filter.accepts f.authors e.pubkey = true := accepts_iff.mpr (.inl hauthors)
  have hkind : Filter.accepts f.kinds e.kind = true := accepts_iff.mpr (.inl hkinds)
  rw [isMatch_iff hids]
  constructor
  · rintro ⟨-, s, hs, hreaches⟩
    obtain rfl := List.mem_singleton.mp hs
    obtain ⟨-, hwindow⟩ := (reaches_timed_iff hpossible htime).mp hreaches
    exact ⟨⟨hkind, hauthor⟩, accepts_tags_of_isEmpty hnone, hwindow⟩
  · rintro ⟨-, -, hwindow⟩
    refine ⟨rfl, _, List.mem_singleton_self _, (reaches_timed_iff hpossible htime).mpr ?_⟩
    exact ⟨(Key.timed_mem_index_iff Key.layout?_createdAtStem rfl).mpr rfl, hwindow⟩

end

/-- **What a plan finds.**  For a filter without identifiers, a plan finds an event exactly if it
matches and the index holds it. -/
theorem finds_iff_indexes (hplan : ofFilter f = .ok p) (hids : f.ids = [])
    (htime : 0 ≤ e.createdAt) : p.Finds e ser ↔ f.isMatch e = true ∧ f.Indexes e := by
  rw [eq_of_ofFilter hplan]
  cases hpossible : isImpossible f with
  | true =>
    rw [if_pos rfl, not_isMatch_of_isImpossible hpossible htime]
    refine ⟨fun hfinds => ?_, nofun⟩
    obtain ⟨s, hs, -⟩ := hfinds.reached
    cases hs
  | false =>
    rw [if_neg Bool.false_ne_true]
    rcases choose_cases hids with ⟨hauthors, hchoose⟩ | ⟨hauthors, hsome, hchoose⟩ |
      ⟨hauthors, hnone, hkinds, hchoose⟩ | ⟨hauthors, hnone, hkinds, hchoose⟩
    · rw [hchoose, and_iff_left (Filter.indexes_of_authors hauthors e)]
      exact finds_authors_iff hids hpossible htime hauthors
    · rw [hchoose]
      exact finds_tags_iff hids hpossible htime hauthors hsome
    · rw [hchoose, and_iff_left (Filter.indexes_of_isEmpty hnone e)]
      exact finds_kinds_iff hids hpossible htime hauthors hnone hkinds
    · rw [hchoose, and_iff_left (Filter.indexes_of_isEmpty hnone e)]
      exact finds_times_iff hids hpossible htime hauthors hnone hkinds

/-- **A plan loses nothing.**  For a filter without identifiers whose tag values are indexed, a plan
finds an event exactly if it matches. -/
theorem finds_iff (hplan : ofFilter f = .ok p) (hids : f.ids = []) (htags : f.TagsIndexed)
    (htime : 0 ≤ e.createdAt) : p.Finds e ser ↔ f.isMatch e = true := by
  rw [finds_iff_indexes hplan hids htime, and_iff_left_of_imp]
  exact Filter.indexes_of_isMatch htags

end Plan
end EventArchive
