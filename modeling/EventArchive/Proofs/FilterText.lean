import EventArchive.Filter.Json
import EventArchive.Proofs.EventText
import EventArchive.Proofs.SortedMap

/-! # Filters survive their text

A text is read as a filter if and only if it holds an object whose members make that
filter (`ofJson_eq_ok_iff`).  Of the members only those count whose key names a dimension
or a tag: the others are kept in the draft but nothing is made of them, so leaving them
out, or adding further ones, makes the same filter (`ofMembers_filter`).  The members that
are written make the filter they were written for; tags come back because their keys
tell their names apart.
-/
namespace EventArchive

open Json

namespace Filter

variable {depth : Nat} {cs rest : List Char}

/-! ### Keys of tags -/

/-- The key under which the values of a tag stand. -/
def tagKey (name : Char) : String := String.ofList ['#', name]

theorem tagName?_eq_some_iff {key : String} {name : Char} :
    tagName? key = some name ↔ key = tagKey name := by
  rw [tagName?, tagKey, ← String.toList_inj, String.toList_ofList]
  split
  · rename_i heq
    simp [heq]
  · rename_i hne
    exact ⟨nofun, fun h => absurd h (hne name)⟩

@[simp] theorem tagName?_tagKey (name : Char) : tagName? (tagKey name) = some name :=
  tagName?_eq_some_iff.mpr rfl

theorem tagKey_injective : Function.Injective tagKey := by
  intro name name' h
  have hname := tagName?_tagKey name
  rw [h, tagName?_tagKey] at hname
  exact (Option.some.inj hname).symm

/-- The keys of the dimensions other than tags. -/
def dimensions : List String := ["ids", "kinds", "authors", "since", "until", "limit"]

/-- Whether a key names a dimension or a tag. -/
def isKnown (key : String) : Bool := dimensions.contains key || (tagName? key).isSome

/-! ### What a member makes of a draft -/

/-- The value of a limit. -/
def limitValue (n : UInt64) : Value := .number (.integer n.toNat)

/-- The limit that a value stands for. -/
def limitOfValue? (v : Value) : Option UInt64 :=
  (Value.integer? 0 (UInt64.size - 1) v).map fun n => UInt64.ofNat n.toNat

theorem takes_limit : Takes uint64Reader 0 limitOfValue? :=
  (takes_integer 0 (UInt64.size - 1)).map fun n => UInt64.ofNat n.toNat

@[simp] theorem limitOfValue?_limitValue (n : UInt64) : limitOfValue? (limitValue n) = some n := by
  have hlt : n.toNat < UInt64.size := n.toNat_lt
  have hbounds : (0 : Int) ≤ n.toNat ∧ (n.toNat : Int) ≤ UInt64.size - 1 := by omega
  rw [limitOfValue?, limitValue, Value.integer?, if_pos hbounds, Option.map_some,
    Int.toNat_natCast, UInt64.ofNat_toNat]

theorem written_limit (n : UInt64) : Written depth (writeInt n.toNat) (limitValue n) :=
  written_writeInt (Int.le_trans (by decide) (Int.natCast_nonneg _)) (Int.ofNat_lt.mpr n.toNat_lt)

/-- What a member makes of a draft. -/
def Draft.take (d : Draft) (key : String) (v : Value) : Option Draft :=
  if key = "ids" then
    Value.once? d.ids (Value.list? (FixedBytes.ofValue? .id)) (fun a => { d with ids := some a }) v
  else if key = "kinds" then
    Value.once? d.kinds (Value.list? Kind.ofValue?) (fun a => { d with kinds := some a }) v
  else if key = "authors" then
    Value.once? d.authors (Value.list? (FixedBytes.ofValue? .pubkey))
      (fun a => { d with authors := some a }) v
  else if key = "since" then
    Value.once? d.since (Value.optional? timeOfValue?) (fun a => { d with since := some a }) v
  else if key = "until" then
    Value.once? d.till (Value.optional? timeOfValue?) (fun a => { d with till := some a }) v
  else if key = "limit" then
    Value.once? d.limit (Value.optional? limitOfValue?) (fun a => { d with limit := some a }) v
  else some { d with others := d.others.insert key v }

theorem step_eq_ok_iff {d d' : Draft} {key : String} :
    d.step key cs = .ok (d', rest) ↔
      ∃ v, ReadsValueOf (depthLimit - 1) cs v rest ∧ d.take key v = some d' := by
  unfold Draft.step Draft.take
  split_ifs
  · exact (takes_fixedBytes .id).list.once (by decide)
  · exact takes_kind.list.once (by decide)
  · exact (takes_fixedBytes .pubkey).list.once (by decide)
  · exact (takes_time.optional rfl).once (by decide)
  · exact (takes_time.optional rfl).once (by decide)
  · exact (takes_limit.optional rfl).once (by decide)
  · rw [valueOf_eq_ok_iff]
    constructor
    · rintro ⟨mid, hfront, hread⟩
      obtain ⟨⟨v, mid'⟩, hvalue, hend⟩ := bind_eq_ok.mp hread
      cases hend
      exact ⟨v, ⟨mid, hfront, readValue_eq_ok_iff.mp hvalue⟩, rfl⟩
    · rintro ⟨v, ⟨mid, hfront, hreads⟩, hput⟩
      cases hput
      exact ⟨mid, hfront, bind_eq_ok.mpr ⟨_, readValue_eq_ok_iff.mpr hreads, rfl⟩⟩

theorem accepts_step : Accepts Draft.step (depthLimit - 1) Draft.take :=
  fun _ _ _ _ _ _ hreads htake => step_eq_ok_iff.mpr ⟨_, hreads, htake⟩

theorem explains_step : Explains Draft.step (depthLimit - 1) Draft.take :=
  fun _ _ _ _ _ h => step_eq_ok_iff.mp h

/-- The filter that the members of an object make. -/
def ofMembers (ms : List (String × Value)) : Option Filter :=
  (foldMembers Draft.take Draft.blank ms).bind fun d => d.filter.toOption

/-- **A text is read as a filter if and only if it holds an object whose members make it.** -/
theorem ofJson_eq_ok_iff {s : String} {f : Filter} :
    ofJson s = .ok f ↔ ∃ ms, Json.read s = .ok (.object ms) ∧ ofMembers ms = some f := by
  rw [ofJson, readText_eq_ok_iff]
  constructor
  · rintro ⟨rest, hread, hend⟩
    rw [reader.eq_def] at hread
    split at hread
    · rename_i hfront
      obtain ⟨⟨d, mid⟩, hmembers, hcheck⟩ := bind_eq_ok.mp hread
      obtain ⟨ms, hreads, hfold⟩ := explains_step.members hfront hmembers
      dsimp only at hcheck
      split at hcheck
      · rename_i hfilter
        cases hcheck
        refine ⟨ms, read_eq_ok_iff.mpr ⟨_, hreads, hend⟩, ?_⟩
        rw [ofMembers, hfold, Option.bind_some, hfilter]
        rfl
      · cases hcheck
    · cases hread
  · rintro ⟨ms, hread, hof⟩
    obtain ⟨rest, hreads, hend⟩ := read_eq_ok_iff.mp hread
    obtain ⟨d, hfold, hfilter⟩ := Option.bind_eq_some_iff.mp hof
    obtain ⟨mid, hfront, hmembers⟩ := accepts_step.members hreads hfold
    refine ⟨rest, ?_, hend⟩
    simp only [reader, hfront]
    refine bind_eq_ok.mpr ⟨_, hmembers, ?_⟩
    cases hok : d.filter with
    | error e =>
      rw [hok] at hfilter
      cases hfilter
    | ok f' =>
      rw [hok] at hfilter
      cases hfilter
      simp only [hok]
      rfl

/-! ### Members that do not count -/

/-- A draft without the members whose keys name no tag. -/
def Draft.tidy (d : Draft) : Draft :=
  { d with others := d.others.filter fun key _ => (tagName? key).isSome }

theorem filter_insert (m : SortedMap String Value) (key : String) (v : Value) :
    (m.insert key v).filter (fun key _ => (tagName? key).isSome) =
      if (tagName? key).isSome then
        (m.filter fun key _ => (tagName? key).isSome).insert key v
      else m.filter fun key _ => (tagName? key).isSome := by
  refine SortedMap.ext_get? fun key' => ?_
  rw [SortedMap.get?_filter, SortedMap.get?_insert]
  split_ifs with hkey hname hname
  · subst hkey
    simp [hname]
  · subst hkey
    rw [SortedMap.get?_filter]
    simp [hname]
  · rw [SortedMap.get?_insert, if_neg hkey, SortedMap.get?_filter]
  · rw [SortedMap.get?_filter]

/-- What counts of a draft decides what counts after a member. -/
theorem map_tidy_take {d d' : Draft} (key : String) (v : Value) (h : d.tidy = d'.tidy) :
    (d.take key v).map Draft.tidy = (d'.take key v).map Draft.tidy := by
  obtain ⟨ids, kinds, authors, since, till, limit, others⟩ := d
  obtain ⟨ids', kinds', authors', since', till', limit', others'⟩ := d'
  simp only [Draft.tidy, Draft.mk.injEq] at h
  obtain ⟨rfl, rfl, rfl, rfl, rfl, rfl, hothers⟩ := h
  unfold Draft.take Value.once?
  split_ifs <;> simp only [Option.map_map, Option.map_none, Option.map_some, Draft.tidy, hothers,
    Function.comp_def, filter_insert]

theorem tidy_take_of_not_isKnown {d : Draft} {key : String} {v : Value} (h : isKnown key = false) :
    (d.take key v).map Draft.tidy = some d.tidy := by
  obtain ⟨hkey, hname⟩ := Bool.or_eq_false_iff.mp h
  obtain ⟨hids, hkinds, hauthors, hsince, htill, hlimit⟩ : key ≠ "ids" ∧ key ≠ "kinds" ∧
      key ≠ "authors" ∧ key ≠ "since" ∧ key ≠ "until" ∧ key ≠ "limit" := by
    simpa [dimensions] using hkey
  rw [Draft.take, if_neg hids, if_neg hkinds, if_neg hauthors, if_neg hsince, if_neg htill,
    if_neg hlimit, Option.map_some, Draft.tidy, filter_insert, if_neg (by simp [hname])]
  rfl

/-- Tags are looked for among the keys that name one. -/
theorem tagsOf_filter (l : List (String × Value)) :
    tagsOf (l.filter fun e => (tagName? e.1).isSome) = tagsOf l := by
  induction l with
  | nil => rfl
  | cons e l ih =>
    obtain ⟨key, v⟩ := e
    cases hname : tagName? key with
    | none => rw [List.filter_cons_of_neg (by simp [hname]), ih, tagsOf, hname]
    | some name => rw [List.filter_cons_of_pos (by simp [hname]), tagsOf, tagsOf, hname, ih]

theorem filter_tidy (d : Draft) : d.tidy.filter = d.filter := by
  have htags : tagsOf d.tidy.others.entries = tagsOf d.others.entries := tagsOf_filter _
  rw [Draft.filter, Draft.filter, htags]
  rfl

/-- **Only the members of dimensions and tags count.** -/
theorem ofMembers_filter (ms : List (String × Value)) :
    ofMembers (ms.filter fun m => isKnown m.1) = ofMembers ms := by
  have hfold := map_foldMembers_filter map_tidy_take tidy_take_of_not_isKnown
    (rfl : Draft.blank.tidy = Draft.blank.tidy) ms
  have htidy : ∀ ms, ofMembers ms =
      ((foldMembers Draft.take Draft.blank ms).map Draft.tidy).bind fun d => d.filter.toOption := by
    intro ms
    rw [Option.bind_map]
    simp only [Function.comp_def, filter_tidy]
    rfl
  rw [htidy, htidy ms, hfold]

/-! ### Members that are written -/

/-- The member of a list of values, if it has any. -/
def listMember {α : Type} (name : String) (value : α → Value) (as : List α) :
    List (String × Value) :=
  if as.isEmpty then [] else [(name, .list (as.map value))]

/-- The members of a filter, in the order in which they are written. -/
def members (f : Filter) : List (String × Value) :=
  listMember "ids" FixedBytes.toValue f.ids ++ listMember "kinds" Kind.toValue f.kinds
    ++ listMember "authors" FixedBytes.toValue f.authors
    ++ (f.since.toList.map fun t => ("since", timeValue t))
    ++ (f.till.toList.map fun t => ("until", timeValue t))
    ++ (f.limit.toList.map fun n => ("limit", limitValue n))
    ++ (f.tags.entries.map fun t => (tagKey t.1, .list (t.2.map .text)))

theorem written_listMember {α : Type} {write : α → List Char} {value : α → Value} (name : String)
    (h : ∀ a, Written depth (write a) (value a)) (as : List α) :
    List.Forall₂ (WrittenMember (depth + 1)) (member name write as) (listMember name value as) := by
  rw [member, listMember]
  split
  · exact .nil
  · exact .cons ⟨rfl, written_list h as⟩ .nil

theorem written_map {α : Type} {l : List α} {entry : α → String × List Char}
    {m : α → String × Value} (h : ∀ a, WrittenMember depth (entry a) (m a)) :
    List.Forall₂ (WrittenMember depth) (l.map entry) (l.map m) := by
  refine List.forall₂_map_left_iff.mpr (List.forall₂_map_right_iff.mpr ?_)
  exact List.forall₂_same.mpr fun a _ => h a

theorem fields_written (f : Filter) :
    List.Forall₂ (WrittenMember (depth + 1)) f.fields f.members := by
  rw [fields, members]
  refine List.rel_append (List.rel_append (List.rel_append (List.rel_append (List.rel_append
    (List.rel_append ?_ ?_) ?_) ?_) ?_) ?_) ?_
  · exact written_listMember "ids" FixedBytes.written f.ids
  · exact written_listMember "kinds" Kind.written f.kinds
  · exact written_listMember "authors" FixedBytes.written f.authors
  · exact written_map fun t => ⟨rfl, written_time t⟩
  · exact written_map fun t => ⟨rfl, written_time t⟩
  · exact written_map fun n => ⟨rfl, written_limit n⟩
  · exact written_map fun t => ⟨rfl, written_list written_writeText t.2⟩

theorem read_toJson (f : Filter) : Json.read f.toJson = .ok (.object f.members) :=
  Written.read_ofList (written_writeObject f.fields_written)

/-! ### What the written members make -/

/-- The value of the values of a tag. -/
def tagValue (values : List String) : Value := .list (values.map .text)

theorem texts?_tagValue (values : List String) : (tagValue values).texts? = some values := by
  refine mapM_eq_some_iff.mpr (List.forall₂_map_left_iff.mpr ?_)
  exact List.forall₂_same.mpr fun _ _ => rfl

theorem take_tagKey (d : Draft) (name : Char) (v : Value) :
    d.take (tagKey name) v = some { d with others := d.others.insert (tagKey name) v } := by
  have hne : ∀ {key : String}, tagName? key = none → tagKey name ≠ key := by
    rintro key hkey rfl
    rw [tagName?_tagKey] at hkey
    cases hkey
  rw [Draft.take, if_neg (hne rfl), if_neg (hne rfl), if_neg (hne rfl), if_neg (hne rfl),
    if_neg (hne rfl), if_neg (hne rfl)]

/-- The members that the tags of a filter leave in a draft. -/
def putTags (m : SortedMap String Value) (l : List (Char × List String)) :
    SortedMap String Value :=
  l.foldl (fun m t => m.insert (tagKey t.1) (tagValue t.2)) m

theorem foldMembers_tags (d : Draft) (l : List (Char × List String)) :
    foldMembers Draft.take d (l.map fun t => (tagKey t.1, tagValue t.2)) =
      some { d with others := putTags d.others l } := by
  induction l generalizing d with
  | nil => rfl
  | cons t l ih =>
    rw [List.map_cons, foldMembers_cons, take_tagKey, Option.bind_some, ih]
    rfl

/-- Each name has a key of its own, so no value is lost. -/
theorem get?_putTags {l : List (Char × List String)}
    (hl : l.Pairwise fun a b => compare a.1 b.1 = .lt) {m : SortedMap String Value} {name : Char}
    {v : Value} :
    (putTags m l).get? (tagKey name) = some v ↔
      (∃ values, (name, values) ∈ l ∧ tagValue values = v) ∨
        (∀ values, (name, values) ∉ l) ∧ m.get? (tagKey name) = some v := by
  induction l generalizing m with
  | nil => simp [putTags]
  | cons t l ih =>
    obtain ⟨name', values'⟩ := t
    obtain ⟨hhead, hl⟩ := List.pairwise_cons.mp hl
    show (putTags (m.insert (tagKey name') (tagValue values')) l).get? (tagKey name) = some v ↔ _
    rw [ih hl, SortedMap.get?_insert]
    by_cases hname : name = name'
    · subst hname
      have hnot : ∀ values, (name, values) ∉ l := fun values hmem =>
        SortedMap.not_compare_self_lt name (hhead _ hmem)
      simp [hnot]
    · have hkey : tagKey name ≠ tagKey name' := fun h => hname (tagKey_injective h)
      simp [hname, hkey]

/-- The tags among members in key order are known by their keys. -/
theorem exists_tagsOf {l : List (String × Value)}
    (hl : l.Pairwise fun a b => compare a.1 b.1 = .lt)
    (htexts : ∀ name v, (tagKey name, v) ∈ l → v.texts?.isSome) :
    ∃ tags, tagsOf l = .ok tags ∧ ∀ name values, tags.get? name = some values ↔
      ∃ v, (tagKey name, v) ∈ l ∧ v.texts? = some values := by
  induction l with
  | nil => exact ⟨∅, rfl, by simp⟩
  | cons e l ih =>
    obtain ⟨key, v⟩ := e
    obtain ⟨hhead, hl⟩ := List.pairwise_cons.mp hl
    obtain ⟨tags, hof, hget⟩ := ih hl fun name v h => htexts name v (List.mem_cons_of_mem _ h)
    cases hname : tagName? key with
    | none =>
      have hne : ∀ name, tagKey name ≠ key := by
        rintro name rfl
        rw [tagName?_tagKey] at hname
        cases hname
      refine ⟨tags, by rw [tagsOf, hname, hof], fun name values => ?_⟩
      simp [hget, hne]
    | some name' =>
      obtain rfl := tagName?_eq_some_iff.mp hname
      obtain ⟨values', hvalues⟩ := Option.isSome_iff_exists.mp (htexts name' v List.mem_cons_self)
      refine ⟨tags.insert name' values', ?_, fun name values => ?_⟩
      · simp only [tagsOf, hname, hvalues, hof]
        rfl
      · rw [SortedMap.get?_insert]
        by_cases hsame : name = name'
        · subst hsame
          have hnot : ∀ v, (tagKey name, v) ∉ l := by
            intro v hmem
            have hlt := hhead _ hmem
            dsimp only at hlt
            exact SortedMap.not_compare_self_lt _ hlt
          simp [hnot, hvalues]
        · have hkey : tagKey name ≠ tagKey name' := fun h => hsame (tagKey_injective h)
          simp [hsame, hkey, hget]

/-- The tags of a filter come back from the members that were written for them. -/
theorem tagsOf_putTags (tags : SortedMap Char (List String)) :
    tagsOf (putTags ∅ tags.entries).entries = .ok tags := by
  have hmem : ∀ name v, (tagKey name, v) ∈ (putTags ∅ tags.entries).entries ↔
      ∃ values, (name, values) ∈ tags.entries ∧ tagValue values = v := by
    intro name v
    rw [← SortedMap.get?_eq_some_iff, get?_putTags tags.sorted]
    simp
  obtain ⟨tags', hof, hget⟩ := exists_tagsOf (putTags ∅ tags.entries).sorted fun name v h => by
    obtain ⟨values, -, rfl⟩ := (hmem name v).mp h
    rw [texts?_tagValue]
    rfl
  have hsame : tags' = tags := by
    refine SortedMap.ext_get? fun name => Option.ext fun values => ?_
    rw [hget, SortedMap.get?_eq_some_iff]
    constructor
    · rintro ⟨v, hv, htexts⟩
      obtain ⟨values', hvalues, rfl⟩ := (hmem name v).mp hv
      rw [texts?_tagValue] at htexts
      cases htexts
      exact hvalues
    · intro h
      exact ⟨tagValue values, (hmem name _).mpr ⟨values, h, rfl⟩, texts?_tagValue values⟩
  rw [hof, hsame]

/-- A list as a draft holds it after reading: nothing if it was not written. -/
def given {α : Type} (as : List α) : Option (List α) := if as.isEmpty then none else some as

@[simp] theorem getD_given {α : Type} (as : List α) : (given as).getD [] = as := by
  cases as <;> rfl

/-- The draft that the members of a filter make. -/
def draft (f : Filter) : Draft :=
  ⟨given f.ids, given f.kinds, given f.authors, f.since.map some, f.till.map some,
    f.limit.map some, putTags ∅ f.tags.entries⟩

theorem foldMembers_listMember {α : Type} (name : String) (value : α → Value)
    (put : Option (List α) → Draft)
    (htake : ∀ as, (put none).take name (.list (as.map value)) = some (put (some as)))
    (as : List α) :
    foldMembers Draft.take (put none) (listMember name value as) = some (put (given as)) := by
  rw [listMember, given]
  split
  · rfl
  · rw [foldMembers_cons, htake]
    rfl

theorem foldMembers_optional {α : Type} (name : String) (value : α → Value)
    (put : Option (Option α) → Draft)
    (htake : ∀ a, (put none).take name (value a) = some (put (some (some a)))) (o : Option α) :
    foldMembers Draft.take (put none) (o.toList.map fun a => (name, value a)) =
      some (put (o.map some)) := by
  cases o with
  | none => rfl
  | some a =>
    rw [Option.toList_some, List.map_singleton, foldMembers_cons, htake]
    rfl

theorem optional?_timeValue (t : Int64) :
    Value.optional? timeOfValue? (timeValue t) = some (some t) :=
  congrArg (Option.map some) (timeOfValue?_timeValue t)

theorem optional?_limitValue (n : UInt64) :
    Value.optional? limitOfValue? (limitValue n) = some (some n) :=
  congrArg (Option.map some) (limitOfValue?_limitValue n)

theorem foldMembers_members (f : Filter) :
    foldMembers Draft.take Draft.blank f.members = some f.draft := by
  have hids := foldMembers_listMember "ids" FixedBytes.toValue
    (fun o => { Draft.blank with ids := o })
    (fun as => by simp [Draft.take, Draft.blank, Value.once?, Value.list?_map]) f.ids
  have hkinds := foldMembers_listMember "kinds" Kind.toValue
    (fun o => { Draft.blank with ids := given f.ids, kinds := o })
    (fun as => by simp [Draft.take, Draft.blank, Value.once?, Value.list?_map]) f.kinds
  have hauthors := foldMembers_listMember "authors" FixedBytes.toValue
    (fun o => { Draft.blank with ids := given f.ids, kinds := given f.kinds, authors := o })
    (fun as => by simp [Draft.take, Draft.blank, Value.once?, Value.list?_map]) f.authors
  have hsince := foldMembers_optional "since" timeValue
    (fun o => { f.draft with since := o, till := none, limit := none, others := ∅ })
    (fun t => by simp [Draft.take, Value.once?, optional?_timeValue]) f.since
  have htill := foldMembers_optional "until" timeValue
    (fun o => { f.draft with till := o, limit := none, others := ∅ })
    (fun t => by simp [Draft.take, Value.once?, optional?_timeValue]) f.till
  have hlimit := foldMembers_optional "limit" limitValue
    (fun o => { f.draft with limit := o, others := ∅ })
    (fun n => by simp [Draft.take, Value.once?, optional?_limitValue]) f.limit
  have htags := foldMembers_tags { f.draft with others := ∅ } f.tags.entries
  rw [members]
  simp only [foldMembers_append, Option.bind_assoc]
  refine Option.bind_eq_some_iff.mpr ⟨_, hids, Option.bind_eq_some_iff.mpr ⟨_, hkinds, ?_⟩⟩
  refine Option.bind_eq_some_iff.mpr ⟨_, hauthors, Option.bind_eq_some_iff.mpr ⟨_, hsince, ?_⟩⟩
  exact Option.bind_eq_some_iff.mpr ⟨_, htill, Option.bind_eq_some_iff.mpr ⟨_, hlimit, htags⟩⟩

theorem filter_draft (f : Filter) : f.draft.filter = .ok f := by
  have hdefault : ∀ {α : Type} (o : Option α), (o.map some).getD none = o := by
    intro α o
    cases o <;> rfl
  refine bind_eq_ok.mpr ⟨f.tags, tagsOf_putTags f.tags, ?_⟩
  simp only [draft, getD_given, hdefault]
  rfl

theorem ofMembers_members (f : Filter) : ofMembers f.members = some f := by
  rw [ofMembers, foldMembers_members, Option.bind_some, filter_draft]
  rfl

/-! ### Whole texts -/

/-- **Filters survive the wire.**  The text of a filter is read as that filter.  A text that is
read as a filter holds an object, and every other text that holds an object with the same
members of dimensions and tags, whatever other members it has between them, is read as the
same filter. -/
theorem ofJson_toJson_known (f : Filter) :
    ofJson f.toJson = .ok f ∧
      ∀ s, ofJson s = .ok f → ∃ ms, Json.read s = .ok (.object ms) ∧
        ∀ s' ms', Json.read s' = .ok (.object ms') →
          (ms'.filter fun m => isKnown m.1) = (ms.filter fun m => isKnown m.1) →
          ofJson s' = .ok f := by
  refine ⟨ofJson_eq_ok_iff.mpr ⟨_, f.read_toJson, f.ofMembers_members⟩, fun s hs => ?_⟩
  obtain ⟨ms, hread, hof⟩ := ofJson_eq_ok_iff.mp hs
  refine ⟨ms, hread, fun s' ms' hread' hsame => ofJson_eq_ok_iff.mpr ⟨ms', hread', ?_⟩⟩
  rw [← ofMembers_filter, hsame, ofMembers_filter, hof]

/-- Two members are added, of which one has a key that is too long for a tag. -/
theorem ofJson_toJson_known_added :
    let f : Filter := { any with kinds := [⟨1⟩], tags := (∅ : SortedMap Char _).insert 't' ["a"] }
    let s := "\x7b\"kinds\":[1],\"#t\":[\"a\"]\x7d"
    let s' := "\x7b\"kinds\":[1],\"x\":[1.5,null],\"#t\":[\"a\"],\"#tt\":7\x7d"
    ofJson s = .ok f ∧ ofJson s' = .ok f := by
  intro f s s'
  have hs : ofJson s = .ok f := by decide +kernel
  have hread : Json.read s = .ok (.object [("kinds", .list [.number (.integer 1)]),
      ("#t", .list [.text "a"])]) := by cbv
  have hread' : Json.read s' = .ok (.object [("kinds", .list [.number (.integer 1)]),
      ("x", .list [.number .fraction, .null]), ("#t", .list [.text "a"]),
      ("#tt", .number (.integer 7))]) := by cbv
  obtain ⟨ms, hms, hadded⟩ := (ofJson_toJson_known f).2 s hs
  cases hread.symm.trans hms
  exact ⟨hs, hadded s' _ hread' rfl⟩

end Filter
end EventArchive
