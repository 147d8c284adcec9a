import EventArchive.Event.Json
import EventArchive.Proofs.JsonShapes

/-! # Events survive their text

An event has a value for each field (`Event.members`).  Its text holds the object of
those members and its list form holds the list of their values; a reader that finds
either makes the event of it, whatever the text looks like otherwise.
-/
namespace EventArchive

open Json

variable {depth : Nat} {cs rest : List Char}

/-! ### Fields and their values -/

/-- The value of a binary field. -/
def FixedBytes.toValue {f : HexField} (b : FixedBytes f) : Value := .text b.toHex

/-- The binary field that a value stands for. -/
def FixedBytes.ofValue? (f : HexField) : Value → Option (FixedBytes f) :=
  Value.refined? Value.text? FixedBytes.ofHex

theorem takes_fixedBytes (f : HexField) :
    Takes (FixedBytes.reader f) 0 (FixedBytes.ofValue? f) :=
  takes_text.refine FixedBytes.ofHex

@[simp] theorem FixedBytes.ofValue?_toValue {f : HexField} (b : FixedBytes f) :
    FixedBytes.ofValue? f b.toValue = some b := by
  show (FixedBytes.ofHex b.toHex).toOption = some b
  rw [FixedBytes.ofHex_toHex]
  rfl

theorem FixedBytes.written {f : HexField} (b : FixedBytes f) : Written depth b.write b.toValue :=
  written_writeText b.toHex

/-- The value of a kind. -/
def Kind.toValue (k : Kind) : Value := .number (.integer k.code.toNat)

/-- The kind that a value stands for. -/
def Kind.ofValue? (v : Value) : Option Kind :=
  (Value.integer? 0 65535 v).map fun n => ⟨UInt16.ofNat n.toNat⟩

theorem takes_kind : Takes Kind.reader 0 Kind.ofValue? :=
  (takes_integer 0 65535).map fun n => (⟨UInt16.ofNat n.toNat⟩ : Kind)

@[simp] theorem Kind.ofValue?_toValue (k : Kind) : Kind.ofValue? k.toValue = some k := by
  have hlt : k.code.toNat < 65536 := k.code.toNat_lt
  have hbounds : (0 : Int) ≤ k.code.toNat ∧ (k.code.toNat : Int) ≤ 65535 := by omega
  rw [Kind.ofValue?, Kind.toValue, Value.integer?, if_pos hbounds, Option.map_some,
    Int.toNat_natCast, UInt16.ofNat_toNat]

theorem Kind.written (k : Kind) : Written depth (writeInt k.code.toNat) k.toValue := by
  have hlt : k.code.toNat < 65536 := k.code.toNat_lt
  refine written_writeInt (Int.le_trans (by decide) (Int.natCast_nonneg _)) ?_
  exact Int.ofNat_lt.mpr (Nat.lt_trans hlt (by decide))

/-- The value of a time. -/
def timeValue (t : Int64) : Value := .number (.integer t.toInt)

/-- The time that a value stands for. -/
def timeOfValue? (v : Value) : Option Int64 :=
  (Value.integer? Int64.minValue.toInt Int64.maxValue.toInt v).map Int64.ofInt

theorem takes_time : Takes int64Reader 0 timeOfValue? :=
  (takes_integer Int64.minValue.toInt Int64.maxValue.toInt).map Int64.ofInt

@[simp] theorem timeOfValue?_timeValue (t : Int64) : timeOfValue? (timeValue t) = some t := by
  have hbounds : Int64.minValue.toInt ≤ t.toInt ∧ t.toInt ≤ Int64.maxValue.toInt :=
    ⟨t.minValue_le_toInt, t.toInt_le⟩
  rw [timeOfValue?, timeValue, Value.integer?, if_pos hbounds, Option.map_some, Int64.ofInt_toInt]

theorem written_time (t : Int64) : Written depth (writeInt t.toInt) (timeValue t) :=
  written_writeInt t.minValue_le_toInt (Int.lt_of_le_of_lt t.toInt_le (by decide))

theorem Json.Value.list?_map {α : Type} {of : Value → Option α} {value : α → Value}
    (h : ∀ a, of (value a) = some a) (as : List α) :
    Value.list? of (.list (as.map value)) = some as := by
  refine mapM_eq_some_iff.mpr (List.forall₂_map_left_iff.mpr ?_)
  exact List.forall₂_same.mpr fun a _ => h a

theorem Json.written_list {α : Type} {write : α → List Char} {value : α → Value}
    (h : ∀ a, Written depth (write a) (value a)) (as : List α) :
    Written (depth + 1) (writeList (as.map write)) (.list (as.map value)) := by
  refine written_writeList (List.forall₂_map_left_iff.mpr (List.forall₂_map_right_iff.mpr ?_))
  exact List.forall₂_same.mpr fun a _ => h a

/-- The value of a tag. -/
def Tag.toValue (t : Tag) : Value := .list (t.parts.map .text)

/-- The tag that a value stands for. -/
def Tag.ofValue? (v : Value) : Option Tag := (Value.list? Value.text? v).map Tag.mk

theorem takes_tag : Takes Tag.reader 1 Tag.ofValue? := takes_text.list.map Tag.mk

@[simp] theorem Tag.ofValue?_toValue (t : Tag) : Tag.ofValue? t.toValue = some t := by
  rw [Tag.ofValue?, Tag.toValue, Value.list?_map Value.text?_text, Option.map_some]

theorem Tag.written (t : Tag) : Written (depth + 1) t.write t.toValue :=
  written_list written_writeText t.parts

/-! ### Members and drafts -/

namespace Event

/-- The seven fields with their values, in the order in which they are written. -/
def members (e : Event) : List (String × Value) :=
  [("id", e.id.toValue), ("pubkey", e.pubkey.toValue), ("created_at", timeValue e.createdAt),
    ("kind", e.kind.toValue), ("tags", .list (e.tags.map Tag.toValue)),
    ("content", .text e.content), ("sig", e.sig.toValue)]

/-- The values of the list form. -/
def values (e : Event) : List Value := e.members.map (·.2)

theorem fields_written (e : Event) :
    List.Forall₂ (WrittenMember (depth + 2)) e.fields e.members := by
  have htags : Written (depth + 2) (writeList (e.tags.map Tag.write))
      (.list (e.tags.map Tag.toValue)) := written_list Tag.written e.tags
  exact .cons ⟨rfl, e.id.written⟩ <| .cons ⟨rfl, e.pubkey.written⟩ <|
    .cons ⟨rfl, written_time e.createdAt⟩ <| .cons ⟨rfl, e.kind.written⟩ <|
    .cons ⟨rfl, htags⟩ <| .cons ⟨rfl, written_writeText e.content⟩ <|
    .cons ⟨rfl, e.sig.written⟩ .nil

theorem read_toJson (e : Event) : Json.read e.toJson = .ok (.object e.members) :=
  Written.read_ofList (written_writeObject e.fields_written)

theorem read_toJsonList (e : Event) : Json.read e.toJsonList = .ok (.list e.values) := by
  refine Written.read_ofList (written_writeList ?_)
  refine List.forall₂_map_left_iff.mpr (List.forall₂_map_right_iff.mpr ?_)
  exact e.fields_written.imp fun _ _ h => h.2

/-- What a member of a field makes of a draft. -/
def Draft.take (d : Draft) (key : String) (v : Value) : Option Draft :=
  if key = "id" then
    Value.once? d.id (FixedBytes.ofValue? .id) (fun a => { d with id := some a }) v
  else if key = "pubkey" then
    Value.once? d.pubkey (FixedBytes.ofValue? .pubkey) (fun a => { d with pubkey := some a }) v
  else if key = "created_at" then
    Value.once? d.createdAt timeOfValue? (fun a => { d with createdAt := some a }) v
  else if key = "kind" then
    Value.once? d.kind Kind.ofValue? (fun a => { d with kind := some a }) v
  else if key = "tags" then
    Value.once? d.tags (Value.list? Tag.ofValue?) (fun a => { d with tags := some a }) v
  else if key = "content" then
    Value.once? d.content Value.text? (fun a => { d with content := some a }) v
  else if key = "sig" then
    Value.once? d.sig (FixedBytes.ofValue? .sig) (fun a => { d with sig := some a }) v
  else none

theorem accepts_step : Accepts Draft.step (depth + 2) Draft.take := by
  intro d d' key v cs rest hreads htake
  rw [Draft.take] at htake
  rw [Draft.step]
  split_ifs at htake ⊢
  · exact ((takes_fixedBytes _).once (Nat.zero_le _)).mpr ⟨v, hreads, htake⟩
  · exact ((takes_fixedBytes _).once (Nat.zero_le _)).mpr ⟨v, hreads, htake⟩
  · exact (takes_time.once (Nat.zero_le _)).mpr ⟨v, hreads, htake⟩
  · exact (takes_kind.once (Nat.zero_le _)).mpr ⟨v, hreads, htake⟩
  · exact (takes_tag.list.once (Nat.le_add_left _ _)).mpr ⟨v, hreads, htake⟩
  · exact (takes_text.once (Nat.zero_le _)).mpr ⟨v, hreads, htake⟩
  · exact ((takes_fixedBytes _).once (Nat.zero_le _)).mpr ⟨v, hreads, htake⟩

/-- The draft of which every field has been read. -/
def draft (e : Event) : Draft :=
  ⟨some e.id, some e.pubkey, some e.createdAt, some e.kind, some e.tags, some e.content, some e.sig⟩

theorem foldMembers_members (e : Event) :
    foldMembers Draft.take Draft.blank e.members = some e.draft := by
  simp [foldMembers, members, Draft.take, Draft.blank, draft, Value.once?, Value.list?_map]

/-! ### The list form -/

theorem element_first {α : Type} {item : Reader α} {of : Value → Option α} (h : Takes item depth of)
    {d : Nat} (hd : depth ≤ d) {v : Value} {vs : List Value} {a : α}
    (hreads : Reads (d + 1) cs (.value (.list (v :: vs))) rest) (hof : of v = some a) :
    ∃ mid mid', skipBlanks cs = '[' :: mid ∧ element true item mid = .ok (a, mid') ∧
      Reads d mid' (.items vs) rest := by
  cases hreads with
  | @list _ mid _ _ mid' _ _ hfront hfirst hmore =>
    have hitem := (h d hd).mpr ⟨v, hfirst, hof⟩
    obtain ⟨hne, hopen⟩ := hfirst.front
    simp only [skipBlanks_skipBlanks] at hne hopen
    refine ⟨mid, mid', hfront, ?_, hmore⟩
    rw [element.eq_def]
    split
    · rename_i heq
      exact absurd heq hne
    · rename_i heq
      exact absurd heq (hopen _)
    · rename_i heq
      rwa [if_pos rfl, ← heq]
    · rwa [if_pos rfl]

theorem element_next {α : Type} {item : Reader α} {of : Value → Option α} (h : Takes item depth of)
    {d : Nat} (hd : depth ≤ d) {v : Value} {vs : List Value} {a : α}
    (hreads : Reads d cs (.items (v :: vs)) rest) (hof : of v = some a) :
    ∃ mid, element false item cs = .ok (a, mid) ∧ Reads d mid (.items vs) rest := by
  cases hreads with
  | @moreItems _ mid _ _ mid' _ _ hfront hfirst hmore =>
    have hitem := (h d hd).mpr ⟨v, hfirst.of_skipBlanks (skipBlanks_skipBlanks mid), hof⟩
    obtain ⟨hne, hopen⟩ := hfirst.front
    refine ⟨mid', ?_, hmore⟩
    simp only [element, hfront, Bool.false_eq_true, if_false]
    exact hitem

theorem endOfList_items {d : Nat} (hreads : Reads d cs (.items []) rest) :
    endOfList cs = .ok rest := by
  cases hreads with
  | endItems hfront => simp only [endOfList, hfront]

/-- The seven values are read one after another, whatever stands between them. -/
theorem ofList_values {e : Event} {d : Nat} (hd : 2 ≤ d)
    (hreads : Reads (d + 1) cs (.value (.list e.values)) rest) :
    ∃ mid, skipBlanks cs = '[' :: mid ∧ ofList mid = .ok (e, rest) := by
  obtain ⟨mid, cs₁, hfront, hid, hreads⟩ :=
    element_first (takes_fixedBytes .id) (Nat.zero_le d) hreads e.id.ofValue?_toValue
  obtain ⟨cs₂, hpubkey, hreads⟩ :=
    element_next (takes_fixedBytes .pubkey) (Nat.zero_le d) hreads e.pubkey.ofValue?_toValue
  obtain ⟨cs₃, htime, hreads⟩ :=
    element_next takes_time (Nat.zero_le d) hreads (timeOfValue?_timeValue e.createdAt)
  obtain ⟨cs₄, hkind, hreads⟩ :=
    element_next takes_kind (Nat.zero_le d) hreads e.kind.ofValue?_toValue
  obtain ⟨cs₅, htags, hreads⟩ :=
    element_next takes_tag.list hd hreads (Value.list?_map Tag.ofValue?_toValue e.tags)
  obtain ⟨cs₆, hcontent, hreads⟩ :=
    element_next takes_text (Nat.zero_le d) hreads (Value.text?_text e.content)
  obtain ⟨cs₇, hsig, hreads⟩ :=
    element_next (takes_fixedBytes .sig) (Nat.zero_le d) hreads e.sig.ofValue?_toValue
  refine ⟨mid, hfront, bind_eq_ok.mpr ⟨_, hid, bind_eq_ok.mpr ⟨_, hpubkey, ?_⟩⟩⟩
  refine bind_eq_ok.mpr ⟨_, htime, bind_eq_ok.mpr ⟨_, hkind, bind_eq_ok.mpr ⟨_, htags, ?_⟩⟩⟩
  refine bind_eq_ok.mpr ⟨_, hcontent, bind_eq_ok.mpr ⟨_, hsig, bind_eq_ok.mpr ⟨_, ?_, rfl⟩⟩⟩
  exact endOfList_items hreads

/-! ### Whole texts -/

/-- A text that holds the seven members is read as the event. -/
theorem ofJson_of_read_members {e : Event} {s : String}
    (h : Json.read s = .ok (.object e.members)) : ofJson s = .ok e := by
  obtain ⟨rest, hreads, hend⟩ := read_eq_ok_iff.mp h
  obtain ⟨mid, hfront, hmembers⟩ := accepts_step.members hreads e.foldMembers_members
  refine readText_eq_ok_iff.mpr ⟨rest, ?_, hend⟩
  simp only [reader, hfront]
  exact bind_eq_ok.mpr ⟨_, hmembers, rfl⟩

/-- A text that holds the seven values in order is read as the event. -/
theorem ofJson_of_read_values {e : Event} {s : String}
    (h : Json.read s = .ok (.list e.values)) : ofJson s = .ok e := by
  obtain ⟨rest, hreads, hend⟩ := read_eq_ok_iff.mp h
  obtain ⟨mid, hfront, hlist⟩ := ofList_values (by decide) hreads
  refine readText_eq_ok_iff.mpr ⟨rest, ?_, hend⟩
  simp only [reader, hfront]
  exact hlist

/-- **Events survive the wire.**  The text of an event is read as that event, and so are
its list form and every other text that holds the same seven values in order. -/
theorem ofJson_toJson (e : Event) :
    ofJson e.toJson = .ok e ∧ ofJson e.toJsonList = .ok e ∧
      ∀ s, Json.read s = .ok (.list e.values) → ofJson s = .ok e :=
  ⟨ofJson_of_read_members e.read_toJson, ofJson_of_read_values e.read_toJsonList,
    fun _ => ofJson_of_read_values⟩

set_option maxRecDepth 10000 in
/-- A list form with blanks, an escape that need not be one, and an empty tag. -/
theorem ofJson_toJson_blanks :
    let e : Event := ⟨⟨List.replicate 32 0, rfl⟩, ⟨List.replicate 32 0, rfl⟩, -1, ⟨7⟩,
      [⟨["e", ""]⟩, ⟨[]⟩], "a\"\né", ⟨List.replicate 64 0, rfl⟩⟩
    let zeros (n : Nat) : List Char := List.replicate n '0'
    let text : List Char := ['[', ' ', '"'] ++ zeros 64 ++ ['"', ' ', ',', '"'] ++ zeros 64 ++
      ['"', ',', '-', '1', ',', '7', ',', '[', '[', '"', 'e', '"', ',', '"', '"', ']', ',',
        '[', ' ', ']', ']', ',', '"', 'a', '\\', '"', '\\', 'n', '\\', 'u', '0', '0', 'e', '9',
        '"', ',', '"'] ++ zeros 128 ++ ['"', '\n', ']', ' ']
    Json.read (String.ofList text) = .ok (.list e.values) ∧
      ofJson (String.ofList text) = .ok e := by
  intro e zeros text
  have hread : Json.read (String.ofList text) = .ok (.list e.values) := by
    rw [Json.read, readText, String.toList_ofList]
    cbv
  exact ⟨hread, (ofJson_toJson e).2.2 _ hread⟩

end Event
end EventArchive
