import EventArchive.Proofs.PagedScans

/-! # What a scan selects

Tag values and addresses are of any length, so keys of longer values stand between
those that a scan wants.  A scan therefore takes a range of the key space and, in it,
the keys of one length.  Over the whole key space, whatever the fields of a key hold
(`KeyParts`), these are the keys of one index and one value up to the end of the window
and no others (`Plan.scan_selects`).  Among them the order of the bytes is the order of
the times, then of the serials, so a scan that goes backwards and meets a key that is
too old has only such keys before it.
-/
namespace EventArchive

/-! ### The key space -/

/-- Eight bytes that stand for an identifier or a public key. -/
abbrev Head8 := { bytes : Bytes // bytes.length = 8 }

/-- What a key says before its time and its serial, by its layout. -/
inductive KeyHead where
  | event
  | createdAt
  | id (head : Head8)
  | kind (code : UInt16)
  | pubkey (head : Head8)
  | pubkeyKind (head : Head8) (code : UInt16)
  | tag (value : Bytes)
  | tag32 (head : Head8)
  | tagAddress (code : UInt16) (head : Head8) (identifier : Bytes)
  | counter (head : Head8)
  deriving DecidableEq

namespace KeyHead

/-- The layout of the keys that begin so. -/
def layout : KeyHead → Layout
  | event => .event
  | createdAt => .createdAt
  | id _ => .id
  | kind _ => .kind
  | pubkey _ => .pubkey
  | pubkeyKind .. => .pubkeyKind
  | tag _ => .tag
  | tag32 _ => .tag32
  | tagAddress .. => .tagAddress
  | counter _ => .counter

/-- The fields between the layout and the time. -/
def fields : KeyHead → List Field
  | event | createdAt => []
  | id head | pubkey head | tag32 head | counter head => [⟨.head8, head⟩]
  | kind code => [⟨.kind, code⟩]
  | pubkeyKind head code => [⟨.head8, head⟩, ⟨.kind, code⟩]
  | tag value => [⟨.rest, value⟩]
  | tagAddress code head identifier => [⟨.kind, code⟩, ⟨.head8, head⟩, ⟨.rest, identifier⟩]

/-- The bytes before the time and the serial. -/
def stem (h : KeyHead) : Bytes := Key.write (⟨.layout h.layout, ()⟩ :: h.fields)

/-- The head of the keys of a tag value. -/
def ofValue : TagValue → KeyHead
  | .key32 head => tag32 head
  | .address code head identifier => tagAddress code head identifier
  | .raw value => tag value

end KeyHead

/-- A key of the key space, with the values of its fields. -/
structure KeyParts where
  head : KeyHead
  time? : Option UInt64
  serial : Serial
  isSome_time? : time?.isSome = head.layout.hasTimestamp

namespace KeyParts

/-- The time of a key; zero if keys of its layout hold none. -/
def time (p : KeyParts) : UInt64 := p.time?.getD 0

/-- The bytes of a key. -/
def bytes (p : KeyParts) : Bytes :=
  p.head.stem ++ Key.write ((p.time?.map fun t => (⟨.timestamp, t⟩ : Field)).toList ++
    [⟨.serial, p.serial⟩])

end KeyParts

/-! ### Heads -/

namespace KeyHead
variable {h h' : KeyHead}

theorem stem_eq (h : KeyHead) : h.stem = h.layout.byte :: Key.write h.fields := rfl

theorem layout?_stem (h : KeyHead) : Key.layout? h.stem = some h.layout :=
  Key.layout?_cons _ _

@[simp] theorem stem_ofValue (v : TagValue) : (ofValue v).stem = v.stem := by
  cases v <;> rfl

@[simp] theorem layout_ofValue (v : TagValue) : (ofValue v).layout = v.layout := by
  cases v <;> rfl

theorem hasTimestamp_ofValue (v : TagValue) : (ofValue v).layout.hasTimestamp = true := by
  cases v <;> rfl

theorem write_head8_inj {head head' : Head8} {fs fs' : List Field}
    (h : Key.write (⟨.head8, head⟩ :: fs) = Key.write (⟨.head8, head'⟩ :: fs')) :
    head = head' ∧ Key.write fs = Key.write fs' := by
  obtain ⟨hhead, hrest⟩ := List.append_inj h (head.2.trans head'.2.symm)
  exact ⟨Subtype.ext hhead, hrest⟩

theorem write_kind_inj {code code' : UInt16} {fs fs' : List Field}
    (h : Key.write (⟨.kind, code⟩ :: fs) = Key.write (⟨.kind, code'⟩ :: fs')) :
    code = code' ∧ Key.write fs = Key.write fs' := by
  obtain ⟨hcode, hrest⟩ := List.append_inj h
    ((Bytes.length_bigEndian 2 _).trans (Bytes.length_bigEndian 2 _).symm)
  exact ⟨UInt16.toNat_inj.mp (Bytes.bigEndian_inj code.toNat_lt code'.toNat_lt hcode), hrest⟩

theorem write_rest (value : Bytes) : Key.write [⟨.rest, value⟩] = value := List.append_nil _

/-- **A beginning belongs to one head**, though the beginning of one may extend that of another. -/
theorem stem_inj (heq : h.stem = h'.stem) : h = h' := by
  rw [stem_eq, stem_eq, List.cons.injEq] at heq
  obtain ⟨hbyte, hfields⟩ := heq
  have hlayout : h.layout = h'.layout := Layout.byte_inj hbyte
  cases h <;> cases h' <;> cases hlayout <;> dsimp only [fields] at hfields
  case event.event | createdAt.createdAt => rfl
  case id.id | pubkey.pubkey | tag32.tag32 | counter.counter => rw [(write_head8_inj hfields).1]
  case kind.kind => rw [(write_kind_inj hfields).1]
  case pubkeyKind.pubkeyKind =>
    obtain ⟨rfl, hrest⟩ := write_head8_inj hfields
    rw [(write_kind_inj hrest).1]
  case tag.tag =>
    rw [write_rest, write_rest] at hfields
    rw [hfields]
  case tagAddress.tagAddress =>
    obtain ⟨rfl, hrest⟩ := write_kind_inj hfields
    obtain ⟨rfl, hvalue⟩ := write_head8_inj hrest
    rw [write_rest, write_rest] at hvalue
    rw [hvalue]

end KeyHead

/-! ### Keys -/

namespace KeyParts
variable {p q : KeyParts} {t : UInt64}

theorem write_serial (ser : Serial) :
    Key.write [⟨.serial, ser⟩] = Bytes.bigEndian 8 ser.toNat :=
  List.append_nil _

theorem bytes_of_some (ht : p.time? = some t) :
    p.bytes = Key.stamped p.head.stem t p.serial := by
  rw [bytes, ht, Key.stamped, ← write_serial]
  rfl

theorem bytes_of_none (ht : p.time? = none) :
    p.bytes = p.head.stem ++ Bytes.bigEndian 8 p.serial.toNat := by
  rw [bytes, ht, ← write_serial]
  rfl

theorem layout?_bytes (p : KeyParts) : Key.layout? p.bytes = some p.head.layout :=
  Key.layout?_cons _ _

/-- A key of an event that ends in its time. -/
def timed (h : KeyHead) (hl : h.layout.hasTimestamp = true) (createdAt : Int64) (ser : Serial) :
    KeyParts :=
  ⟨h, some (clampTime createdAt), ser, hl.symm⟩

theorem bytes_timed (h : KeyHead) (hl : h.layout.hasTimestamp = true) (createdAt : Int64)
    (ser : Serial) : (timed h hl createdAt ser).bytes = Key.timed h.stem createdAt ser := rfl

/-- The keys of an event in the indices, with the values of their fields. -/
def ofEvent (e : Event) (ser : Serial) : List KeyParts :=
  [⟨.id e.id.headField.value, none, ser, rfl⟩,
    timed (.pubkey e.pubkey.headField.value) rfl e.createdAt ser,
    timed (.kind e.kind.code) rfl e.createdAt ser,
    timed (.pubkeyKind e.pubkey.headField.value e.kind.code) rfl e.createdAt ser,
    timed .createdAt rfl e.createdAt ser] ++
  (Key.indexedTagValues e.tags).map fun v =>
    timed (.ofValue (TagValue.classify v)) (KeyHead.hasTimestamp_ofValue _) e.createdAt ser

theorem map_bytes_ofEvent (e : Event) (ser : Serial) :
    (ofEvent e ser).map bytes = Key.index e ser := by
  rw [ofEvent, List.map_append, List.map_map, Key.index, Key.tagged]
  congr 1
  refine List.map_congr_left fun v _ => ?_
  rw [Function.comp_apply, bytes_timed, KeyHead.stem_ofValue]

theorem serial_of_mem_ofEvent {e : Event} {ser : Serial} (hp : p ∈ ofEvent e ser) :
    p.serial = ser := by
  rcases List.mem_append.mp hp with hp | hp
  · simp only [List.mem_cons, List.not_mem_nil, or_false] at hp
    rcases hp with rfl | rfl | rfl | rfl | rfl <;> rfl
  · obtain ⟨v, -, rfl⟩ := List.mem_map.mp hp
    rfl

/-- The keys of records, of counters and of events in the indices are of the key space. -/
theorem exists_bytes_eq {e : Event} {ser : Serial} {key : Bytes}
    (hkey : key = Key.event ser ∨ key = Key.counter e.id ser ∨ key ∈ Key.index e ser) :
    ∃ p : KeyParts, p.bytes = key ∧ p.serial = ser := by
  rcases hkey with rfl | rfl | hindex
  · exact ⟨⟨.event, none, ser, rfl⟩, rfl, rfl⟩
  · refine ⟨⟨.counter e.id.headField.value, none, ser, rfl⟩, ?_, rfl⟩
    exact List.flatMap_append.symm
  · rw [← map_bytes_ofEvent] at hindex
    obtain ⟨p, hp, rfl⟩ := List.mem_map.mp hindex
    exact ⟨p, rfl, serial_of_mem_ofEvent hp⟩

/-- **Keys of one head are in the order of their times, then of their serials.** -/
theorem compare_bytes_lt_iff (hhead : p.head = q.head) :
    compare p.bytes q.bytes = .lt ↔ p.time < q.time ∨ p.time = q.time ∧ p.serial < q.serial := by
  have hp := p.isSome_time?
  have hq := q.isSome_time?
  rw [hhead, ← hq] at hp
  rw [time, time]
  cases hpt : p.time? with
  | none =>
    rw [hpt] at hp
    have hqt := Option.isSome_eq_false_iff.mp hp.symm
    rw [Option.isNone_iff_eq_none] at hqt
    rw [bytes_of_none hpt, bytes_of_none hqt, hhead, Key.compare_serial_lt_iff, hqt]
    simp
  | some t =>
    rw [hpt] at hp
    obtain ⟨t', hqt⟩ := Option.isSome_iff_exists.mp hp.symm
    rw [bytes_of_some hpt, bytes_of_some hqt, hhead, Key.compare_stamped_lt_iff, hqt]
    rfl

end KeyParts

/-! ### Scans -/

namespace Scan
variable {s : Scan} {h : KeyHead} {p : KeyParts} {k : Keyspace} {since : UInt64}

/-- A scan goes through the keys of a head. -/
structure HasHead (s : Scan) (h : KeyHead) : Prop where
  layout : s.layout = h.layout
  stem : s.stem = h.stem
  untimed : s.untimed = !h.layout.hasTimestamp

namespace HasHead

/-- The keys of the layout of a scan hold a time, unless the scan is of keys that do not. -/
theorem time?_cases (hs : s.HasHead h) (hlayout : p.head.layout = h.layout) :
    (s.untimed = false ∧ ∃ t, p.time? = some t) ∨ (s.untimed = true ∧ p.time? = none) := by
  have htime : p.time?.isSome = !s.untimed := by
    rw [p.isSome_time?, hlayout, hs.untimed, Bool.not_not]
  cases huntimed : s.untimed with
  | false =>
    rw [huntimed] at htime
    exact .inl ⟨rfl, Option.isSome_iff_exists.mp htime⟩
  | true =>
    rw [huntimed] at htime
    exact .inr ⟨rfl, Option.not_isSome_iff_eq_none.mp (by rw [htime]; exact Bool.false_ne_true)⟩

/-- The keys that a scan selects are of its layout. -/
theorem layout_eq (hs : s.HasHead h) (hp : s.Selects p.bytes) : p.head.layout = h.layout := by
  obtain ⟨r, hr⟩ := exists_append_of_range hp.lower hp.upper
  have hlayout : Key.layout? (h.stem ++ r) = some h.layout := Key.layout?_cons _ _
  rw [← hs.stem, ← hr, p.layout?_bytes] at hlayout
  exact Option.some.inj hlayout

/-- **The keys that a scan selects** are those of its head up to its latest time. -/
theorem selects_bytes_iff (hs : s.HasHead h) :
    s.Selects p.bytes ↔ p.head = h ∧ ∀ t ∈ p.time?, t ≤ s.till := by
  constructor
  · intro hp
    rcases hs.time?_cases (hs.layout_eq hp) with ⟨huntimed, t, ht⟩ | ⟨huntimed, hnone⟩
    · obtain ⟨t', ser, hbytes, htill⟩ := (selects_iff huntimed).mp hp
      rw [KeyParts.bytes_of_some ht] at hbytes
      obtain ⟨hstem, rfl, -⟩ := Key.stamped_inj hbytes
      refine ⟨KeyHead.stem_inj (hstem.trans hs.stem), ?_⟩
      rw [ht]
      rintro _ ⟨rfl⟩
      exact htill
    · obtain ⟨ser, hbytes⟩ := (selects_untimed_iff huntimed).mp hp
      rw [KeyParts.bytes_of_none hnone] at hbytes
      have hstem := (List.append_inj' hbytes (by simp [Bytes.length_bigEndian])).1
      refine ⟨KeyHead.stem_inj (hstem.trans hs.stem), ?_⟩
      rw [hnone]
      nofun
  · rintro ⟨rfl, htill⟩
    rcases hs.time?_cases (p := p) rfl with ⟨huntimed, t, ht⟩ | ⟨huntimed, hnone⟩
    · rw [KeyParts.bytes_of_some ht, ← hs.stem]
      exact (selects_iff huntimed).mpr ⟨t, p.serial, rfl, htill t ht⟩
    · rw [KeyParts.bytes_of_none hnone, ← hs.stem]
      exact (selects_untimed_iff huntimed).mpr ⟨p.serial, rfl⟩

/-- A scan looks at the time of a key that it selects. -/
theorem isPast_eq (hs : s.HasHead h) (hp : s.Selects p.bytes) (since : UInt64) :
    s.isPast since p.bytes = p.time?.any (· < since) := by
  have howns : s.owns p.bytes = true := beq_iff_eq.mpr hp.length
  rw [isPast, howns, Bool.true_and, timeOf]
  rcases hs.time?_cases (hs.layout_eq hp) with ⟨huntimed, t, ht⟩ | ⟨huntimed, hnone⟩
  · rw [huntimed, KeyParts.bytes_of_some ht, Key.timestamp?_stamped, ht]
    rfl
  · rw [huntimed, hnone]
    rfl

end HasHead

/-- Behind a key that is too old are only such keys. -/
theorem isPast_of_append {newer older : List Bytes} {key key' : Bytes}
    (hkeys : s.keysBelow k s.upper = newer ++ key :: older) (hpast : s.isPast since key = true)
    (hmem : key' ∈ older) (howns : s.owns key' = true) : s.isPast since key' = true := by
  have hsorted := s.keysBelow_sorted k s.upper
  rw [hkeys, List.pairwise_append, List.pairwise_cons] at hsorted
  have hlt : compare key' key = .lt := hsorted.2.1.1 key' hmem
  have hin : ∀ x ∈ key :: older, x ∈ s.keysBelow k s.upper := fun x hx =>
    hkeys ▸ List.mem_append_right newer hx
  exact isPast_of_isLE (hin key List.mem_cons_self) (hin key' (List.mem_cons_of_mem _ hmem)) howns
    hpast (by rw [hlt]; rfl)

end Scan

namespace Plan
variable {f : Filter} {p : Plan} {s : Scan}

/-- Every scan of a plan goes through the keys of one head. -/
theorem exists_hasHead (hplan : ofFilter f = .ok p) (hs : s ∈ p.scans) : ∃ h, s.HasHead h := by
  rw [eq_of_ofFilter hplan] at hs
  split at hs
  · cases hs
  by_cases hids : f.ids = []
  · rcases choose_cases hids with ⟨-, hchoose⟩ | ⟨-, -, hchoose⟩ | ⟨-, -, -, hchoose⟩ |
      ⟨-, -, -, hchoose⟩
    · rw [hchoose] at hs
      rcases mem_authorScans.mp hs with ⟨-, a, -, rfl⟩ | ⟨a, -, k, -, rfl⟩
      · exact ⟨.pubkey a.headField.value, rfl, rfl, rfl⟩
      · exact ⟨.pubkeyKind a.headField.value k.code, rfl, rfl, rfl⟩
    · rw [hchoose] at hs
      obtain ⟨t, -, v, -, rfl⟩ := mem_tagScans.mp hs
      refine ⟨.ofValue (TagValue.classify v), ?_, ?_, ?_⟩
      · rw [KeyHead.layout_ofValue, Scan.timed]
      · rw [KeyHead.stem_ofValue, Scan.timed]
      · cases TagValue.classify v <;> rfl
    · rw [hchoose] at hs
      obtain ⟨k, -, rfl⟩ := mem_kindScans.mp hs
      exact ⟨.kind k.code, rfl, rfl, rfl⟩
    · rw [hchoose] at hs
      obtain rfl := List.mem_singleton.mp hs
      exact ⟨.createdAt, rfl, rfl, rfl⟩
  · have hscans : (choose f).scans = idScans f := by simp [choose, hids]
    rw [hscans] at hs
    obtain ⟨i, -, rfl⟩ := mem_idScans.mp hs
    exact ⟨.id i.headField.value, rfl, rfl, rfl⟩

/-- **A scan selects exactly its keys.**  Every scan of a plan belongs to one head, a layout with
the fields between it and the time.  Of all keys of the key space, those in the range of the scan
and of its length are the keys of this head of times up to the end of the window, and the keys of
the identifier index, which hold no time, are all of them.  They are in the order of their times,
then of their serials, and in a table that is gone through backwards, a key that is too old has only
keys behind it that are too old or do not belong to the scan. -/
theorem scan_selects (hplan : ofFilter f = .ok p) (hs : s ∈ p.scans) :
    ∃ h : KeyHead, s.layout = h.layout ∧ s.stem = h.stem ∧
      (∀ key : KeyParts, s.Selects key.bytes ↔ key.head = h ∧ ∀ t ∈ key.time?, t ≤ s.till) ∧
      (∀ key : KeyParts, s.Selects key.bytes → ∀ since,
        s.isPast since key.bytes = key.time?.any (· < since)) ∧
      (∀ a b : KeyParts, s.Selects a.bytes → s.Selects b.bytes →
        (compare a.bytes b.bytes = .lt ↔ a.time < b.time ∨ a.time = b.time ∧ a.serial < b.serial)) ∧
      ∀ (k : Keyspace) (since : UInt64) (newer older : List Bytes) (key : Bytes),
        s.keysBelow k s.upper = newer ++ key :: older → s.isPast since key = true →
          ∀ key' ∈ older, s.owns key' = true → s.isPast since key' = true := by
  obtain ⟨h, hhead⟩ := exists_hasHead hplan hs
  refine ⟨h, hhead.layout, hhead.stem, fun key => hhead.selects_bytes_iff,
    fun key hkey => hhead.isPast_eq hkey, fun a b ha hb => ?_,
    fun k since newer older key hkeys hpast key' hmem howns =>
      Scan.isPast_of_append hkeys hpast hmem howns⟩
  refine KeyParts.compare_bytes_lt_iff ?_
  rw [(hhead.selects_bytes_iff.mp ha).1, (hhead.selects_bytes_iff.mp hb).1]

/-- A scan for a tag value up to a time.  The last key of that time is selected and the first one of
the next time is not; nor is a key of a longer value, which stands between them and the beginning of
the range. -/
theorem scan_selects_tag :
    let f := (Filter.any.withTag 't' ["ab"]).withTill 100
    let s := Scan.timed .tag (TagValue.classify "ab").stem 100
    let key : String → UInt64 → Serial → KeyParts := fun value time serial =>
      ⟨.tag (Bytes.ofText value), some time, serial, rfl⟩
    ∃ p, ofFilter f = .ok p ∧ s ∈ p.scans ∧ s.Selects (key "ab" 100 maxUInt64).bytes ∧
      ¬ s.Selects (key "ab" 101 0).bytes ∧
      (compare s.stem (key "ab\x00" 100 0).bytes).isLE = true ∧
      compare (key "ab\x00" 100 0).bytes s.upper = .lt ∧ ¬ s.Selects (key "ab\x00" 100 0).bytes := by
  intro f s key
  have hmem : s ∈ (choose f).scans := by decide +kernel
  obtain ⟨h, -, hstem, hselects, -⟩ := scan_selects (f := f) (p := choose f) rfl hmem
  obtain rfl : h = .tag (Bytes.ofText "ab") :=
    KeyHead.stem_inj (hstem.symm.trans (by decide +kernel))
  refine ⟨choose f, rfl, hmem, (hselects _).mpr ⟨rfl, ?_⟩, fun hin => ?_, by decide +kernel,
    by decide +kernel, fun hin => ?_⟩
  · rintro _ ⟨rfl⟩
    decide
  · exact absurd (((hselects _).mp hin).2 101 rfl) (by decide)
  · exact absurd ((hselects _).mp hin).1 (by decide +kernel)

end Plan
end EventArchive
