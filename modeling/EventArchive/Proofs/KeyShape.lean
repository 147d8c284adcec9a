import Mathlib
import EventArchive.Proofs.ByteOrder
import EventArchive.Proofs.SortedMap
import EventArchive.Store.Database

/-! # What a key says

Every key ends in the serial it belongs to, so the key space splits by serial,
and begins with the byte of its layout, so the keys of one serial split by
layout.  The index keys of an event are of secondary layouts; the keys of tag
values have layouts of their own, which is why they can outlive the others.
-/
namespace EventArchive

/-! ### Layouts -/

namespace Layout

/-- Whether the keys of a layout come from tag values. -/
def isTag : Layout → Bool
  | .tag | .tag32 | .tagAddress => true
  | _ => false

theorem ofByte?_eq_some_iff {b : UInt8} {l : Layout} : ofByte? b = some l ↔ b = l.byte := by
  refine ⟨fun h => ?_, fun h => h ▸ ofByte?_byte l⟩
  obtain ⟨hb, hl⟩ := List.getElem?_eq_some_iff.mp h
  have hlt : b.toNat < 10 := hb
  refine UInt8.toNat_inj.mp ?_
  rw [← hl]
  interval_cases b.toNat <;> rfl

theorem byte_inj {l l' : Layout} (h : l.byte = l'.byte) : l = l' :=
  Option.some.inj (l.ofByte?_byte.symm.trans (h ▸ l'.ofByte?_byte))

theorem isSecondary_of_isTag {l : Layout} (h : l.isTag = true) : l.isSecondary = true := by
  cases l <;> first | rfl | cases h

/-- Secondary layouts are those between the records and the counters. -/
theorem exists_secondary_iff {b : UInt8} :
    (∃ l : Layout, b = l.byte ∧ l.isSecondary = true) ↔ createdAt.byte ≤ b ∧ b < counter.byte := by
  rw [UInt8.le_iff_toNat_le, UInt8.lt_iff_toNat_lt]
  constructor
  · rintro ⟨l, rfl, hl⟩
    cases l <;> first | decide | cases hl
  · rintro ⟨hlower, hupper⟩
    have hrange : 1 ≤ b.toNat ∧ b.toNat < 9 := ⟨hlower, hupper⟩
    have hbyte : b = UInt8.ofNat b.toNat := (UInt8.ofNat_toNat).symm
    obtain ⟨h1, h9⟩ := hrange
    generalize b.toNat = n at *
    subst hbyte
    interval_cases n
    · exact ⟨.createdAt, rfl, rfl⟩
    · exact ⟨.id, rfl, rfl⟩
    · exact ⟨.kind, rfl, rfl⟩
    · exact ⟨.pubkey, rfl, rfl⟩
    · exact ⟨.pubkeyKind, rfl, rfl⟩
    · exact ⟨.tag, rfl, rfl⟩
    · exact ⟨.tag32, rfl, rfl⟩
    · exact ⟨.tagAddress, rfl, rfl⟩

end Layout

/-! ### Times -/

theorem clampTime_toNat (t : Int64) : (clampTime t).toNat = t.toInt.toNat := by
  have := t.toInt_lt
  rw [clampTime, UInt64.toNat_ofNat']
  omega

theorem timeOfClamped_eq (t : UInt64) : timeOfClamped t =
    if (t.toNat : Int) ≤ 2 ^ 63 - 1 then Int64.ofInt t.toNat else Int64.maxValue := rfl

/-- A time that is not negative comes back from its key. -/
theorem timeOfClamped_clampTime {t : Int64} (h : 0 ≤ t) : timeOfClamped (clampTime t) = t := by
  have hlt := t.toInt_lt
  have hnonneg : 0 ≤ t.toInt := by simpa [Int64.le_iff_toInt_le] using h
  rw [timeOfClamped_eq, clampTime_toNat, if_pos (by omega), Int.toNat_of_nonneg hnonneg,
    Int64.ofInt_toInt]

theorem timeOfClamped_nonneg (t : UInt64) : 0 ≤ timeOfClamped t := by
  rw [timeOfClamped_eq, Int64.le_iff_toInt_le]
  split
  · rw [Int64.toInt_ofInt_of_le (by omega) (by omega)]
    exact Int.natCast_nonneg _
  · decide

/-- Holding a time in a key a second time changes nothing more. -/
theorem clampTime_timeOfClamped_clampTime (t : Int64) :
    clampTime (timeOfClamped (clampTime t)) = clampTime t := by
  have hlt := t.toInt_lt
  have hle := t.le_toInt
  refine UInt64.toNat_inj.mp ?_
  rw [clampTime_toNat, timeOfClamped_eq, clampTime_toNat, if_pos (by omega),
    Int64.toInt_ofInt_of_le (by omega) (by omega)]
  omega

namespace Key

/-! ### Keys as byte strings -/

theorem counter_eq (i : EventId) (s : Serial) :
    counter i s = Layout.counter.byte :: (i.head8 ++ Bytes.bigEndian 8 s.toNat) := rfl

theorem idStem_eq (i : EventId) : idStem i = Layout.id.byte :: i.head8 := by
  simp [idStem, write, Field.write, FieldType.write, FixedBytes.headField]

theorem kindStem_eq (k : Kind) :
    kindStem k = Layout.kind.byte :: Bytes.bigEndian 2 k.code.toNat := rfl

theorem pubkeyStem_eq (p : PublicKey) : pubkeyStem p = Layout.pubkey.byte :: p.head8 := by
  simp [pubkeyStem, write, Field.write, FieldType.write, FixedBytes.headField]

theorem pubkeyKindStem_eq (p : PublicKey) (k : Kind) :
    pubkeyKindStem p k =
      Layout.pubkeyKind.byte :: (p.head8 ++ Bytes.bigEndian 2 k.code.toNat) := rfl

theorem id_eq (i : EventId) (s : Serial) :
    Key.id i s = idStem i ++ Bytes.bigEndian 8 s.toNat := by
  simp [Key.id, write, Field.write, FieldType.write]

theorem id_inj {i i' : EventId} {s s' : Serial} (h : Key.id i s = Key.id i' s') :
    i.head8 = i'.head8 := by
  rw [id_eq, id_eq, idStem_eq, idStem_eq] at h
  have hlen : (Layout.id.byte :: i.head8).length = (Layout.id.byte :: i'.head8).length := by
    rw [List.length_cons, List.length_cons, i.head8_length, i'.head8_length]
  exact (List.cons.inj (List.append_inj h hlen).1).2

theorem timed_eq (stem : Bytes) (t : Int64) (s : Serial) :
    timed stem t s =
      stem ++ (Bytes.bigEndian 8 (clampTime t).toNat ++ Bytes.bigEndian 8 s.toNat) := by
  simp [timed, write, Field.write, FieldType.write]

theorem bigEndian_code_inj {k k' : Kind} :
    Bytes.bigEndian 2 k.code.toNat = Bytes.bigEndian 2 k'.code.toNat ↔ k = k' := by
  refine ⟨fun h => ?_, fun h => h ▸ rfl⟩
  have hcode := Bytes.bigEndian_inj k.code.toNat_lt k'.code.toNat_lt h
  cases k
  cases k'
  rw [Kind.mk.injEq]
  exact UInt16.toNat_inj.mp hcode

/-- The keys of an author and a kind hold the beginning of the author. -/
theorem pubkeyKindStem_inj {p p' : PublicKey} {k k' : Kind} :
    pubkeyKindStem p k = pubkeyKindStem p' k' ↔ p.head8 = p'.head8 ∧ k = k' := by
  rw [pubkeyKindStem_eq, pubkeyKindStem_eq, List.cons.injEq, and_iff_right rfl,
    ← bigEndian_code_inj]
  refine ⟨fun h => List.append_inj h ?_, fun h => by rw [h.1, h.2]⟩
  rw [p.head8_length, p'.head8_length]

theorem length_pubkeyKindStem (p : PublicKey) (k : Kind) : (pubkeyKindStem p k).length = 11 := by
  simp [pubkeyKindStem_eq, p.head8_length, Bytes.length_bigEndian]

/-! ### The serial and the time in a key -/

theorem uint64_lt (n : UInt64) : n.toNat < 256 ^ 8 := n.toNat_lt

@[simp] theorem serial?_append (p : Bytes) (s : Serial) :
    serial? (p ++ Bytes.bigEndian 8 s.toNat) = some s := by
  have hlen : (p ++ Bytes.bigEndian 8 s.toNat).length = p.length + 8 := by
    rw [List.length_append, Bytes.length_bigEndian]
  rw [serial?, if_pos (by omega), hlen, Nat.add_sub_cancel, List.drop_left,
    Bytes.toNatBE_bigEndian (uint64_lt s), UInt64.ofNat_toNat]

@[simp] theorem serial?_event (s : Serial) : serial? (event s) = some s :=
  serial?_append [Layout.event.byte] s

@[simp] theorem serial?_counter (i : EventId) (s : Serial) : serial? (counter i s) = some s :=
  serial?_append (Layout.counter.byte :: i.head8) s

@[simp] theorem serial?_id (i : EventId) (s : Serial) : serial? (Key.id i s) = some s := by
  rw [id_eq, serial?_append]

@[simp] theorem serial?_timed (stem : Bytes) (t : Int64) (s : Serial) :
    serial? (timed stem t s) = some s := by
  rw [timed_eq, ← List.append_assoc, serial?_append]

@[simp] theorem timestamp?_timed (stem : Bytes) (t : Int64) (s : Serial) :
    timestamp? (timed stem t s) = some (clampTime t) := by
  have hlen : (timed stem t s).length = stem.length + 16 := by
    simp [timed_eq, Bytes.length_bigEndian]
  have htake : ((timed stem t s).drop stem.length).take 8 =
      Bytes.bigEndian 8 (clampTime t).toNat := by
    rw [timed_eq, List.drop_left, List.take_left' (Bytes.length_bigEndian _ _)]
  rw [timestamp?, if_pos (by omega), hlen, Nat.add_sub_cancel, htake,
    Bytes.toNatBE_bigEndian (uint64_lt _), UInt64.ofNat_toNat]

/-- The key of a counter holds the beginning of an identifier. -/
theorem counter_inj {i i' : EventId} {s : Serial} :
    counter i s = counter i' s ↔ i.head8 = i'.head8 := by
  rw [counter_eq, counter_eq, List.cons.injEq, List.append_left_inj]
  exact and_iff_right rfl

/-! ### The layout of a key -/

theorem layout?_cons (l : Layout) (r : Bytes) : layout? (l.byte :: r) = some l :=
  l.ofByte?_byte

@[simp] theorem layout?_event (s : Serial) : layout? (event s) = some .event :=
  layout?_cons .event _

@[simp] theorem layout?_counter (i : EventId) (s : Serial) :
    layout? (counter i s) = some .counter :=
  layout?_cons .counter _

@[simp] theorem layout?_id (i : EventId) (s : Serial) : layout? (Key.id i s) = some .id := by
  rw [id_eq, idStem_eq]
  exact layout?_cons .id _

theorem layout?_timed {stem : Bytes} {l : Layout} (h : layout? stem = some l) (t : Int64)
    (s : Serial) : layout? (timed stem t s) = some l := by
  cases stem with
  | nil => cases h
  | cons b r => exact h

theorem layout?_stem (v : TagValue) : layout? v.stem = some v.layout := by
  cases v <;> exact layout?_cons _ _

theorem isTag_layout (v : TagValue) : v.layout.isTag = true := by
  cases v <;> rfl

/-! ### The keys of an event -/

section Index
variable {i : EventId} {p : PublicKey} {k : Kind} {t : Int64} {e : Event} {s : Serial}
  {key : Bytes}

theorem mem_untagged : key ∈ untagged i p k t s ↔
    key = Key.id i s ∨ key = timed (pubkeyStem p) t s ∨ key = timed (kindStem k) t s ∨
      key = timed (pubkeyKindStem p k) t s ∨ key = timed createdAtStem t s := by
  simp [untagged]

theorem mem_tagged : key ∈ tagged e s ↔
    ∃ v ∈ indexedTagValues e.tags, key = timed (TagValue.classify v).stem e.createdAt s := by
  simp [tagged, eq_comm]

theorem mem_index : key ∈ index e s ↔
    key ∈ untagged e.id e.pubkey e.kind e.createdAt s ∨ key ∈ tagged e s :=
  List.mem_append

theorem serial?_of_mem_untagged (h : key ∈ untagged i p k t s) : serial? key = some s := by
  rcases mem_untagged.mp h with rfl | rfl | rfl | rfl | rfl <;> simp

theorem serial?_of_mem_tagged (h : key ∈ tagged e s) : serial? key = some s := by
  obtain ⟨v, -, rfl⟩ := mem_tagged.mp h
  exact serial?_timed _ _ _

theorem serial?_of_mem_index (h : key ∈ index e s) : serial? key = some s :=
  (mem_index.mp h).elim serial?_of_mem_untagged serial?_of_mem_tagged

theorem layout?_of_mem_untagged (h : key ∈ untagged i p k t s) :
    ∃ l, layout? key = some l ∧ l.isSecondary = true ∧ l.isTag = false := by
  rcases mem_untagged.mp h with rfl | rfl | rfl | rfl | rfl
  · exact ⟨.id, layout?_id _ _, rfl, rfl⟩
  · exact ⟨.pubkey, layout?_timed (pubkeyStem_eq p ▸ layout?_cons _ _) _ _, rfl, rfl⟩
  · exact ⟨.kind, layout?_timed (layout?_cons _ _) _ _, rfl, rfl⟩
  · exact ⟨.pubkeyKind, layout?_timed (layout?_cons _ _) _ _, rfl, rfl⟩
  · exact ⟨.createdAt, layout?_timed (layout?_cons _ _) _ _, rfl, rfl⟩

theorem layout?_of_mem_tagged (h : key ∈ tagged e s) :
    ∃ l, layout? key = some l ∧ l.isTag = true := by
  obtain ⟨v, -, rfl⟩ := mem_tagged.mp h
  exact ⟨_, layout?_timed (layout?_stem _) _ _, isTag_layout _⟩

theorem layout?_of_mem_index (h : key ∈ index e s) :
    ∃ l, layout? key = some l ∧ l.isSecondary = true := by
  rcases mem_index.mp h with h | h
  · obtain ⟨l, hl, hsec, -⟩ := layout?_of_mem_untagged h
    exact ⟨l, hl, hsec⟩
  · obtain ⟨l, hl, htag⟩ := layout?_of_mem_tagged h
    exact ⟨l, hl, Layout.isSecondary_of_isTag htag⟩

/-- What the timed keys of an event begin with in an index that needs no tags. -/
def stem? (e : Event) : Layout → Option Bytes
  | .createdAt => some createdAtStem
  | .kind => some (kindStem e.kind)
  | .pubkey => some (pubkeyStem e.pubkey)
  | .pubkeyKind => some (pubkeyKindStem e.pubkey e.kind)
  | .event | .id | .tag | .tag32 | .tagAddress | .counter => none

theorem layout?_of_stem? {l : Layout} {stem : Bytes} (hstem : stem? e l = some stem) :
    layout? stem = some l := by
  cases l <;> cases hstem
  · exact layout?_cons .createdAt _
  · exact layout?_cons .kind _
  · exact pubkeyStem_eq e.pubkey ▸ layout?_cons .pubkey _
  · exact layout?_cons .pubkeyKind _

theorem isTag_of_stem? {l : Layout} {stem : Bytes} (hstem : stem? e l = some stem) :
    l.isTag = false := by
  cases l <;> first | rfl | cases hstem

/-- The index keys of an event, by layout. -/
theorem mem_index_iff : key ∈ index e s ↔ key = Key.id e.id s ∨
    (∃ l stem, stem? e l = some stem ∧ key = timed stem e.createdAt s) ∨ key ∈ tagged e s := by
  rw [mem_index, mem_untagged]
  constructor
  · rintro ((rfl | rfl | rfl | rfl | rfl) | h)
    · exact .inl rfl
    · exact .inr (.inl ⟨.pubkey, _, rfl, rfl⟩)
    · exact .inr (.inl ⟨.kind, _, rfl, rfl⟩)
    · exact .inr (.inl ⟨.pubkeyKind, _, rfl, rfl⟩)
    · exact .inr (.inl ⟨.createdAt, _, rfl, rfl⟩)
    · exact .inr (.inr h)
  · rintro (rfl | ⟨l, stem, hstem, rfl⟩ | h)
    · exact .inl (.inl rfl)
    · cases l <;> cases hstem <;> simp
    · exact .inr h

/-- An event has at most one key in an index that needs no tags. -/
theorem eq_timed_of_mem_index {l : Layout} {stem : Bytes} (h : key ∈ index e s)
    (hl : layout? key = some l) (hstem : stem? e l = some stem) :
    key = timed stem e.createdAt s := by
  rcases mem_index_iff.mp h with rfl | ⟨l', stem', hstem', rfl⟩ | h
  · rw [layout?_id] at hl
    cases hl
    cases hstem
  · rw [layout?_timed (layout?_of_stem? hstem')] at hl
    cases hl
    rw [Option.some.inj (hstem.symm.trans hstem')]
  · obtain ⟨l', hl', htag⟩ := layout?_of_mem_tagged h
    rw [hl] at hl'
    cases hl'
    rw [isTag_of_stem? hstem] at htag
    cases htag

/-- An event has one key in the index of identifiers. -/
theorem eq_id_of_mem_index (h : key ∈ index e s) (hl : layout? key = some .id) :
    key = Key.id e.id s := by
  rcases mem_index_iff.mp h with rfl | ⟨l, stem, hstem, rfl⟩ | h
  · rfl
  · rw [layout?_timed (layout?_of_stem? hstem)] at hl
    cases hl
    cases hstem
  · obtain ⟨l, hl', htag⟩ := layout?_of_mem_tagged h
    rw [hl] at hl'
    cases hl'
    cases htag

theorem event_ne_counter (s s' : Serial) (i : EventId) : event s ≠ counter i s' := by
  intro h
  have hl := congrArg layout? h
  rw [layout?_event, layout?_counter] at hl
  cases hl

theorem event_not_mem_index (s s' : Serial) (e : Event) : event s ∉ index e s' := by
  intro h
  obtain ⟨l, hl, hsec⟩ := layout?_of_mem_index h
  rw [layout?_event] at hl
  cases hl
  cases hsec

theorem counter_not_mem_index (i : EventId) (s s' : Serial) (e : Event) :
    counter i s ∉ index e s' := by
  intro h
  obtain ⟨l, hl, hsec⟩ := layout?_of_mem_index h
  rw [layout?_counter] at hl
  cases hl
  cases hsec

/-- The keys of tag values are none of the others. -/
theorem not_mem_untagged_of_mem_tagged (h : key ∈ tagged e s) (s' : Serial) :
    key ∉ untagged i p k t s' := by
  intro h'
  obtain ⟨l, hl, htag⟩ := layout?_of_mem_tagged h
  obtain ⟨l', hl', -, hno⟩ := layout?_of_mem_untagged h'
  obtain rfl := Option.some.inj (hl.symm.trans hl')
  rw [htag] at hno
  cases hno

/-- The keys that need no tags are built from the first eight bytes of the identifier and of
the author, the kind and the time as keys hold it. -/
theorem untagged_congr {p' : PublicKey} {t' : Int64} (hp : p.head8 = p'.head8)
    (ht : clampTime t = clampTime t') : untagged i p k t s = untagged i p' k t' s := by
  simp only [untagged, timed_eq, pubkeyStem_eq, pubkeyKindStem_eq, hp, ht]

end Index
end Key

/-! ### Ranges of the key space -/

namespace Keyspace
variable {k : Keyspace} {key v : Bytes}

theorem between_bytes_iff {lower upper : UInt8} :
    ((compare [lower] key).isLE ∧ compare key [upper] = .lt) ↔
      ∃ b r, key = b :: r ∧ lower ≤ b ∧ b < upper := by
  cases key with
  | nil => simp
  | cons b r =>
    have hlow : (compare [lower] (b :: r)).isLE ↔ lower ≤ b := by
      rw [List.compare_cons_cons, Bytes.compare_uint8, UInt8.le_iff_toNat_le]
      rcases Nat.lt_trichotomy lower.toNat b.toNat with h | h | h
      · simp [Nat.compare_eq_lt.mpr h, Nat.le_of_lt h]
      · simp [h, List.isLE_compare_nil_left]
      · simp [Nat.compare_eq_gt.mpr h, h]
    have hup : compare (b :: r) [upper] = .lt ↔ b < upper := by
      rw [List.compare_cons_cons, Bytes.compare_uint8, UInt8.lt_iff_toNat_lt]
      rcases Nat.lt_trichotomy b.toNat upper.toNat with h | h | h
      · simp [Nat.compare_eq_lt.mpr h, h]
      · simp only [h, Std.ReflOrd.compare_self, Ordering.eq_then, Nat.lt_irrefl, iff_false]
        cases r <;> simp
      · simp [Nat.compare_eq_gt.mpr h, Nat.le_of_lt h]
    rw [hlow, hup]
    simp

/-- The keys of a layout are those that begin with its byte. -/
theorem mem_ofLayout {l : Layout} :
    (key, v) ∈ k.ofLayout l ↔ k.get? key = some v ∧ Key.layout? key = some l := by
  rw [ofLayout, SortedMap.mem_range, Layout.lowerBound, Layout.upperBound, between_bytes_iff]
  refine and_congr_right fun _ => ⟨?_, fun h => ?_⟩
  · rintro ⟨b, r, rfl, hle, hlt⟩
    obtain rfl : b = l.byte := by
      rw [UInt8.le_iff_toNat_le] at hle
      rw [UInt8.lt_iff_toNat_lt] at hlt
      have hnext : (l.byte + 1).toNat = l.byte.toNat + 1 := by cases l <;> rfl
      exact UInt8.toNat_inj.mp (by omega)
    exact Key.layout?_cons l r
  · cases key with
    | nil => cases h
    | cons b r =>
      refine ⟨b, r, rfl, ?_⟩
      rw [Layout.ofByte?_eq_some_iff.mp h]
      cases l <;> decide

/-- The secondary keys are those of the secondary layouts. -/
theorem mem_secondary :
    (key, v) ∈ k.secondary ↔
      k.get? key = some v ∧ ∃ l, Key.layout? key = some l ∧ l.isSecondary = true := by
  rw [secondary, SortedMap.mem_range, Layout.lowerBound, Layout.lowerBound, between_bytes_iff]
  refine and_congr_right fun _ => ⟨?_, ?_⟩
  · rintro ⟨b, r, rfl, hrange⟩
    obtain ⟨l, rfl, hl⟩ := Layout.exists_secondary_iff.mpr hrange
    exact ⟨l, Key.layout?_cons l r, hl⟩
  · rintro ⟨l, hl, hsec⟩
    cases key with
    | nil => cases hl
    | cons b r =>
      exact ⟨b, r, rfl, Layout.exists_secondary_iff.mp
        ⟨l, Layout.ofByte?_eq_some_iff.mp hl, hsec⟩⟩

end Keyspace
end EventArchive
