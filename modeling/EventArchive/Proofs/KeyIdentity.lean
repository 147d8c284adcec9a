import EventArchive.Proofs.ScanRange
import EventArchive.Proofs.TagSpelling

/-! # What an index key identifies

A tag value has any length and stands in its key right before the time, so a key of one
value may look like a piece of the key of another.  Since every key ends in fields of
fixed width and begins with the byte of its layout, it is nevertheless read in one way
only (`KeyParts.bytes_inj`): an index key belongs to one serial, and says one thing
about the event.  What it says of a tag value is the value up to its spelling.
-/
namespace EventArchive

theorem TagValue.stem_eq_iff {v w : TagValue} : v.stem = w.stem ↔ v = w := by
  refine ⟨fun h => ?_, fun h => h ▸ rfl⟩
  rw [← KeyHead.stem_ofValue, ← KeyHead.stem_ofValue] at h
  have hhead := KeyHead.stem_inj h
  cases v <;> cases w <;> cases hhead <;> rfl

namespace KeyParts
variable {p q : KeyParts}

/-- **A key is read in one way only.** -/
theorem bytes_inj (h : p.bytes = q.bytes) : p = q := by
  have hlayout : p.head.layout = q.head.layout := by
    have heq := p.layout?_bytes
    rw [h, q.layout?_bytes] at heq
    exact (Option.some.inj heq).symm
  have hparts : p.head = q.head ∧ p.time? = q.time? ∧ p.serial = q.serial := by
    have htimed : p.time?.isSome = q.time?.isSome := by
      rw [p.isSome_time?, q.isSome_time?, hlayout]
    cases hp : p.time? <;> cases hq : q.time? <;> rw [hp, hq] at htimed
    case some.some t t' =>
      rw [bytes_of_some hp, bytes_of_some hq] at h
      obtain ⟨hstem, rfl, hserial⟩ := Key.stamped_inj h
      exact ⟨KeyHead.stem_inj hstem, rfl, hserial⟩
    case none.none =>
      rw [bytes_of_none hp, bytes_of_none hq] at h
      obtain ⟨hstem, hserial⟩ :=
        List.append_inj' h ((Bytes.length_bigEndian 8 _).trans (Bytes.length_bigEndian 8 _).symm)
      exact ⟨KeyHead.stem_inj hstem, rfl, UInt64.toNat_inj.mp
        (Bytes.bigEndian_inj p.serial.toNat_lt q.serial.toNat_lt hserial)⟩
    all_goals cases htimed
  cases p
  cases q
  obtain ⟨rfl, rfl, rfl⟩ := hparts
  rfl

/-- Index keys of two events are the same only if they say the same of the same serial. -/
theorem eq_of_mem_ofEvent {e e' : Event} {ser ser' : Serial} (hp : p ∈ ofEvent e ser)
    (hq : q ∈ ofEvent e' ser') (h : p.bytes = q.bytes) : ser = ser' ∧ p = q := by
  have heq := bytes_inj h
  exact ⟨by rw [← serial_of_mem_ofEvent hp, heq, serial_of_mem_ofEvent hq], heq⟩

end KeyParts

namespace Key

/-- **Keys identify what they index.**  The index keys of an event consist of a layout, fields, a
time unless the layout holds none, and a serial.  A key of one event and serial is a key of another
only if the serials, the layouts, the fields and the times are the same, and no key of a record or
of a counter is an index key.  From a key that ends in a time, the serial and the time come back, a
negative time as zero.  Two tag values have the same keys if and only if they are the same text, or
two keys that agree in their first sixteen digits up to case, or two addresses of the same kind
and identifier with such keys. -/
theorem index_identifies :
    (∀ e ser, (KeyParts.ofEvent e ser).map KeyParts.bytes = index e ser) ∧
    (∀ e e' ser ser', ∀ p ∈ KeyParts.ofEvent e ser, ∀ q ∈ KeyParts.ofEvent e' ser',
      p.bytes = q.bytes → ser = ser' ∧ p.head.layout = q.head.layout ∧
        p.head.fields = q.head.fields ∧ p.time? = q.time?) ∧
    (∀ e i ser ser', event ser ∉ index e ser' ∧ counter i ser ∉ index e ser') ∧
    (∀ stem t ser, serial? (timed stem t ser) = some ser ∧
      timestamp? (timed stem t ser) = some (clampTime t)) ∧
    ∀ v w : String, (TagValue.classify v).stem = (TagValue.classify w).stem ↔
      v = w ∨ TagValue.SameKeyHead v.toList w.toList ∨
        TagValue.SameAddress v.toList w.toList := by
  refine ⟨KeyParts.map_bytes_ofEvent, fun e e' ser ser' p hp q hq h => ?_,
    fun e i ser ser' => ⟨event_not_mem_index ser ser' e, counter_not_mem_index i ser ser' e⟩,
    fun stem t ser => ⟨serial?_timed stem t ser, timestamp?_timed stem t ser⟩,
    fun v w => TagValue.stem_eq_iff.trans TagValue.classify_eq_iff⟩
  obtain ⟨hser, rfl⟩ := KeyParts.eq_of_mem_ofEvent hp hq h
  exact ⟨hser, rfl, rfl, rfl⟩

end Key
end EventArchive
