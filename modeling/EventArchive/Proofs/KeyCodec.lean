import EventArchive.Key.Field
import EventArchive.Proofs.ByteOrder
import EventArchive.Proofs.KeyShape
import EventArchive.Proofs.StoredRoundTrip

/-! # Reading and writing keys

A key is the bytes of its fields one after the other.  Reading it needs the types of
the fields alone: those of fixed width take what they take, and one of any width has
what the others leave.  A field is read from bytes exactly if they are what is written
for its value (`FieldType.read_eq_ok_iff`), and so it is with a whole key, wherever the
field of any width stands (`Key.read_eq_ok_iff`).

A key that is not read is too short or too long, or else one of its fields names a
layout and the byte there is of another one (`Key.Misread`).  Reading is defined by
cutting bytes off the front of what is left.  `Key.readInside?` reads at positions and
gives up where a position is outside of the key; it never does.
-/
namespace EventArchive

/-! ### Fields -/

namespace FieldType

/-- The numbers of a type take `width` bytes. -/
structure Fits {α : Type} (width : Nat) (ofNat : Nat → α) (toNat : α → Nat) : Prop where
  ofNat_toNat : ∀ v, ofNat (toNat v) = v
  toNat_ofNat : ∀ n < 256 ^ width, toNat (ofNat n) = n
  toNat_lt : ∀ v, toNat v < 256 ^ width

theorem fits_uint16 : Fits 2 UInt16.ofNat UInt16.toNat where
  ofNat_toNat _ := UInt16.ofNat_toNat
  toNat_ofNat _ h := UInt16.toNat_ofNat_of_lt' h
  toNat_lt := UInt16.toNat_lt

theorem fits_uint32 : Fits 4 UInt32.ofNat UInt32.toNat where
  ofNat_toNat _ := UInt32.ofNat_toNat
  toNat_ofNat _ h := UInt32.toNat_ofNat_of_lt' h
  toNat_lt := UInt32.toNat_lt

theorem fits_uint64 : Fits 8 UInt64.ofNat UInt64.toNat where
  ofNat_toNat _ := UInt64.ofNat_toNat
  toNat_ofNat _ h := UInt64.toNat_ofNat_of_lt' h
  toNat_lt := UInt64.toNat_lt

/-- A number is read from the bytes that are written for it. -/
theorem Fits.readNumber_eq_ok_iff {α : Type} {width : Nat} {ofNat : Nat → α} {toNat : α → Nat}
    (h : Fits width ofNat toNat) {bytes : Bytes} {v : α} :
    (readNumber width bytes).map ofNat = .ok v ↔ Bytes.bigEndian width (toNat v) = bytes := by
  rw [readNumber]
  constructor
  · intro hread
    split_ifs at hread with hlen
    · obtain rfl := Except.ok.inj hread
      rw [h.toNat_ofNat _ (hlen ▸ Bytes.toNatBE_lt bytes), Bytes.bigEndian_toNatBE hlen]
    · cases hread
  · rintro rfl
    rw [if_pos (Bytes.length_bigEndian _ _), Bytes.toNatBE_bigEndian (h.toNat_lt v), Except.map,
      h.ofNat_toNat]

variable {t : FieldType} {bytes : Bytes} {e : KeyError}

/-- What is reported of the first byte of another layout than the one expected. -/
def misread (expected : Layout) (b : UInt8) : KeyError :=
  match Layout.ofByte? b with
  | some found => .wrongLayout expected found
  | none => .unknownLayout b

theorem read_layout (expected : Layout) (b : UInt8) : (layout expected).read [b] =
    if b = expected.byte then .ok () else .error (misread expected b) := by
  cases hfound : Layout.ofByte? b with
  | none =>
    have hne : b ≠ expected.byte := by
      rintro rfl
      cases hfound.symm.trans expected.ofByte?_byte
    rw [read, hfound, if_neg hne, misread, hfound]
  | some found =>
    obtain rfl := Layout.ofByte?_eq_some_iff.mp hfound
    rw [read, hfound, misread, hfound]
    by_cases heq : found = expected
    · rw [heq, if_pos rfl]
      exact if_pos rfl
    · rw [if_neg fun h => heq (Layout.byte_inj h)]
      exact if_neg heq

/-- **A field is read from the bytes that are written for its value**, and from no others. -/
theorem read_eq_ok_iff {v : t.Value} : t.read bytes = .ok v ↔ t.write v = bytes := by
  cases t with
  | layout expected =>
    constructor
    · intro hread
      match bytes with
      | [] => cases hread
      | [b] =>
        rw [read_layout] at hread
        split_ifs at hread with heq
        rw [heq]
        rfl
      | _ :: _ :: _ => cases hread
    · rintro rfl
      exact (read_layout expected expected.byte).trans (if_pos rfl)
  | head8 =>
    constructor
    · intro hread
      rw [read] at hread
      split_ifs at hread
      rw [← Except.ok.inj hread]
      rfl
    · rintro rfl
      exact dif_pos v.2
  | kind => exact fits_uint16.readNumber_eq_ok_iff
  | timestamp => exact fits_uint64.readNumber_eq_ok_iff
  | serial => exact fits_uint64.readNumber_eq_ok_iff
  | size => exact fits_uint32.readNumber_eq_ok_iff
  | rest => exact ⟨fun hread => (Except.ok.inj hread).symm, fun h => congrArg Except.ok h.symm⟩

/-- A field of as many bytes as it takes is misread only for the byte of a layout. -/
theorem exists_misread (hlen : ∀ width ∈ t.width?, bytes.length = width)
    (hread : t.read bytes = .error e) :
    ∃ expected b, t = .layout expected ∧ bytes = [b] ∧ b ≠ expected.byte ∧
      e = misread expected b := by
  have number : ∀ {α : Type} {width : Nat} {ofNat : Nat → α}, bytes.length = width →
      (readNumber width bytes).map ofNat ≠ .error e := by
    intro α width ofNat hwidth h
    rw [readNumber, if_pos hwidth] at h
    cases h
  cases t with
  | layout expected =>
    obtain ⟨b, rfl⟩ := List.length_eq_one_iff.mp (hlen 1 rfl)
    rw [read_layout] at hread
    split_ifs at hread with heq
    exact ⟨expected, b, rfl, rfl, heq, (Except.error.inj hread).symm⟩
  | head8 =>
    rw [read, dif_pos (hlen 8 rfl)] at hread
    cases hread
  | kind => exact absurd hread (number (hlen 2 rfl))
  | timestamp => exact absurd hread (number (hlen 8 rfl))
  | serial => exact absurd hread (number (hlen 8 rfl))
  | size => exact absurd hread (number (hlen 4 rfl))
  | rest => cases hread

theorem length_write {width : Nat} (hwidth : t.width? = some width) (v : t.Value) :
    (t.write v).length = width := by
  cases t <;> cases hwidth
  case head8 => exact v.2
  all_goals rfl

/-- Bytes that a field takes if one of any width takes `spare`. -/
def span (spare : Nat) (t : FieldType) : Nat := t.width?.getD spare

end FieldType

/-! ### Sequences of fields -/

namespace Key
variable {types : List FieldType} {fields : List Field} {bytes key : Bytes} {spare : Nat}
  {e : KeyError}

theorem write_cons (f : Field) (fields : List Field) :
    write (f :: fields) = f.write ++ write fields := rfl

theorem fixedWidth_cons (t : FieldType) (types : List FieldType) :
    fixedWidth (t :: types) = t.width?.getD 0 + fixedWidth types := by
  cases h : t.width? <;> simp [fixedWidth, h]

theorem arbitraryCount_cons (t : FieldType) (types : List FieldType) :
    arbitraryCount (t :: types) = t.width?.isNone.toNat + arbitraryCount types := by
  cases h : t.width? <;> simp [arbitraryCount, h, Nat.add_comm]

/-- What the fields take together. -/
theorem sum_span (spare : Nat) (types : List FieldType) :
    (types.map (FieldType.span spare)).sum = fixedWidth types + arbitraryCount types * spare := by
  induction types with
  | nil => simp [fixedWidth, arbitraryCount]
  | cons t types ih =>
    rw [List.map_cons, List.sum_cons, ih, fixedWidth_cons, arbitraryCount_cons, FieldType.span]
    cases t.width? with
    | none => simp [Nat.add_mul, Nat.add_left_comm]
    | some width => simp [Nat.add_assoc]

/-- What written fields take: those of any width have their own. -/
theorem length_write (fields : List Field) : (write fields).length =
    fixedWidth (fields.map Field.type) +
      ((fields.filter (·.type.width?.isNone)).map (·.write.length)).sum := by
  induction fields with
  | nil => rfl
  | cons f fields ih =>
    rw [write_cons, List.length_append, ih, List.map_cons, fixedWidth_cons]
    cases hwidth : f.type.width? with
    | none => simp [hwidth, Nat.add_left_comm]
    | some width =>
      simp [hwidth, Field.write, FieldType.length_write hwidth, Nat.add_assoc]

/-- Where one field at most is of any width, it takes what the others leave. -/
theorem length_write_eq_span (hcount : arbitraryCount (fields.map Field.type) ≤ 1) :
    ∀ f ∈ fields, f.write.length =
      f.type.span ((write fields).length - fixedWidth (fields.map Field.type)) := by
  intro f hf
  rw [FieldType.span]
  cases hwidth : f.type.width? with
  | some width => exact FieldType.length_write hwidth f.value
  | none =>
    have hmem : f ∈ fields.filter (·.type.width?.isNone) :=
      List.mem_filter.mpr ⟨hf, by rw [hwidth]; rfl⟩
    have hlen : (fields.filter (·.type.width?.isNone)).length ≤ 1 := by
      rwa [arbitraryCount, List.filter_map, List.length_map] at hcount
    obtain ⟨g, hg⟩ := List.length_eq_one_iff.mp
      (Nat.le_antisymm hlen (List.length_pos_of_mem hmem))
    rw [hg, List.mem_singleton] at hmem
    rw [length_write, hg, hmem]
    simp

/-! ### Reading -/

/-- Written fields are read if the bytes are cut where each of them ends. -/
theorem readFields_write (hspans : ∀ f ∈ fields, f.write.length = f.type.span spare) :
    readFields spare (fields.map Field.type) (write fields) = .ok fields := by
  induction fields with
  | nil => rfl
  | cons f fields ih =>
    have hfirst : f.write.length = f.type.span spare := hspans f List.mem_cons_self
    have hrest := ih fun g hg => hspans g (List.mem_cons_of_mem _ hg)
    have hvalue : f.type.read f.write = .ok f.value := FieldType.read_eq_ok_iff.mpr rfl
    rw [FieldType.span] at hfirst
    rw [List.map_cons, write_cons, readFields, List.take_left' hfirst, List.drop_left' hfirst,
      hvalue, hrest]
    rfl

/-- **A key is misread** at a field that names a layout: the fields before it are read, and the
byte of the field is of another layout. -/
def Misread (types : List FieldType) (key : Bytes) (e : KeyError) : Prop :=
  ∃ (fields : List Field) (expected : Layout) (post : List FieldType) (b : UInt8) (after : Bytes),
    types = fields.map Field.type ++ .layout expected :: post ∧ key = write fields ++ b :: after ∧
      b ≠ expected.byte ∧ e = FieldType.misread expected b

theorem Misread.cons {t : FieldType} {v : t.Value} {first : Bytes} (h : Misread types bytes e)
    (hfirst : t.write v = first) : Misread (t :: types) (first ++ bytes) e := by
  obtain ⟨fields, expected, post, b, after, rfl, rfl, hne, he⟩ := h
  refine ⟨⟨t, v⟩ :: fields, expected, post, b, after, rfl, ?_, hne, he⟩
  rw [write_cons, List.append_assoc, ← hfirst]
  rfl

theorem Misread.not_length (h : Misread types key e) :
    (∀ fixed actual, e ≠ .truncated fixed actual) ∧ ∀ count, e ≠ .trailing count := by
  obtain ⟨_, expected, _, b, _, -, -, -, rfl⟩ := h
  rw [FieldType.misread]
  constructor <;> intros <;> split <;> nofun

/-- Bytes of the right length are read as fields for which they are written, or misread. -/
theorem readFields_cases (hlen : bytes.length = (types.map (FieldType.span spare)).sum) :
    (∃ fields, readFields spare types bytes = .ok fields ∧ fields.map Field.type = types ∧
        write fields = bytes) ∨
      ∃ e, readFields spare types bytes = .error e ∧ Misread types bytes e := by
  induction types generalizing bytes with
  | nil =>
    obtain rfl := List.length_eq_zero_iff.mp hlen
    exact .inl ⟨[], rfl, rfl, rfl⟩
  | cons t types ih =>
    rw [List.map_cons, List.sum_cons] at hlen
    obtain ⟨first, rest, rfl, hfirst⟩ : ∃ first rest, bytes = first ++ rest ∧
        first.length = t.span spare :=
      ⟨bytes.take (t.span spare), bytes.drop (t.span spare), (List.take_append_drop _ _).symm,
        by rw [List.length_take]; omega⟩
    have hrest : rest.length = (types.map (FieldType.span spare)).sum := by
      rw [List.length_append] at hlen
      omega
    have hcut := hfirst
    rw [FieldType.span] at hcut
    rw [readFields, List.take_left' hcut, List.drop_left' hcut]
    cases hvalue : t.read first with
    | error e =>
      obtain ⟨expected, b, rfl, rfl, hne, he⟩ :=
        FieldType.exists_misread (fun width hwidth => by rw [hfirst, FieldType.span, hwidth]; rfl)
          hvalue
      exact .inr ⟨e, rfl, [], expected, types, b, rest, rfl, rfl, hne, he⟩
    | ok v =>
      have hwrite : t.write v = first := FieldType.read_eq_ok_iff.mp hvalue
      rcases ih hrest with ⟨fields, hread, htypes, hbytes⟩ | ⟨e, hread, hmisread⟩
      · rw [hread]
        refine .inl ⟨⟨t, v⟩ :: fields, rfl, by rw [List.map_cons, htypes], ?_⟩
        rw [write_cons, hbytes, ← hwrite]
        rfl
      · rw [hread]
        exact .inr ⟨e, rfl, hmisread.cons hwrite⟩

/-- What fields of which one at most is of any width leave over is the bytes of that one. -/
theorem length_eq_sum_span (hcount : arbitraryCount types ≤ 1)
    (hfixed : fixedWidth types ≤ key.length)
    (htrailing : ¬ (arbitraryCount types = 0 ∧ fixedWidth types < key.length)) :
    key.length = (types.map (FieldType.span (key.length - fixedWidth types))).sum := by
  rw [sum_span]
  rcases Nat.le_one_iff_eq_zero_or_eq_one.mp hcount with hzero | hone
  · rw [hzero, Nat.zero_mul]
    omega
  · rw [hone, Nat.one_mul]
    omega

/-- **What reading comes to**: the key is too short or too long, or its fields are read, or one of
them is misread. -/
theorem read_cases (hcount : arbitraryCount types ≤ 1) (key : Bytes) :
    (key.length < fixedWidth types ∧
        read types key = .error (.truncated (fixedWidth types) key.length)) ∨
      ((arbitraryCount types = 0 ∧ fixedWidth types < key.length) ∧
        read types key = .error (.trailing (key.length - fixedWidth types))) ∨
      (fixedWidth types ≤ key.length ∧
        ¬ (arbitraryCount types = 0 ∧ fixedWidth types < key.length)) ∧
        ((∃ fields, read types key = .ok fields ∧ fields.map Field.type = types ∧
          write fields = key) ∨ ∃ e, read types key = .error e ∧ Misread types key e) := by
  rw [read, if_neg (Nat.not_lt.mpr hcount)]
  split_ifs with hshort hlong
  · exact .inl ⟨hshort, rfl⟩
  · exact .inr (.inl ⟨hlong, rfl⟩)
  · have hfixed := Nat.not_lt.mp hshort
    exact .inr (.inr ⟨⟨hfixed, hlong⟩, readFields_cases (length_eq_sum_span hcount hfixed hlong)⟩)

theorem read_write (hcount : arbitraryCount (fields.map Field.type) ≤ 1) :
    read (fields.map Field.type) (write fields) = .ok fields := by
  have hlen := length_write fields
  have hlong : ¬ (arbitraryCount (fields.map Field.type) = 0 ∧
      fixedWidth (fields.map Field.type) < (write fields).length) := by
    rintro ⟨hzero, hlt⟩
    rw [arbitraryCount, List.filter_map, List.length_map, List.length_eq_zero_iff] at hzero
    have hnone : fields.filter (·.type.width?.isNone) = [] := hzero
    rw [hnone, List.map_nil, List.sum_nil] at hlen
    omega
  rw [read, if_neg (Nat.not_lt.mpr hcount), if_neg (by omega), if_neg hlong]
  exact readFields_write (length_write_eq_span hcount)

/-- **A key is read as the fields for which it is written**, and as no others. -/
theorem read_eq_ok_iff (hcount : arbitraryCount types ≤ 1) :
    read types key = .ok fields ↔ fields.map Field.type = types ∧ write fields = key := by
  constructor
  · intro hok
    rcases read_cases hcount key with ⟨-, hread⟩ | ⟨-, hread⟩ |
      ⟨-, ⟨fields', hread, hfields⟩ | ⟨e, hread, -⟩⟩ <;> rw [hread] at hok
    · cases hok
    · cases hok
    · cases hok
      exact hfields
    · cases hok
  · rintro ⟨rfl, rfl⟩
    exact read_write hcount

theorem read_eq_truncated_iff (hcount : arbitraryCount types ≤ 1) {fixed actual : Nat} :
    read types key = .error (.truncated fixed actual) ↔
      key.length < fixedWidth types ∧ fixed = fixedWidth types ∧ actual = key.length := by
  rcases read_cases hcount key with ⟨hshort, hread⟩ | ⟨⟨-, hlong⟩, hread⟩ |
    ⟨⟨hfixed, -⟩, ⟨fields, hread, -⟩ | ⟨e, hread, hmisread⟩⟩ <;> rw [hread]
  · rw [Except.error.injEq, KeyError.truncated.injEq, and_iff_right hshort,
      eq_comm (a := fixed), eq_comm (a := actual)]
  · exact iff_of_false nofun fun h => Nat.lt_asymm hlong h.1
  · exact iff_of_false nofun fun h => Nat.not_lt.mpr hfixed h.1
  · exact iff_of_false (fun h => hmisread.not_length.1 _ _ (Except.error.inj h)) fun h =>
      Nat.not_lt.mpr hfixed h.1

theorem read_eq_trailing_iff (hcount : arbitraryCount types ≤ 1) {count : Nat} :
    read types key = .error (.trailing count) ↔ arbitraryCount types = 0 ∧
      fixedWidth types < key.length ∧ count = key.length - fixedWidth types := by
  rw [← and_assoc]
  rcases read_cases hcount key with ⟨hshort, hread⟩ | ⟨hlong, hread⟩ |
    ⟨⟨-, hfits⟩, ⟨fields, hread, -⟩ | ⟨e, hread, hmisread⟩⟩ <;> rw [hread]
  · exact iff_of_false nofun fun h => Nat.lt_asymm hshort h.1.2
  · rw [Except.error.injEq, KeyError.trailing.injEq, and_iff_right hlong, eq_comm]
  · exact iff_of_false nofun fun h => hfits h.1
  · exact iff_of_false (fun h => hmisread.not_length.2 _ (Except.error.inj h)) fun h => hfits h.1

/-- A key that is neither too short nor too long is misread, if it is not read. -/
theorem misread_of_read (hcount : arbitraryCount types ≤ 1) (herror : read types key = .error e)
    (hshort : ∀ fixed actual, e ≠ .truncated fixed actual) (hlong : ∀ count, e ≠ .trailing count) :
    Misread types key e := by
  rcases read_cases hcount key with ⟨-, hread⟩ | ⟨-, hread⟩ |
    ⟨-, ⟨fields, hread, -⟩ | ⟨e', hread, hmisread⟩⟩ <;> rw [hread] at herror
  · exact absurd (Except.error.inj herror).symm (hshort _ _)
  · exact absurd (Except.error.inj herror).symm (hlong _)
  · cases herror
  · cases herror
    exact hmisread

/-! ### Positions -/

/-- The bytes of a key from a position on; none if there are not so many. -/
def slice? (key : Bytes) (offset width : Nat) : Option Bytes :=
  if offset + width ≤ key.length then some ((key.drop offset).take width) else none

/-- Read fields one after the other, the first one at a position.  There is no result if bytes
outside of the key are asked for. -/
def readFrom? (spare : Nat) (key : Bytes) :
    (offset : Nat) → List FieldType → Option (Except KeyError (List Field))
  | _, [] => some (.ok [])
  | offset, t :: types =>
    let width := t.width?.getD spare
    match slice? key offset width with
    | none => none
    | some bytes =>
      match t.read bytes with
      | .error e => some (.error e)
      | .ok v => (readFrom? spare key (offset + width) types).map (·.map (⟨t, v⟩ :: ·))

/-- Read a whole key at positions.  There is no result if bytes outside of the key are asked for,
or if the types leave open where a field ends. -/
def readInside? (types : List FieldType) (key : Bytes) : Option (Except KeyError (List Field)) :=
  if 1 < arbitraryCount types then none
  else if key.length < fixedWidth types then
    some (.error (.truncated (fixedWidth types) key.length))
  else if arbitraryCount types = 0 ∧ fixedWidth types < key.length then
    some (.error (.trailing (key.length - fixedWidth types)))
  else readFrom? (key.length - fixedWidth types) key 0 types

/-- **Reading at positions stays inside of the key**, if the fields are no longer than what is
left of it. -/
theorem readFrom?_eq {offset : Nat}
    (hlen : offset + (types.map (FieldType.span spare)).sum ≤ key.length) :
    readFrom? spare key offset types = some (readFields spare types (key.drop offset)) := by
  induction types generalizing offset with
  | nil => rfl
  | cons t types ih =>
    rw [List.map_cons, List.sum_cons, FieldType.span, ← Nat.add_assoc] at hlen
    have hinside : offset + t.width?.getD spare ≤ key.length := Nat.le_of_add_right_le hlen
    have hslice : slice? key offset (t.width?.getD spare) =
        some ((key.drop offset).take (t.width?.getD spare)) := if_pos hinside
    rw [readFrom?, readFields, hslice, ih hlen, List.drop_drop]
    dsimp only
    cases t.read ((key.drop offset).take (t.width?.getD spare)) with
    | error e => rfl
    | ok v => cases readFields spare types (key.drop (offset + t.width?.getD spare)) <;> rfl

theorem readInside?_eq (hcount : arbitraryCount types ≤ 1) (key : Bytes) :
    readInside? types key = some (read types key) := by
  rw [readInside?, read, if_neg (Nat.not_lt.mpr hcount), if_neg (Nat.not_lt.mpr hcount)]
  split_ifs with hshort hlong
  · rfl
  · rfl
  · have hlen := length_eq_sum_span hcount (Nat.not_lt.mp hshort) hlong
    rw [readFrom?_eq (by rw [Nat.zero_add]; exact Nat.le_of_eq hlen.symm), List.drop_zero]

/-! ### Codecs -/

/-- **Reading is the inverse of writing**, and fails for the length of a key or for the byte of a
layout alone. -/
structure Codec (types : List FieldType) : Prop where
  /-- Whatever is written is read, value for value. -/
  read_write : ∀ fields, fields.map Field.type = types → read types (write fields) = .ok fields
  /-- Whatever is read is written with the same bytes. -/
  write_read : ∀ key fields, read types key = .ok fields →
    fields.map Field.type = types ∧ write fields = key
  truncated_iff : ∀ key fixed actual, read types key = .error (.truncated fixed actual) ↔
    key.length < fixedWidth types ∧ fixed = fixedWidth types ∧ actual = key.length
  trailing_iff : ∀ key count, read types key = .error (.trailing count) ↔
    arbitraryCount types = 0 ∧ fixedWidth types < key.length ∧
      count = key.length - fixedWidth types
  /-- Every other failure is for the byte of a layout. -/
  misread : ∀ key e, read types key = .error e → (∀ fixed actual, e ≠ .truncated fixed actual) →
    (∀ count, e ≠ .trailing count) → Misread types key e
  /-- No byte outside of the key is asked for. -/
  inside : ∀ key, readInside? types key = some (read types key)

/-- **Fields of which one at most is of any width make a codec**, wherever that one stands. -/
theorem codec_of_arbitraryCount (hcount : arbitraryCount types ≤ 1) : Codec types where
  read_write fields htypes := by
    subst htypes
    exact read_write hcount
  write_read key fields hread := (read_eq_ok_iff hcount).mp hread
  truncated_iff _ _ _ := read_eq_truncated_iff hcount
  trailing_iff _ _ := read_eq_trailing_iff hcount
  misread _ _ := misread_of_read hcount
  inside := readInside?_eq hcount

/-- A tag value between the layout and the time of its key: the bytes that are left are its own. -/
theorem codec_of_arbitraryCount_tag :
    let types : List FieldType := [.layout .tag, .rest, .timestamp, .serial]
    let fields : List Field := [⟨.layout .tag, ()⟩, ⟨.rest, [0x61, 0x62]⟩,
      ⟨.timestamp, (1700000000 : UInt64)⟩, ⟨.serial, (42 : UInt64)⟩]
    let key : Bytes := [6, 0x61, 0x62, 0, 0, 0, 0, 0x65, 0x53, 0xf1, 0, 0, 0, 0, 0, 0, 0, 0, 42]
    arbitraryCount types ≤ 1 ∧ read types key = .ok fields ∧
      read types (key.take 16) = .error (.truncated 17 16) ∧
      read types (7 :: key.tail) = .error (.wrongLayout .tag .tag32) := by
  intro types fields key
  have hcount : arbitraryCount types ≤ 1 := by decide
  have hcodec : Codec types := codec_of_arbitraryCount hcount
  have hwrite : write fields = key := by decide
  exact ⟨hcount, hwrite ▸ hcodec.read_write fields rfl,
    (hcodec.truncated_iff _ _ _).mpr (by decide), rfl⟩

end Key
end EventArchive
