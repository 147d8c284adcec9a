import Mathlib
import EventArchive.Stored.Counter
import EventArchive.Stored.Value
import EventArchive.Proofs.ByteOrder

/-! # Reading what was written

A decoder **undoes** a written form (`Decoder.Undoes`) if, whatever bytes follow,
a success gives back the value and leaves those bytes, and it does succeed when
the value fits.  A value fits when its lengths fit the 64 bits in which they are
written (`Event.Sized`), as every length in memory does.  The two halves are
kept apart because the first needs no bound: a value under a record's key is
never read as another event.
-/
namespace EventArchive

/-! ### What fits -/

/-- The lengths of an event's lists and texts are numbers of 64 bits. -/
structure Event.Sized (e : Event) : Prop where
  tags : e.tags.length < 2 ^ 64
  parts : ∀ t ∈ e.tags, t.parts.length < 2 ^ 64
  texts : ∀ t ∈ e.tags, ∀ p ∈ t.parts, (Bytes.ofText p).length < 2 ^ 64
  content : (Bytes.ofText e.content).length < 2 ^ 64

instance (e : Event) : Decidable e.Sized :=
  decidable_of_iff (e.tags.length < 2 ^ 64 ∧ (∀ t ∈ e.tags, t.parts.length < 2 ^ 64) ∧
      (∀ t ∈ e.tags, ∀ p ∈ t.parts, (Bytes.ofText p).length < 2 ^ 64) ∧
      (Bytes.ofText e.content).length < 2 ^ 64)
    ⟨fun h => ⟨h.1, h.2.1, h.2.2.1, h.2.2.2⟩, fun h => ⟨h.tags, h.parts, h.texts, h.content⟩⟩

theorem FixedBytes.ext_bytes {f : HexField} {a b : FixedBytes f} (h : a.bytes = b.bytes) :
    a = b := by
  cases a
  cases b
  congr

/-- What a reader returns after another one. -/
theorem bind_eq_ok {ε α β : Type} {r : Except ε α} {k : α → Except ε β} {b : β} :
    r >>= k = .ok b ↔ ∃ a, r = .ok a ∧ k a = .ok b := by
  cases r with
  | error err =>
    constructor
    · intro h
      cases h
    · rintro ⟨a, ha, -⟩
      cases ha
  | ok a =>
    constructor
    · intro h
      exact ⟨a, rfl, h⟩
    · rintro ⟨a, ha, h⟩
      cases ha
      exact h

/-- What a reader returns if it goes on only under a condition. -/
theorem ite_eq_ok {ε α : Type} {p : Prop} [Decidable p] {r : Except ε α} {e : ε} {a : α} :
    (if p then r else .error e) = .ok a ↔ p ∧ r = .ok a := by
  split
  · simp [*]
  · simp [*]

/-- A list is at most as long as what is written of it. -/
theorem length_le_length_flatMap {α β : Type} {write : α → List β} {values : List α}
    (hne : ∀ a, write a ≠ []) : values.length ≤ (values.flatMap write).length := by
  induction values with
  | nil => exact Nat.le_refl 0
  | cons a values ih =>
    have := List.length_pos_iff.mpr (hne a)
    rw [List.flatMap_cons, List.length_append, List.length_cons]
    omega

/-! ### Variable-length numbers -/

namespace Varint

theorem encode_ne_nil (n : Nat) : encode n ≠ [] := by
  rw [encode]
  split <;> simp

theorem toNat_ofNat_of_lt {n : Nat} (h : n < 256) : (UInt8.ofNat n).toNat = n := by
  rw [UInt8.toNat_ofNat', Nat.mod_eq_of_lt h]

/-- Reading a written number gives that number or an error, never another one. -/
theorem eq_of_decodeGroups_encode {groups bits n : Nat} {rest : Bytes} {x : Nat × Bytes}
    (h : decodeGroups groups bits (encode n ++ rest) = .ok x) : x = (n, rest) := by
  induction groups generalizing bits n x with
  | zero => cases h
  | succ groups ih =>
    rw [encode] at h
    split at h
    · rename_i hsmall
      rw [List.singleton_append, decodeGroups, toNat_ofNat_of_lt (by omega), if_pos hsmall] at h
      split at h
      · cases h
      · cases h
        rfl
    · rename_i hbig
      rw [List.cons_append, decodeGroups, toNat_ofNat_of_lt (by omega),
        if_neg (by omega)] at h
      cases hrest : decodeGroups groups (bits - 7) (encode (n / 128) ++ rest) with
      | error e =>
        rw [hrest] at h
        cases h
      | ok y =>
        rw [hrest] at h
        obtain rfl := ih hrest
        cases h
        refine Prod.ext ?_ rfl
        show n % 128 + 128 - 128 + 128 * (n / 128) = n
        omega

/-- A number of at most `bits` bits is read from as many groups as that takes. -/
theorem exists_decodeGroups_encode {groups bits n : Nat} (hn : n < 2 ^ bits)
    (hbits : bits ≤ 7 * groups) (hgroups : 0 < groups) (rest : Bytes) :
    ∃ x, decodeGroups groups bits (encode n ++ rest) = .ok x := by
  induction groups generalizing bits n with
  | zero => cases hgroups
  | succ groups ih =>
    rw [encode]
    split
    · rename_i hsmall
      rw [List.singleton_append, decodeGroups, toNat_ofNat_of_lt (by omega), if_pos hsmall,
        if_neg (by omega)]
      exact ⟨_, rfl⟩
    · rename_i hbig
      have hseven : 7 < bits := by
        by_contra hle
        have hpow : 2 ^ bits ≤ 2 ^ 7 := Nat.pow_le_pow_right (by decide) (by omega)
        omega
      have hquot : n / 128 < 2 ^ (bits - 7) := by
        rw [Nat.div_lt_iff_lt_mul (by decide), show 128 = 2 ^ 7 from rfl, ← Nat.pow_add,
          Nat.sub_add_cancel (by omega)]
        exact hn
      obtain ⟨x, hx⟩ := ih hquot (by omega) (by omega)
      rw [List.cons_append, decodeGroups, toNat_ofNat_of_lt (by omega), if_neg (by omega), hx]
      exact ⟨_, rfl⟩

theorem zigzag_lt {i : Int} {bits : Nat} (hlower : -2 ^ bits ≤ i) (hupper : i < 2 ^ bits) :
    zigzag i < 2 ^ (bits + 1) := by
  rw [Nat.pow_succ]
  cases i with
  | ofNat n =>
    have hn : n < 2 ^ bits := by
      rw [Int.ofNat_eq_natCast] at hupper
      exact_mod_cast hupper
    rw [zigzag]
    omega
  | negSucc n =>
    have hn : n < 2 ^ bits := by
      have : (n : Int) + 1 ≤ 2 ^ bits := by
        rw [Int.negSucc_eq] at hlower
        omega
      exact_mod_cast this
    rw [zigzag]
    omega

end Varint

namespace StoredValue

/-! ### Decoders and written forms -/

/-- What it means for a decoder to undo a written form of a value. -/
structure Undoes {α : Type} (r : Decoder α) (written : Bytes) (a : α) (fits : Prop) : Prop where
  sound : ∀ {rest x}, r (written ++ rest) = .ok x → x = (a, rest)
  total : fits → ∀ rest, ∃ x, r (written ++ rest) = .ok x

namespace Undoes
variable {α β : Type} {r : Decoder α} {w w' : Bytes} {a : α} {b : β} {fits fits' : Prop}

theorem eq_ok (h : Undoes r w a fits) (hf : fits) (rest : Bytes) :
    r (w ++ rest) = .ok (a, rest) := by
  obtain ⟨x, hx⟩ := h.total hf rest
  rw [hx, h.sound hx]

/-- One part after another: the second decoder may look at what the first has read. -/
theorem bind {k : α × Bytes → Except Corruption (β × Bytes)} (h : Undoes r w a fits)
    (hk : Undoes (fun bytes => k (a, bytes)) w' b fits') :
    Undoes (fun bytes => r bytes >>= k) (w ++ w') b (fits ∧ fits') where
  sound {rest x} hx := by
    rw [List.append_assoc] at hx
    cases hr : r (w ++ (w' ++ rest)) with
    | error e =>
      rw [hr] at hx
      cases hx
    | ok y =>
      rw [hr, h.sound hr] at hx
      exact hk.sound hx
  total hf rest := by
    obtain ⟨x, hx⟩ := hk.total hf.2 rest
    refine ⟨x, ?_⟩
    rw [List.append_assoc, h.eq_ok hf.1]
    exact hx

/-- The value that a decoder makes of what another one reads. -/
theorem map {f : α → β} (h : Undoes r w a fits) :
    Undoes (fun bytes => r bytes >>= fun x => .ok (f x.1, x.2)) w (f a) fits where
  sound {rest x} hx := by
    cases hr : r (w ++ rest) with
    | error e =>
      rw [hr] at hx
      cases hx
    | ok y =>
      rw [hr, h.sound hr] at hx
      cases hx
      rfl
  total hf rest := by
    refine ⟨(f a, rest), ?_⟩
    rw [h.eq_ok hf]
    rfl

theorem weaken (h : Undoes r w a fits) (hf : fits' → fits) : Undoes r w a fits' :=
  ⟨h.sound, fun hx => h.total (hf hx)⟩

end Undoes

/-! ### The parts of a record -/

theorem readVarint_undoes (n : Nat) {bits : Nat} (hbits : 0 < bits) :
    Undoes (readVarint bits) (Varint.encode n) n (n < 2 ^ bits) where
  sound {rest x} hx := by
    rw [readVarint] at hx
    split at hx
    · rename_i y hy
      cases hx
      exact Varint.eq_of_decodeGroups_encode hy
    · cases hx
    · cases hx
  total hn rest := by
    obtain ⟨x, hx⟩ := Varint.exists_decodeGroups_encode hn
      (show bits ≤ 7 * ((bits + 6) / 7) by omega) (by omega) rest
    exact ⟨x, by rw [readVarint, Varint.decode, hx]⟩

theorem readBytes_undoes (bytes : Bytes) :
    Undoes (readBytes bytes.length) bytes bytes True where
  sound {rest x} hx := by
    rw [readBytes, if_pos (by simp), List.take_left, List.drop_left] at hx
    cases hx
    rfl
  total _ rest := ⟨(bytes, rest), by
    rw [readBytes, if_pos (by simp), List.take_left, List.drop_left]⟩

theorem readFixed_append {f : HexField} (b : FixedBytes f) (rest : Bytes) :
    readFixed f (b.bytes ++ rest) = .ok (b, rest) := by
  have htake : (b.bytes ++ rest).take f.size = b.bytes := List.take_left' b.length_eq
  have hlen : ((b.bytes ++ rest).take f.size).length = f.size := by
    rw [htake]
    exact b.length_eq
  rw [readFixed, dif_pos hlen, List.drop_left' b.length_eq,
    FixedBytes.ext_bytes (a := ⟨_, hlen⟩) (b := b) htake]

theorem readFixed_undoes {f : HexField} (b : FixedBytes f) :
    Undoes (readFixed f) b.bytes b True where
  sound hx := by
    rw [readFixed_append] at hx
    cases hx
    rfl
  total _ rest := ⟨_, readFixed_append b rest⟩

theorem readText_undoes (s : String) :
    Undoes readText (writeText s) s ((Bytes.ofText s).length < 2 ^ 64) := by
  refine ((readVarint_undoes _ (by decide)).bind
    (?_ : Undoes _ (Bytes.ofText s) s True)).weaken fun h => ⟨h, trivial⟩
  constructor
  · intro rest x hx
    dsimp only at hx
    rw [(readBytes_undoes _).eq_ok trivial] at hx
    simp only [Bind.bind, Except.bind, Bytes.toText?_ofText] at hx
    cases hx
    rfl
  · intro _ rest
    refine ⟨(s, rest), ?_⟩
    dsimp only
    rw [(readBytes_undoes _).eq_ok trivial]
    simp only [Bind.bind, Except.bind, Bytes.toText?_ofText]
    rfl

section Lists
variable {α : Type} {item : Decoder α} {write : α → Bytes} {fits : α → Prop}

theorem readMany_undoes {values : List α} (hitem : ∀ a ∈ values, Undoes item (write a) a (fits a))
    (fuel : Nat) : Undoes (readMany item fuel values.length) (values.flatMap write) values
      (values.length ≤ fuel ∧ ∀ a ∈ values, fits a) := by
  induction values generalizing fuel with
  | nil =>
    refine ⟨fun {rest x} hx => ?_, fun _ rest => ⟨([], rest), ?_⟩⟩
    · rw [List.length_nil, readMany] at hx
      cases hx
      rfl
    · rw [List.length_nil, readMany]
      rfl
  | cons a values ih =>
    have hhead := hitem a List.mem_cons_self
    have htail := fun fuel => ih (fun b hb => hitem b (List.mem_cons_of_mem _ hb)) fuel
    cases fuel with
    | zero =>
      refine ⟨fun hx => ?_, fun hf => ?_⟩
      · cases hx
      · simp at hf
    | succ fuel =>
      refine (hhead.bind ((htail fuel).map (f := (a :: ·)))).weaken fun hf => ?_
      refine ⟨hf.2 a List.mem_cons_self, ?_, fun b hb => hf.2 b (List.mem_cons_of_mem _ hb)⟩
      have := hf.1
      rw [List.length_cons] at this
      omega

theorem readList_undoes {values : List α} (hne : ∀ a, write a ≠ [])
    (hitem : ∀ a ∈ values, Undoes item (write a) a (fits a)) :
    Undoes (readList item) (writeList write values) values
      (values.length < 2 ^ 64 ∧ ∀ a ∈ values, fits a) := by
  -- the number of steps is taken from the bytes left, so this is no instance of `Undoes.bind`
  have hlength : Undoes (readVarint 64) (Varint.encode values.length) values.length
      (values.length < 2 ^ 64) := readVarint_undoes values.length (by decide)
  refine ⟨fun {rest x} hx => ?_, fun hf rest => ?_⟩
  · rw [readList, writeList, List.append_assoc] at hx
    cases hr : readVarint 64 (Varint.encode values.length ++ (values.flatMap write ++ rest)) with
    | error e =>
      rw [hr] at hx
      cases hx
    | ok y =>
      rw [hr, hlength.sound hr] at hx
      exact (readMany_undoes hitem _).sound hx
  · have hsteps : values.length ≤ (values.flatMap write ++ rest).length + 1 := by
      have hle : values.length ≤ (values.flatMap write).length := length_le_length_flatMap hne
      rw [List.length_append]
      omega
    obtain ⟨x, hx⟩ := (readMany_undoes hitem _).total ⟨hsteps, hf.2⟩ rest
    refine ⟨x, ?_⟩
    rw [readList, writeList, List.append_assoc, hlength.eq_ok hf.1]
    exact hx

theorem writeList_ne_nil (values : List α) : writeList write values ≠ [] := by
  simp [writeList, Varint.encode_ne_nil]

end Lists

theorem writeText_ne_nil (s : String) : writeText s ≠ [] := by
  simp [writeText, Varint.encode_ne_nil]

theorem readTags_undoes (tags : List Tag) :
    Undoes readTags (writeList (fun t : Tag => writeList writeText t.parts) tags) tags
      (tags.length < 2 ^ 64 ∧ ∀ t ∈ tags, t.parts.length < 2 ^ 64 ∧
        ∀ p ∈ t.parts, (Bytes.ofText p).length < 2 ^ 64) :=
  readList_undoes (fun _ => writeList_ne_nil _) fun _ _ =>
    (readList_undoes writeText_ne_nil fun p _ => readText_undoes p).map (f := Tag.mk)


/-! ### Whole records -/

/-- The last bytes of an event, if they are as many as a signature has. -/
def readSig {α : Type} (n : Nat) (build : FixedBytes .sig → α) : Decoder α := fun bytes =>
  readBytes n bytes >>= fun x =>
    if h : x.1.length = HexField.size .sig then .ok (build ⟨x.1, h⟩, x.2)
    else .error (.badSignature x.1.length)

theorem readSig_undoes {α : Type} (sig : FixedBytes .sig) (build : FixedBytes .sig → α) :
    Undoes (readSig sig.bytes.length build) sig.bytes (build sig) True := by
  have hread : ∀ rest, readSig sig.bytes.length build (sig.bytes ++ rest) =
      .ok (build sig, rest) := by
    intro rest
    rw [readSig, (readBytes_undoes sig.bytes).eq_ok trivial]
    exact dif_pos sig.length_eq
  refine ⟨fun hx => ?_, fun _ rest => ⟨_, hread rest⟩⟩
  rw [hread] at hx
  exact (Except.ok.inj hx).symm

theorem readEvent_undoes (e : Event) : Undoes readEvent (encode e) e e.Sized := by
  have htime : Varint.zigzag e.createdAt.toInt < 2 ^ 64 :=
    Varint.zigzag_lt e.createdAt.le_toInt e.createdAt.toInt_lt
  have hkind : e.kind.code.toNat < 2 ^ 16 := e.kind.code.toNat_lt
  have hsig : e.sig.bytes.length < 2 ^ 64 := by
    rw [e.sig.length_eq]
    decide
  -- the numbers that were read are those of the event
  have hlast := readSig_undoes e.sig fun sig =>
    (⟨e.id, e.pubkey, Int64.ofInt (Varint.unzigzag (Varint.zigzag e.createdAt.toInt)),
      ⟨UInt16.ofNat e.kind.code.toNat⟩, e.tags, e.content, sig⟩ : Event)
  have hvalue : (⟨e.id, e.pubkey, Int64.ofInt (Varint.unzigzag (Varint.zigzag e.createdAt.toInt)),
      ⟨UInt16.ofNat e.kind.code.toNat⟩, e.tags, e.content, e.sig⟩ : Event) = e := by
    rw [Varint.unzigzag_zigzag, Int64.ofInt_toInt, UInt16.ofNat_toNat]
  rw [hvalue] at hlast
  rw [encode]
  simp only [List.append_assoc]
  refine Undoes.weaken ((readFixed_undoes e.id).bind <| (readFixed_undoes e.pubkey).bind <|
    (readVarint_undoes _ (by decide)).bind <| (readVarint_undoes _ (by decide)).bind <|
    (readTags_undoes e.tags).bind <| (readText_undoes e.content).bind <|
    (readVarint_undoes _ (by decide)).bind hlast) fun h => ?_
  exact ⟨trivial, trivial, htime, hkind, ⟨h.tags, fun t ht => ⟨h.parts t ht, h.texts t ht⟩⟩,
    h.content, hsig, trivial⟩

theorem length_encode_gt (e : Event) : stubLength < (encode e).length := by
  have hid := e.id.length_eq
  have hpubkey := e.pubkey.length_eq
  simp only [encode, List.length_append, hid, hpubkey, stubLength, HexField.size]
  omega

theorem isStub_encode (e : Event) : isStub (encode e) = false :=
  beq_false_of_ne (Nat.ne_of_gt (length_encode_gt e))

theorem isStub_id (i : EventId) : isStub i.bytes = true := beq_iff_eq.mpr i.length_eq

theorem idBytes?_encode (e : Event) : idBytes? (encode e) = some e.id.bytes := by
  have htake : (encode e).take stubLength = e.id.bytes := by
    simp only [encode, List.append_assoc]
    exact List.take_left' e.id.length_eq
  rw [idBytes?, if_pos (Nat.le_of_lt (length_encode_gt e)), htake]

theorem idBytes?_id (i : EventId) : idBytes? i.bytes = some i.bytes := by
  have hlen : i.bytes.length = stubLength := i.length_eq
  rw [idBytes?, if_pos (Nat.le_of_eq hlen.symm), ← hlen, List.take_length]

theorem decode_id (i : EventId) : decode i.bytes = .ok (.stub i) := dif_pos i.length_eq

theorem decode_encode_eq (e : Event) :
    decode (encode e) = (readEvent (encode e)).map fun r => .full r.1 := by
  have hgt := length_encode_gt e
  have hne : ¬ (encode e).length = HexField.size .id := Nat.ne_of_gt hgt
  rw [decode, dif_neg hne, if_neg (by omega)]

/-- **What is read from the value of a record is the event that was written**, if anything
is. -/
theorem eq_full_of_decode_encode {e : Event} {v : StoredValue} (h : decode (encode e) = .ok v) :
    v = .full e := by
  have hundo := readEvent_undoes e
  rw [decode_encode_eq] at h
  cases hr : readEvent (encode e) with
  | error err =>
    rw [hr] at h
    cases h
  | ok x =>
    rw [hr] at h
    rw [← List.append_nil (encode e)] at hr
    obtain rfl := hundo.sound hr
    cases h
    rfl

/-- An event whose lengths fit is read back from its record. -/
theorem decode_encode {e : Event} (h : e.Sized) : decode (encode e) = .ok (.full e) := by
  have hr := (readEvent_undoes e).eq_ok h []
  rw [List.append_nil] at hr
  rw [decode_encode_eq, hr]
  rfl

end StoredValue

/-! ### Counters -/

namespace Counter

theorem encode_eq (c : Counter) :
    c.encode = Bytes.bigEndian 8 c.lastAccess.toNat ++ Bytes.bigEndian 4 c.size.toNat := by
  simp [encode, Key.write, Field.write, FieldType.write]

theorem decode_encode (c : Counter) : decode c.encode = .ok c := by
  have haccess : c.lastAccess.toNat < 256 ^ 8 := c.lastAccess.toNat_lt
  have hsize : c.size.toNat < 256 ^ 4 := c.size.toNat_lt
  have hlen : c.encode.length = 12 := by simp [encode_eq, Bytes.length_bigEndian]
  rw [decode, if_pos hlen, encode_eq, List.take_left' (Bytes.length_bigEndian _ _),
    List.drop_left' (Bytes.length_bigEndian _ _), Bytes.toNatBE_bigEndian haccess,
    Bytes.toNatBE_bigEndian hsize, UInt64.ofNat_toNat, UInt32.ofNat_toNat]

end Counter
end EventArchive
