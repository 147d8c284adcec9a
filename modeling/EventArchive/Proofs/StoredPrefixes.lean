import EventArchive.Proofs.StoredRoundTrip

/-! # Records cut short and records with bytes after them

A record carries no mark of its end: where it ends follows from the lengths written
inside it, and a demoted record is known by its own length alone.  So it has to be
shown that a record cut short is never read as another record, and that no byte
behind a record changes what is read.  Both rest on one property of the decoders: a
decoder is **steady** (`Steady`) if it looks at no byte behind those that it takes.
What it reads from a prefix it then reads from the whole record as well, and there
it reads the event that was written and leaves nothing.

In the other direction, what a decoder returns is bounded by the widths of the
numbers it has read (`Yields`), so every event that is read fits its own encoding
(`sized_and_prefix_of_readEvent`) and is read from it again.  `decode_unambiguous` puts
the two directions together.
-/
namespace EventArchive

/-! ### The width of a number that was read -/

namespace Varint

/-- As many groups as `bits` bits take hold a number of at most `bits` bits. -/
theorem lt_of_decodeGroups {groups bits n : Nat} {bytes rest : Bytes}
    (hgroups : groups = (bits + 6) / 7) (h : decodeGroups groups bits bytes = .ok (n, rest)) :
    n < 2 ^ bits := by
  induction groups generalizing bits n bytes with
  | zero => cases h
  | succ groups ih =>
    cases bytes with
    | nil => cases h
    | cons b bytes =>
      have hbyte : b.toNat < 256 := b.toNat_lt
      rw [decodeGroups] at h
      split at h
      · rename_i hsmall
        split at h
        · cases h
        · rename_i hroom
          cases h
          -- only the last group can hold fewer than seven bits
          by_cases hlast : groups = 0
          · rw [Nat.one_shiftLeft] at hroom
            omega
          · have hpow : 2 ^ 7 ≤ 2 ^ bits := Nat.pow_le_pow_right (by decide) (by omega)
            omega
      · cases hhigh : decodeGroups groups (bits - 7) bytes with
        | error err =>
          rw [hhigh] at h
          cases h
        | ok x =>
          rw [hhigh] at h
          cases h
          have hlt : x.1 < 2 ^ (bits - 7) := ih (by omega) hhigh
          have hseven : 7 ≤ bits := by
            by_contra hless
            rw [show groups = 0 by omega] at hhigh
            cases hhigh
          have hpow : 2 ^ bits = 2 ^ (bits - 7) * 128 := by
            rw [show 128 = 2 ^ 7 from rfl, ← Nat.pow_add, Nat.sub_add_cancel hseven]
          omega

/-- The bytes behind a number do not count. -/
theorem decodeGroups_append {groups bits : Nat} {bytes : Bytes} {x : Nat × Bytes}
    (h : decodeGroups groups bits bytes = .ok x) (more : Bytes) :
    decodeGroups groups bits (bytes ++ more) = .ok (x.1, x.2 ++ more) := by
  induction groups generalizing bits bytes x with
  | zero => cases h
  | succ groups ih =>
    cases bytes with
    | nil => cases h
    | cons b bytes =>
      rw [decodeGroups] at h
      rw [List.cons_append, decodeGroups]
      split at h
      · rename_i hsmall
        split at h
        · cases h
        · rename_i hroom
          cases h
          rw [if_pos hsmall, if_neg hroom]
      · rename_i hbig
        cases hhigh : decodeGroups groups (bits - 7) bytes with
        | error err =>
          rw [hhigh] at h
          cases h
        | ok y =>
          rw [hhigh] at h
          cases h
          rw [if_neg hbig, ih hhigh]
          rfl

end Varint

namespace StoredValue

/-! ### Steady decoders -/

/-- **A decoder looks at no byte behind those that it takes**: more bytes are left over,
and nothing else changes. -/
structure Steady {α : Type} (r : Decoder α) : Prop where
  append : ∀ {bytes x}, r bytes = .ok x → ∀ more, r (bytes ++ more) = .ok (x.1, x.2 ++ more)

/-- Whatever a decoder returns has a property. -/
structure Yields {α : Type} (r : Decoder α) (P : α → Prop) : Prop where
  holds : ∀ {bytes x}, r bytes = .ok x → P x.1

section Combined
variable {α β : Type} {r : Decoder α} {k : α × Bytes → Except Corruption (β × Bytes)}
  {P : α → Prop} {Q : β → Prop}

theorem Steady.bind (h : Steady r) (hk : ∀ a, Steady fun bytes => k (a, bytes)) :
    Steady fun bytes => r bytes >>= k where
  append hx more := by
    obtain ⟨y, hy, hx⟩ := bind_eq_ok.mp hx
    exact bind_eq_ok.mpr ⟨_, h.append hy more, (hk y.1).append hx more⟩

theorem Yields.bind (h : Yields r P) (hk : ∀ a, P a → Yields (fun bytes => k (a, bytes)) Q) :
    Yields (fun bytes => r bytes >>= k) Q where
  holds hx := by
    obtain ⟨y, hy, hx⟩ := bind_eq_ok.mp hx
    exact (hk y.1 (h.holds hy)).holds hx

theorem steady_ok (a : α) : Steady fun bytes => .ok (a, bytes) where
  append hx more := by
    cases hx
    rfl

theorem yields_ok {a : α} (h : P a) : Yields (fun bytes => .ok (a, bytes)) P where
  holds hx := by
    cases hx
    exact h

theorem steady_error (err : Corruption) :
    Steady (fun _ : Bytes => (.error err : Except _ (α × _))) where
  append hx := by cases hx

theorem yields_error (err : Corruption) :
    Yields (fun _ : Bytes => (.error err : Except _ (α × _))) P where
  holds hx := by cases hx

end Combined

/-! ### The parts of a record -/

theorem readVarint_steady (bits : Nat) : Steady (readVarint bits) where
  append hx more := by
    rw [readVarint] at hx ⊢
    split at hx
    · rename_i y hy
      cases hx
      rw [Varint.decode] at hy ⊢
      rw [Varint.decodeGroups_append hy]
    · cases hx
    · cases hx

theorem readVarint_yields (bits : Nat) : Yields (readVarint bits) (· < 2 ^ bits) where
  holds hx := by
    rw [readVarint] at hx
    split at hx
    · rename_i y hy
      cases hx
      exact Varint.lt_of_decodeGroups rfl hy
    · cases hx
    · cases hx

theorem readBytes_steady (n : Nat) : Steady (readBytes n) where
  append hx more := by
    rw [readBytes] at hx
    split at hx
    · rename_i hle
      cases hx
      rw [readBytes, if_pos (by rw [List.length_append]; omega),
        List.take_append_of_le_length hle, List.drop_append_of_le_length hle]
    · cases hx

theorem readBytes_yields (n : Nat) : Yields (readBytes n) (·.length = n) where
  holds hx := by
    rw [readBytes] at hx
    split at hx
    · rename_i hle
      cases hx
      exact List.length_take_of_le hle
    · cases hx

theorem eq_append_of_readFixed {f : HexField} {bytes : Bytes} {x : FixedBytes f × Bytes}
    (h : readFixed f bytes = .ok x) : bytes = x.1.bytes ++ x.2 := by
  rw [readFixed] at h
  split at h
  · cases h
    exact (List.take_append_drop f.size bytes).symm
  · cases h

theorem readFixed_steady (f : HexField) : Steady (readFixed f) where
  append hx more := by
    rw [eq_append_of_readFixed hx, List.append_assoc]
    exact readFixed_append _ _

theorem ofText_of_toText? {raw : Bytes} {s : String} (h : Bytes.toText? raw = some s) :
    Bytes.ofText s = raw := by
  rw [Bytes.toText?, String.fromUTF8?] at h
  split at h
  · cases h
    rfl
  · cases h

theorem readText_steady : Steady readText :=
  (readVarint_steady 64).bind fun n => (readBytes_steady n).bind fun raw => by
    dsimp only
    split
    · exact steady_ok _
    · exact steady_error _

theorem readText_yields : Yields readText fun s => (Bytes.ofText s).length < 2 ^ 64 :=
  (readVarint_yields 64).bind fun n hn => (readBytes_yields n).bind fun raw hraw => by
    dsimp only
    split
    · rename_i s hs
      refine yields_ok ?_
      rw [ofText_of_toText? hs, hraw]
      exact hn
    · exact yields_error _

section Lists
variable {α : Type} {item : Decoder α} {P : α → Prop}

/-- More bytes allow more steps, and these change nothing either. -/
theorem readMany_append (hitem : Steady item) {fuel fuel' count : Nat} {bytes : Bytes}
    {x : List α × Bytes} (h : readMany item fuel count bytes = .ok x) (hle : fuel ≤ fuel')
    (more : Bytes) : readMany item fuel' count (bytes ++ more) = .ok (x.1, x.2 ++ more) := by
  induction fuel generalizing fuel' count bytes x with
  | zero =>
    cases count with
    | zero =>
      rw [readMany] at h ⊢
      exact (steady_ok []).append h more
    | succ count => cases h
  | succ fuel ih =>
    cases count with
    | zero =>
      rw [readMany] at h ⊢
      exact (steady_ok []).append h more
    | succ count =>
      obtain ⟨fuel', rfl⟩ := Nat.exists_eq_succ_of_ne_zero (show fuel' ≠ 0 by omega)
      obtain ⟨y, hy, h⟩ := bind_eq_ok.mp h
      obtain ⟨z, hz, h⟩ := bind_eq_ok.mp h
      cases h
      have htail := ih hz (show fuel ≤ fuel' by omega)
      exact bind_eq_ok.mpr ⟨_, hitem.append hy more, bind_eq_ok.mpr ⟨_, htail, rfl⟩⟩

theorem readMany_yields (hitem : Yields item P) (fuel count : Nat) :
    Yields (readMany item fuel count) fun values => values.length = count ∧ ∀ a ∈ values, P a := by
  have hnone : ([] : List α).length = 0 ∧ ∀ a ∈ ([] : List α), P a := ⟨rfl, by simp⟩
  induction fuel generalizing count with
  | zero =>
    cases count with
    | zero => exact yields_ok hnone
    | succ count => exact yields_error _
  | succ fuel ih =>
    cases count with
    | zero => exact yields_ok hnone
    | succ count =>
      refine hitem.bind fun a ha => (ih count).bind fun values hvalues => yields_ok ?_
      exact ⟨congrArg (· + 1) hvalues.1, List.forall_mem_cons.mpr ⟨ha, hvalues.2⟩⟩

theorem readList_steady (hitem : Steady item) : Steady (readList item) where
  -- the number of steps is taken from the bytes left, so this is no instance of `Steady.bind`
  append hx more := by
    obtain ⟨y, hy, hx⟩ := bind_eq_ok.mp hx
    have hsteps : y.2.length + 1 ≤ (y.2 ++ more).length + 1 := by
      rw [List.length_append]
      omega
    exact bind_eq_ok.mpr ⟨_, (readVarint_steady 64).append hy more,
      readMany_append hitem hx hsteps more⟩

theorem readList_yields (hitem : Yields item P) :
    Yields (readList item) fun values => values.length < 2 ^ 64 ∧ ∀ a ∈ values, P a where
  holds hx := by
    obtain ⟨y, hy, hx⟩ := bind_eq_ok.mp hx
    obtain ⟨hlength, hall⟩ := (readMany_yields hitem _ _).holds hx
    exact ⟨hlength ▸ (readVarint_yields 64).holds hy, hall⟩

end Lists

theorem readTags_steady : Steady readTags :=
  readList_steady ((readList_steady readText_steady).bind fun _ => steady_ok _)

theorem readTags_yields : Yields readTags fun tags => tags.length < 2 ^ 64 ∧
    ∀ t ∈ tags, t.parts.length < 2 ^ 64 ∧ ∀ p ∈ t.parts, (Bytes.ofText p).length < 2 ^ 64 :=
  readList_yields ((readList_yields readText_yields).bind fun _ h => yields_ok h)

/-! ### Whole records -/

theorem readSig_steady {α : Type} (n : Nat) (build : FixedBytes .sig → α) :
    Steady (readSig n build) :=
  (readBytes_steady n).bind fun raw => by
    dsimp only
    split
    · exact steady_ok _
    · exact steady_error _

theorem readSig_yields {α : Type} {P : α → Prop} (n : Nat) {build : FixedBytes .sig → α}
    (h : ∀ sig, P (build sig)) : Yields (readSig n build) P := by
  refine (readBytes_yields n).bind fun raw _ => ⟨fun hx => ?_⟩
  by_cases hlen : raw.length = HexField.size .sig
  · rw [dif_pos hlen] at hx
    exact (yields_ok (h ⟨raw, hlen⟩)).holds hx
  · rw [dif_neg hlen] at hx
    cases hx

theorem readEvent_steady : Steady readEvent :=
  (readFixed_steady .id).bind fun _ => (readFixed_steady .pubkey).bind fun _ =>
    (readVarint_steady 64).bind fun _ => (readVarint_steady 16).bind fun _ =>
    readTags_steady.bind fun _ => readText_steady.bind fun _ =>
    (readVarint_steady 64).bind fun n => readSig_steady n fun _ => _

/-- **What is read as an event fits its own encoding, and its identifier comes first.** -/
theorem sized_and_prefix_of_readEvent {bytes : Bytes} {x : Event × Bytes}
    (h : readEvent bytes = .ok x) : x.1.Sized ∧ x.1.id.bytes <+: bytes := by
  obtain ⟨⟨id, rest⟩, hid, h⟩ := bind_eq_ok.mp h
  have hpubkey : Yields (readFixed .pubkey) fun _ => True := ⟨fun _ => trivial⟩
  have hrest : x.1.Sized ∧ x.1.id = id :=
    Yields.holds (P := fun e : Event => e.Sized ∧ e.id = id)
      (hpubkey.bind fun _ _ => (readVarint_yields 64).bind fun _ _ =>
        (readVarint_yields 16).bind fun _ _ => readTags_yields.bind fun _ htags =>
        readText_yields.bind fun _ hcontent => (readVarint_yields 64).bind fun n _ =>
        readSig_yields n fun _ => ⟨⟨htags.1, fun t ht => (htags.2 t ht).1,
          fun t ht => (htags.2 t ht).2, hcontent⟩, rfl⟩) h
  refine ⟨hrest.1, ?_⟩
  rw [hrest.2, eq_append_of_readFixed hid]
  exact List.prefix_append _ _

/-- A value is a whole event if it is longer than an identifier and begins with an event. -/
theorem decode_eq_full_iff {bytes : Bytes} {e : Event} :
    decode bytes = .ok (.full e) ↔
      stubLength < bytes.length ∧ ∃ rest, readEvent bytes = .ok (e, rest) := by
  rw [decode]
  split
  · rename_i hlen
    have hlen : bytes.length = stubLength := hlen
    simp [hlen]
  · rename_i hne
    have hne : bytes.length ≠ stubLength := hne
    split
    · rename_i hshort
      simp [Nat.lt_asymm hshort]
    · rename_i hlong
      have hgt : stubLength < bytes.length := by omega
      cases readEvent bytes with
      | error err => simp [Except.map]
      | ok x => simp [Except.map, hgt, Prod.ext_iff]

/-- A value is a demoted event if it is an identifier and nothing else. -/
theorem decode_eq_stub_iff {bytes : Bytes} {i : EventId} :
    decode bytes = .ok (.stub i) ↔ bytes = i.bytes := by
  constructor
  · intro h
    rw [decode] at h
    split at h
    · cases h
      rfl
    · split at h
      · cases h
      · cases hr : readEvent bytes with
        | error err =>
          rw [hr] at h
          cases h
        | ok x =>
          rw [hr] at h
          cases h
  · rintro rfl
    exact decode_id i

theorem decode_encode_append {e : Event} (h : e.Sized) (more : Bytes) :
    decode (encode e ++ more) = .ok (.full e) := by
  refine decode_eq_full_iff.mpr ⟨?_, more, (readEvent_undoes e).eq_ok h more⟩
  have := length_encode_gt e
  rw [List.length_append]
  omega

theorem id_prefix_encode (e : Event) : e.id.bytes <+: encode e := by
  simp only [encode, List.append_assoc]
  exact List.prefix_append _ _

/-- **No event is read from a proper prefix of a record.** It would be read, with the bytes
behind it left over, from the whole record, which leaves none. -/
theorem decode_prefix_ne_full {e e' : Event} {p : Bytes} (hp : p <+: encode e)
    (hne : p ≠ encode e) : decode p ≠ .ok (.full e') := by
  intro h
  obtain ⟨more, hmore⟩ := hp
  obtain ⟨-, rest, hr⟩ := decode_eq_full_iff.mp h
  have hwhole : readEvent (encode e ++ []) = .ok (e', rest ++ more) := by
    rw [List.append_nil, ← hmore]
    exact readEvent_steady.append hr more
  have hleft : rest ++ more = [] := congrArg Prod.snd ((readEvent_undoes e).sound hwhole)
  obtain rfl := (List.append_eq_nil_iff.mp hleft).2
  exact hne (by rw [← hmore, List.append_nil])

/-- A prefix of a record of the length of an identifier is the value of the demoted record. -/
theorem decode_prefix_of_length_eq {e : Event} {p : Bytes} (hp : p <+: encode e)
    (hlen : p.length = stubLength) : decode p = .ok (.stub e.id) := by
  have hbytes : p = e.id.bytes :=
    (List.prefix_of_prefix_length_le hp (id_prefix_encode e)
      (Nat.le_of_eq (hlen.trans e.id.length_eq.symm))).eq_of_length
      (hlen.trans e.id.length_eq.symm)
  rw [hbytes]
  exact decode_id e.id

/-- Any other proper prefix of a record is none. -/
theorem decode_prefix_of_length_ne {e : Event} {p : Bytes} (hp : p <+: encode e)
    (hne : p ≠ encode e) (hlen : p.length ≠ stubLength) : ∃ c, decode p = .error c := by
  cases hd : decode p with
  | error c => exact ⟨c, rfl⟩
  | ok v =>
    cases v with
    | full e' => exact absurd hd (decode_prefix_ne_full hp hne)
    | stub i =>
      obtain rfl := decode_eq_stub_iff.mp hd
      exact absurd i.length_eq hlen

/-! ### The form and the identity of a value -/

theorem sized_of_decode {bytes : Bytes} {e : Event} (h : decode bytes = .ok (.full e)) :
    e.Sized := by
  obtain ⟨-, rest, hr⟩ := decode_eq_full_iff.mp h
  exact (sized_and_prefix_of_readEvent hr).1

theorem idBytes?_eq_some_iff {bytes : Bytes} {i : EventId} :
    idBytes? bytes = some i.bytes ↔ i.bytes <+: bytes := by
  have hlen : i.bytes.length = stubLength := i.length_eq
  rw [idBytes?, List.prefix_iff_eq_take, hlen]
  split
  · rw [Option.some_inj, eq_comm]
  · rename_i hshort
    refine iff_of_false (fun h => by cases h) fun h => hshort ?_
    have hcut : i.bytes.length = min stubLength bytes.length := by
      rw [h, List.length_take]
    omega

/-- Whatever a value is read as begins with the identifier that is compared, and is
demoted or whole as its length says. -/
theorem idBytes?_of_decode_full {bytes : Bytes} {e : Event} (h : decode bytes = .ok (.full e)) :
    idBytes? bytes = some e.id.bytes ∧ isStub bytes = false := by
  obtain ⟨hgt, rest, hr⟩ := decode_eq_full_iff.mp h
  exact ⟨idBytes?_eq_some_iff.mpr (sized_and_prefix_of_readEvent hr).2,
    beq_false_of_ne (Nat.ne_of_gt hgt)⟩

theorem idBytes?_of_decode_stub {bytes : Bytes} {i : EventId} (h : decode bytes = .ok (.stub i)) :
    idBytes? bytes = some i.bytes ∧ isStub bytes = true := by
  obtain rfl := decode_eq_stub_iff.mp h
  exact ⟨idBytes?_id i, isStub_id i⟩

/-- **The encoding of records is unambiguous.**  An event is read from its record
whatever bytes follow; the record is longer than an identifier and begins with that of
the event; and a proper prefix of it is the demoted event at the length of an identifier
and no record at any other length.  In the other direction, any value that is read as a
whole event begins with its identifier, does not count as demoted, and holds an event
that is read from its own record again; one that is read as a demoted event is its
identifier.  `Event.Sized` says that the lengths fit 64 bits, as they do in memory. -/
theorem decode_unambiguous :
    (∀ e : Event,
      (e.Sized → ∀ more, decode (encode e ++ more) = .ok (.full e)) ∧
      stubLength < (encode e).length ∧ e.id.bytes <+: encode e ∧
      ∀ p, p <+: encode e → p ≠ encode e →
        (p.length = stubLength → decode p = .ok (.stub e.id)) ∧
        (p.length ≠ stubLength → ∃ c, decode p = .error c)) ∧
    ∀ bytes,
      (∀ e, decode bytes = .ok (.full e) → idBytes? bytes = some e.id.bytes ∧
        isStub bytes = false ∧ e.Sized ∧ decode (encode e) = .ok (.full e)) ∧
      ∀ i, decode bytes = .ok (.stub i) → idBytes? bytes = some i.bytes ∧
        isStub bytes = true := by
  refine ⟨fun e => ⟨decode_encode_append, length_encode_gt e, id_prefix_encode e,
    fun p hp hne => ⟨decode_prefix_of_length_eq hp, decode_prefix_of_length_ne hp hne⟩⟩,
    fun bytes => ⟨fun e he => ?_, fun i => idBytes?_of_decode_stub⟩⟩
  obtain ⟨hid, hform⟩ := idBytes?_of_decode_full he
  have hsized := sized_of_decode he
  exact ⟨hid, hform, hsized, decode_encode hsized⟩

/-- A tagged event of a negative time: with bytes behind it, cut to its identifier, and cut
within its signature. -/
theorem decode_unambiguous_tagged :
    let e : Event := ⟨⟨List.replicate 32 1, rfl⟩, ⟨List.replicate 32 7, rfl⟩, -5, ⟨1⟩,
      [⟨["t", "x"]⟩, ⟨[]⟩, ⟨[""]⟩], "text", ⟨List.replicate 64 0, rfl⟩⟩
    decode (encode e ++ [0, 255]) = .ok (.full e) ∧
      decode ((encode e).take 32) = .ok (.stub e.id) ∧
      (∃ c, decode ((encode e).take 100) = .error c) ∧
      idBytes? (encode e ++ [0, 255]) = some e.id.bytes ∧
      isStub ((encode e).take 32) = true := by
  intro e
  obtain ⟨hrecords, hvalues⟩ := decode_unambiguous
  obtain ⟨hread, -, -, hprefixes⟩ := hrecords e
  have hfits : e.Sized := by decide +kernel
  have htake : ∀ n, (encode e).take n <+: encode e := fun n => List.take_prefix n _
  have hid := hprefixes _ (htake 32) (by decide +kernel)
  have hcut := hprefixes _ (htake 100) (by decide +kernel)
  have hwhole := hread hfits [0, 255]
  have hstub := hid.1 (by decide +kernel)
  exact ⟨hwhole, hstub, hcut.2 (by decide +kernel), ((hvalues _).1 e hwhole).1,
    ((hvalues _).2 e.id hstub).2⟩

end StoredValue
end EventArchive
