import EventArchive.Key.TagValue
import EventArchive.Proofs.Numerals

/-! # Spellings of tag values

The index holds a tag value in one of three forms.  A text of 64 hexadecimal digits is
held as the key that it begins with, an address as its kind, the beginning of its key and
its identifier, and any other text as it is.  So there are texts that the index cannot
tell apart: keys that agree in their first sixteen digits up to case
(`TagValue.SameKeyHead`), and addresses with such keys, the same identifier and numerals
of the same kind (`TagValue.SameAddress`).  There are no others
(`TagValue.classify_eq_iff`).
-/
namespace EventArchive.TagValue

/-! ### Keys -/

/-- A text of 64 hexadecimal digits. -/
def IsKeyText (cs : List Char) : Prop := cs.length = 64 ∧ ∀ c ∈ cs, Hex.IsDigit c

instance (cs : List Char) : Decidable (IsKeyText cs) :=
  inferInstanceAs (Decidable (cs.length = 64 ∧ ∀ c ∈ cs, Hex.IsDigit c))

/-- Two texts are keys that **agree in their first sixteen digits** up to case. -/
structure SameKeyHead (cs cs' : List Char) : Prop where
  left : IsKeyText cs
  right : IsKeyText cs'
  lower : (cs.take 16).map Char.toLower = (cs'.take 16).map Char.toLower

/-- A text is a key with a beginning. -/
def HasHead (cs : List Char) (head : { bytes : Bytes // bytes.length = 8 }) : Prop :=
  IsKeyText cs ∧ (cs.take 16).map Char.toLower = Hex.encode head.val

variable {cs cs' : List Char} {text : String} {head head' : { bytes : Bytes // bytes.length = 8 }}

theorem HasHead.unique (h : HasHead cs head) (h' : HasHead cs head') : head = head' :=
  Subtype.ext (Hex.encode_inj (h.2.symm.trans h'.2))

theorem HasHead.same (h : HasHead cs head) (h' : HasHead cs' head) : SameKeyHead cs cs' :=
  ⟨h.1, h'.1, h.2.trans h'.2.symm⟩

theorem SameKeyHead.hasHead (h : SameKeyHead cs cs') (hhead : HasHead cs head) : HasHead cs' head :=
  ⟨h.right, h.lower.symm.trans hhead.2⟩

/-- A key has as many bytes as digits, and is read. -/
theorem IsKeyText.exists_decode (h : IsKeyText text.toList) : (Bytes.ofText text).length = 64 ∧
    ∃ out, out.length = 32 ∧ Hex.decode (Bytes.ofText text) = .ok out := by
  have hascii : ∀ c ∈ text.toList, c.toNat < 128 := fun c hc => (h.2 c hc).toNat_lt
  refine ⟨by rw [Bytes.ofText_of_ascii hascii, List.length_map, h.1], ?_⟩
  obtain ⟨out, hout⟩ := Hex.exists_encode h.2 (by rw [h.1])
  have hlen := congrArg List.length hout
  rw [List.length_map, h.1, Hex.length_encode] at hlen
  exact ⟨out, by omega, Hex.decodeText_eq_ok_iff.mpr ⟨h.2, hout⟩⟩

/-- What is read of a key is in its digits. -/
theorem take_lower_of_decode {out : Bytes} (h : Hex.decode (Bytes.ofText text) = .ok out) :
    (text.toList.take 16).map Char.toLower = Hex.encode (out.take 8) := by
  rw [List.map_take, (Hex.decodeText_eq_ok_iff.mp h).2]
  exact Hex.encode_take out 8

/-- **The beginning is taken of a key**, and of no other text. -/
theorem keyHead?_eq_some_iff :
    keyHead? (Bytes.ofText text) = some head ↔ HasHead text.toList head := by
  constructor
  · intro h
    rw [keyHead?] at h
    split_ifs at h with hlen
    split at h
    · rename_i out hdecode
      split_ifs at h
      cases h
      have hdigits := (Hex.decodeText_eq_ok_iff.mp hdecode).1
      rw [Bytes.ofText_of_ascii fun c hc => (hdigits c hc).toNat_lt, List.length_map] at hlen
      exact ⟨⟨hlen, hdigits⟩, take_lower_of_decode hdecode⟩
    · cases h
  · intro h
    obtain ⟨hlen, out, hout, hdecode⟩ := h.1.exists_decode
    have htake : (out.take 8).length = 8 := by
      rw [List.length_take, hout]
      rfl
    have hread : keyHead? (Bytes.ofText text) = some ⟨out.take 8, htake⟩ := by
      rw [keyHead?, if_pos hlen, hdecode]
      exact dif_pos htake
    have hhead : HasHead text.toList ⟨out.take 8, htake⟩ := ⟨h.1, take_lower_of_decode hdecode⟩
    rw [hread, h.unique hhead]

theorem exists_hasHead (h : IsKeyText cs) : ∃ head, HasHead cs head := by
  have hcs : (String.ofList cs).toList = cs := String.toList_ofList
  obtain ⟨-, out, hout, hdecode⟩ := IsKeyText.exists_decode (hcs.symm ▸ h)
  have htake := take_lower_of_decode hdecode
  rw [hcs] at htake
  exact ⟨⟨out.take 8, by rw [List.length_take, hout]; rfl⟩, h, htake⟩

/-! ### Addresses -/

/-- A text is **an address**: a numeral of a kind, a key and an identifier, with a colon between
each and the next one, and no other. -/
def WritesAddress (cs : List Char) (code : Nat) (key identifier : List Char) : Prop :=
  ∃ numeral, cs = numeral ++ ':' :: (key ++ ':' :: identifier) ∧
    ':' ∉ numeral ∧ ':' ∉ key ∧ ':' ∉ identifier ∧ Decimal.IsNumeral numeral code ∧ code ≤ 65535

/-- Two texts are addresses **of the same kind and identifier** whose keys agree in their first
sixteen digits. -/
def SameAddress (cs cs' : List Char) : Prop :=
  ∃ code key key' identifier, WritesAddress cs code key identifier ∧
    WritesAddress cs' code key' identifier ∧ SameKeyHead key key'

/-- An address is no key. -/
theorem WritesAddress.not_isKeyText {code : Nat} {key identifier : List Char}
    (h : WritesAddress cs code key identifier) : ¬ IsKeyText cs := by
  obtain ⟨numeral, rfl, -⟩ := h
  intro hkey
  have hcolon : Hex.IsDigit ':' :=
    hkey.2 ':' (List.mem_append_right _ List.mem_cons_self)
  exact absurd hcolon (by decide)

/-- An address holds its kind as it is. -/
theorem WritesAddress.code_inj {code code' : Nat} {key key' identifier identifier' : List Char}
    (h : WritesAddress cs code key identifier) (h' : WritesAddress cs' code' key' identifier')
    (heq : UInt16.ofNat code = UInt16.ofNat code') : code = code' := by
  obtain ⟨_, _, _, _, _, _, hle⟩ := h
  obtain ⟨_, _, _, _, _, _, hle'⟩ := h'
  have hcode := congrArg UInt16.toNat heq
  rw [UInt16.toNat_ofNat', UInt16.toNat_ofNat'] at hcode
  omega

/-- A text has three parts if there are two separators in it. -/
theorem splitAt_eq_three_iff {a b c : List Char} : splitAt ':' cs = [a, b, c] ↔
    cs = a ++ ':' :: (b ++ ':' :: c) ∧ ':' ∉ a ∧ ':' ∉ b ∧ ':' ∉ c := by
  constructor
  · intro h
    obtain ⟨ha, ⟨hnil, -⟩ | ⟨rest, rfl, hrest⟩⟩ := splitAt_eq_cons_iff.mp h
    · cases hnil
    obtain ⟨hb, ⟨hnil, -⟩ | ⟨last, rfl, hlast⟩⟩ := splitAt_eq_cons_iff.mp hrest
    · cases hnil
    obtain ⟨hc, ⟨-, rfl⟩ | ⟨more, -, hmore⟩⟩ := splitAt_eq_cons_iff.mp hlast
    · exact ⟨rfl, ha, hb, hc⟩
    · exact absurd hmore (splitAt_ne_nil ':' more)
  · rintro ⟨rfl, ha, hb, hc⟩
    rw [splitAt_append, splitAt_append, splitAt_eq_singleton ha, splitAt_eq_singleton hb,
      splitAt_eq_singleton hc]
    rfl

/-- **The texts that are read as addresses.** -/
theorem address?_eq_some_iff {v : TagValue} : address? text = some v ↔
    ∃ code key identifier head, WritesAddress text.toList code key identifier ∧
      HasHead key head ∧
        v = .address (UInt16.ofNat code) head (Bytes.ofText (String.ofList identifier)) := by
  have hkeyText : ∀ {key : List Char} {head}, keyHead? (Bytes.ofText (String.ofList key)) =
      some head ↔ HasHead key head := by
    intro key head
    rw [keyHead?_eq_some_iff, String.toList_ofList]
  constructor
  · intro h
    rw [address?] at h
    split at h
    · rename_i numeral key identifier hsplit
      obtain ⟨code, hcode, h⟩ := Option.bind_eq_some_iff.mp h
      obtain ⟨head, hhead, h⟩ := Option.bind_eq_some_iff.mp h
      obtain ⟨htext, hnumeral, hkey, hidentifier⟩ := splitAt_eq_three_iff.mp hsplit
      obtain ⟨hcode, hle⟩ := Decimal.readBounded_eq_some_iff.mp hcode
      exact ⟨code, key, identifier, head,
        ⟨numeral, htext, hnumeral, hkey, hidentifier, hcode, hle⟩, hkeyText.mp hhead,
        (Option.some.inj h).symm⟩
    · cases h
  · rintro ⟨code, key, identifier, head, ⟨numeral, htext, hnumeral, hkey, hidentifier, hcode⟩,
      hhead, rfl⟩
    rw [address?, splitAt_eq_three_iff.mpr ⟨htext, hnumeral, hkey, hidentifier⟩]
    dsimp only
    rw [Decimal.readBounded_eq_some_iff.mpr hcode, hkeyText.mpr hhead]
    rfl

/-! ### Forms -/

theorem classify_eq_key32 (h : HasHead text.toList head) : classify text = .key32 head := by
  rw [classify, keyHead?_eq_some_iff.mpr h]

theorem keyHead?_eq_none (h : ¬ IsKeyText text.toList) : keyHead? (Bytes.ofText text) = none :=
  Option.eq_none_iff_forall_ne_some.mpr fun _ heq => h (keyHead?_eq_some_iff.mp heq).1

theorem classify_eq_address {code : Nat} {key identifier : List Char}
    (h : WritesAddress text.toList code key identifier) (hhead : HasHead key head) :
    classify text =
      .address (UInt16.ofNat code) head (Bytes.ofText (String.ofList identifier)) := by
  have haddress := address?_eq_some_iff.mpr ⟨code, key, identifier, head, h, hhead, rfl⟩
  rw [classify, keyHead?_eq_none h.not_isKeyText, haddress]
  rfl

/-- A text has one of three forms. -/
theorem classify_cases (text : String) :
    (∃ head, HasHead text.toList head ∧ classify text = .key32 head) ∨
    (∃ code key identifier head, WritesAddress text.toList code key identifier ∧
      HasHead key head ∧ classify text =
        .address (UInt16.ofNat code) head (Bytes.ofText (String.ofList identifier))) ∨
    classify text = .raw (Bytes.ofText text) := by
  rw [classify]
  cases hkey : keyHead? (Bytes.ofText text) with
  | some head => exact .inl ⟨head, keyHead?_eq_some_iff.mp hkey, rfl⟩
  | none =>
    cases haddress : address? text with
    | some v =>
      obtain ⟨code, key, identifier, head, hwrites, hhead, rfl⟩ := address?_eq_some_iff.mp haddress
      exact .inr (.inl ⟨code, key, identifier, head, hwrites, hhead, rfl⟩)
    | none => exact .inr (.inr rfl)

/-- **The texts that the index cannot tell apart** are keys with the same first sixteen digits and
addresses of the same kind and identifier with such keys; any other text is in it as it is. -/
theorem classify_eq_iff {v w : String} : classify v = classify w ↔
    v = w ∨ SameKeyHead v.toList w.toList ∨ SameAddress v.toList w.toList := by
  constructor
  · intro h
    rcases classify_cases v with ⟨head, hv, hform⟩ | ⟨code, key, identifier, head, hv, hhead, hform⟩
      | hform <;> rcases classify_cases w with ⟨head', hw, hform'⟩ |
        ⟨code', key', identifier', head', hw, hhead', hform'⟩ | hform' <;>
        rw [hform, hform'] at h
    case inl.inl =>
      cases h
      exact .inr (.inl (hv.same hw))
    case inr.inl.inr.inl =>
      rw [TagValue.address.injEq] at h
      obtain ⟨hcode, rfl, hidentifier⟩ := h
      obtain rfl := hv.code_inj hw hcode
      obtain rfl : identifier = identifier' :=
        String.ofList_injective (Bytes.ofText_inj hidentifier)
      exact .inr (.inr ⟨code, key, key', identifier, hv, hw, hhead.same hhead'⟩)
    case inr.inr.inr.inr =>
      exact .inl (Bytes.ofText_inj (TagValue.raw.inj h))
    all_goals cases h
  · rintro (rfl | hkey | ⟨code, key, key', identifier, hv, hw, hkey⟩)
    · rfl
    · obtain ⟨head, hhead⟩ := exists_hasHead hkey.left
      rw [classify_eq_key32 hhead, classify_eq_key32 (hkey.hasHead hhead)]
    · obtain ⟨head, hhead⟩ := exists_hasHead hkey.left
      rw [classify_eq_address hv hhead, classify_eq_address hw (hkey.hasHead hhead)]

/-- Two spellings of an address, which differ in the numeral of the kind, in the case of the key and
behind its beginning. -/
example :
    let text : String → Char → Char → String := fun kind head tail =>
      kind ++ ":" ++ String.ofList (List.replicate 16 head ++ List.replicate 48 tail) ++ ":list"
    classify (text "+1" 'A' '0') = classify (text "001" 'a' '9') := by
  decide +kernel

end EventArchive.TagValue
