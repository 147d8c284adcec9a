import Mathlib
import EventArchive.Data.Decimal
import EventArchive.Data.Hex
import EventArchive.Proofs.StoredRoundTrip

/-! # Numbers and bytes as texts

A numeral is read as the number for which it is written, and any text of digits is one,
whatever zeros it begins with (`Decimal.readBounded_eq_some_iff`).  A hexadecimal text is
read as the bytes for which it is written up to case: in lower case the digits that are
read are those of the bytes (`Hex.decodeText_eq_ok_iff`).  Digits are characters of one
byte, so a text of digits has as many bytes as characters, and no other character is
taken for one.
-/
namespace EventArchive

/-! ### Decimal numerals -/

namespace Decimal

theorem isDigit_ofNat : ∀ n < 10, (Char.ofNat (48 + n)).isDigit = true := by decide

theorem digitValue_ofNat : ∀ n < 10, digitValue (Char.ofNat (48 + n)) = n := by decide

theorem value_append_singleton (ds : List Char) (d : Char) :
    value (ds ++ [d]) = value ds * 10 + digitValue d := by
  simp [value]

theorem value_digits (n : Nat) : value (digits n) = n := by
  induction n using digits.induct with
  | case1 n hsmall =>
    rw [digits, if_pos hsmall]
    exact (Nat.zero_add _).trans (digitValue_ofNat n hsmall)
  | case2 n hbig ih =>
    have hlast := digitValue_ofNat (n % 10) (Nat.mod_lt _ (by decide))
    rw [digits, if_neg hbig, value_append_singleton, ih, hlast]
    omega

theorem isDigit_of_mem_digits {n : Nat} {c : Char} (h : c ∈ digits n) : c.isDigit = true := by
  induction n using digits.induct with
  | case1 n hsmall =>
    rw [digits, if_pos hsmall, List.mem_singleton] at h
    exact h ▸ isDigit_ofNat n hsmall
  | case2 n hbig ih =>
    rw [digits, if_neg hbig, List.mem_append, List.mem_singleton] at h
    rcases h with h | rfl
    · exact ih h
    · exact isDigit_ofNat _ (Nat.mod_lt _ (by decide))

/-- A numeral begins with a zero only if it is that zero. -/
theorem exists_digits_eq_cons (n : Nat) : ∃ d ds, digits n = d :: ds ∧ (d = '0' → ds = []) := by
  induction n using digits.induct with
  | case1 n hsmall => exact ⟨_, [], by rw [digits, if_pos hsmall], fun _ => rfl⟩
  | case2 n hbig ih =>
    obtain ⟨d, ds, heq, hzero⟩ := ih
    have hcons : digits n = d :: (ds ++ [Char.ofNat (48 + n % 10)]) := by
      rw [digits, if_neg hbig, heq, List.cons_append]
    refine ⟨d, _, hcons, ?_⟩
    rintro rfl
    have hvalue := value_digits (n / 10)
    rw [heq, hzero rfl] at hvalue
    have hpos : 0 < n / 10 := by omega
    exact absurd hvalue (Nat.ne_of_lt hpos)

theorem span_digits_append (n : Nat) {rest : List Char}
    (hrest : ∀ c ∈ rest.head?, c.isDigit = false) : span (digits n ++ rest) = (digits n, rest) := by
  have hall : ∀ c ∈ digits n, c.isDigit = true := fun c => isDigit_of_mem_digits
  rw [span, List.takeWhile_append_of_pos hall, List.dropWhile_append_of_pos hall]
  cases rest with
  | nil => simp
  | cons c rest =>
    have hc : c.isDigit = false := hrest c rfl
    simp [hc]

/-- A text **is a numeral of a number**: its digits, after one plus sign at most. -/
def IsNumeral (cs : List Char) (n : Nat) : Prop :=
  ∃ ds, (cs = ds ∨ cs = '+' :: ds) ∧ ds ≠ [] ∧ (∀ c ∈ ds, c.isDigit = true) ∧ value ds = n

/-- **The numerals that are read** are those of numbers up to the bound. -/
theorem readBounded_eq_some_iff {bound n : Nat} {cs : List Char} :
    readBounded bound cs = some n ↔ IsNumeral cs n ∧ n ≤ bound := by
  have hread : ∀ ds : List Char, (if ds.isEmpty ∨ ¬ ds.all Char.isDigit then none
      else if value ds ≤ bound then some (value ds) else none) = some n ↔
        (ds ≠ [] ∧ (∀ c ∈ ds, c.isDigit = true) ∧ value ds = n) ∧ n ≤ bound := by
    intro ds
    split_ifs with hbad hle <;> rw [List.isEmpty_iff, List.all_eq_true] at hbad
    · refine iff_of_false nofun fun h => ?_
      exact hbad.elim h.1.1 fun hdigits => hdigits h.1.2.1
    · rw [not_or, not_not] at hbad
      rw [Option.some.injEq]
      constructor
      · rintro rfl
        exact ⟨⟨hbad.1, hbad.2, rfl⟩, hle⟩
      · exact fun h => h.1.2.2
    · refine iff_of_false nofun fun h => ?_
      exact hle (h.1.2.2 ▸ h.2)
  by_cases hsign : ∃ ds, cs = '+' :: ds
  · obtain ⟨ds, rfl⟩ := hsign
    rw [readBounded, hread]
    refine and_congr_left fun _ => ⟨fun h => ⟨ds, .inr rfl, h⟩, ?_⟩
    rintro ⟨ds', rfl | heq, hds⟩
    · -- the sign is no digit
      cases hds.2.1 '+' List.mem_cons_self
    · cases heq
      exact hds
  · rw [readBounded, hread]
    · refine and_congr_left fun _ => ⟨fun h => ⟨cs, .inl rfl, h⟩, ?_⟩
      rintro ⟨ds, rfl | rfl, hds⟩
      · exact hds
      · exact absurd ⟨ds, rfl⟩ hsign
    · exact fun ds h => hsign ⟨ds, h⟩

end Decimal

/-! ### Texts as bytes -/

namespace Bytes

theorem ofText_eq (s : String) : ofText s = s.toList.flatMap String.utf8EncodeChar := by
  conv_lhs => rw [← String.ofList_toList (s := s)]
  rw [ofText, String.toByteArray_ofList, List.utf8Encode, List.data_toByteArray,
    List.toList_toArray]

theorem utf8EncodeChar_eq {c : Char} (h : c.toNat < 128) :
    String.utf8EncodeChar c = [UInt8.ofNat c.toNat] := by
  have hle : c.val.toNat ≤ 127 := Nat.le_of_lt_succ h
  rw [String.utf8EncodeChar]
  exact if_pos hle

/-- A character of several bytes has one that is none of ASCII. -/
theorem exists_high_byte {c : Char} (h : 128 ≤ c.toNat) :
    ∃ b ∈ String.utf8EncodeChar c, 128 ≤ b.toNat := by
  have hval : c.val.toNat = c.toNat := rfl
  rw [String.utf8EncodeChar]
  split_ifs
  · omega
  all_goals
    refine ⟨_, List.mem_cons_self, ?_⟩
    rw [UInt8.toNat_ofNat']
    omega

/-- A text of characters of one byte each. -/
theorem ofText_of_ascii {s : String} (h : ∀ c ∈ s.toList, c.toNat < 128) :
    ofText s = s.toList.map fun c => UInt8.ofNat c.toNat := by
  rw [ofText_eq, List.flatMap_congr fun c hc => utf8EncodeChar_eq (h c hc)]
  exact List.map_eq_flatMap.symm

/-- A text whose bytes are of ASCII has such characters only. -/
theorem ascii_of_ofText {s : String} (h : ∀ b ∈ ofText s, b.toNat < 128) :
    ∀ c ∈ s.toList, c.toNat < 128 := by
  intro c hc
  by_contra hhigh
  obtain ⟨b, hb, hle⟩ := exists_high_byte (Nat.not_lt.mp hhigh)
  rw [ofText_eq] at h
  exact Nat.not_lt.mpr hle (h b (List.mem_flatMap.mpr ⟨c, hc, hb⟩))

theorem ofText_inj {s s' : String} (h : ofText s = ofText s') : s = s' := by
  have htext := toText?_ofText s
  rw [h, toText?_ofText] at htext
  exact (Option.some.inj htext).symm

end Bytes

/-! ### Hexadecimal -/

namespace Hex

theorem length_encode (bytes : Bytes) : (encode bytes).length = 2 * bytes.length := by
  induction bytes with
  | nil => rfl
  | cons b bytes ih =>
    rw [encode, List.length_cons, List.length_cons, List.length_cons, ih]
    omega

/-- A digit of either case. -/
def IsDigit (c : Char) : Prop := c.isDigit = true ∨ ('a' ≤ c ∧ c ≤ 'f') ∨ ('A' ≤ c ∧ c ≤ 'F')

instance (c : Char) : Decidable (IsDigit c) :=
  inferInstanceAs (Decidable (c.isDigit = true ∨ ('a' ≤ c ∧ c ≤ 'f') ∨ ('A' ≤ c ∧ c ≤ 'F')))

theorem IsDigit.toNat_lt {c : Char} (h : IsDigit c) : c.toNat < 128 := by
  have below : ∀ {d : Char}, d.toNat < 128 → c ≤ d → c.toNat < 128 := fun hd hle =>
    Nat.lt_of_le_of_lt (Char.le_def.mp hle) hd
  rcases h with h | ⟨-, h⟩ | ⟨-, h⟩
  · rw [Char.isDigit, Bool.and_eq_true, decide_eq_true_eq, decide_eq_true_eq] at h
    exact below (d := '9') (by decide) h.2
  · exact below (by decide) h
  · exact below (by decide) h

theorem digitValue?_ofNat : ∀ n < 128, ∀ v < 16, digitValue? (UInt8.ofNat n) = some v ↔
    IsDigit (Char.ofNat n) ∧ (Char.ofNat n).toLower = digit v := by
  decide +kernel

theorem lt_of_digitValue? {b : UInt8} {v : Nat} (h : digitValue? b = some v) :
    b.toNat < 128 ∧ v < 16 := by
  rw [digitValue?] at h
  split_ifs at h <;> cases h <;> omega

theorem exists_digit_ofNat : ∀ n < 128, IsDigit (Char.ofNat n) →
    ∃ v < 16, (Char.ofNat n).toLower = digit v := by
  decide +kernel

theorem IsDigit.exists_digit {c : Char} (h : IsDigit c) : ∃ v < 16, c.toLower = digit v := by
  have hdigit := exists_digit_ofNat c.toNat h.toNat_lt
  rw [Char.ofNat_toNat] at hdigit
  exact hdigit h

/-- **A digit is read as the value of its lower case.** -/
theorem digitValue?_eq_some_iff {c : Char} (hc : c.toNat < 128) {v : Nat} :
    digitValue? (UInt8.ofNat c.toNat) = some v ↔ v < 16 ∧ IsDigit c ∧ c.toLower = digit v := by
  constructor
  · intro h
    have hv := (lt_of_digitValue? h).2
    rw [digitValue?_ofNat _ hc v hv, Char.ofNat_toNat] at h
    exact ⟨hv, h⟩
  · rintro ⟨hv, h⟩
    rwa [digitValue?_ofNat _ hc v hv, Char.ofNat_toNat]

theorem readDigit_eq_ok_iff {b : UInt8} {position v : Nat} :
    readDigit b position = .ok v ↔ digitValue? b = some v := by
  rw [readDigit]
  cases digitValue? b <;> simp

theorem decodePairs_cons_eq_ok_iff {high low : UInt8} {rest out : Bytes} {position : Nat} :
    decodePairs position (high :: low :: rest) = .ok out ↔ ∃ h l tail,
      digitValue? high = some h ∧ digitValue? low = some l ∧
        decodePairs (position + 2) rest = .ok tail ∧ UInt8.ofNat (16 * h + l) :: tail = out := by
  rw [decodePairs, bind_eq_ok]
  simp only [bind_eq_ok, readDigit_eq_ok_iff]
  constructor
  · rintro ⟨h, hh, l, hl, tail, htail, heq⟩
    exact ⟨h, l, tail, hh, hl, htail, Except.ok.inj heq⟩
  · rintro ⟨h, l, tail, hh, hl, htail, rfl⟩
    exact ⟨h, hh, l, hl, tail, htail, rfl⟩

theorem toNat_lt_of_decodePairs {position : Nat} {bytes out : Bytes}
    (h : decodePairs position bytes = .ok out) : ∀ b ∈ bytes, b.toNat < 128 := by
  induction bytes using List.twoStepInduction generalizing position out with
  | nil => exact fun _ hb => absurd hb List.not_mem_nil
  | singleton b => cases h
  | cons_cons high low rest ih _ =>
    obtain ⟨_, _, _, hhigh, hlow, hrest, -⟩ := decodePairs_cons_eq_ok_iff.mp h
    intro b hb
    rcases List.mem_cons.mp hb with rfl | hb
    · exact (lt_of_digitValue? hhigh).1
    · rcases List.mem_cons.mp hb with rfl | hb
      · exact (lt_of_digitValue? hlow).1
      · exact ih hrest b hb

/-- The digits of a byte, one after the other. -/
theorem encode_ofNat_cons {h l : Nat} (hh : h < 16) (hl : l < 16) (bytes : Bytes) :
    encode (UInt8.ofNat (16 * h + l) :: bytes) = digit h :: digit l :: encode bytes := by
  have hbyte : (UInt8.ofNat (16 * h + l)).toNat = 16 * h + l := by
    rw [UInt8.toNat_ofNat']
    omega
  have hhigh : (16 * h + l) / 16 = h := by omega
  have hlow : (16 * h + l) % 16 = l := by omega
  rw [encode, hbyte, hhigh, hlow]

theorem decodePairs_eq_ok_iff {cs : List Char} (hascii : ∀ c ∈ cs, c.toNat < 128) {position : Nat}
    {out : Bytes} : decodePairs position (cs.map fun c => UInt8.ofNat c.toNat) = .ok out ↔
      (∀ c ∈ cs, IsDigit c) ∧ cs.map Char.toLower = encode out := by
  induction cs using List.twoStepInduction generalizing position out with
  | nil =>
    constructor
    · intro h
      cases h
      exact ⟨nofun, rfl⟩
    · rintro ⟨-, h⟩
      cases out with
      | nil => rfl
      | cons b out => cases h
  | singleton c =>
    refine iff_of_false nofun ?_
    rintro ⟨-, h⟩
    have hlen := congrArg List.length h
    rw [length_encode, List.length_map, List.length_singleton] at hlen
    omega
  | cons_cons c d cs ih _ =>
    have hc := hascii c List.mem_cons_self
    have hd := hascii d (List.mem_cons_of_mem _ List.mem_cons_self)
    have hcs : ∀ c ∈ cs, c.toNat < 128 := fun c hc =>
      hascii c (List.mem_cons_of_mem _ (List.mem_cons_of_mem _ hc))
    rw [List.map_cons, List.map_cons, decodePairs_cons_eq_ok_iff]
    simp only [digitValue?_eq_some_iff hc, digitValue?_eq_some_iff hd, ih hcs, List.forall_mem_cons,
      List.map_cons]
    constructor
    · rintro ⟨h, l, tail, ⟨hh, hdigit, hhigh⟩, ⟨hl, hdigit', hlow⟩, ⟨hdigits, hrest⟩, rfl⟩
      rw [encode_ofNat_cons hh hl, hhigh, hlow, hrest]
      exact ⟨⟨hdigit, hdigit', hdigits⟩, rfl⟩
    · rintro ⟨⟨hdigit, hdigit', hdigits⟩, h⟩
      cases out with
      | nil => cases h
      | cons b out =>
        have hb := b.toNat_lt
        have hjoin : 16 * (b.toNat / 16) + b.toNat % 16 = b.toNat := Nat.div_add_mod _ _
        obtain ⟨hhigh, h⟩ := List.cons.inj h
        obtain ⟨hlow, hrest⟩ := List.cons.inj h
        refine ⟨b.toNat / 16, b.toNat % 16, out, ⟨by omega, hdigit, hhigh⟩,
          ⟨by omega, hdigit', hlow⟩, ⟨hdigits, hrest⟩, ?_⟩
        rw [hjoin, UInt8.ofNat_toNat]

/-- **A text is read as bytes if it consists of digits**, in lower case those of the bytes. -/
theorem decodeText_eq_ok_iff {s : String} {out : Bytes} : decodeText s = .ok out ↔
    (∀ c ∈ s.toList, IsDigit c) ∧ s.toList.map Char.toLower = encode out := by
  have hpairs : ∀ hascii : ∀ c ∈ s.toList, c.toNat < 128,
      decodePairs 0 (Bytes.ofText s) = .ok out ↔
        (∀ c ∈ s.toList, IsDigit c) ∧ s.toList.map Char.toLower = encode out := fun hascii => by
    rw [Bytes.ofText_of_ascii hascii, decodePairs_eq_ok_iff hascii]
  rw [decodeText, decode]
  split_ifs with hodd
  · refine iff_of_false nofun fun h => ?_
    have hlen := congrArg List.length h.2
    rw [List.length_map, length_encode] at hlen
    rw [Bytes.ofText_of_ascii fun c hc => (h.1 c hc).toNat_lt, List.length_map, hlen] at hodd
    omega
  · constructor
    · intro h
      exact (hpairs (Bytes.ascii_of_ofText (toNat_lt_of_decodePairs h))).mp h
    · intro h
      exact (hpairs fun c hc => (h.1 c hc).toNat_lt).mpr h

/-- An even number of digits is, in lower case, what is written for some bytes. -/
theorem exists_encode {cs : List Char} (hdigits : ∀ c ∈ cs, IsDigit c)
    (heven : cs.length % 2 = 0) : ∃ out, cs.map Char.toLower = encode out := by
  induction cs using List.twoStepInduction with
  | nil => exact ⟨[], rfl⟩
  | singleton c => cases heven
  | cons_cons c d cs ih _ =>
    rw [List.forall_mem_cons, List.forall_mem_cons] at hdigits
    obtain ⟨hc, hd, hcs⟩ := hdigits
    obtain ⟨h, hh, hhigh⟩ := hc.exists_digit
    obtain ⟨l, hl, hlow⟩ := hd.exists_digit
    rw [List.length_cons, List.length_cons] at heven
    obtain ⟨out, hrest⟩ := ih hcs (by omega)
    exact ⟨_, by rw [encode_ofNat_cons hh hl, List.map_cons, List.map_cons, hhigh, hlow, hrest]⟩

theorem isDigit_digit : ∀ n < 16, IsDigit (digit n) ∧ (digit n).toLower = digit n := by decide

/-- Bytes are written in lower case. -/
theorem lower_encode (bytes : Bytes) :
    (∀ c ∈ encode bytes, IsDigit c) ∧ (encode bytes).map Char.toLower = encode bytes := by
  induction bytes with
  | nil => exact ⟨nofun, rfl⟩
  | cons b bytes ih =>
    have hb := b.toNat_lt
    obtain ⟨hhigh, hhighLower⟩ := isDigit_digit (b.toNat / 16) (by omega)
    obtain ⟨hlow, hlowLower⟩ := isDigit_digit (b.toNat % 16) (by omega)
    rw [encode, List.map_cons, List.map_cons, hhighLower, hlowLower, ih.2]
    exact ⟨List.forall_mem_cons.mpr ⟨hhigh, List.forall_mem_cons.mpr ⟨hlow, ih.1⟩⟩, rfl⟩

theorem decodeText_encodeText (bytes : Bytes) : decodeText (encodeText bytes) = .ok bytes := by
  rw [decodeText_eq_ok_iff, encodeText, String.toList_ofList]
  exact lower_encode bytes

theorem encode_inj {bytes bytes' : Bytes} (h : encode bytes = encode bytes') : bytes = bytes' := by
  have hread := decodeText_encodeText bytes
  rw [encodeText, h, ← encodeText, decodeText_encodeText] at hread
  exact (Except.ok.inj hread).symm

theorem encode_take (bytes : Bytes) (n : Nat) :
    (encode bytes).take (2 * n) = encode (bytes.take n) := by
  induction n generalizing bytes with
  | zero => rfl
  | succ n ih =>
    cases bytes with
    | nil => rfl
    | cons b bytes =>
      rw [Nat.mul_succ, encode, List.take_succ_cons, List.take_succ_cons, ih]
      rfl

end Hex
end EventArchive
