import EventArchive.Event.Basic
import EventArchive.Json.Printer
import EventArchive.Proofs.JsonGrammar
import EventArchive.Proofs.Numerals

/-! # What is written stands there

A text is a written form of a value (`Written`) if, before anything that may follow a
value, the value stands at its front.  Numerals need that condition: a digit, a point or
an exponent mark behind one would belong to it.  The writers of integers, strings, lists
and objects produce written forms, with one case for each way to write a character.
-/
namespace EventArchive

theorem FixedBytes.ofHex_toHex {f : HexField} (b : FixedBytes f) :
    FixedBytes.ofHex b.toHex = .ok b := by
  rw [FixedBytes.ofHex, FixedBytes.toHex, Hex.decodeText_encodeText]
  exact dif_pos b.length_eq

namespace Json

/-! ### Characters and strings -/

theorem hexValue?_digit : ∀ n < 16, hexValue? (Hex.digit n) = some n := by decide

theorem readEscape_control {c : Char} (hc : c < ' ') (rest : List Char) :
    readEscape ('u' :: '0' :: '0' :: Hex.digit (c.toNat / 16) :: Hex.digit (c.toNat % 16) :: rest) =
      .ok (c, rest) := by
  have hlt : c.toNat < 32 := Char.lt_def.mp hc
  have hhigh := hexValue?_digit (c.toNat / 16) (by omega)
  have hlow := hexValue?_digit (c.toNat % 16) (by omega)
  have hzero : hexValue? '0' = some 0 := rfl
  have hjoin : ((0 * 16 + 0) * 16 + c.toNat / 16) * 16 + c.toNat % 16 = c.toNat := by omega
  have hquad : readHexQuad ('0' :: '0' :: Hex.digit (c.toNat / 16) ::
      Hex.digit (c.toNat % 16) :: rest) = .ok (c.toNat, rest) := by
    simp only [readHexQuad, hzero, hhigh, hlow, hjoin]
  rw [readEscape]
  refine bind_eq_ok.mpr ⟨_, hquad, ?_⟩
  dsimp only
  rw [if_neg (by omega), if_neg (by omega), Char.ofNat_toNat]
  rfl

/-- The reader takes a written character back. -/
theorem readChars_writeChar (c : Char) {fuel : Nat} {cs s rest : List Char}
    (h : readChars fuel cs = .ok (s, rest)) :
    readChars (fuel + 1) (writeChar c ++ cs) = .ok (c :: s, rest) := by
  -- an escape takes a backslash and what `readEscape` takes
  have escaped : ∀ {e mid}, readEscape (e ++ cs) = .ok (mid, cs) →
      readChars (fuel + 1) (('\\' :: e) ++ cs) = .ok (mid :: s, rest) := by
    intro e mid hescape
    rw [List.cons_append, readChars, if_neg (by decide), if_pos rfl]
    exact bind_eq_ok.mpr ⟨_, hescape, bind_eq_ok.mpr ⟨_, h, rfl⟩⟩
  rw [writeChar]
  split_ifs with hquote hslash hb hf hn hr ht hcontrol
  · subst hquote
    exact escaped rfl
  · subst hslash
    exact escaped rfl
  · subst hb
    exact escaped rfl
  · subst hf
    exact escaped rfl
  · subst hn
    exact escaped rfl
  · subst hr
    exact escaped rfl
  · subst ht
    exact escaped rfl
  · exact escaped (readEscape_control hcontrol cs)
  · rw [List.singleton_append, readChars, if_neg hquote, if_neg hslash, if_neg hcontrol]
    exact bind_eq_ok.mpr ⟨_, h, rfl⟩

theorem readChars_flatMap_writeChar (s rest : List Char) {fuel : Nat} (hfuel : s.length < fuel) :
    readChars fuel (s.flatMap writeChar ++ '"' :: rest) = .ok (s, rest) := by
  induction s generalizing fuel with
  | nil =>
    obtain ⟨fuel, rfl⟩ := Nat.exists_eq_succ_of_ne_zero (Nat.ne_of_gt hfuel)
    rw [List.flatMap_nil, List.nil_append, readChars, if_pos rfl]
  | cons c s ih =>
    obtain ⟨fuel, rfl⟩ := Nat.exists_eq_succ_of_ne_zero (Nat.ne_of_gt (Nat.zero_lt_of_lt hfuel))
    rw [List.flatMap_cons, List.append_assoc]
    exact readChars_writeChar c (ih (Nat.lt_of_succ_lt_succ hfuel))

theorem writeChar_ne_nil (c : Char) : writeChar c ≠ [] := by
  rw [writeChar]
  split_ifs <;> exact List.cons_ne_nil _ _

theorem readQuoted_writeChar (s : String) (rest : List Char) :
    readQuoted (s.toList.flatMap writeChar ++ '"' :: rest) = .ok (s, rest) := by
  have hle : s.toList.length ≤ (s.toList.flatMap writeChar).length :=
    length_le_length_flatMap writeChar_ne_nil
  refine bind_eq_ok.mpr ⟨(s.toList, rest), readChars_flatMap_writeChar _ _ ?_, ?_⟩
  · rw [List.length_append, List.length_cons]
    omega
  · dsimp only
    rw [String.ofList_toList]
    rfl

/-! ### What may follow a value -/

/-- What may follow a value in a compact text. -/
inductive Closes : List Char → Prop
  | nothing : Closes []
  | comma (cs : List Char) : Closes (',' :: cs)
  | bracket (cs : List Char) : Closes (']' :: cs)
  | brace (cs : List Char) : Closes ('\x7d' :: cs)

/-- A text is a written form of a value: before all that may follow a value, it is read as
that value, nested at most `depth` deep. -/
def Written (depth : Nat) (text : List Char) (v : Value) : Prop :=
  ∀ rest, Closes rest → Reads depth (text ++ rest) (.value v) rest

variable {depth : Nat} {rest : List Char}

theorem isBlank_of_isDigit {c : Char} (hc : c.isDigit = true) : isBlank c = false := by
  refine decide_eq_false ?_
  rintro (rfl | rfl | rfl | rfl) <;> cases hc

theorem Written.read_ofList {text : List Char} {v : Value} (h : Written depthLimit text v) :
    read (String.ofList text) = .ok v := by
  refine read_eq_ok_iff.mpr ⟨[], ?_, rfl⟩
  have hreads := h [] .nothing
  rwa [List.append_nil, ← String.toList_ofList (l := text)] at hreads

theorem written_writeText (s : String) : Written depth (writeText s) (.text s) := by
  intro rest _
  rw [writeText, List.cons_append, List.cons_append, List.append_assoc, List.singleton_append]
  exact .text (skipBlanks_cons rfl _) (readQuoted_writeChar s rest)

/-! ### Integers -/

theorem Closes.not_isDigit (h : Closes rest) : ∀ c ∈ rest.head?, c.isDigit = false := by
  intro c hc
  cases h with
  | nothing => cases hc
  | comma | bracket | brace =>
    obtain rfl := Option.some.inj hc
    decide

theorem readIntegral_digits (n : Nat) (h : Closes rest) :
    readIntegral (Decimal.digits n ++ rest) = .ok (Decimal.digits n, rest) := by
  obtain ⟨d, ds, heq, hzero⟩ := Decimal.exists_digits_eq_cons n
  rw [readIntegral, Decimal.span_digits_append n h.not_isDigit, heq]
  split
  · rename_i heq'
    cases heq'
  · rename_i heq'
    cases heq'
  · rename_i heq'
    obtain ⟨hhead, -⟩ := Prod.mk.inj heq'
    obtain ⟨rfl, hds⟩ := List.cons.inj hhead
    rw [hzero rfl] at hds
    cases hds
  · rename_i heq'
    cases heq'
    rfl

/-- Digits that nothing continues are an integer. -/
theorem readUnsigned_digits {negative : Bool} {n : Nat} {i : Int} (h : Closes rest)
    (hnumber : numberOf negative (Decimal.digits n) none none = .ok (.integer i)) :
    readUnsigned negative (Decimal.digits n ++ rest) = .ok (.integer i, rest) := by
  have hfraction : readFraction rest = .ok (none, rest) := by cases h <;> rfl
  have hexponent : readExponent rest = .ok (none, rest) := by cases h <;> rfl
  refine bind_eq_ok.mpr ⟨_, readIntegral_digits n h, bind_eq_ok.mpr ⟨_, hfraction, ?_⟩⟩
  exact bind_eq_ok.mpr ⟨_, hexponent, bind_eq_ok.mpr ⟨_, hnumber, rfl⟩⟩

theorem written_writeInt {i : Int} (hlow : Int64.minValue.toInt ≤ i) (hhigh : i < UInt64.size) :
    Written depth (writeInt i) (.number (.integer i)) := by
  intro rest hrest
  cases i with
  | ofNat n =>
    have hnumber : numberOf false (Decimal.digits n) none none = .ok (.integer n) := by
      have hlt : n < UInt64.size := Int.ofNat_lt.mp hhigh
      rw [numberOf, Decimal.value_digits]
      exact (if_neg (by decide)).trans ((if_neg (by decide)).trans (if_pos hlt))
    obtain ⟨d, ds, heq, -⟩ := Decimal.exists_digits_eq_cons n
    have hd : d.isDigit = true := Decimal.isDigit_of_mem_digits (heq ▸ List.mem_cons_self)
    have hread := readUnsigned_digits hrest hnumber
    have hne : d ≠ '-' := by
      rintro rfl
      cases hd
    rw [writeInt, Decimal.signed, heq, List.cons_append]
    rw [heq, List.cons_append] at hread
    refine .number (skipBlanks_cons ?_ _) (.inr hd) ?_
    · exact isBlank_of_isDigit hd
    · rw [readNumber.eq_2 _ (fun _ h => hne (List.cons.inj h).1)]
      exact hread
  | negSucc n =>
    have hnumber : numberOf true (Decimal.digits (n + 1)) none none =
        .ok (.integer (Int.negSucc n)) := by
      rw [numberOf, Decimal.value_digits]
      exact (if_neg (by decide)).trans ((if_pos rfl).trans (if_pos ⟨Nat.succ_ne_zero n, hlow⟩))
    rw [writeInt, Decimal.signed, List.cons_append]
    refine .number (skipBlanks_cons rfl _) (.inl rfl) ?_
    rw [readNumber]
    exact readUnsigned_digits hrest hnumber

/-! ### Lists and objects -/

theorem joinComma_cons (x : List Char) (xs : List (List Char)) :
    joinComma (x :: xs) = x ++ xs.flatMap (',' :: ·) := by
  induction xs generalizing x with
  | nil => exact (List.append_nil x).symm
  | cons y xs ih => rw [joinComma, ih, List.flatMap_cons, List.cons_append]

theorem Closes.flatMap_append (h : Closes rest) (texts : List (List Char)) :
    Closes (texts.flatMap (',' :: ·) ++ rest) := by
  cases texts with
  | nil => exact h
  | cons x texts => exact .comma _

theorem reads_items {texts : List (List Char)} {vs : List Value}
    (h : List.Forall₂ (Written depth) texts vs) :
    Reads depth (texts.flatMap (',' :: ·) ++ ']' :: rest) (.items vs) rest := by
  induction h with
  | nil => exact .endItems (skipBlanks_cons rfl _)
  | @cons x v texts vs hx hrest ih =>
    rw [List.flatMap_cons, List.cons_append, List.cons_append, List.append_assoc]
    exact .moreItems (skipBlanks_cons rfl _) (hx _ ((Closes.bracket rest).flatMap_append texts)) ih

theorem written_writeList {texts : List (List Char)} {vs : List Value}
    (h : List.Forall₂ (Written depth) texts vs) :
    Written (depth + 1) (writeList texts) (.list vs) := by
  intro rest _
  rw [writeList, List.cons_append, List.cons_append, List.append_assoc, List.singleton_append]
  cases h with
  | nil => exact .emptyList (skipBlanks_cons rfl _) (skipBlanks_cons rfl _)
  | @cons x v texts vs hx hrest =>
    rw [joinComma_cons, List.append_assoc]
    have hfirst := hx _ ((Closes.bracket rest).flatMap_append texts)
    exact .list (skipBlanks_cons rfl _) (hfirst.of_skipBlanks (skipBlanks_skipBlanks _))
      (reads_items hrest)

/-- A key with the text of its value is a written form of a member. -/
def WrittenMember (depth : Nat) (entry : String × List Char) (m : String × Value) : Prop :=
  entry.1 = m.1 ∧ Written depth entry.2 m.2

theorem WrittenMember.reads {entry : String × List Char} {m : String × Value}
    (h : WrittenMember depth entry m) (hrest : Closes rest) :
    Reads depth (writeText entry.1 ++ ':' :: entry.2 ++ rest) (.member m) rest := by
  obtain ⟨key, v⟩ := m
  obtain ⟨rfl, hvalue⟩ := h
  simp only [writeText, List.cons_append, List.append_assoc]
  exact .member (readQuoted_writeChar _ _) (skipBlanks_cons rfl _) (hvalue _ hrest)

theorem reads_members {entries : List (String × List Char)} {ms : List (String × Value)}
    (h : List.Forall₂ (WrittenMember depth) entries ms) :
    Reads depth ((entries.map fun e => writeText e.1 ++ ':' :: e.2).flatMap (',' :: ·) ++
      '\x7d' :: rest) (.members ms) rest := by
  induction h with
  | nil => exact .endMembers (skipBlanks_cons rfl _)
  | @cons e m entries ms he hrest ih =>
    rw [List.map_cons, List.flatMap_cons, List.cons_append, List.cons_append, List.append_assoc]
    have hfirst := he.reads ((Closes.brace rest).flatMap_append
      (entries.map fun e => writeText e.1 ++ ':' :: e.2))
    exact .moreMembers (skipBlanks_cons rfl _) hfirst.skipBlanks_member ih

theorem written_writeObject {entries : List (String × List Char)} {ms : List (String × Value)}
    (h : List.Forall₂ (WrittenMember depth) entries ms) :
    Written (depth + 1) (writeObject entries) (.object ms) := by
  intro rest _
  rw [writeObject, List.cons_append, List.cons_append, List.append_assoc, List.singleton_append]
  cases h with
  | nil => exact .emptyObject (skipBlanks_cons rfl _) (skipBlanks_cons rfl _)
  | @cons e m entries ms he hrest =>
    rw [List.map_cons, joinComma_cons, List.append_assoc]
    have hfirst := he.reads ((Closes.brace rest).flatMap_append
      (entries.map fun e => writeText e.1 ++ ':' :: e.2))
    exact .object (skipBlanks_cons rfl _) hfirst.skipBlanks_member (reads_members hrest)

end Json
end EventArchive
