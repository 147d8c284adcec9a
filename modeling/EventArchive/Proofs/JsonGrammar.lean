import EventArchive.Json.Value
import EventArchive.Proofs.StoredRoundTrip

/-! # The grammar of JSON

`Reads` is the grammar that the reader of values follows, without the fuel: which part
of a value stands at the front of a text, how deep it nests at most, and what is left of
the text.  Every part takes a character, so the length of the text is fuel enough, and
the reader and the grammar agree (`Part.readBy_iff`, `read_eq_ok_iff`).  So one value at
most stands at the front of a text (`Reads.value_unique`).
-/
namespace EventArchive.Json

/-! ### What is left of a text -/

theorem length_skipBlanks_le (cs : List Char) : (skipBlanks cs).length ≤ cs.length :=
  List.length_dropWhile_le _ _

@[simp] theorem skipBlanks_skipBlanks (cs : List Char) :
    skipBlanks (skipBlanks cs) = skipBlanks cs :=
  List.dropWhile_idempotent _ _

theorem skipBlanks_cons {c : Char} (hc : isBlank c = false) (cs : List Char) :
    skipBlanks (c :: cs) = c :: cs :=
  List.dropWhile_cons_of_neg (by simp [hc])

/-- What stands behind the first character that is no blank is shorter than the text. -/
theorem length_lt_of_skipBlanks {c : Char} {cs rest : List Char} (h : skipBlanks cs = c :: rest) :
    rest.length < cs.length := by
  have hle := length_skipBlanks_le cs
  rw [h, List.length_cons] at hle
  exact hle

theorem eq_append_of_readWord {word cs rest : List Char} (h : readWord word cs = .ok rest) :
    cs = word ++ rest := by
  induction word generalizing cs with
  | nil =>
    cases h
    rfl
  | cons w word ih =>
    cases cs with
    | nil => cases h
    | cons c cs =>
      rw [readWord, ite_eq_ok] at h
      obtain ⟨rfl, h⟩ := h
      rw [ih h, List.cons_append]

theorem length_le_of_readWord {word cs rest : List Char} (h : readWord word cs = .ok rest) :
    rest.length ≤ cs.length := by
  rw [eq_append_of_readWord h, List.length_append]
  omega

theorem length_of_readHexQuad {cs rest : List Char} {n : Nat}
    (h : readHexQuad cs = .ok (n, rest)) : rest.length < cs.length := by
  rw [readHexQuad.eq_def] at h
  split at h
  · split at h
    · cases h
      simp only [List.length_cons]
      omega
    · cases h
  · split at h <;> cases h

theorem length_lt_of_readLowSurrogate {high : Nat} {cs rest : List Char} {c : Char}
    (h : readLowSurrogate high cs = .ok (c, rest)) : rest.length < cs.length := by
  obtain ⟨mid, hword, h⟩ := bind_eq_ok.mp h
  obtain ⟨⟨low, mid'⟩, hquad, h⟩ := bind_eq_ok.mp h
  have hle := length_le_of_readWord hword
  have hlt := length_of_readHexQuad hquad
  dsimp only at h
  by_cases hlow : 0xDC00 ≤ low ∧ low ≤ 0xDFFF
  · rw [if_pos hlow] at h
    obtain ⟨-, rfl⟩ := Prod.mk.inj (Except.ok.inj h)
    omega
  · rw [if_neg hlow] at h
    cases h

theorem length_lt_of_readEscape {cs rest : List Char} {c : Char}
    (h : readEscape cs = .ok (c, rest)) : rest.length < cs.length := by
  rw [readEscape.eq_def] at h
  split at h
  case h_10 cs =>
    obtain ⟨⟨n, mid⟩, hquad, h⟩ := bind_eq_ok.mp h
    have hlt := length_of_readHexQuad hquad
    rw [List.length_cons]
    dsimp only at h
    by_cases hhigh : 0xD800 ≤ n ∧ n ≤ 0xDBFF
    · rw [if_pos hhigh] at h
      have hlt' := length_lt_of_readLowSurrogate h
      omega
    · rw [if_neg hhigh] at h
      by_cases hlow : 0xDC00 ≤ n ∧ n ≤ 0xDFFF
      · rw [if_pos hlow] at h
        cases h
      · rw [if_neg hlow] at h
        obtain ⟨-, rfl⟩ := Prod.mk.inj (Except.ok.inj h)
        omega
  all_goals cases h
  all_goals exact Nat.lt_succ_self _

theorem length_lt_of_readChars {fuel : Nat} {cs rest s : List Char}
    (h : readChars fuel cs = .ok (s, rest)) : rest.length < cs.length := by
  induction fuel generalizing cs s with
  | zero => cases cs <;> cases h
  | succ fuel ih =>
    cases cs with
    | nil => cases h
    | cons c cs =>
      rw [List.length_cons]
      rw [readChars] at h
      split at h
      · cases h
        omega
      · split at h
        · obtain ⟨⟨c', mid⟩, hescape, h⟩ := bind_eq_ok.mp h
          obtain ⟨⟨s', mid'⟩, hchars, h⟩ := bind_eq_ok.mp h
          cases h
          have hlt := length_lt_of_readEscape hescape
          have hlt' := ih hchars
          omega
        · split at h
          · cases h
          · obtain ⟨⟨s', mid⟩, hchars, h⟩ := bind_eq_ok.mp h
            cases h
            have hlt := ih hchars
            omega

theorem length_lt_of_readQuoted {cs rest : List Char} {s : String}
    (h : readQuoted cs = .ok (s, rest)) : rest.length < cs.length := by
  obtain ⟨⟨s', mid⟩, hchars, h⟩ := bind_eq_ok.mp h
  cases h
  exact length_lt_of_readChars hchars

/-! ### What is left behind a number -/

theorem append_of_span (cs : List Char) : (Decimal.span cs).1 ++ (Decimal.span cs).2 = cs :=
  List.takeWhile_append_dropWhile

theorem length_le_of_readDigits {cs ds rest : List Char} (h : readDigits cs = .ok (ds, rest)) :
    rest.length ≤ cs.length := by
  have happ := congrArg List.length (append_of_span cs)
  rw [List.length_append] at happ
  rw [readDigits] at h
  split at h
  · cases h
  · cases h
  · rename_i heq
    cases h
    rw [heq] at happ
    dsimp only at happ
    omega

theorem length_lt_of_readIntegral {cs ds rest : List Char}
    (h : readIntegral cs = .ok (ds, rest)) : rest.length < cs.length := by
  have happ := congrArg List.length (append_of_span cs)
  rw [readIntegral] at h
  cases hspan : Decimal.span cs with
  | mk ds' rest' =>
    rw [hspan] at h happ
    cases ds' with
    | nil => cases rest' <;> cases h
    | cons d ds' =>
      dsimp only at happ
      rw [List.length_append, List.length_cons] at happ
      split at h
      · cases h
      · cases h
      · cases h
      · rename_i heq
        cases h
        cases heq
        omega

theorem length_le_of_readFraction {cs rest : List Char} {ds : Option (List Char)}
    (h : readFraction cs = .ok (ds, rest)) : rest.length ≤ cs.length := by
  rw [readFraction.eq_def] at h
  split at h
  · obtain ⟨⟨ds', mid⟩, hdigits, h⟩ := bind_eq_ok.mp h
    cases h
    have hle := length_le_of_readDigits hdigits
    rw [List.length_cons]
    omega
  · cases h
    exact Nat.le_refl _

theorem length_le_of_readExponentValue {cs rest : List Char} {n : Int}
    (h : readExponentValue cs = .ok (n, rest)) : rest.length ≤ cs.length := by
  rw [readExponentValue.eq_def] at h
  split at h
  all_goals
    obtain ⟨⟨ds, mid⟩, hdigits, h⟩ := bind_eq_ok.mp h
    cases h
    have hle := length_le_of_readDigits hdigits
    try rw [List.length_cons]
    omega

theorem length_le_of_readExponent {cs rest : List Char} {n : Option Int}
    (h : readExponent cs = .ok (n, rest)) : rest.length ≤ cs.length := by
  rw [readExponent.eq_def] at h
  split at h
  case h_3 =>
    cases h
    exact Nat.le_refl _
  all_goals
    obtain ⟨⟨n', mid⟩, hvalue, h⟩ := bind_eq_ok.mp h
    cases h
    have hle := length_le_of_readExponentValue hvalue
    rw [List.length_cons]
    omega

theorem length_lt_of_readUnsigned {cs rest : List Char} {negative : Bool} {n : Number}
    (h : readUnsigned negative cs = .ok (n, rest)) : rest.length < cs.length := by
  obtain ⟨⟨integral, mid⟩, hintegral, h⟩ := bind_eq_ok.mp h
  obtain ⟨⟨decimals, mid'⟩, hfraction, h⟩ := bind_eq_ok.mp h
  obtain ⟨⟨exponent, mid''⟩, hexponent, h⟩ := bind_eq_ok.mp h
  obtain ⟨n', -, h⟩ := bind_eq_ok.mp h
  cases h
  have hlt := length_lt_of_readIntegral hintegral
  have hle := length_le_of_readFraction hfraction
  have hle' := length_le_of_readExponent hexponent
  omega

theorem length_lt_of_readNumber {cs rest : List Char} {n : Number}
    (h : readNumber cs = .ok (n, rest)) : rest.length < cs.length := by
  rw [readNumber.eq_def] at h
  split at h
  · have hlt := length_lt_of_readUnsigned h
    rw [List.length_cons]
    omega
  · exact length_lt_of_readUnsigned h

/-! ### The grammar -/

/-- A part of a text that holds a value. -/
inductive Part where
  | value (v : Value)
  /-- The members of a list behind its first one, with its closing bracket. -/
  | items (vs : List Value)
  | member (m : String × Value)
  /-- The members of an object behind its first one, with its closing brace. -/
  | members (ms : List (String × Value))

/-- **Which part stands at the front of a text**, nested at most `depth` deep, and what is left. -/
inductive Reads : (depth : Nat) → List Char → Part → List Char → Prop
  | null (hfront : skipBlanks cs = 'n' :: mid)
      (hword : readWord ['u', 'l', 'l'] mid = .ok rest) : Reads depth cs (.value .null) rest
  | yes (hfront : skipBlanks cs = 't' :: mid)
      (hword : readWord ['r', 'u', 'e'] mid = .ok rest) :
      Reads depth cs (.value (.boolean true)) rest
  | no (hfront : skipBlanks cs = 'f' :: mid)
      (hword : readWord ['a', 'l', 's', 'e'] mid = .ok rest) :
      Reads depth cs (.value (.boolean false)) rest
  | number (hfront : skipBlanks cs = c :: mid)
      (hc : c = '-' ∨ c.isDigit = true) (hnumber : readNumber (c :: mid) = .ok (n, rest)) :
      Reads depth cs (.value (.number n)) rest
  | text (hfront : skipBlanks cs = '"' :: mid)
      (hquoted : readQuoted mid = .ok (s, rest)) : Reads depth cs (.value (.text s)) rest
  | emptyList (hfront : skipBlanks cs = '[' :: mid)
      (hclose : skipBlanks mid = ']' :: rest) : Reads (depth + 1) cs (.value (.list [])) rest
  | list (hfront : skipBlanks cs = '[' :: mid)
      (hfirst : Reads depth (skipBlanks mid) (.value v) mid')
      (hmore : Reads depth mid' (.items vs) rest) :
      Reads (depth + 1) cs (.value (.list (v :: vs))) rest
  | emptyObject (hfront : skipBlanks cs = '\x7b' :: mid)
      (hclose : skipBlanks mid = '\x7d' :: rest) : Reads (depth + 1) cs (.value (.object [])) rest
  | object (hfront : skipBlanks cs = '\x7b' :: mid)
      (hfirst : Reads depth (skipBlanks mid) (.member m) mid')
      (hmore : Reads depth mid' (.members ms) rest) :
      Reads (depth + 1) cs (.value (.object (m :: ms))) rest
  | endItems (hfront : skipBlanks cs = ']' :: rest) :
      Reads depth cs (.items []) rest
  | moreItems (hfront : skipBlanks cs = ',' :: mid)
      (hfirst : Reads depth mid (.value v) mid') (hmore : Reads depth mid' (.items vs) rest) :
      Reads depth cs (.items (v :: vs)) rest
  | member (hkey : readQuoted cs = .ok (key, mid))
      (hcolon : skipBlanks mid = ':' :: mid') (hvalue : Reads depth mid' (.value v) rest) :
      Reads depth ('"' :: cs) (.member (key, v)) rest
  | endMembers (hfront : skipBlanks cs = '\x7d' :: rest) :
      Reads depth cs (.members []) rest
  | moreMembers (hfront : skipBlanks cs = ',' :: mid)
      (hfirst : Reads depth (skipBlanks mid) (.member m) mid')
      (hmore : Reads depth mid' (.members ms) rest) : Reads depth cs (.members (m :: ms)) rest

variable {depth : Nat} {cs rest : List Char} {p : Part}

/-- A part is read by its reader. -/
def Part.ReadBy (fuel depth : Nat) (cs rest : List Char) : Part → Prop
  | .value v => readNested fuel depth cs = .ok (v, rest)
  | .items vs => readNestedItems fuel depth cs = .ok (vs, rest)
  | .member m => readNestedMember fuel depth cs = .ok (m, rest)
  | .members ms => readNestedMembers fuel depth cs = .ok (ms, rest)

/-- Every part takes a character. -/
theorem Reads.length_lt (h : Reads depth cs p rest) : rest.length < cs.length := by
  induction h with
  | null hfront hword | yes hfront hword | no hfront hword =>
    have hlt := length_lt_of_skipBlanks hfront
    have hle := length_le_of_readWord hword
    omega
  | number hfront hc hnumber =>
    have hlt := length_lt_of_skipBlanks hfront
    have hlt' := length_lt_of_readNumber hnumber
    rw [List.length_cons] at hlt'
    omega
  | text hfront hquoted =>
    have hlt := length_lt_of_skipBlanks hfront
    have hlt' := length_lt_of_readQuoted hquoted
    omega
  | emptyList hfront hclose | emptyObject hfront hclose =>
    have hlt := length_lt_of_skipBlanks hfront
    have hlt' := length_lt_of_skipBlanks hclose
    omega
  | moreItems hfront hfirst hmore ih ih' =>
    have hlt := length_lt_of_skipBlanks hfront
    omega
  | @list _ mid _ _ _ _ _ hfront | @object _ mid _ _ _ _ _ hfront
  | @moreMembers _ mid _ _ _ _ _ hfront =>
    have hlt := length_lt_of_skipBlanks hfront
    have hle := length_skipBlanks_le mid
    omega
  | endItems hfront | endMembers hfront => exact length_lt_of_skipBlanks hfront
  | member hkey hcolon hvalue ih =>
    have hlt := length_lt_of_readQuoted hkey
    have hlt' := length_lt_of_skipBlanks hcolon
    rw [List.length_cons]
    omega

/-- Blanks before a value do not matter. -/
theorem Reads.of_skipBlanks {cs' : List Char} {v : Value} (h : Reads depth cs (.value v) rest)
    (hsame : skipBlanks cs' = skipBlanks cs) : Reads depth cs' (.value v) rest := by
  cases h with
  | null hfront hword => exact .null (hsame.trans hfront) hword
  | yes hfront hword => exact .yes (hsame.trans hfront) hword
  | no hfront hword => exact .no (hsame.trans hfront) hword
  | number hfront hc hnumber => exact .number (hsame.trans hfront) hc hnumber
  | text hfront hquoted => exact .text (hsame.trans hfront) hquoted
  | emptyList hfront hclose => exact .emptyList (hsame.trans hfront) hclose
  | list hfront hfirst hmore => exact .list (hsame.trans hfront) hfirst hmore
  | emptyObject hfront hclose => exact .emptyObject (hsame.trans hfront) hclose
  | object hfront hfirst hmore => exact .object (hsame.trans hfront) hfirst hmore

/-- What a reader reads stands there. -/
theorem reads_of_readBy {fuel : Nat} (h : p.ReadBy fuel depth cs rest) :
    Reads depth cs p rest := by
  induction fuel generalizing depth cs p rest with
  | zero =>
    cases p with
    | value v =>
      rw [Part.ReadBy, readNested] at h
      cases h
    | items vs =>
      rw [Part.ReadBy, readNestedItems] at h
      cases h
    | member m =>
      rw [Part.ReadBy, readNestedMember] at h
      cases h
    | members ms =>
      rw [Part.ReadBy, readNestedMembers] at h
      cases h
  | succ fuel ih =>
    cases p with
    | value v =>
      rw [Part.ReadBy, readNested.eq_def] at h
      dsimp only at h
      split at h
      · cases h
      · rename_i hfront
        obtain ⟨mid, hword, h⟩ := bind_eq_ok.mp h
        cases h
        exact .null hfront hword
      · rename_i hfront
        obtain ⟨mid, hword, h⟩ := bind_eq_ok.mp h
        cases h
        exact .yes hfront hword
      · rename_i hfront
        obtain ⟨mid, hword, h⟩ := bind_eq_ok.mp h
        cases h
        exact .no hfront hword
      · rename_i hfront
        obtain ⟨⟨s, mid⟩, hquoted, h⟩ := bind_eq_ok.mp h
        cases h
        exact .text hfront hquoted
      · rename_i hfront
        cases depth with
        | zero => cases h
        | succ depth =>
          dsimp only at h
          split at h
          · cases h
          · rename_i hclose
            cases h
            exact .emptyList hfront hclose
          · obtain ⟨⟨v, mid⟩, hfirst, h⟩ := bind_eq_ok.mp h
            obtain ⟨⟨vs, mid'⟩, hmore, h⟩ := bind_eq_ok.mp h
            cases h
            exact .list hfront (ih (p := .value v) hfirst) (ih (p := .items vs) hmore)
      · rename_i hfront
        cases depth with
        | zero => cases h
        | succ depth =>
          dsimp only at h
          split at h
          · cases h
          · rename_i hclose
            cases h
            exact .emptyObject hfront hclose
          · obtain ⟨⟨m, mid⟩, hfirst, h⟩ := bind_eq_ok.mp h
            obtain ⟨⟨ms, mid'⟩, hmore, h⟩ := bind_eq_ok.mp h
            cases h
            exact .object hfront (ih (p := .member m) hfirst) (ih (p := .members ms) hmore)
      · rename_i hfront
        obtain ⟨hc, h⟩ := ite_eq_ok.mp h
        obtain ⟨⟨n, mid⟩, hnumber, h⟩ := bind_eq_ok.mp h
        cases h
        exact .number hfront hc hnumber
    | items vs =>
      rw [Part.ReadBy, readNestedItems.eq_def] at h
      dsimp only at h
      split at h
      · cases h
      · rename_i hfront
        cases h
        exact .endItems hfront
      · rename_i hfront
        obtain ⟨⟨v, mid⟩, hfirst, h⟩ := bind_eq_ok.mp h
        obtain ⟨⟨vs, mid'⟩, hmore, h⟩ := bind_eq_ok.mp h
        cases h
        exact .moreItems hfront (ih (p := .value v) hfirst) (ih (p := .items vs) hmore)
      · cases h
    | member m =>
      rw [Part.ReadBy, readNestedMember.eq_def] at h
      dsimp only at h
      split at h
      · cases h
      · cases h
      · rename_i heq
        obtain ⟨⟨key, mid⟩, hkey, h⟩ := bind_eq_ok.mp h
        cases heq
        dsimp only at h
        split at h
        · cases h
        · rename_i hcolon
          obtain ⟨⟨v, mid'⟩, hvalue, h⟩ := bind_eq_ok.mp h
          cases h
          exact .member hkey hcolon (ih (p := .value v) hvalue)
        · cases h
      · cases h
    | members ms =>
      rw [Part.ReadBy, readNestedMembers.eq_def] at h
      dsimp only at h
      split at h
      · cases h
      · rename_i hfront
        cases h
        exact .endMembers hfront
      · rename_i hfront
        obtain ⟨⟨m, mid⟩, hfirst, h⟩ := bind_eq_ok.mp h
        obtain ⟨⟨ms, mid'⟩, hmore, h⟩ := bind_eq_ok.mp h
        cases h
        exact .moreMembers hfront (ih (p := .member m) hfirst) (ih (p := .members ms) hmore)
      · cases h

/-- A value takes a character, and does not begin as a list ends. -/
theorem Reads.front {v : Value} (h : Reads depth cs (.value v) rest) :
    skipBlanks cs ≠ [] ∧ ∀ mid, skipBlanks cs ≠ ']' :: mid := by
  have of_front : ∀ {c mid}, skipBlanks cs = c :: mid → c ≠ ']' →
      skipBlanks cs ≠ [] ∧ ∀ mid, skipBlanks cs ≠ ']' :: mid := by
    intro c mid hfront hc
    rw [hfront]
    exact ⟨List.cons_ne_nil c mid, fun _ heq => hc (List.cons.inj heq).1⟩
  cases h with
  | null hfront | yes hfront | no hfront | text hfront | emptyList hfront | list hfront
  | emptyObject hfront | object hfront => exact of_front hfront (by decide)
  | number hfront hc =>
    refine of_front hfront ?_
    rintro rfl
    revert hc
    decide

/-- A member begins with the quote of its key. -/
theorem Reads.front_member {m : String × Value} (h : Reads depth cs (.member m) rest) :
    ∃ mid, cs = '"' :: mid := by
  cases h with
  | member hkey => exact ⟨_, rfl⟩

/-- No blanks stand before a member. -/
theorem Reads.skipBlanks_member {m : String × Value} (h : Reads depth cs (.member m) rest) :
    Reads depth (skipBlanks cs) (.member m) rest := by
  obtain ⟨mid, rfl⟩ := h.front_member
  rwa [skipBlanks_cons rfl]

/-- A reader with fuel for what it takes has some left. -/
theorem exists_fuel {n fuel : Nat} (hlt : n < cs.length) (hfuel : cs.length ≤ fuel) :
    ∃ fuel', fuel = fuel' + 1 ∧ n ≤ fuel' :=
  ⟨fuel - 1, by omega, by omega⟩

/-- What stands there is what the reader reads, and the length of the text is fuel enough. -/
theorem Reads.readBy (h : Reads depth cs p rest) {fuel : Nat} (hfuel : cs.length ≤ fuel) :
    p.ReadBy fuel depth cs rest := by
  induction h generalizing fuel with
  | null hfront hword | yes hfront hword | no hfront hword =>
    obtain ⟨fuel, rfl, -⟩ := exists_fuel (length_lt_of_skipBlanks hfront) hfuel
    simp only [Part.ReadBy, readNested, hfront]
    exact bind_eq_ok.mpr ⟨_, hword, rfl⟩
  | text hfront hquoted =>
    obtain ⟨fuel, rfl, -⟩ := exists_fuel (length_lt_of_skipBlanks hfront) hfuel
    simp only [Part.ReadBy, readNested, hfront]
    exact bind_eq_ok.mpr ⟨_, hquoted, rfl⟩
  | number hfront hc hnumber =>
    obtain ⟨fuel, rfl, -⟩ := exists_fuel (length_lt_of_skipBlanks hfront) hfuel
    simp only [Part.ReadBy, readNested, hfront]
    -- what begins a number begins nothing else
    split
    case h_8 heq =>
      cases heq
      rw [if_pos hc]
      exact bind_eq_ok.mpr ⟨_, hnumber, rfl⟩
    case h_1 heq => cases heq
    all_goals
      rename_i heq
      obtain ⟨rfl, -⟩ := List.cons.inj heq
      exact absurd hc (by decide)
  | emptyList hfront hclose =>
    obtain ⟨fuel, rfl, -⟩ := exists_fuel (length_lt_of_skipBlanks hfront) hfuel
    simp only [Part.ReadBy, readNested, hfront, hclose]
  | @list _ mid _ _ _ _ _ hfront hfirst hmore ih ih' =>
    obtain ⟨fuel, rfl, hroom⟩ := exists_fuel (length_lt_of_skipBlanks hfront) hfuel
    have hle := length_skipBlanks_le mid
    have hlt := hfirst.length_lt
    obtain ⟨hne, hopen⟩ := hfirst.front
    simp only [skipBlanks_skipBlanks] at hne hopen
    simp only [Part.ReadBy, readNested, hfront]
    exact bind_eq_ok.mpr ⟨_, ih (by omega), bind_eq_ok.mpr ⟨_, ih' (by omega), rfl⟩⟩
  | emptyObject hfront hclose =>
    obtain ⟨fuel, rfl, -⟩ := exists_fuel (length_lt_of_skipBlanks hfront) hfuel
    simp only [Part.ReadBy, readNested, hfront, hclose]
  | @object _ mid _ _ _ _ _ hfront hfirst hmore ih ih' =>
    obtain ⟨fuel, rfl, hroom⟩ := exists_fuel (length_lt_of_skipBlanks hfront) hfuel
    have hle := length_skipBlanks_le mid
    have hlt := hfirst.length_lt
    obtain ⟨mid'', hquote⟩ := hfirst.front_member
    have hmember := ih (hle.trans hroom)
    rw [hquote] at hmember
    simp only [Part.ReadBy, readNested, hfront, hquote]
    exact bind_eq_ok.mpr ⟨_, hmember, bind_eq_ok.mpr ⟨_, ih' (by omega), rfl⟩⟩
  | endItems hfront =>
    obtain ⟨fuel, rfl, -⟩ := exists_fuel (length_lt_of_skipBlanks hfront) hfuel
    simp only [Part.ReadBy, readNestedItems, hfront]
  | moreItems hfront hfirst hmore ih ih' =>
    obtain ⟨fuel, rfl, hroom⟩ := exists_fuel (length_lt_of_skipBlanks hfront) hfuel
    have hlt := hfirst.length_lt
    simp only [Part.ReadBy, readNestedItems, hfront]
    exact bind_eq_ok.mpr ⟨_, ih hroom, bind_eq_ok.mpr ⟨_, ih' (by omega), rfl⟩⟩
  | member hkey hcolon hvalue ih =>
    have hlt := length_lt_of_readQuoted hkey
    have hlt' := length_lt_of_skipBlanks hcolon
    obtain ⟨fuel, rfl, hroom⟩ := exists_fuel (Nat.lt_succ_self _) hfuel
    simp only [Part.ReadBy, readNestedMember]
    refine bind_eq_ok.mpr ⟨_, hkey, ?_⟩
    simp only [hcolon]
    exact bind_eq_ok.mpr ⟨_, ih (by omega), rfl⟩
  | endMembers hfront =>
    obtain ⟨fuel, rfl, -⟩ := exists_fuel (length_lt_of_skipBlanks hfront) hfuel
    simp only [Part.ReadBy, readNestedMembers, hfront]
  | @moreMembers _ mid _ _ _ _ _ hfront hfirst hmore ih ih' =>
    obtain ⟨fuel, rfl, hroom⟩ := exists_fuel (length_lt_of_skipBlanks hfront) hfuel
    have hle := length_skipBlanks_le mid
    have hlt := hfirst.length_lt
    simp only [Part.ReadBy, readNestedMembers, hfront]
    exact bind_eq_ok.mpr ⟨_, ih (by omega), bind_eq_ok.mpr ⟨_, ih' (by omega), rfl⟩⟩

/-! ### The reader of values -/

/-- A reader with fuel for the whole text reads a part if and only if it stands there. -/
theorem Part.readBy_iff {fuel : Nat} (hfuel : cs.length ≤ fuel) :
    p.ReadBy fuel depth cs rest ↔ Reads depth cs p rest :=
  ⟨reads_of_readBy, fun h => h.readBy hfuel⟩

theorem readValue_eq_ok_iff {around : Nat} {v : Value} :
    readValue around cs = .ok (v, rest) ↔ Reads (depthLimit - around) cs (.value v) rest :=
  Part.readBy_iff (p := .value v) (by omega)

/-- One value at most stands at the front of a text. -/
theorem Reads.value_unique {v v' : Value} {rest' : List Char}
    (h : Reads depth cs (.value v) rest) (h' : Reads depth cs (.value v') rest') :
    v = v' ∧ rest = rest' := by
  have hread : readNested cs.length depth cs = .ok (v, rest) := h.readBy (Nat.le_refl _)
  have hread' : readNested cs.length depth cs = .ok (v', rest') := h'.readBy (Nat.le_refl _)
  rw [hread] at hread'
  exact Prod.mk.inj (Except.ok.inj hread')

/-- The value that a whole text holds. -/
def read (s : String) : Except ReadError Value := readText (readValue 0) s

/-- A whole text is read if nothing but blanks is left of it. -/
theorem readText_eq_ok_iff {α : Type} {item : Reader α} {s : String} {a : α} :
    readText item s = .ok a ↔ ∃ rest, item s.toList = .ok (a, rest) ∧ skipBlanks rest = [] := by
  rw [readText, bind_eq_ok]
  constructor
  · rintro ⟨⟨b, rest⟩, hitem, h⟩
    obtain ⟨hend, h⟩ := ite_eq_ok.mp h
    cases h
    exact ⟨rest, hitem, List.isEmpty_iff.mp hend⟩
  · rintro ⟨rest, hitem, hend⟩
    exact ⟨(a, rest), hitem, ite_eq_ok.mpr ⟨List.isEmpty_iff.mpr hend, rfl⟩⟩

/-- **A text holds the value that stands there by the grammar.** -/
theorem read_eq_ok_iff {s : String} {v : Value} :
    read s = .ok v ↔ ∃ rest, Reads depthLimit s.toList (.value v) rest ∧ skipBlanks rest = [] := by
  rw [read, readText_eq_ok_iff]
  exact exists_congr fun rest => and_congr_left' readValue_eq_ok_iff

end EventArchive.Json
