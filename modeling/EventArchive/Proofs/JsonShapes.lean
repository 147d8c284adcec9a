import EventArchive.Filter.Json
import EventArchive.Proofs.JsonWritten

/-! # What the readers of shapes take

A reader that wants a shape takes the value that stands at the front of a text, and
makes of it what a function of values does (`Takes`); this holds at every depth that
leaves room for the shape.  The reader of an object steps through the members: if each
step makes of a key and a value what a function of members does, the whole makes of the
object what folding that function does.  The two directions are kept apart
(`Accepts.members`, `Explains.members`), since a step that reads over what it does not
know takes more than values.
-/
namespace EventArchive.Json

variable {α β σ : Type} {depth d : Nat} {cs mid rest : List Char}

/-! ### Shapes of values -/

/-- A string. -/
def Value.text? : Value → Option String
  | .text s => some s
  | _ => none

@[simp] theorem Value.text?_text (s : String) : Value.text? (.text s) = some s := rfl

/-- An integer between two bounds. -/
def Value.integer? (low high : Int) : Value → Option Int
  | .number (.integer i) => if low ≤ i ∧ i ≤ high then some i else none
  | _ => none

/-- A value of a shape, or null for none. -/
def Value.optional? (of : Value → Option α) : Value → Option (Option α)
  | .null => some none
  | v => (of v).map some

/-- A list of values of a shape. -/
def Value.list? (of : Value → Option α) : Value → Option (List α)
  | .list vs => vs.mapM of
  | _ => none

/-- A value of a shape that passes a further test. -/
def Value.refined? (of : Value → Option α) (check : α → Except FormatError β) (v : Value) :
    Option β :=
  (of v).bind fun a => (check a).toOption

/-- **A reader takes the values of a shape**: what it reads is the value that stands there,
and it reads every value that fits. -/
def Takes (item : Reader α) (depth : Nat) (of : Value → Option α) : Prop :=
  ∀ d, depth ≤ d → ∀ {cs rest a},
    item cs = .ok (a, rest) ↔ ∃ v, Reads d cs (.value v) rest ∧ of v = some a

theorem takes_text : Takes text 0 Value.text? := by
  intro d _ cs rest s
  constructor
  · intro h
    rw [text.eq_def] at h
    split at h
    · rename_i hfront
      exact ⟨.text s, .text hfront h, rfl⟩
    · cases h
  · rintro ⟨v, hreads, hof⟩
    cases hreads with
    | text hfront hquoted =>
      cases hof
      rw [text, hfront]
      exact hquoted
    | _ => cases hof

theorem takes_integer (low high : Int) : Takes (integer low high) 0 (Value.integer? low high) := by
  intro d _ cs rest i
  constructor
  · intro h
    rw [integer.eq_def] at h
    dsimp only at h
    split at h
    · rename_i hfront
      obtain ⟨hc, h⟩ := ite_eq_ok.mp h
      obtain ⟨⟨n, mid⟩, hnumber, h⟩ := bind_eq_ok.mp h
      rw [hfront] at hnumber
      cases n with
      | fraction => cases h
      | integer j =>
        obtain ⟨hbounds, h⟩ := ite_eq_ok.mp h
        cases h
        exact ⟨.number (.integer i), .number hfront hc hnumber, if_pos hbounds⟩
    · cases h
  · rintro ⟨v, hreads, hof⟩
    cases hreads with
    | @number _ c mid n _ _ hfront hc hnumber =>
      cases n with
      | fraction => cases hof
      | integer j =>
        rw [Value.integer?] at hof
        split at hof
        · rename_i hbounds
          cases hof
          rw [integer.eq_def]
          simp only [hfront]
          rw [if_pos hc]
          exact bind_eq_ok.mpr ⟨_, hnumber, if_pos hbounds⟩
        · cases hof
    | _ => cases hof

/-- A value made of what a reader takes. -/
theorem Takes.map {item : Reader α} {of : Value → Option α} (h : Takes item depth of) (f : α → β) :
    Takes (fun cs => do let (a, cs) ← item cs; return (f a, cs)) depth fun v => (of v).map f := by
  intro d hd cs rest b
  constructor
  · intro hitem
    obtain ⟨⟨a, mid⟩, hitem, hend⟩ := bind_eq_ok.mp hitem
    cases hend
    obtain ⟨v, hreads, hof⟩ := (h d hd).mp hitem
    exact ⟨v, hreads, Option.map_eq_some_iff.mpr ⟨a, hof, rfl⟩⟩
  · rintro ⟨v, hreads, hof⟩
    obtain ⟨a, hof', rfl⟩ := Option.map_eq_some_iff.mp hof
    exact bind_eq_ok.mpr ⟨(a, rest), (h d hd).mpr ⟨v, hreads, hof'⟩, rfl⟩

theorem Takes.refine {item : Reader α} {of : Value → Option α} (h : Takes item depth of)
    (check : α → Except FormatError β) :
    Takes (refine item check) depth (Value.refined? of check) := by
  intro d hd cs rest b
  constructor
  · intro hitem
    obtain ⟨⟨a, mid⟩, hitem, hcheck⟩ := bind_eq_ok.mp hitem
    obtain ⟨v, hreads, hof⟩ := (h d hd).mp hitem
    dsimp only at hcheck
    split at hcheck
    · rename_i hok
      cases hcheck
      exact ⟨v, hreads, by rw [Value.refined?, hof, Option.bind_some, hok]; rfl⟩
    · cases hcheck
  · rintro ⟨v, hreads, hof⟩
    obtain ⟨a, hof, hcheck⟩ := Option.bind_eq_some_iff.mp hof
    refine bind_eq_ok.mpr ⟨(a, rest), (h d hd).mpr ⟨v, hreads, hof⟩, ?_⟩
    cases hok : check a with
    | error e =>
      rw [hok] at hcheck
      cases hcheck
    | ok b' =>
      rw [hok] at hcheck
      cases hcheck
      simp only [hok]
      rfl

/-- Only null begins as it does. -/
theorem Reads.eq_null {v : Value} (h : Reads d cs (.value v) rest)
    (hfront : skipBlanks cs = 'n' :: mid) :
    v = .null ∧ readWord ['u', 'l', 'l'] mid = .ok rest := by
  cases h with
  | null hfront' hword =>
    cases hfront.symm.trans hfront'
    exact ⟨rfl, hword⟩
  | number hfront' hc =>
    obtain ⟨rfl, -⟩ := List.cons.inj (hfront.symm.trans hfront')
    exact absurd hc (by decide)
  | yes hfront' | no hfront' | text hfront' | emptyList hfront' | list hfront'
  | emptyObject hfront' | object hfront' =>
    exact absurd (List.cons.inj (hfront.symm.trans hfront')).1 (by decide)

theorem Takes.optional {item : Reader α} {of : Value → Option α} (h : Takes item depth of)
    (hnull : of .null = none) : Takes (optional item) depth (Value.optional? of) := by
  have some_iff : ∀ {v a}, of v = some a → Value.optional? of v = some (some a) := by
    intro v a hof
    rw [Value.optional?.eq_2, hof, Option.map_some]
    rintro rfl
    rw [hnull] at hof
    cases hof
  intro d hd cs rest a
  rw [Json.optional.eq_def]
  split
  · rename_i hfront
    constructor
    · intro hitem
      obtain ⟨mid, hword, hend⟩ := bind_eq_ok.mp hitem
      cases hend
      exact ⟨.null, .null hfront hword, rfl⟩
    · rintro ⟨v, hreads, hof⟩
      obtain ⟨rfl, hword⟩ := hreads.eq_null hfront
      cases hof
      exact bind_eq_ok.mpr ⟨_, hword, rfl⟩
  · rename_i hfront
    constructor
    · intro hitem
      obtain ⟨⟨b, mid⟩, hitem, hend⟩ := bind_eq_ok.mp hitem
      cases hend
      obtain ⟨v, hreads, hof⟩ := (h d hd).mp hitem
      exact ⟨v, hreads, some_iff hof⟩
    · rintro ⟨v, hreads, hof⟩
      have hne : v ≠ .null := by
        rintro rfl
        cases hreads with
        | null hfront' => exact hfront _ hfront'
      rw [Value.optional?.eq_2 _ _ hne] at hof
      obtain ⟨b, hof', rfl⟩ := Option.map_eq_some_iff.mp hof
      exact bind_eq_ok.mpr ⟨(b, rest), (h d hd).mpr ⟨v, hreads, hof'⟩, rfl⟩

/-! ### Lists -/

theorem mapM_eq_some_iff {of : β → Option α} {bs : List β} {as : List α} :
    bs.mapM of = some as ↔ List.Forall₂ (fun b a => of b = some a) bs as := by
  induction bs generalizing as with
  | nil =>
    rw [List.mapM_nil, List.forall₂_nil_left_iff]
    exact Option.some_inj.trans eq_comm
  | cons b bs ih =>
    rw [List.mapM_cons, List.forall₂_cons_left_iff]
    constructor
    · intro h
      obtain ⟨a, hb, h⟩ := Option.bind_eq_some_iff.mp h
      obtain ⟨as', hbs, h⟩ := Option.bind_eq_some_iff.mp h
      cases h
      exact ⟨a, as', hb, ih.mp hbs, rfl⟩
    · rintro ⟨a, as', hb, hbs, rfl⟩
      exact Option.bind_eq_some_iff.mpr ⟨a, hb, Option.bind_eq_some_iff.mpr ⟨as', ih.mpr hbs, rfl⟩⟩

section Lists
variable {item : Reader α} {of : Value → Option α}

theorem moreItems_explain (h : Takes item depth of) (hd : depth ≤ d) {fuel : Nat} {as : List α}
    (hread : moreItems item fuel cs = .ok (as, rest)) :
    ∃ vs, Reads d cs (.items vs) rest ∧ List.Forall₂ (fun v a => of v = some a) vs as := by
  induction fuel generalizing cs as with
  | zero => cases hread
  | succ fuel ih =>
    rw [moreItems.eq_def] at hread
    dsimp only at hread
    split at hread
    · cases hread
    · rename_i hfront
      cases hread
      exact ⟨[], .endItems hfront, .nil⟩
    · rename_i mid hfront
      split at hread
      · cases hread
      · cases hread
      · obtain ⟨⟨a, mid'⟩, hitem, hread⟩ := bind_eq_ok.mp hread
        obtain ⟨⟨as', mid''⟩, hmore, hread⟩ := bind_eq_ok.mp hread
        cases hread
        obtain ⟨v, hfirst, hof⟩ := (h d hd).mp hitem
        obtain ⟨vs, hrest, hofs⟩ := ih hmore
        have hfirst := hfirst.of_skipBlanks (skipBlanks_skipBlanks mid).symm
        exact ⟨v :: vs, .moreItems hfront hfirst hrest, .cons hof hofs⟩
    · cases hread

theorem moreItems_accept (h : Takes item depth of) (hd : depth ≤ d) {vs : List Value}
    {as : List α} {fuel : Nat} (hofs : List.Forall₂ (fun v a => of v = some a) vs as)
    (hreads : Reads d cs (.items vs) rest) (hfuel : cs.length ≤ fuel) :
    moreItems item fuel cs = .ok (as, rest) := by
  induction hofs generalizing cs fuel with
  | nil =>
    cases hreads with
    | endItems hfront =>
      obtain ⟨fuel, rfl, -⟩ := exists_fuel (length_lt_of_skipBlanks hfront) hfuel
      simp only [moreItems, hfront]
  | @cons v a vs as hof hofs ih =>
    cases hreads with
    | @moreItems _ mid _ _ mid' _ _ hfront hfirst hmore =>
      obtain ⟨fuel, rfl, hroom⟩ := exists_fuel (length_lt_of_skipBlanks hfront) hfuel
      have hroom' : mid'.length ≤ fuel := Nat.le_trans (Nat.le_of_lt hfirst.length_lt) hroom
      obtain ⟨hne, hopen⟩ := hfirst.front
      have hitem := (h d hd).mpr ⟨v, hfirst.of_skipBlanks (skipBlanks_skipBlanks mid), hof⟩
      simp only [moreItems, hfront]
      exact bind_eq_ok.mpr ⟨_, hitem, bind_eq_ok.mpr ⟨_, ih hmore hroom', rfl⟩⟩

theorem Takes.list (h : Takes item depth of) :
    Takes (list item) (depth + 1) (Value.list? of) := by
  intro d hd cs rest as
  obtain ⟨d, rfl⟩ := Nat.exists_eq_add_of_le' (Nat.le_trans (Nat.le_add_left 1 depth) hd)
  have hd : depth ≤ d := Nat.le_of_succ_le_succ hd
  constructor
  · intro hread
    rw [Json.list.eq_def] at hread
    split at hread
    · rename_i mid hfront
      rw [items.eq_def] at hread
      split at hread
      · cases hread
      · rename_i hclose
        cases hread
        exact ⟨.list [], .emptyList hfront hclose, rfl⟩
      · obtain ⟨⟨a, mid'⟩, hitem, hread⟩ := bind_eq_ok.mp hread
        obtain ⟨⟨as', mid''⟩, hmore, hread⟩ := bind_eq_ok.mp hread
        cases hread
        obtain ⟨v, hfirst, hof⟩ := (h d hd).mp hitem
        obtain ⟨vs, hrest, hofs⟩ := moreItems_explain h hd hmore
        exact ⟨.list (v :: vs), .list hfront hfirst hrest, mapM_eq_some_iff.mpr (.cons hof hofs)⟩
    · cases hread
  · rintro ⟨v, hreads, hof⟩
    cases v with
    | list vs =>
      have hofs := mapM_eq_some_iff.mp hof
      cases hreads with
      | emptyList hfront hclose =>
        cases hofs
        simp only [Json.list, hfront, items, hclose]
      | @list _ mid _ v mid' vs _ hfront hfirst hmore =>
        cases hofs with
        | cons hfit hofs =>
          obtain ⟨hne, hopen⟩ := hfirst.front
          simp only [skipBlanks_skipBlanks] at hne hopen
          simp only [Json.list, hfront, items]
          exact bind_eq_ok.mpr ⟨_, (h d hd).mpr ⟨v, hfirst, hfit⟩,
              bind_eq_ok.mpr ⟨_, moreItems_accept h hd hofs hmore (Nat.le_refl _), rfl⟩⟩
    | _ => cases hof

end Lists

/-! ### Members of an object -/

/-- The value of a member stands there, behind its colon. -/
def ReadsValueOf (d : Nat) (cs : List Char) (v : Value) (rest : List Char) : Prop :=
  ∃ mid, skipBlanks cs = ':' :: mid ∧ Reads d mid (.value v) rest

theorem valueOf_eq_ok_iff {item : Reader α} {a : α} :
    valueOf item cs = .ok (a, rest) ↔
      ∃ mid, skipBlanks cs = ':' :: mid ∧ item mid = .ok (a, rest) := by
  rw [valueOf.eq_def]
  constructor
  · intro h
    split at h
    · cases h
    · rename_i hfront
      exact ⟨_, hfront, h⟩
    · cases h
  · rintro ⟨mid, hfront, h⟩
    simp only [hfront]
    exact h

theorem Takes.valueOf {item : Reader α} {of : Value → Option α} (h : Takes item depth of)
    (hd : depth ≤ d) {a : α} :
    Json.valueOf item cs = .ok (a, rest) ↔ ∃ v, ReadsValueOf d cs v rest ∧ of v = some a := by
  rw [valueOf_eq_ok_iff]
  constructor
  · rintro ⟨mid, hfront, hitem⟩
    obtain ⟨v, hreads, hof⟩ := (h d hd).mp hitem
    exact ⟨v, ⟨mid, hfront, hreads⟩, hof⟩
  · rintro ⟨v, ⟨mid, hfront, hreads⟩, hof⟩
    exact ⟨mid, hfront, (h d hd).mpr ⟨v, hreads, hof⟩⟩

/-- The value of a member that is given for the first time. -/
def Value.once? (seen : Option α) (of : Value → Option α) (put : α → σ) (v : Value) : Option σ :=
  if seen.isSome then none else (of v).map put

theorem Takes.once {item : Reader α} {of : Value → Option α} (h : Takes item depth of)
    (hd : depth ≤ d) {seen : Option α} {put : α → σ} {s : σ} :
    Json.once seen item put cs = .ok (s, rest) ↔
      ∃ v, ReadsValueOf d cs v rest ∧ Value.once? seen of put v = some s := by
  rw [Json.once]
  unfold Value.once?
  by_cases hseen : seen.isSome
  · simp [hseen]
  · rw [if_neg hseen]
    simp only [if_neg hseen]
    constructor
    · intro hread
      obtain ⟨⟨a, mid⟩, hvalue, hend⟩ := bind_eq_ok.mp hread
      cases hend
      obtain ⟨v, hreads, hof⟩ := (h.valueOf hd).mp hvalue
      exact ⟨v, hreads, Option.map_eq_some_iff.mpr ⟨a, hof, rfl⟩⟩
    · rintro ⟨v, hreads, hof⟩
      obtain ⟨a, hof', rfl⟩ := Option.map_eq_some_iff.mp hof
      exact bind_eq_ok.mpr ⟨(a, rest), (h.valueOf hd).mpr ⟨v, hreads, hof'⟩, rfl⟩

/-- A step of the reader of an object takes every member that fits. -/
def Accepts (step : σ → String → Reader σ) (d : Nat) (take : σ → String → Value → Option σ) :
    Prop :=
  ∀ s {s' key v cs rest}, ReadsValueOf d cs v rest → take s key v = some s' →
    step s key cs = .ok (s', rest)

/-- All that a step of the reader of an object takes are members. -/
def Explains (step : σ → String → Reader σ) (d : Nat) (take : σ → String → Value → Option σ) :
    Prop :=
  ∀ s {s' key cs rest}, step s key cs = .ok (s', rest) →
    ∃ v, ReadsValueOf d cs v rest ∧ take s key v = some s'

/-- What the members of an object make of a state, one after another. -/
def foldMembers (take : σ → String → Value → Option σ) (s : σ) (ms : List (String × Value)) :
    Option σ :=
  ms.foldlM (fun s m => take s m.1 m.2) s

section Objects
variable {step : σ → String → Reader σ} {take : σ → String → Value → Option σ}

theorem foldMembers_cons {s : σ} {m : String × Value} {ms : List (String × Value)} :
    foldMembers take s (m :: ms) = (take s m.1 m.2).bind fun s => foldMembers take s ms :=
  List.foldlM_cons

theorem foldMembers_append {s : σ} {ms ms' : List (String × Value)} :
    foldMembers take s (ms ++ ms') = (foldMembers take s ms).bind fun s => foldMembers take s ms' :=
  List.foldlM_append

/-- Members that leave a part of the state as it is can be left out, as far as that part is
concerned: `part` is what a step makes of itself, and `counts` picks the members that matter. -/
theorem map_foldMembers_filter {τ : Type} {part : σ → τ} {counts : String → Bool}
    (hpart : ∀ {s s'} key v, part s = part s' → (take s key v).map part = (take s' key v).map part)
    (hrest : ∀ {s key v}, counts key = false → (take s key v).map part = some (part s))
    {s s' : σ} (h : part s = part s') (ms : List (String × Value)) :
    (foldMembers take s ms).map part =
      (foldMembers take s' (ms.filter fun m => counts m.1)).map part := by
  induction ms generalizing s s' with
  | nil => exact congrArg some h
  | cons m ms ih =>
    rw [foldMembers_cons]
    cases hm : counts m.1 with
    | false =>
      obtain ⟨s'', htake, hsame⟩ := Option.map_eq_some_iff.mp (hrest (s := s) (v := m.2) hm)
      rw [htake, Option.bind_some, List.filter_cons_of_neg (by simp [hm])]
      exact ih (hsame.trans h)
    | true =>
      rw [List.filter_cons_of_pos (by simp [hm]), foldMembers_cons]
      have hstep := hpart m.1 m.2 h
      cases htake : take s m.1 m.2 with
      | none =>
        rw [htake, Option.map_none] at hstep
        rw [Option.map_eq_none_iff.mp hstep.symm]
        rfl
      | some s₁ =>
        rw [htake, Option.map_some] at hstep
        obtain ⟨s₂, htake', hsame⟩ := Option.map_eq_some_iff.mp hstep.symm
        rw [htake', Option.bind_some, Option.bind_some]
        exact ih hsame.symm

theorem Accepts.readMember (h : Accepts step d take) {s s' : σ} {m : String × Value}
    (hreads : Reads d cs (.member m) rest) (htake : take s m.1 m.2 = some s') :
    readMember step s cs = .ok (s', rest) := by
  cases hreads with
  | member hkey hcolon hvalue => exact bind_eq_ok.mpr ⟨_, hkey, h s ⟨_, hcolon, hvalue⟩ htake⟩

theorem Explains.readMember (h : Explains step d take) {s s' : σ}
    (hread : readMember step s cs = .ok (s', rest)) :
    ∃ m, Reads d cs (.member m) rest ∧ take s m.1 m.2 = some s' := by
  rw [Json.readMember.eq_def] at hread
  split at hread
  · cases hread
  · obtain ⟨⟨key, mid⟩, hkey, hstep⟩ := bind_eq_ok.mp hread
    obtain ⟨v, ⟨mid', hcolon, hvalue⟩, htake⟩ := h s hstep
    exact ⟨(key, v), .member hkey hcolon hvalue, htake⟩
  · cases hread

theorem Accepts.moreMembers (h : Accepts step d take) {s s' : σ} {ms : List (String × Value)}
    {fuel : Nat} (hreads : Reads d cs (.members ms) rest)
    (hfold : foldMembers take s ms = some s') (hfuel : cs.length ≤ fuel) :
    moreMembers step fuel s cs = .ok (s', rest) := by
  induction ms generalizing cs s fuel with
  | nil =>
    cases hreads with
    | endMembers hfront =>
      obtain ⟨fuel, rfl, -⟩ := exists_fuel (length_lt_of_skipBlanks hfront) hfuel
      cases hfold
      simp only [Json.moreMembers, hfront]
  | cons m ms ih =>
    rw [foldMembers_cons] at hfold
    obtain ⟨s'', htake, hfold⟩ := Option.bind_eq_some_iff.mp hfold
    cases hreads with
    | @moreMembers _ mid _ _ mid' _ _ hfront hfirst hmore =>
      obtain ⟨fuel, rfl, hroom⟩ := exists_fuel (length_lt_of_skipBlanks hfront) hfuel
      have hle := length_skipBlanks_le mid
      have hlt := hfirst.length_lt
      have hroom' : mid'.length ≤ fuel := by omega
      simp only [Json.moreMembers, hfront]
      exact bind_eq_ok.mpr ⟨_, h.readMember hfirst htake, ih hmore hfold hroom'⟩

theorem Explains.moreMembers (h : Explains step d take) {s s' : σ} {fuel : Nat}
    (hread : moreMembers step fuel s cs = .ok (s', rest)) :
    ∃ ms, Reads d cs (.members ms) rest ∧ foldMembers take s ms = some s' := by
  induction fuel generalizing cs s with
  | zero => cases hread
  | succ fuel ih =>
    rw [Json.moreMembers.eq_def] at hread
    dsimp only at hread
    split at hread
    · cases hread
    · rename_i hfront
      cases hread
      exact ⟨[], .endMembers hfront, rfl⟩
    · rename_i hfront
      obtain ⟨⟨s'', mid⟩, hmember, hread⟩ := bind_eq_ok.mp hread
      obtain ⟨m, hfirst, htake⟩ := h.readMember hmember
      obtain ⟨ms, hmore, hfold⟩ := ih hread
      refine ⟨m :: ms, .moreMembers hfront hfirst hmore, ?_⟩
      rw [foldMembers_cons, htake]
      exact hfold
    · cases hread

/-- **The reader of an object makes of its members what folding them does.** -/
theorem Accepts.members (h : Accepts step d take) {s s' : σ} {ms : List (String × Value)}
    (hreads : Reads (d + 1) cs (.value (.object ms)) rest)
    (hfold : foldMembers take s ms = some s') :
    ∃ mid, skipBlanks cs = '\x7b' :: mid ∧ members step s mid = .ok (s', rest) := by
  cases hreads with
  | emptyObject hfront hclose =>
    cases hfold
    exact ⟨_, hfront, by simp only [Json.members, hclose]⟩
  | @object _ mid _ m mid' ms _ hfront hfirst hmore =>
    rw [foldMembers_cons] at hfold
    obtain ⟨s'', htake, hfold⟩ := Option.bind_eq_some_iff.mp hfold
    obtain ⟨mid'', hquote⟩ := hfirst.front_member
    have hmember := h.readMember hfirst htake
    rw [hquote] at hmember
    refine ⟨mid, hfront, ?_⟩
    simp only [Json.members, hquote]
    exact bind_eq_ok.mpr ⟨_, hmember, h.moreMembers hmore hfold (Nat.le_refl _)⟩

theorem Explains.members (h : Explains step d take) {s s' : σ}
    (hfront : skipBlanks cs = '\x7b' :: mid) (hread : members step s mid = .ok (s', rest)) :
    ∃ ms, Reads (d + 1) cs (.value (.object ms)) rest ∧ foldMembers take s ms = some s' := by
  rw [Json.members.eq_def] at hread
  split at hread
  · cases hread
  · rename_i hclose
    cases hread
    exact ⟨[], .emptyObject hfront hclose, rfl⟩
  · obtain ⟨⟨s'', mid'⟩, hmember, hread⟩ := bind_eq_ok.mp hread
    obtain ⟨m, hfirst, htake⟩ := h.readMember hmember
    obtain ⟨ms, hmore, hfold⟩ := h.moreMembers hread
    refine ⟨m :: ms, .object hfront hfirst hmore, ?_⟩
    rw [foldMembers_cons, htake]
    exact hfold

end Objects

end EventArchive.Json
