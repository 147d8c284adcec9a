/-!
# Splitting a text

A text with separators is a list of parts, one more than there are separators. The parts hold no
separators, and joined by them they are the text again (`splitAt_eq_cons_iff`).
-/
namespace EventArchive

/-- The parts of a text between separators. -/
def splitAt (separator : Char) : List Char → List (List Char)
  | [] => [[]]
  | c :: cs =>
    if c = separator then [] :: splitAt separator cs
    else match splitAt separator cs with
      | [] => [[c]]
      | part :: parts => (c :: part) :: parts

theorem splitAt_ne_nil (separator : Char) (cs : List Char) : splitAt separator cs ≠ [] := by
  fun_cases splitAt separator cs <;> simp

theorem splitAt_append (separator : Char) (as bs : List Char) :
    splitAt separator (as ++ separator :: bs) = splitAt separator as ++ splitAt separator bs := by
  induction as with
  | nil => simp [splitAt]
  | cons a as ih =>
    rw [List.cons_append, splitAt, splitAt, ih]
    split
    · rfl
    · cases h : splitAt separator as with
      | nil => exact absurd h (splitAt_ne_nil separator as)
      | cons part parts => rfl

/-- A text without separators is its only part. -/
theorem splitAt_eq_singleton {separator : Char} {as : List Char} (h : separator ∉ as) :
    splitAt separator as = [as] := by
  induction as with
  | nil => rfl
  | cons a as ih =>
    rw [List.mem_cons, not_or] at h
    rw [splitAt, if_neg (Ne.symm h.1), ih h.2]

/-- The first part ends at the first separator, and the others are those of what follows it. -/
theorem splitAt_eq_cons_iff {separator : Char} {cs part : List Char} {parts : List (List Char)} :
    splitAt separator cs = part :: parts ↔ separator ∉ part ∧ (parts = [] ∧ cs = part ∨
      ∃ rest, cs = part ++ separator :: rest ∧ splitAt separator rest = parts) := by
  constructor
  · intro h
    induction cs generalizing part with
    | nil =>
      cases h
      exact ⟨List.not_mem_nil, .inl ⟨rfl, rfl⟩⟩
    | cons c cs ih =>
      rw [splitAt] at h
      split at h
      · rename_i hc
        cases h
        exact ⟨List.not_mem_nil, .inr ⟨cs, by rw [hc]; rfl, rfl⟩⟩
      · rename_i hc
        cases hrest : splitAt separator cs with
        | nil => exact absurd hrest (splitAt_ne_nil separator cs)
        | cons first others =>
          rw [hrest] at h
          cases h
          obtain ⟨hnot, hcases⟩ := ih hrest
          refine ⟨fun hmem => (List.mem_cons.mp hmem).elim (Ne.symm hc) hnot, ?_⟩
          rcases hcases with ⟨hnil, rfl⟩ | ⟨rest, rfl, hparts⟩
          · exact .inl ⟨hnil, rfl⟩
          · exact .inr ⟨rest, rfl, hparts⟩
  · rintro ⟨hnot, ⟨rfl, rfl⟩ | ⟨rest, rfl, rfl⟩⟩
    · exact splitAt_eq_singleton hnot
    · rw [splitAt_append, splitAt_eq_singleton hnot]
      rfl

end EventArchive
