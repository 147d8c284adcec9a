/-!
# Lists without repetitions

`distinctBy key` keeps the first member of each key, in the order of the list. Its keys are those of
the list (`mem_map_distinctBy`), each once (`nodup_map_distinctBy`).
-/
namespace EventArchive

section
variable {α κ : Type} [DecidableEq κ] (key : α → κ)

/-- The members of a list without those whose key has been seen or came before. -/
def distinctBy (seen : List κ) : List α → List α
  | [] => []
  | a :: as =>
    if key a ∈ seen then distinctBy seen as else a :: distinctBy (key a :: seen) as

theorem distinctBy_sublist (seen : List κ) (as : List α) : (distinctBy key seen as).Sublist as := by
  induction as generalizing seen with
  | nil => exact List.Sublist.refl _
  | cons a as ih =>
    rw [distinctBy]
    split
    · exact (ih seen).cons a
    · exact (ih (key a :: seen)).cons_cons a

theorem mem_map_distinctBy {seen : List κ} {as : List α} {k : κ} :
    k ∈ (distinctBy key seen as).map key ↔ k ∈ as.map key ∧ k ∉ seen := by
  induction as generalizing seen with
  | nil => simp [distinctBy]
  | cons a as ih =>
    rw [distinctBy]
    split
    · rw [ih]
      grind
    · simp only [List.map_cons, List.mem_cons, ih]
      grind

theorem nodup_map_distinctBy (seen : List κ) (as : List α) :
    ((distinctBy key seen as).map key).Nodup := by
  induction as generalizing seen with
  | nil => exact List.nodup_nil
  | cons a as ih =>
    rw [distinctBy]
    split
    · exact ih seen
    · rw [List.map_cons, List.nodup_cons]
      exact ⟨fun h => ((mem_map_distinctBy key).1 h).2 (List.mem_cons_self ..), ih _⟩

end

/-- The members of a list, each once, in the order of their first appearance. -/
def distinct {α : Type} [DecidableEq α] (as : List α) : List α := distinctBy id [] as

theorem mem_distinct {α : Type} [DecidableEq α] {as : List α} {a : α} :
    a ∈ distinct as ↔ a ∈ as := by
  simpa [distinct] using @mem_map_distinctBy α α _ id [] as a

theorem nodup_distinct {α : Type} [DecidableEq α] (as : List α) : (distinct as).Nodup := by
  simpa [distinct] using nodup_map_distinctBy id [] as

end EventArchive
